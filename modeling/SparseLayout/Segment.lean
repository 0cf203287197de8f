namespace SparseLayout

/-- The least multiple of eight that is at least `n`. -/
def roundUp8 (n : Nat) : Nat := (n + 7) / 8 * 8

theorem le_roundUp8 (n : Nat) : n ≤ roundUp8 n := by
  unfold roundUp8
  omega

theorem roundUp8_mod (n : Nat) : roundUp8 n % 8 = 0 := by
  unfold roundUp8
  omega

structure Segment where
  capacity : Nat
  /-- Bytes handed out. -/
  used : Nat
  /-- The bytes up to the last one written; those after it are zero. -/
  written : ByteArray

namespace Segment

def new (capacity : Nat) : Segment := ⟨capacity, 0, .empty⟩

/-- A byte, zero past the end. -/
def byteAt (bytes : ByteArray) (i : Nat) : UInt8 := if h : i < bytes.size then bytes[i] else 0

def byte (s : Segment) (i : Nat) : UInt8 := byteAt s.written i

/-- That many zero bytes more. -/
def padZeros (bytes : ByteArray) : Nat → ByteArray
  | 0 => bytes
  | n + 1 => padZeros (bytes.push 0) n

def setByte (s : Segment) (i : Nat) (b : UInt8) : Segment :=
  if h : i < s.written.size then { s with written := s.written.set i b h }
  else { s with written := (padZeros s.written (i - s.written.size)).push b }

/-- Zeroes the next `n` bytes from `i` on, as far as bytes were written. -/
def clearWritten (bytes : ByteArray) (i : Nat) : Nat → ByteArray
  | 0 => bytes
  | n + 1 => if h : i < bytes.size then clearWritten (bytes.set i 0 h) (i + 1) n else bytes

def zero (s : Segment) (i n : Nat) : Segment := { s with written := clearWritten s.written i n }

/-- The word of `n` bytes from `i` on, the first byte lowest. -/
def load (s : Segment) (i : Nat) : Nat → UInt64
  | 0 => 0
  | n + 1 => (s.byte i).toUInt64 ||| (s.load (i + 1) n <<< 8)

/-- Writes the low `n` bytes of a word from `i` on, the lowest first. -/
def store (s : Segment) (i : Nat) : Nat → UInt64 → Segment
  | 0, _ => s
  | n + 1, w => (s.setByte i w.toUInt8).store (i + 1) n (w >>> 8)

/-- Whether that many bytes can still be handed out. -/
def fits (s : Segment) (len : Nat) : Bool := s.used + roundUp8 len ≤ s.capacity

/-- Hands out the next bytes, zeroed; they start where the used ones ended. -/
def reserve (s : Segment) (len : Nat) : Segment :=
  { s.zero s.used (roundUp8 len) with used := s.used + roundUp8 len }

def remaining (s : Segment) : Nat := s.capacity - s.used

theorem byteAt_push (bytes : ByteArray) (b : UInt8) (j : Nat) :
    byteAt (bytes.push b) j = if j = bytes.size then b else byteAt bytes j := by
  simp only [byteAt, ByteArray.size_push, ByteArray.getElem_eq_getElem_data, ByteArray.data_push,
    Array.getElem_push]
  have : bytes.data.size = bytes.size := rfl
  grind

theorem byteAt_set (bytes : ByteArray) (i : Nat) (b : UInt8) (h : i < bytes.size) (j : Nat) :
    byteAt (bytes.set i b h) j = if j = i then b else byteAt bytes j := by
  have hs : (bytes.set i b h).size = bytes.size := Array.size_set ..
  simp only [byteAt, hs, ByteArray.getElem_eq_getElem_data, ByteArray.data_set, Array.getElem_set]
  grind

theorem size_padZeros (bytes : ByteArray) (n : Nat) : (padZeros bytes n).size = bytes.size + n := by
  induction n generalizing bytes with
  | zero => rfl
  | succ n ih =>
    rw [padZeros, ih, ByteArray.size_push]
    omega

theorem byteAt_padZeros (bytes : ByteArray) (n j : Nat) :
    byteAt (padZeros bytes n) j = byteAt bytes j := by
  induction n generalizing bytes with
  | zero => rfl
  | succ n ih =>
    rw [padZeros, ih, byteAt_push]
    split
    · simp [byteAt, *]
    · rfl

theorem byteAt_clearWritten (bytes : ByteArray) (i n j : Nat) :
    byteAt (clearWritten bytes i n) j = if i ≤ j ∧ j < i + n then 0 else byteAt bytes j := by
  induction n generalizing bytes i with
  | zero => rw [clearWritten, if_neg (by omega)]
  | succ n ih =>
    rw [clearWritten]
    split
    · rw [ih, byteAt_set]
      grind
    · split
      · simp only [byteAt]
        grind
      · rfl

@[simp] theorem byte_new (capacity i : Nat) : (new capacity).byte i = 0 := rfl

@[simp] theorem capacity_setByte (s : Segment) (i : Nat) (b : UInt8) :
    (s.setByte i b).capacity = s.capacity := by
  unfold setByte
  split <;> rfl

@[simp] theorem used_setByte (s : Segment) (i : Nat) (b : UInt8) :
    (s.setByte i b).used = s.used := by
  unfold setByte
  split <;> rfl

theorem byte_setByte (s : Segment) (i : Nat) (b : UInt8) (j : Nat) :
    (s.setByte i b).byte j = if j = i then b else s.byte j := by
  unfold setByte byte
  split
  · rw [byteAt_set]
  · rw [byteAt_push, size_padZeros, byteAt_padZeros]
    grind

theorem byte_zero (s : Segment) (i n j : Nat) :
    (s.zero i n).byte j = if i ≤ j ∧ j < i + n then 0 else s.byte j :=
  byteAt_clearWritten ..

theorem byte_reserve (s : Segment) (len j : Nat) :
    (s.reserve len).byte j =
      if s.used ≤ j ∧ j < s.used + roundUp8 len then 0 else s.byte j :=
  byteAt_clearWritten ..

@[simp] theorem capacity_store (s : Segment) (i n : Nat) (w : UInt64) :
    (s.store i n w).capacity = s.capacity := by
  induction n generalizing s i w with
  | zero => rfl
  | succ n ih => rw [store, ih, capacity_setByte]

@[simp] theorem used_store (s : Segment) (i n : Nat) (w : UInt64) :
    (s.store i n w).used = s.used := by
  induction n generalizing s i w with
  | zero => rfl
  | succ n ih => rw [store, ih, used_setByte]

/-- Bytes outside a stored word stay. -/
theorem byte_store_of_outside (s : Segment) (i n : Nat) (w : UInt64) (j : Nat)
    (h : j < i ∨ i + n ≤ j) : (s.store i n w).byte j = s.byte j := by
  induction n generalizing s i w with
  | zero => rfl
  | succ n ih =>
    rw [store, ih _ _ _ (by omega), byte_setByte, if_neg (by omega)]

/-- A word is known by its bytes. -/
theorem load_congr {s t : Segment} {i n : Nat}
    (h : ∀ j, i ≤ j → j < i + n → s.byte j = t.byte j) : s.load i n = t.load i n := by
  induction n generalizing i with
  | zero => rfl
  | succ n ih =>
    rw [load, load, h i (by omega) (by omega), ih fun j hi hj => h j (by omega) (by omega)]

/-- Words apart from a stored one stay. -/
theorem load_store_of_disjoint (s : Segment) (i n : Nat) (w : UInt64) (j m : Nat)
    (h : j + m ≤ i ∨ i + n ≤ j) : (s.store i n w).load j m = s.load j m :=
  load_congr fun k hj hk => byte_store_of_outside s i n w k (by omega)

/-- A word of `n` bytes; the first byte is its lowest. -/
theorem toNat_load_succ (s : Segment) (i : Nat) {n : Nat} (hn : n < 8)
    (h : (s.load (i + 1) n).toNat < 1 <<< (8 * n)) :
    (s.load i (n + 1)).toNat = (s.byte i).toNat + 256 * (s.load (i + 1) n).toNat := by
  have hb := (s.byte i).toNat_lt
  have hw : (s.load (i + 1) n).toNat <<< 8 < 2 ^ 64 := by
    have : 1 <<< (8 * n) ≤ 1 <<< 56 := by
      simp only [Nat.shiftLeft_eq, Nat.one_mul]
      exact Nat.pow_le_pow_right (by decide) (by omega)
    simp only [Nat.shiftLeft_eq] at *
    omega
  rw [load, UInt64.toNat_or, UInt64.toNat_shiftLeft, UInt8.toNat_toUInt64]
  change _ ||| (_ <<< 8 % 2 ^ 64) = _
  rw [Nat.mod_eq_of_lt hw, Nat.or_comm, ← Nat.shiftLeft_add_eq_or_of_lt hb, Nat.shiftLeft_eq]
  omega

theorem toNat_load_lt (s : Segment) (i : Nat) {n : Nat} (hn : n ≤ 8) :
    (s.load i n).toNat < 1 <<< (8 * n) := by
  induction n generalizing i with
  | zero => exact Nat.one_pos
  | succ n ih =>
    have h := ih (i + 1) (by omega)
    have hb := (s.byte i).toNat_lt
    rw [toNat_load_succ s i hn h]
    simp only [Nat.shiftLeft_eq, Nat.one_mul, Nat.mul_add, Nat.pow_add] at *
    omega

/-- Loading a word gives the bytes that were stored. -/
theorem toNat_load_store (s : Segment) (i : Nat) {n : Nat} (hn : n ≤ 8) (w : UInt64) :
    ((s.store i n w).load i n).toNat = w.toNat % (1 <<< (8 * n)) := by
  induction n generalizing s i w with
  | zero => simp [load, Nat.mod_one]
  | succ n ih =>
    rw [toNat_load_succ _ i hn (toNat_load_lt _ _ (by omega)), store,
      ih (s.setByte i w.toUInt8) (i + 1) (by omega),
      byte_store_of_outside _ _ _ _ _ (by omega), byte_setByte, if_pos rfl]
    have hw : (w >>> 8).toNat = w.toNat / 256 := by
      rw [UInt64.toNat_shiftRight]
      exact Nat.shiftRight_eq_div_pow ..
    have hp : 1 <<< (8 * (n + 1)) = 256 * (1 <<< (8 * n)) := by
      simp only [Nat.shiftLeft_eq, Nat.one_mul, Nat.mul_add, Nat.pow_add]
      omega
    rw [hw, hp, Nat.mod_mul]
    rfl

end Segment
end SparseLayout
