import SparseLayout.Proofs.Layout.BitSlot
import SparseLayout.Proofs.Bits

namespace SparseLayout

/-- The value of a member in which `v` was stored: `v` converted to the type of the member. -/
def DataType.stored (d : DataType) (v : Scalar) : Scalar := d.decode (d.encode v)

theorem testBit_shiftLeft (w : UInt64) {s : UInt64} (hs : s.toNat < 64) {i : Nat} (hi : i < 64) :
    (w <<< s).toNat.testBit i = (decide (s.toNat ≤ i) && w.toNat.testBit (i - s.toNat)) := by
  rw [UInt64.toNat_shiftLeft, Nat.mod_eq_of_lt hs, Nat.testBit_mod_two_pow, Nat.testBit_shiftLeft]
  simp [hi]

theorem testBit_shiftRight (w : UInt64) {s : UInt64} (hs : s.toNat < 64) (i : Nat) :
    (w >>> s).toNat.testBit i = w.toNat.testBit (s.toNat + i) := by
  rw [UInt64.toNat_shiftRight, Nat.mod_eq_of_lt hs, Nat.testBit_shiftRight]

theorem testBit_lowMask (n : UInt32) {i : Nat} (hi : i < 64) :
    (lowMask n).toNat.testBit i = decide (i < n.toNat) := by
  unfold lowMask
  split
  · rename_i h
    have h : 64 ≤ n.toNat := h
    rw [show (-1 : UInt64).toNat = 2 ^ 64 - 1 from rfl, Nat.testBit_two_pow_sub_one]
    exact decide_eq_decide.2 (by omega)
  · rename_i h
    have h : n.toNat < 64 := Nat.lt_of_not_le h
    have hpow : (1 <<< n.toUInt64 : UInt64).toNat = 2 ^ n.toNat := by
      rw [UInt64.toNat_shiftLeft, UInt32.toNat_toUInt64, Nat.mod_eq_of_lt h,
        show (1 : UInt64).toNat = 1 from rfl, Nat.one_shiftLeft]
      exact Nat.mod_eq_of_lt (Nat.pow_lt_pow_right (by decide) h)
    have hone : (1 : UInt64) ≤ 1 <<< n.toUInt64 := by
      rw [UInt64.le_iff_toNat_le, hpow]
      exact Nat.one_le_two_pow
    rw [UInt64.toNat_sub_of_le _ _ hone, hpow, show (1 : UInt64).toNat = 1 from rfl,
      Nat.testBit_two_pow_sub_one]

/-- A masked word is known by the bits under the mask. -/
theorem and_lowMask_congr {n : UInt32} {a b : UInt64}
    (h : ∀ i < n.toNat, a.toNat.testBit i = b.toNat.testBit i) :
    a &&& lowMask n = b &&& lowMask n := by
  apply eq_of_testBit
  intro i hi
  rw [UInt64.toNat_and, UInt64.toNat_and, Nat.testBit_and, Nat.testBit_and, testBit_lowMask n hi]
  by_cases hn : i < n.toNat
  · rw [h i hn]
  · simp [hn]

/-- Extending the sign looks at the bits of the number only. -/
theorem signExtend_congr {n : UInt32} (hn : 1 ≤ n.toNat) (hle : n.toNat ≤ 64) {a b : UInt64}
    (h : ∀ i < n.toNat, a.toNat.testBit i = b.toNat.testBit i) :
    signExtend n a = signExtend n b := by
  have hs : ((64 - n).toUInt64).toNat = 64 - n.toNat := by
    rw [UInt32.toNat_toUInt64, UInt32.toNat_sub_of_le _ _ (UInt32.le_iff_toNat_le.2 hle)]
    rfl
  have hshift : a <<< (64 - n).toUInt64 = b <<< (64 - n).toUInt64 := by
    apply eq_of_testBit
    intro i hi
    rw [testBit_shiftLeft a (by omega) hi, testBit_shiftLeft b (by omega) hi, hs]
    by_cases hle : 64 - n.toNat ≤ i
    · rw [h (i - (64 - n.toNat)) (by omega)]
    · simp [hle]
  unfold signExtend
  simp only [hshift]

namespace DataType

/-- Types that can be read have as many bits as a word at most. -/
structure Readable (d : DataType) : Prop where
  access : d.checkAccess = .ok ()
  pos : 1 ≤ d.bits.toNat
  le : d.bits.toNat ≤ 64

theorem bits_of_byteSize {d : DataType} {b : UInt32} (h : d.byteSize = some b) :
    d.bits.toNat = 8 * b.toNat ∧ 1 ≤ b.toNat ∧ b.toNat ≤ 8 := by
  cases d with
  | int w | uint w =>
    cases h
    cases w <;> decide
  | half | single | double =>
    cases h
    decide
  | _ => cases h

/-- A value is known by the bits of its type. -/
theorem decode_congr {d : DataType} (hd : d.Readable) {a b : UInt64}
    (h : ∀ i < d.bits.toNat, a.toNat.testBit i = b.toNat.testBit i) : d.decode a = d.decode b := by
  obtain ⟨hacc, hpos, hle⟩ := hd
  cases d with
  | int w =>
    have hw : (w.bytes * 8).toNat = (int w).bits.toNat := rfl
    exact congrArg Scalar.int (signExtend_congr (hw ▸ hpos) (hw ▸ hle) (hw ▸ h))
  | uint w => exact congrArg Scalar.uint (and_lowMask_congr h)
  | half => cases hacc
  | single =>
    have hlow : a.toUInt32 = b.toUInt32 := by
      apply UInt32.toNat_inj.1
      apply Nat.eq_of_testBit_eq
      intro i
      rw [UInt64.toNat_toUInt32, UInt64.toNat_toUInt32, Nat.testBit_mod_two_pow,
        Nat.testBit_mod_two_pow]
      by_cases hi : i < 32
      · rw [h i hi]
      · simp [hi]
    exact congrArg (fun w => Scalar.float (.ofSingle w)) hlow
  | double => exact congrArg (fun w => Scalar.float ⟨w⟩) (eq_of_testBit h)
  | quantInt bits signed =>
    have hmask := and_lowMask_congr (n := bits.toUInt32) h
    cases signed with
    | true => exact congrArg (fun w => Scalar.int (signExtend bits.toUInt32 w)) hmask
    | false => exact congrArg Scalar.uint hmask
  | quantFloat => cases hacc

/-- Storing a value replaces the bits of its slot. -/
theorem testBit_insert (d : DataType) (w : UInt64) {offset : UInt32} (hoff : offset.toNat < 64)
    (v : Scalar) {i : Nat} (hi : i < 64) :
    (d.insert w offset v).toNat.testBit i =
      if offset.toNat ≤ i ∧ i < offset.toNat + d.bits.toNat
      then (d.encode v).toNat.testBit (i - offset.toNat) else w.toNat.testBit i := by
  have hs : (offset.toUInt64).toNat < 64 := hoff
  have ho : (offset.toUInt64).toNat = offset.toNat := rfl
  unfold insert
  simp only [UInt64.toNat_or, UInt64.toNat_and, Nat.testBit_or, Nat.testBit_and, testBit_not _ hi,
    testBit_shiftLeft _ hs hi, ho, testBit_lowMask _ (Nat.lt_of_le_of_lt (Nat.sub_le _ _) hi)]
  by_cases hle : offset.toNat ≤ i
  · by_cases hlt : i < offset.toNat + d.bits.toNat
    · have : i - offset.toNat < d.bits.toNat := by omega
      simp [hle, hlt, this]
    · have : ¬ i - offset.toNat < d.bits.toNat := by omega
      simp [hle, hlt, this]
  · simp [hle]

/-- What memory keeps of a word. -/
theorem testBit_ofNat_mod (x bytes : Nat) {i : Nat} (hi : i < 8 * bytes) (h64 : i < 64) :
    (UInt64.ofNat (x % 256 ^ bytes)).toNat.testBit i = x.testBit i := by
  rw [UInt64.toNat_ofNat', Nat.testBit_mod_two_pow, show (256 : Nat) = 2 ^ 8 from rfl, ← Nat.pow_mul,
    Nat.testBit_mod_two_pow]
  simp [hi, h64]

/-- A scalar is read as it was stored. -/
theorem inSlot_intoSlot_bytes {d : DataType} (hd : d.Readable) {bytes : Nat}
    (hb : d.bits.toNat ≤ 8 * bytes) (w : Nat) (v : Scalar) :
    d.inSlot ⟨bytes, none⟩ (d.intoSlot ⟨bytes, none⟩ w v) = d.stored v := by
  have hle := hd.le
  apply decode_congr hd
  intro i hi
  exact testBit_ofNat_mod _ bytes (by omega) (by omega)

/-- A quantized value is read as it was stored. -/
theorem inSlot_intoSlot_bits {d : DataType} (hd : d.Readable) {bytes : Nat} {offset : UInt32}
    (hb : offset.toNat + d.bits.toNat ≤ 8 * bytes) (hle : bytes ≤ 8) (w : Nat) (v : Scalar) :
    d.inSlot ⟨bytes, some offset⟩ (d.intoSlot ⟨bytes, some offset⟩ w v) = d.stored v := by
  have hpos := hd.pos
  have hoff : offset.toNat < 64 := by omega
  apply decode_congr hd
  intro i hi
  rw [testBit_shiftRight _ (s := offset.toUInt64) hoff, UInt32.toNat_toUInt64]
  change (UInt64.ofNat ((d.insert (.ofNat w) offset v).toNat % 256 ^ bytes)).toNat.testBit _ = _
  rw [testBit_ofNat_mod _ _ (by omega) (by omega), testBit_insert d _ hoff v (by omega),
    if_pos (by omega), Nat.add_sub_cancel_left]

/-- Storing a value leaves alone what lies in other bits of the word. -/
theorem inSlot_intoSlot_apart {d e : DataType} (hd : d.Readable) (he : e.Readable) {bytes : Nat}
    {offset offset' : UInt32} (hb : offset.toNat + d.bits.toNat ≤ 8 * bytes)
    (hb' : offset'.toNat + e.bits.toNat ≤ 8 * bytes) (hle : bytes ≤ 8)
    (hapart : Apart offset.toNat d.bits.toNat offset'.toNat e.bits.toNat) (w : Nat) (v : Scalar) :
    e.inSlot ⟨bytes, some offset'⟩ (d.intoSlot ⟨bytes, some offset⟩ w v) =
      e.inSlot ⟨bytes, some offset'⟩ w := by
  have hpos := hd.pos
  have hpos' := he.pos
  have hoff : offset.toNat < 64 := by omega
  have hoff' : offset'.toNat < 64 := by omega
  apply decode_congr he
  intro i hi
  have hs : (offset'.toUInt64).toNat < 64 := hoff'
  rw [testBit_shiftRight _ hs, testBit_shiftRight _ hs, UInt32.toNat_toUInt64]
  change (UInt64.ofNat ((d.insert (.ofNat w) offset v).toNat % 256 ^ bytes)).toNat.testBit _ = _
  unfold Apart at hapart
  rw [testBit_ofNat_mod _ _ (by omega) (by omega), testBit_insert d _ hoff v (by omega),
    if_neg (by omega)]

/-- What memory keeps of a word with the bits of a slot replaced. -/
theorem testBit_intoSlot (d : DataType) {bytes : Nat} {offset : UInt32} (hoff : offset.toNat < 64)
    (hle : bytes ≤ 8) (w : Nat) (v : Scalar) {i : Nat} (hi : i < 8 * bytes) :
    (d.intoSlot ⟨bytes, some offset⟩ w v).testBit i =
      if offset.toNat ≤ i ∧ i < offset.toNat + d.bits.toNat
      then (d.encode v).toNat.testBit (i - offset.toNat) else w.testBit i := by
  change ((d.insert (.ofNat w) offset v).toNat % 256 ^ bytes).testBit i = _
  rw [show (256 : Nat) = 2 ^ 8 from rfl, ← Nat.pow_mul, Nat.testBit_mod_two_pow,
    testBit_insert d _ hoff v (by omega), UInt64.toNat_ofNat', Nat.testBit_mod_two_pow]
  simp [hi, show i < 64 by omega]

/-- Values are stored in different bits of a word in either order. -/
theorem intoSlot_intoSlot {d e : DataType} {bytes : Nat} {offset offset' : UInt32}
    (hoff : offset.toNat < 64) (hoff' : offset'.toNat < 64) (hle : bytes ≤ 8)
    (hapart : Apart offset.toNat d.bits.toNat offset'.toNat e.bits.toNat) (w : Nat)
    (v v' : Scalar) :
    e.intoSlot ⟨bytes, some offset'⟩ (d.intoSlot ⟨bytes, some offset⟩ w v) v' =
      d.intoSlot ⟨bytes, some offset⟩ (e.intoSlot ⟨bytes, some offset'⟩ w v') v := by
  unfold Apart at hapart
  apply Nat.eq_of_testBit_eq
  intro i
  by_cases hi : i < 8 * bytes
  · simp only [testBit_intoSlot _ hoff hle _ _ hi, testBit_intoSlot _ hoff' hle _ _ hi]
    by_cases hd : offset.toNat ≤ i ∧ i < offset.toNat + d.bits.toNat
    · rw [if_neg (by omega), if_pos hd, if_pos hd]
    · simp only [if_neg hd]
  · -- memory keeps no more bits of either
    have high (f : DataType) (slot : ValueSlot) (hs : slot.bytes = bytes) (w : Nat) (v : Scalar) :
        (f.intoSlot slot w v).testBit i = false := by
      unfold intoSlot
      rw [hs, show (256 : Nat) = 2 ^ 8 from rfl, ← Nat.pow_mul, Nat.testBit_mod_two_pow]
      simp [hi]
    rw [high _ _ rfl, high _ _ rfl]

/-- Where all bits of the word are zero, a member that can be read is zero. -/
theorem inSlot_zero {d : DataType} (hd : d.checkAccess = .ok ()) (slot : ValueSlot) :
    d.inSlot slot 0 = d.zero := by
  have hzero : d.decode 0 = d.zero := by
    cases d with
    | int w | uint w => cases w <;> decide
    | single | double => decide
    | quantInt bits signed =>
      cases signed with
      | false => simp [decode, zero, isReal, isSigned]
      | true => simp [decode, zero, isReal, isSigned, signExtend]
    | half | quantFloat => cases hd
  unfold inSlot
  cases slot.bitOffset with
  | none => exact hzero
  | some offset =>
    rw [← hzero]
    unfold extract
    simp

end DataType

end SparseLayout
