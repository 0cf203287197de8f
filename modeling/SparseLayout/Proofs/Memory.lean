import SparseLayout.Blocks
import Mathlib.Algebra.Group.Nat.Defs

/-!
The pool as one memory. A byte is named by the word of its address, so that ranges of bytes are
intervals of numbers: a load depends on the bytes of its range, a store and a clearing change the
bytes of theirs, and an allocation hands out zeroed bytes that nobody had before.
-/

namespace SparseLayout

/-- The number that names a byte of memory. -/
def Address.toNat (a : Address) : Nat := a.raw.toNat

theorem Address.toNat_lt (a : Address) : a.toNat < 2 ^ 64 := a.raw.toNat_lt

theorem Address.ext_toNat {a b : Address} (h : a.toNat = b.toNat) : a = b := by
  cases a
  cases b
  exact congrArg Address.mk (UInt64.toNat_inj.1 h)

theorem Address.toNat_add {a : Address} {k : UInt64} (h : a.toNat + k.toNat < 2 ^ 64) :
    (a.add k).toNat = a.toNat + k.toNat := by
  unfold Address.toNat Address.add at *
  rw [UInt64.toNat_add]
  exact Nat.mod_eq_of_lt h

theorem Address.isNull_iff (a : Address) : a.isNull ↔ a.toNat = 0 := by
  unfold Address.isNull Address.toNat
  rw [decide_eq_true_iff, ← UInt64.toNat_inj]
  rfl

/-- Two ranges of bytes have no byte in common. -/
def Apart (a m b n : Nat) : Prop := a + m ≤ b ∨ b + n ≤ a

theorem Apart.symm {a m b n : Nat} (h : Apart a m b n) : Apart b n a m := Or.symm h

/-- Pieces of one size that follow one another lie apart. -/
theorem apart_mul {j k : Nat} (h : j ≠ k) (size : Nat) : Apart (j * size) size (k * size) size := by
  unfold Apart
  rcases Nat.lt_or_gt_of_ne h with hlt | hlt
  · have := Nat.mul_le_mul_right size hlt
    rw [Nat.succ_mul] at this
    omega
  · have := Nat.mul_le_mul_right size hlt
    rw [Nat.succ_mul] at this
    omega

theorem Apart.mono {a m b n a' m' b' n' : Nat} (h : Apart a m b n) (ha : a ≤ a')
    (hm : a' + m' ≤ a + m) (hb : b ≤ b') (hn : b' + n' ≤ b + n) : Apart a' m' b' n' := by
  unfold Apart at *
  omega

namespace Pool

/-- The byte of a name; zero where there is no segment. -/
def byteAt (p : Pool) (r : Nat) : UInt8 :=
  match r / maxSegmentBytes with
  | 0 => 0
  | i + 1 => (p.segments[i]?.map (·.byte (r % maxSegmentBytes))).getD 0

/-- The number in the `n` bytes from `r` on, the first byte lowest. -/
def wordAt (p : Pool) : Nat → Nat → Nat
  | _, 0 => 0
  | r, n + 1 => (p.byteAt r).toNat + 256 * p.wordAt (r + 1) n

/-- The `len` bytes from `r` on lie in one segment. -/
def Covers (p : Pool) (r len : Nat) : Prop :=
  maxSegmentBytes ≤ r ∧ r / maxSegmentBytes ≤ p.segments.size ∧
    r % maxSegmentBytes + len ≤ p.segmentBytes

/-- The byte was handed out. -/
def Used (p : Pool) (r : Nat) : Prop :=
  ∃ i s, r / maxSegmentBytes = i + 1 ∧ p.segments[i]? = some s ∧ r % maxSegmentBytes < s.used

/-- Segments of the right size, few enough to have addresses, and none used past its end. -/
structure Valid (p : Pool) : Prop where
  size_pos : 0 < p.segments.size
  size_le : p.segments.size ≤ p.maxSegments
  max_le : p.maxSegments ≤ SparseLayout.maxSegments
  bytes_le : p.segmentBytes ≤ maxSegmentBytes
  bytes_mod : p.segmentBytes % 8 = 0
  capacity_eq : ∀ (i : Nat) (s : Segment), p.segments[i]? = some s → s.capacity = p.segmentBytes
  used_le : ∀ (i : Nat) (s : Segment), p.segments[i]? = some s → s.used ≤ p.segmentBytes

theorem Covers.part {p : Pool} {r len r' len' : Nat} (h : p.Covers r len) (hr : r ≤ r')
    (hl : r' + len' ≤ r + len) (hlt : r' < r + len) (hv : p.Valid) : p.Covers r' len' := by
  obtain ⟨h1, h2, h3⟩ := h
  have hb := hv.bytes_le
  have hd : r' / maxSegmentBytes = r / maxSegmentBytes := by
    unfold maxSegmentBytes at *
    omega
  refine ⟨by omega, hd ▸ h2, ?_⟩
  unfold maxSegmentBytes at *
  omega

theorem Covers.lt {p : Pool} {r len : Nat} (h : p.Covers r len) (hv : p.Valid) :
    r + len ≤ 2 ^ 48 := by
  obtain ⟨h1, h2, h3⟩ := h
  have h4 := hv.bytes_le
  have h5 := hv.size_le
  have h6 := hv.max_le
  unfold maxSegmentBytes SparseLayout.maxSegments at *
  omega

/-- A range in one segment has a segment number and an offset there. -/
theorem Covers.segment {p : Pool} {a : Address} {len : Nat} (h : p.Covers a.toNat len)
    (hv : p.Valid) : ∃ s, p.segments[a.segment]? = some s ∧
      a.toNat / maxSegmentBytes = a.segment + 1 ∧ a.offset = a.toNat % maxSegmentBytes ∧
      a.offset + len ≤ s.capacity := by
  obtain ⟨h1, h2, h3⟩ := h
  have hm := hv.max_le
  have hs := hv.size_le
  have hseg : a.toNat / maxSegmentBytes = a.segment + 1 := by
    unfold Address.segment Address.toNat at *
    unfold maxSegmentBytes SparseLayout.maxSegments at *
    omega
  have hlt : a.segment < p.segments.size := by omega
  refine ⟨p.segments[a.segment], Array.getElem?_eq_getElem hlt, hseg, rfl, ?_⟩
  rw [hv.capacity_eq _ _ (Array.getElem?_eq_getElem hlt)]
  exact h3

theorem holds_of_covers {p : Pool} {a : Address} {len : Nat} (h : p.Covers a.toNat len)
    (hv : p.Valid) : p.holds a len = true := by
  obtain ⟨s, hs, -, -, hc⟩ := h.segment hv
  exact (holds_iff p a len).2 ⟨s, hs, hc⟩

/-- A word is known by its bytes. -/
theorem wordAt_congr {p q : Pool} {r n : Nat}
    (h : ∀ i, r ≤ i → i < r + n → p.byteAt i = q.byteAt i) : p.wordAt r n = q.wordAt r n := by
  induction n generalizing r with
  | zero => rfl
  | succ n ih =>
    rw [wordAt, wordAt, h r (Nat.le_refl r) (by omega), ih fun i hi hn => h i (by omega) (by omega)]

theorem wordAt_eq_zero {p : Pool} {r n : Nat}
    (h : ∀ i, r ≤ i → i < r + n → p.byteAt i = 0) : p.wordAt r n = 0 := by
  induction n generalizing r with
  | zero => rfl
  | succ n ih =>
    rw [wordAt, h r (Nat.le_refl r) (by omega), ih fun i hi hn => h i (by omega) (by omega)]
    rfl

theorem byteAt_segment {p : Pool} {i r : Nat} {s : Segment} (hs : p.segments[i]? = some s)
    (hr : r / maxSegmentBytes = i + 1) : p.byteAt r = s.byte (r % maxSegmentBytes) := by
  unfold byteAt
  rw [hr]
  simp only [hs, Option.map_some, Option.getD_some]

theorem toNat_segment_load {p : Pool} {i r n : Nat} {s : Segment} (hs : p.segments[i]? = some s)
    (hr : r / maxSegmentBytes = i + 1) (hn : n ≤ 8)
    (hl : r % maxSegmentBytes + n ≤ maxSegmentBytes) :
    (s.load (r % maxSegmentBytes) n).toNat = p.wordAt r n := by
  induction n generalizing r with
  | zero => rfl
  | succ n ih =>
    rw [Segment.toNat_load_succ s _ (by omega) (Segment.toNat_load_lt s _ (by omega)), wordAt,
      byteAt_segment hs hr]
    cases n with
    | zero => rfl
    | succ n =>
      have hd : (r + 1) / maxSegmentBytes = i + 1 := by
        unfold maxSegmentBytes at *
        omega
      have hm : (r + 1) % maxSegmentBytes = r % maxSegmentBytes + 1 := by
        unfold maxSegmentBytes at *
        omega
      have hw := ih hd (by omega) (by rw [hm]; omega)
      rw [hm] at hw
      rw [hw]

/-- A load is the number in its bytes. -/
theorem toNat_load {p : Pool} {a : Address} {n : Nat} (h : p.Covers a.toNat n) (hv : p.Valid)
    (hn : n ≤ 8) : (p.load a n).toNat = p.wordAt a.toNat n := by
  obtain ⟨s, hs, hr, ho, hc⟩ := h.segment hv
  unfold load
  rw [hs]
  simp only
  rw [ho, toNat_segment_load hs hr hn]
  have := hv.bytes_le
  obtain ⟨-, -, h3⟩ := h
  omega

/-- Changing one segment changes the bytes of no other. -/
theorem byteAt_modify {p : Pool} {k : Nat} (f : Segment → Segment) (r : Nat) :
    ({ p with segments := p.segments.modify k f } : Pool).byteAt r =
      if r / maxSegmentBytes = k + 1 then
        (p.segments[k]?.map fun s => (f s).byte (r % maxSegmentBytes)).getD 0
      else p.byteAt r := by
  unfold byteAt
  cases hr : r / maxSegmentBytes with
  | zero => rw [if_neg (by omega)]
  | succ i =>
    simp only [Array.getElem?_modify]
    by_cases hk : k = i
    · subst hk
      rw [if_pos rfl, if_pos rfl, Option.map_map]
      rfl
    · rw [if_neg hk, if_neg (by omega)]

/-- Bytes outside a stored word stay. -/
theorem byteAt_store {p : Pool} {a : Address} {n : Nat} (h : p.Covers a.toNat n) (hv : p.Valid)
    (w : UInt64) {r : Nat} (hr : r < a.toNat ∨ a.toNat + n ≤ r) :
    (p.store a n w).byteAt r = p.byteAt r := by
  obtain ⟨s, hs, hseg, ho, hc⟩ := h.segment hv
  unfold store
  rw [byteAt_modify]
  split
  · rename_i hk
    rw [hs, byteAt_segment hs hk, Option.map_some, Option.getD_some]
    apply Segment.byte_store_of_outside
    rw [ho]
    unfold maxSegmentBytes at *
    omega
  · rfl

/-- A stored word is found again. -/
theorem wordAt_store {p : Pool} {a : Address} {n : Nat} (h : p.Covers a.toNat n) (hv : p.Valid)
    (hn : n ≤ 8) (w : UInt64) : (p.store a n w).wordAt a.toNat n = w.toNat % 256 ^ n := by
  obtain ⟨s, hs, hseg, ho, hc⟩ := h.segment hv
  have hs' : (p.store a n w).segments[a.segment]? = some (s.store a.offset n w) := by
    unfold store
    rw [Array.getElem?_modify, if_pos rfl, hs, Option.map_some]
  have hb := hv.bytes_le
  obtain ⟨-, -, h3⟩ := h
  rw [← toNat_segment_load hs' hseg hn (by omega), ho, Segment.toNat_load_store _ _ hn,
    Nat.one_shiftLeft, Nat.pow_mul]

/-- Words apart from a stored one stay. -/
theorem wordAt_store_of_apart {p : Pool} {a : Address} {n r m : Nat} (h : p.Covers a.toNat n)
    (hv : p.Valid) (w : UInt64) (ha : Apart a.toNat n r m) :
    (p.store a n w).wordAt r m = p.wordAt r m := by
  apply wordAt_congr
  intro i hi hm
  refine byteAt_store h hv w ?_
  unfold Apart at ha
  omega

/-- Clearing a range makes its bytes zero and changes no other. -/
theorem byteAt_zero {p : Pool} {a : Address} {len : Nat} (h : p.Covers a.toNat len)
    (hv : p.Valid) (r : Nat) :
    (p.zero a len).byteAt r = if a.toNat ≤ r ∧ r < a.toNat + len then 0 else p.byteAt r := by
  obtain ⟨s, hs, hseg, ho, hc⟩ := h.segment hv
  have hb := hv.bytes_le
  have h3 := h.2.2
  unfold zero
  rw [byteAt_modify]
  split
  · rename_i hk
    rw [hs, byteAt_segment hs hk, Option.map_some, Option.getD_some, Segment.byte_zero, ho]
    congr 1
    apply propext
    unfold maxSegmentBytes at *
    omega
  · rename_i hk
    rw [if_neg]
    intro hr
    apply hk
    unfold maxSegmentBytes at *
    omega

theorem wordAt_zero_of_apart {p : Pool} {a : Address} {len r m : Nat} (h : p.Covers a.toNat len)
    (hv : p.Valid) (ha : Apart a.toNat len r m) : (p.zero a len).wordAt r m = p.wordAt r m := by
  apply wordAt_congr
  intro i hi hm
  rw [byteAt_zero h hv, if_neg]
  unfold Apart at ha
  omega

/-- Segments that keep their ends and what was handed out of them. -/
structure SameBounds (p q : Pool) : Prop where
  size_eq : q.segments.size = p.segments.size
  segmentBytes_eq : q.segmentBytes = p.segmentBytes
  maxSegments_eq : q.maxSegments = p.maxSegments
  segment_eq : ∀ (i : Nat) (s : Segment), q.segments[i]? = some s →
    ∃ s', p.segments[i]? = some s' ∧ s.capacity = s'.capacity ∧ s.used = s'.used

theorem sameBounds_modify (p : Pool) (k : Nat) {f : Segment → Segment}
    (hf : ∀ s, (f s).capacity = s.capacity ∧ (f s).used = s.used) :
    p.SameBounds { p with segments := p.segments.modify k f } := by
  refine ⟨Array.size_modify .., rfl, rfl, ?_⟩
  intro i s hs
  rw [Array.getElem?_modify] at hs
  split at hs
  · obtain ⟨s', hs', rfl⟩ := Option.map_eq_some_iff.1 hs
    exact ⟨s', hs', hf s'⟩
  · exact ⟨s, hs, rfl, rfl⟩

theorem sameBounds_store (p : Pool) (a : Address) (n : Nat) (w : UInt64) :
    p.SameBounds (p.store a n w) :=
  p.sameBounds_modify a.segment fun s => ⟨s.capacity_store .., s.used_store ..⟩

theorem sameBounds_zero (p : Pool) (a : Address) (len : Nat) : p.SameBounds (p.zero a len) :=
  p.sameBounds_modify a.segment fun _ => ⟨rfl, rfl⟩

theorem SameBounds.symm {p q : Pool} (h : p.SameBounds q) : q.SameBounds p := by
  refine ⟨h.size_eq.symm, h.segmentBytes_eq.symm, h.maxSegments_eq.symm, ?_⟩
  intro i s hs
  have hi : i < q.segments.size := h.size_eq ▸ (Array.getElem?_eq_some_iff.1 hs).1
  obtain ⟨s', hs', hc, hu⟩ := h.segment_eq i _ (Array.getElem?_eq_getElem hi)
  rw [hs] at hs'
  cases hs'
  exact ⟨_, Array.getElem?_eq_getElem hi, hc.symm, hu.symm⟩

theorem SameBounds.valid {p q : Pool} (h : p.SameBounds q) (hv : p.Valid) : q.Valid := by
  refine ⟨h.size_eq ▸ hv.size_pos, ?size_le, ?max_le, ?bytes_le, ?bytes_mod, ?capacity_eq, ?used_le⟩
  case size_le =>
    rw [h.size_eq, h.maxSegments_eq]
    exact hv.size_le
  case max_le => exact h.maxSegments_eq ▸ hv.max_le
  case bytes_le => exact h.segmentBytes_eq ▸ hv.bytes_le
  case bytes_mod => exact h.segmentBytes_eq ▸ hv.bytes_mod
  case capacity_eq =>
    intro i s hs
    obtain ⟨s', hs', hc, -⟩ := h.segment_eq i s hs
    rw [hc, h.segmentBytes_eq, hv.capacity_eq i s' hs']
  case used_le =>
    intro i s hs
    obtain ⟨s', hs', -, hu⟩ := h.segment_eq i s hs
    rw [hu, h.segmentBytes_eq]
    exact hv.used_le i s' hs'

theorem SameBounds.covers {p q : Pool} (h : p.SameBounds q) {r len : Nat} (hc : p.Covers r len) :
    q.Covers r len := by
  refine ⟨hc.1, ?_, ?_⟩
  · rw [h.size_eq]
    exact hc.2.1
  · rw [h.segmentBytes_eq]
    exact hc.2.2

theorem SameBounds.used {p q : Pool} (h : p.SameBounds q) {r : Nat} (hu : p.Used r) :
    q.Used r := by
  obtain ⟨i, s, hr, hs, hlt⟩ := hu
  obtain ⟨s', hs', -, hu'⟩ := h.symm.segment_eq i s hs
  exact ⟨i, s', hr, hs', hu' ▸ hlt⟩

/-- What an allocation of `len` bytes at `a` leaves behind. -/
structure Allocated (p q : Pool) (a : Address) (len : Nat) : Prop where
  valid : q.Valid
  covers : q.Covers a.toNat len
  covers_of : ∀ r n, p.Covers r n → q.Covers r n
  fresh : ∀ r, a.toNat ≤ r → r < a.toNat + len → ¬ p.Used r
  used : ∀ r, a.toNat ≤ r → r < a.toNat + len → q.Used r
  used_of : ∀ r, p.Used r → q.Used r
  zeroed : ∀ r, a.toNat ≤ r → r < a.toNat + len → q.byteAt r = 0
  byteAt_eq : ∀ r, p.Used r → q.byteAt r = p.byteAt r

theorem toNat_ofByte {i offset : Nat} (hi : i < SparseLayout.maxSegments)
    (ho : offset < maxSegmentBytes) :
    (Address.ofByte i offset).toNat = (i + 1) * maxSegmentBytes + offset := by
  unfold Address.toNat
  rw [Address.toNat_raw_ofByte hi, Nat.mod_eq_of_lt ho]

theorem used_reserve (s : Segment) (len : Nat) :
    (s.reserve len).used = s.used + roundUp8 len := rfl

/-- Segment `k` hands out bytes at its end. It is a segment of the first pool, or a new one of which
nothing is used; the other segments stay. -/
structure HandsOut (p q : Pool) (k : Nat) (s : Segment) (len : Nat) : Prop where
  bytes : q.segmentBytes = p.segmentBytes
  max : q.maxSegments = p.maxSegments
  size_le : p.segments.size ≤ q.segments.size
  size_max : q.segments.size ≤ p.maxSegments
  before : ∀ t, p.segments[k]? = some t → t = s
  after : q.segments[k]? = some (s.reserve len)
  other : ∀ i, i ≠ k → q.segments[i]? = p.segments[i]?
  capacity : s.capacity = p.segmentBytes
  fits : s.used + roundUp8 len ≤ p.segmentBytes

namespace HandsOut

variable {p q : Pool} {k : Nat} {s : Segment} {len : Nat} (h : p.HandsOut q k s len) (hv : p.Valid)
include h

theorem lt_size : k < q.segments.size := (Array.getElem?_eq_some_iff.1 h.after).1

/-- A segment is the one that hands out bytes, or it was there before. -/
theorem segment_cases {i : Nat} {t : Segment} (ht : q.segments[i]? = some t) :
    i = k ∧ t = s.reserve len ∨ i ≠ k ∧ p.segments[i]? = some t := by
  by_cases hi : i = k
  · subst hi
    rw [h.after, Option.some.injEq] at ht
    exact Or.inl ⟨rfl, ht.symm⟩
  · exact Or.inr ⟨hi, h.other i hi ▸ ht⟩

/-- What was used of a segment lies before what it hands out, and stays used. -/
theorem used_le {i : Nat} {t : Segment} (ht : p.segments[i]? = some t) :
    ∃ t', q.segments[i]? = some t' ∧ t.used ≤ t'.used ∧
      ∀ j < t.used, t'.byte j = t.byte j := by
  by_cases hi : i = k
  · subst hi
    obtain rfl := h.before t ht
    refine ⟨_, h.after, by rw [used_reserve]; omega, ?_⟩
    intro j hj
    rw [Segment.byte_reserve, if_neg (by omega)]
  · exact ⟨t, (h.other i hi).trans ht, Nat.le_refl _, fun _ _ => rfl⟩

include hv

theorem valid : q.Valid := by
  refine ⟨Nat.lt_of_lt_of_le hv.size_pos h.size_le, h.max ▸ h.size_max, h.max ▸ hv.max_le,
    h.bytes ▸ hv.bytes_le, h.bytes ▸ hv.bytes_mod, ?_, ?_⟩
  · intro i t ht
    rw [h.bytes]
    rcases h.segment_cases ht with ⟨-, rfl⟩ | ⟨-, ht⟩
    · exact h.capacity
    · exact hv.capacity_eq i t ht
  · intro i t ht
    rw [h.bytes]
    rcases h.segment_cases ht with ⟨-, rfl⟩ | ⟨-, ht⟩
    · exact h.fits
    · exact hv.used_le i t ht

theorem lt_max : k < SparseLayout.maxSegments :=
  Nat.lt_of_lt_of_le h.lt_size (Nat.le_trans h.size_max hv.max_le)

theorem used_lt (hlen : 0 < len) : s.used < maxSegmentBytes := by
  have hfits := h.fits
  have hbytes := hv.bytes_le
  have hround := le_roundUp8 len
  omega

theorem toNat_start (hlen : 0 < len) :
    (Address.ofByte k s.used).toNat = (k + 1) * maxSegmentBytes + s.used :=
  toNat_ofByte (h.lt_max hv) (h.used_lt hv hlen)

/-- A byte that is handed out, by its segment and its place there. -/
theorem mem_range {r : Nat} (hlen : 0 < len) (h1 : (Address.ofByte k s.used).toNat ≤ r)
    (h2 : r < (Address.ofByte k s.used).toNat + len) :
    r / maxSegmentBytes = k + 1 ∧ s.used ≤ r % maxSegmentBytes ∧
      r % maxSegmentBytes < s.used + roundUp8 len := by
  rw [h.toNat_start hv hlen] at h1 h2
  have hfits := h.fits
  have hbytes := hv.bytes_le
  have hround := le_roundUp8 len
  unfold maxSegmentBytes at *
  omega

theorem covers (hlen : 0 < len) : q.Covers (Address.ofByte k s.used).toNat len := by
  have hk := h.lt_size
  obtain ⟨h1, -, -⟩ := h.mem_range hv hlen (Nat.le_refl _) (by omega)
  have hfits := h.fits
  have hbytes := hv.bytes_le
  have hround := le_roundUp8 len
  have hstart := h.toNat_start hv hlen
  refine ⟨?_, by omega, ?_⟩
  · unfold maxSegmentBytes at *
    omega
  · rw [h.bytes, hstart]
    unfold maxSegmentBytes at *
    omega

/-- What a segment hands out is zero, and nobody had it before. -/
theorem allocated (hlen : 0 < len) : p.Allocated q (.ofByte k s.used) len := by
  refine ⟨h.valid hv, h.covers hv hlen, ?covers_of, ?fresh, ?used, ?used_of, ?zeroed, ?byteAt_eq⟩
  case covers_of =>
    rintro r n ⟨h1, h2, h3⟩
    exact ⟨h1, Nat.le_trans h2 h.size_le, h.bytes ▸ h3⟩
  case fresh =>
    rintro r h1 h2 ⟨i, t, hr, ht, hlt⟩
    obtain ⟨h4, h5, -⟩ := h.mem_range hv hlen h1 h2
    obtain rfl : i = k := by omega
    obtain rfl := h.before t ht
    omega
  case used =>
    intro r h1 h2
    obtain ⟨h4, -, h6⟩ := h.mem_range hv hlen h1 h2
    exact ⟨k, _, h4, h.after, h6⟩
  case used_of =>
    rintro r ⟨i, t, hr, ht, hlt⟩
    obtain ⟨t', ht', hle, -⟩ := h.used_le ht
    exact ⟨i, t', hr, ht', Nat.lt_of_lt_of_le hlt hle⟩
  case zeroed =>
    intro r h1 h2
    obtain ⟨h4, h5, h6⟩ := h.mem_range hv hlen h1 h2
    rw [byteAt_segment h.after h4, Segment.byte_reserve, if_pos ⟨h5, h6⟩]
  case byteAt_eq =>
    rintro r ⟨i, t, hr, ht, hlt⟩
    obtain ⟨t', ht', -, hbyte⟩ := h.used_le ht
    rw [byteAt_segment ht' hr, byteAt_segment ht hr, hbyte _ hlt]

end HandsOut

/-- The last segment hands out bytes. -/
theorem handsOut_last {p : Pool} {s : Segment} {len : Nat} (hv : p.Valid)
    (hs : p.segments[p.last]? = some s) (hfit : s.fits len = true) :
    p.HandsOut { p with segments := p.segments.modify p.last (·.reserve len) } p.last s len := by
  have hcap := hv.capacity_eq _ _ hs
  refine ⟨rfl, rfl, by simp, by simpa using hv.size_le, ?_, ?_, ?_, hcap, ?_⟩
  · exact fun t ht => Option.some.inj (ht.symm.trans hs)
  · rw [Array.getElem?_modify, if_pos rfl, hs, Option.map_some]
  · intro i hi
    rw [Array.getElem?_modify, if_neg (Ne.symm hi)]
  · exact hcap ▸ of_decide_eq_true hfit

/-- A new segment hands out bytes. -/
theorem handsOut_push {p : Pool} {len : Nat} (hsize : p.segments.size < p.maxSegments)
    (hfit : (Segment.new p.segmentBytes).fits len = true) :
    p.HandsOut { p with segments := p.segments.push ((Segment.new p.segmentBytes).reserve len) }
      p.segments.size (.new p.segmentBytes) len := by
  refine ⟨rfl, rfl, by simp, by rwa [Array.size_push], ?_, Array.getElem?_push_size, ?_, rfl,
    of_decide_eq_true hfit⟩
  · intro t ht
    rw [Array.getElem?_eq_none (Nat.le_refl _)] at ht
    cases ht
  · intro i hi
    rw [Array.getElem?_push, if_neg hi]

/-- An allocation that succeeds hands out zeroed bytes that nobody had. -/
theorem allocated_of_alloc {p q : Pool} {a : Address} {len : Nat} (hv : p.Valid) (hlen : 0 < len)
    (h : alloc len p = .ok a q) : p.Allocated q a len := by
  unfold alloc at h
  split at h
  · cases h
  · split at h
    · rename_i offset hroom
      unfold room? at hroom
      split at hroom
      · rename_i s hs
        split at hroom
        · rename_i hfit
          cases hroom
          cases h
          exact (handsOut_last hv hs hfit).allocated hv hlen
        · cases hroom
      · cases hroom
    · split at h
      · cases h
      · rename_i hsize
        split at h
        · rename_i hfit
          cases h
          exact (handsOut_push (by omega) hfit).allocated hv hlen
        · cases h

/-- An allocation that fails changes nothing. -/
theorem eq_of_alloc_error {p q : Pool} {e : Shortage} {len : Nat}
    (h : alloc len p = .error e q) : q = p := by
  unfold alloc at h
  split at h
  · cases h; rfl
  · split at h
    · cases h
    · split at h
      · cases h; rfl
      · split at h
        · cases h
        · cases h; rfl

end Pool

end SparseLayout
