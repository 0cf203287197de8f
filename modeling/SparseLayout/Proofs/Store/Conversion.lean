import SparseLayout.Proofs.Conversion
import SparseLayout.Proofs.Store.RoundTrip

namespace SparseLayout

/-- Doubles beyond the signed words are multiples of `2 ^ 8`. -/
theorem FloatFormat.dvd_floor_magnitude {w : Nat} (h : 2 ^ 63 ≤ ⌊double.magnitude w⌋₊) :
    2 ^ 8 ∣ ⌊double.magnitude w⌋₊ := by
  obtain ⟨s, m, rfl, hm, hs⟩ := double.exists_binade w
  have hlead : 2 * double.leading = 2 ^ 53 := by decide
  rw [magnitude_add hm.le hs, floor_dyadic] at h ⊢
  rw [hlead] at hm
  generalize double.minExponent + s = e at *
  by_cases he : 0 ≤ e
  · rw [if_pos he, Nat.shiftLeft_eq] at h ⊢
    -- 53 bits reach `2 ^ 63` only where they are shifted by more than seven
    have height : 8 ≤ e.toNat := by
      by_contra hlt
      have hpow : 2 ^ e.toNat ≤ 2 ^ 7 := Nat.pow_le_pow_right Nat.two_pos (by omega)
      have hmul := Nat.mul_le_mul hm.le hpow
      omega
    exact Dvd.dvd.mul_left (pow_dvd_pow 2 height) m
  · rw [if_neg he, Nat.shiftRight_eq_div_pow] at h
    have hle := Nat.div_le_self m (2 ^ (-e).toNat)
    omega

theorem Double.dvd_integerPart {d : Double} (h : 2 ^ 63 ≤ d.integerPart) :
    2 ^ 8 ∣ d.integerPart := by
  unfold integerPart at *
  split at h
  · omega
  rename_i hnum
  rw [if_neg hnum]
  split at h
  · omega
  rename_i hsign
  rw [if_neg hsign]
  exact_mod_cast FloatFormat.dvd_floor_magnitude (by exact_mod_cast h)

namespace Scalar

/-- A float is taken for the same number modulo `2 ^ bits`, signed or not. -/
theorem converted_float_mod_iff {bits : Nat} (hbits : bits = 8 ∨ bits = 16 ∨ bits = 32)
    (d : Double) :
    (float d).converted true % 2 ^ bits = (float d).converted false % 2 ^ bits ↔
      (0 ≤ d.integerPart ∧ d.integerPart < 2 ^ 63) ∨ 2 ^ 64 ≤ d.integerPart ∨
        (d.integerPart < 0 ∧ 2 ^ bits ∣ max d.integerPart (-2 ^ 63)) := by
  have hdvd : 2 ^ 63 ≤ d.integerPart → 2 ^ 8 ∣ d.integerPart := Double.dvd_integerPart
  change max (-2 ^ 63) (min (2 ^ 63 - 1) d.integerPart) % 2 ^ bits =
    max 0 (min (2 ^ 64 - 1) d.integerPart) % 2 ^ bits ↔ _
  generalize d.integerPart = i at *
  -- both are cuts of one integer, compared range by range
  rcases hbits with rfl | rfl | rfl <;> omega

/-- Reduced numbers are equal when they have the same remainder. -/
theorem reduced_eq_iff (signed : Bool) {bits : Nat} (hle : bits ≤ 64) {i j : Int} :
    reduced signed bits i = reduced signed bits j ↔ i % 2 ^ bits = j % 2 ^ bits := by
  refine ⟨fun h => ?_, reduced_congr signed⟩
  obtain ⟨k, hk, hki⟩ := integer?_reduced signed hle i
  obtain ⟨l, hl, hlj⟩ := integer?_reduced signed hle j
  rw [h, hl, Option.some.injEq] at hk
  rw [← hki, ← hk, hlj]

end Scalar

namespace DataType

/-- A member of the type reads as `x` after `v` was written to it, in every slot that it may have
and whatever memory held, and in a tree after any run of calls. -/
structure ReadsBack (d : DataType) (v x : Scalar) : Prop where
  slot : ∀ slot, d.IntegerSlot slot → ∀ (s : Store) (a : Address),
    s.pool.holds a slot.bytes = true →
      ∃ s', StoreM.putValue d slot a v s = .ok () s' ∧ s'.valueAt d slot a = .ok x
  member : ∀ (t : Layout) (s₀ : Store) (calls : List Call), t.Starts s₀ → t.Calls calls →
    ∀ (n : Layout.Node) (info : PlaceInfo), t.Has n → n.kind = .place info →
      info.member.dtype = d → ∀ (c : Coords) (s' : Store),
        StoreM.write t n c v (s₀.session t calls).2 = .ok () s' → s'.read t n c = .ok x

theorem IsInteger.readsBack {d : DataType} (hd : d.IsInteger) (v : Scalar) :
    d.ReadsBack v (d.stored v) := by
  constructor
  · intro slot hslot s a h
    obtain ⟨s', hrun, hread, -⟩ := hslot.putValue h v
    exact ⟨s', hrun, hread⟩
  · rintro t s₀ calls hstarts hcalls n info hn hk rfl c s' hrun
    have ht := hstarts.wellFormed
    obtain ⟨g, hg⟩ := hstarts.exists_represents hcalls
    obtain ⟨p, hp, hnp⟩ := ht.ne_root_of_kind hn (by rw [hk]; simp)
    rcases hg.read_write ht hp hnp hk hd c v with ⟨s'', hrun', hread⟩ | ⟨shortage, s'', hrun'⟩
    · rw [hrun] at hrun'
      cases hrun'
      exact hread
    · rw [hrun] at hrun'
      cases hrun'

end DataType

/-- A packed member of 8, 16 or 32 bits and a whole-byte member of the same width and signedness
read alike after the same value was written to them, unless they are unsigned and the value is a
float whose integer part lies between the largest signed and the largest unsigned word, or is
negative and, as a signed word, no multiple of the weight of the bits. -/
theorem Store.packed_conversion {bits : UInt8} {w : IntWidth} (signed : Bool)
    (hbits : bits.toNat = 8 * w.bytes.toNat) (hle : bits.toNat ≤ 32) (v : Scalar) :
    ∃ x y, (DataType.quantInt bits signed).ReadsBack v x ∧ (DataType.whole w signed).ReadsBack v y ∧
      x = .reduced signed bits.toNat (v.converted true) ∧
      y = .reduced signed bits.toNat (v.converted signed) ∧
      (x = y ↔ signed = true ∨ ∀ d, v = .float d →
        (0 ≤ d.integerPart ∧ d.integerPart < 2 ^ 63) ∨ 2 ^ 64 ≤ d.integerPart ∨
          (d.integerPart < 0 ∧ 2 ^ bits.toNat ∣ max d.integerPart (-2 ^ 63))) := by
  have hcases : bits.toNat = 8 ∨ bits.toNat = 16 ∨ bits.toNat = 32 := by
    cases w <;> simp only [IntWidth.bytes, UInt32.reduceToNat] at hbits <;> omega
  have hpacked : (DataType.quantInt bits signed).IsInteger := ⟨by omega, hle⟩
  have hwhole : (DataType.whole w signed).IsInteger := by cases signed <;> trivial
  refine ⟨_, _, hpacked.readsBack v, hwhole.readsBack v, DataType.stored_quantInt hpacked.readable v,
    hbits ▸ DataType.stored_whole w signed v, ?_⟩
  rw [DataType.stored_quantInt hpacked.readable, DataType.stored_whole, ← hbits,
    Scalar.reduced_eq_iff signed (by omega)]
  cases signed with
  | true => exact iff_of_true rfl (Or.inl rfl)
  | false =>
    rw [or_iff_right Bool.false_ne_true]
    cases v with
    | int i => exact iff_of_true rfl fun d hd => by cases hd
    | uint i => exact iff_of_true rfl fun d hd => by cases hd
    | float d =>
      rw [Scalar.converted_float_mod_iff hcases]
      exact ⟨fun h e he => by cases he; exact h, fun h => h d rfl⟩

/-- As an unsigned byte, -1 is 255 in a packed member and 0 in one of its own. -/
theorem Store.packed_conversion_minus_one :
    (DataType.quantInt 8 false).ReadsBack (.float ⟨0xbff0000000000000⟩) (.uint 255) ∧
      (DataType.whole .w8 false).ReadsBack (.float ⟨0xbff0000000000000⟩) (.uint 0) := by
  have hbits : (8 : UInt8).toNat = 8 * IntWidth.w8.bytes.toNat := by decide
  obtain ⟨x, y, hx, hy, rfl, rfl, -⟩ :=
    packed_conversion false hbits (by decide) (.float ⟨0xbff0000000000000⟩)
  have hpacked : Scalar.reduced false 8 ((Scalar.float ⟨0xbff0000000000000⟩).converted true) =
      .uint 255 := by decide +kernel
  have hwhole : Scalar.reduced false 8 ((Scalar.float ⟨0xbff0000000000000⟩).converted false) =
      .uint 0 := by decide +kernel
  exact ⟨hpacked ▸ hx, hwhole ▸ hy⟩

end SparseLayout
