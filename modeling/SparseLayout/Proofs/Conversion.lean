import SparseLayout.Proofs.Integers
import SparseLayout.Proofs.Rounding
import Mathlib.Algebra.Order.Floor.Semifield
import Mathlib.Data.Rat.Floor

namespace SparseLayout

open FloatFormat (single double)

namespace Double

/-- The word without its sign. -/
def unsigned (d : Double) : Nat := d.word.toNat % 2 ^ 63

def negative (d : Double) : Bool := 2 ^ 63 ≤ d.word.toNat

def ofUnsigned (negative : Bool) (w : Nat) : Double :=
  ⟨.ofNat (w + if negative then 2 ^ 63 else 0)⟩

/-- The integer part, the fraction dropped. Infinity is a number beyond all words, and "not a
number" is zero. -/
def integerPart (d : Double) : Int :=
  if double.infinity < d.unsigned then 0
  else if d.negative then -⌊double.magnitude d.unsigned⌋₊ else ⌊double.magnitude d.unsigned⌋₊

/-- The double nearest to an integer. -/
noncomputable def nearest (i : Int) : Double := ofUnsigned (i < 0) (double.nearest i.natAbs)

/-- The double of the single-precision number nearest to a double. One word stands for "not a
number". -/
noncomputable def rounded (d : Double) : Double :=
  if double.infinity < d.unsigned then ⟨0x7ff8000000000000⟩
  else ofUnsigned d.negative (single.recode double (double.recode single d.unsigned))

end Double

namespace Scalar

/-- The number that a value is taken for by a type of this signedness, before it is cut to the bits
of the type: floats are truncated, and stop at the ends of the words. -/
def converted (signed : Bool) : Scalar → Int
  | int v => v.toInt
  | uint v => v.toNat
  | float d =>
    if signed then max (-2 ^ 63) (min (2 ^ 63 - 1) d.integerPart)
    else max 0 (min (2 ^ 64 - 1) d.integerPart)

noncomputable def asDouble : Scalar → Double
  | int v => .nearest v.toInt
  | uint v => .nearest v.toNat
  | float d => d

/-- What a member of a type holds after a value was stored in it. A packed integer takes every value
for a signed one, and half-precision and quantized floats hold no value. -/
noncomputable def convert (v : Scalar) : DataType → Scalar
  | .int w => .reduced true (8 * w.bytes.toNat) (v.converted true)
  | .uint w => .reduced false (8 * w.bytes.toNat) (v.converted false)
  | .quantInt bits signed => .reduced signed bits.toNat (v.converted true)
  | .single => .float v.asDouble.rounded
  | .double => .float v.asDouble
  | t => t.zero

end Scalar

namespace FloatFormat

/-- The integer part of a dyadic number, by shifts. -/
theorem floor_dyadic (m : Nat) (e : Int) : ⌊(m : ℚ) * 2 ^ e⌋₊ =
    if 0 ≤ e then m <<< e.toNat else m >>> (-e).toNat := by
  split
  · obtain ⟨k, rfl⟩ : ∃ k : Nat, e = k := ⟨e.toNat, by omega⟩
    rw [Int.toNat_natCast, Nat.shiftLeft_eq, zpow_natCast]
    exact_mod_cast Nat.floor_natCast (m * 2 ^ k)
  · obtain ⟨k, rfl⟩ : ∃ k : Nat, e = -k := ⟨(-e).toNat, by omega⟩
    rw [neg_neg, Int.toNat_natCast, Nat.shiftRight_eq_div_pow, zpow_neg, zpow_natCast,
      ← div_eq_mul_inv]
    exact_mod_cast Nat.floor_div_eq_div (K := ℚ) m (2 ^ k)

theorem two_pow_le_magnitude_infinity : 2 ^ 64 ≤ ⌊double.magnitude double.infinity⌋₊ := by
  have hinf : double.infinity = 2045 * double.leading + 2 * double.leading := by decide
  have hexp : double.minExponent + (2045 : Nat) = (971 : Nat) := by decide
  have hlead : double.leading = 2 ^ 52 := by decide
  rw [hinf, magnitude_add le_rfl (.inr (by omega)), hexp, zpow_natCast, hlead]
  have hpow : (2 : ℚ) ^ 64 ≤ 2 ^ 971 := pow_le_pow_right₀ one_le_two (by decide)
  generalize (2 : ℚ) ^ 971 = u at *
  refine Nat.le_floor ?_
  push_cast
  linarith

end FloatFormat

namespace Double

theorem sign_iff (d : Double) :
    d.word.toNat / double.signWeight % 2 = 1 ↔ d.negative = true := by
  have := d.word.toNat_lt
  change d.word.toNat / 2 ^ 63 % 2 = 1 ↔ decide (2 ^ 63 ≤ d.word.toNat) = true
  rw [decide_eq_true_eq]
  omega

theorem value_cases (d : Double) :
    (double.infinity < d.unsigned ∧ d.value = .nan) ∨
      (d.unsigned = double.infinity ∧ d.value = .infinite d.negative) ∨
      ∃ m e, d.unsigned < double.infinity ∧ d.value = .finite d.negative m e ∧
        (m : ℚ) * 2 ^ e = double.magnitude d.unsigned := by
  have hsign : decide (d.word.toNat / double.signWeight % 2 = 1) = d.negative := by
    simp only [sign_iff, Bool.decide_eq_true]
  rw [← hsign]
  change (_ < d.word.toNat % double.signWeight ∧ _) ∨ (d.word.toNat % double.signWeight = _ ∧ _) ∨ _
  rcases Nat.lt_trichotomy (d.word.toNat % double.signWeight) double.infinity with h | h | h
  · obtain ⟨m, e, hd, hm⟩ := FloatFormat.decode_finite h
    exact .inr (.inr ⟨m, e, h, hd, hm⟩)
  · exact .inr (.inl ⟨h, FloatFormat.decode_infinity h⟩)
  · exact .inl ⟨h, FloatFormat.decode_nan h⟩

/-- A double is truncated to a range by its integer part. -/
theorem truncate_value (d : Double) {low high : Int} (hl : -2 ^ 64 ≤ low) (h0 : low ≤ 0)
    (h1 : 0 ≤ high) (hh : high ≤ 2 ^ 64) :
    d.value.truncate low high = max low (min high d.integerPart) := by
  unfold integerPart
  rcases d.value_cases with ⟨hw, hv⟩ | ⟨hw, hv⟩ | ⟨m, e, hw, hv, hm⟩
  · rw [hv, if_pos hw]
    simp only [FloatValue.truncate]
    omega
  · have hbig := FloatFormat.two_pow_le_magnitude_infinity
    rw [hv, if_neg hw.le.not_gt, hw]
    simp only [FloatValue.truncate]
    split <;> omega
  · rw [hv, if_neg hw.not_gt, ← hm, FloatFormat.floor_dyadic]
    rfl

/-- Integers become the doubles nearest to them. -/
theorem ofInt_eq_nearest (i : Int) : ofInt i = nearest i := by
  have hround := FloatFormat.isNearest_nearestMagnitude (f := double) (by decide) i.natAbs 0
  rw [zpow_zero, mul_one] at hround
  unfold nearest
  rw [hround.nearest_eq]
  rfl

/-- A single-precision word is read as the double of its number. -/
theorem ofSingle_eq {word : UInt32} (h : word.toNat % 2 ^ 31 ≤ single.infinity) :
    ofSingle word = ofUnsigned (2 ^ 31 ≤ word.toNat)
      (single.recode double (word.toNat % 2 ^ 31)) := by
  have hsign : word.toNat / single.signWeight % 2 = 1 ↔ 2 ^ 31 ≤ word.toNat := by
    have := word.toNat_lt
    change word.toNat / 2 ^ 31 % 2 = 1 ↔ _
    omega
  have hencode : double.encode (single.decode word.toNat) =
      single.recode double (word.toNat % 2 ^ 31) +
        if word.toNat / single.signWeight % 2 = 1 then 2 ^ 63 else 0 :=
    FloatFormat.encode_decode (by decide) h
  unfold ofSingle ofValue ofUnsigned
  rw [hencode]
  simp only [hsign, decide_eq_true_eq]

/-- A double is written as the single-precision word nearest to it. -/
theorem toNat_toSingle {d : Double} (h : d.unsigned ≤ double.infinity) :
    d.toSingle.toNat = double.recode single d.unsigned + if d.negative then 2 ^ 31 else 0 := by
  have hw := double.recode_le single d.unsigned
  have hinf : single.infinity < 2 ^ 31 := by decide
  have hencode : single.encode d.value = double.recode single d.unsigned +
      if d.word.toNat / double.signWeight % 2 = 1 then 2 ^ 31 else 0 :=
    FloatFormat.encode_decode (by decide) h
  simp only [sign_iff] at hencode
  rw [toSingle, UInt32.toNat_ofNat', hencode]
  refine Nat.mod_eq_of_lt ?_
  split <;> omega

/-- A double that passes through a single-precision word is rounded. -/
theorem ofSingle_toSingle (d : Double) : ofSingle d.toSingle = d.rounded := by
  unfold rounded
  by_cases hnan : double.infinity < d.unsigned
  · have hv : d.value = .nan := FloatFormat.decode_nan hnan
    rw [if_pos hnan, toSingle, hv]
    decide +kernel
  rw [if_neg hnan]
  have hword := toNat_toSingle (Nat.le_of_not_lt hnan)
  have hw := double.recode_le single d.unsigned
  have hinf : single.infinity < 2 ^ 31 := by decide
  generalize double.recode single d.unsigned = w at *
  have hmod : d.toSingle.toNat % 2 ^ 31 = w := by
    rw [hword]
    split <;> omega
  have hsign : decide (2 ^ 31 ≤ d.toSingle.toNat) = d.negative := by
    rw [hword]
    cases d.negative <;> simp
    omega
  rw [ofSingle_eq (hmod ▸ hw), hmod, hsign]

end Double

namespace Scalar

theorem toNat_toInt64 (v : Scalar) :
    (v.toInt64.toUInt64.toNat : Int) = v.converted true % 2 ^ 64 := by
  rw [toNat_toUInt64]
  cases v with
  | int v => rfl
  | uint v =>
    have hx : v.toInt64.toInt = (v.toNat : Int).bmod (2 ^ 64) := BitVec.toInt_eq_toNat_bmod _
    change v.toInt64.toInt % 2 ^ 64 = (v.toNat : Int) % 2 ^ 64
    rw [hx]
    exact Int.bmod_emod
  | float d =>
    have htrunc : d.value.truncate Int64.minValue.toInt Int64.maxValue.toInt =
        max (-2 ^ 63) (min (2 ^ 63 - 1) d.integerPart) :=
      d.truncate_value (by decide) (by decide) (by decide) (by decide)
    change d.toInt64.toInt % 2 ^ 64 = max (-2 ^ 63) (min (2 ^ 63 - 1) d.integerPart) % 2 ^ 64
    rw [Double.toInt64, htrunc, Int64.toInt_ofInt]
    exact Int.bmod_emod

theorem toNat_toUInt64 (v : Scalar) : (v.toUInt64.toNat : Int) = v.converted false % 2 ^ 64 := by
  cases v with
  | int v => exact SparseLayout.toNat_toUInt64 v
  | uint v =>
    have hlt := v.toNat_lt
    change (v.toNat : Int) = v.toNat % 2 ^ 64
    omega
  | float d =>
    have htrunc : d.value.truncate 0 (UInt64.size - 1 : Nat) =
        max 0 (min (2 ^ 64 - 1) d.integerPart) :=
      d.truncate_value (by decide) (by decide) (by decide) (by decide)
    change (d.toUInt64.toNat : Int) = max 0 (min (2 ^ 64 - 1) d.integerPart) % 2 ^ 64
    rw [Double.toUInt64, htrunc, UInt64.toNat_ofNat']
    omega

theorem toDouble_eq (v : Scalar) : v.toDouble = v.asDouble := by
  cases v with
  | int v => exact Double.ofInt_eq_nearest v.toInt
  | uint v => exact Double.ofInt_eq_nearest v.toNat
  | float d => rfl

end Scalar

namespace DataType

/-- The whole-byte integers of a width. -/
def whole (w : IntWidth) (signed : Bool) : DataType := if signed then .int w else .uint w

/-- A packed member keeps the low bits of the signed conversion. -/
theorem stored_quantInt {bits : UInt8} {signed : Bool} (h : (quantInt bits signed).Readable)
    (v : Scalar) :
    (quantInt bits signed).stored v = .reduced signed bits.toNat (v.converted true) := by
  have hle := h.le
  rw [stored_eq_reduced h rfl, bits_quantInt] at *
  change Scalar.reduced signed bits.toNat (v.toInt64.toUInt64.toNat : Int) = _
  rw [v.toNat_toInt64]
  exact Scalar.reduced_congr signed (Int.emod_emod_of_dvd _ (pow_dvd_pow 2 hle))

/-- A member of whole bytes keeps those of the conversion that its signedness asks for. -/
theorem stored_whole (w : IntWidth) (signed : Bool) (v : Scalar) :
    (whole w signed).stored v =
      .reduced signed (8 * w.bytes.toNat) (v.converted signed) := by
  have hle : 8 * w.bytes.toNat ≤ 64 := by cases w <;> decide
  have hint : (whole w signed).IsInteger := by cases signed <;> trivial
  rw [stored_eq_reduced hint.readable hint.isReal]
  cases signed with
  | true =>
    change Scalar.reduced true (int w).bits.toNat (v.toInt64.toUInt64.toNat : Int) = _
    rw [v.toNat_toInt64, bits_int]
    exact Scalar.reduced_congr true (Int.emod_emod_of_dvd _ (pow_dvd_pow 2 hle))
  | false =>
    change Scalar.reduced false (int w).bits.toNat (v.toUInt64.toNat : Int) = _
    rw [v.toNat_toUInt64, bits_int]
    exact Scalar.reduced_congr false (Int.emod_emod_of_dvd _ (pow_dvd_pow 2 hle))

/-- A value that is encoded and decoded is converted to the type. -/
theorem stored_eq_convert {d : DataType} (h : d.Readable) (v : Scalar) :
    d.stored v = v.convert d := by
  cases d with
  | int w => exact stored_whole w true v
  | uint w => exact stored_whole w false v
  | quantInt bits signed => exact stored_quantInt h v
  | single =>
    change Scalar.float (.ofSingle v.toDouble.toSingle.toUInt64.toUInt32) =
      .float v.asDouble.rounded
    rw [UInt32.toUInt32_toUInt64, Double.ofSingle_toSingle, v.toDouble_eq]
  | double =>
    change Scalar.float ⟨v.toDouble.word⟩ = .float v.asDouble
    rw [v.toDouble_eq]
  | half | quantFloat => cases h.access

end DataType

end SparseLayout
