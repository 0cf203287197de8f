import SparseLayout.FloatFormat
import Mathlib.Algebra.Order.Field.Power
import Mathlib.Tactic.FieldSimp
import Mathlib.Tactic.Linarith
import Mathlib.Tactic.Positivity
import Mathlib.Tactic.Ring

/-!
Rounding to a binary format, in rational numbers. The words of a format without their sign are a
grid of numbers, with infinity as the next number after the largest. A number is rounded to the word
whose number is nearest, and to an even word where two are.
-/

namespace SparseLayout

namespace FloatFormat

variable {f : FloatFormat} {x : ℚ} {w v : Nat}

/-- The number that a word without sign stands for: biased exponent and fraction. Infinity stands
for the number that would come next. -/
def magnitude (f : FloatFormat) (w : Nat) : ℚ :=
  if w < f.leading then w * 2 ^ f.minExponent
  else (f.leading + w % f.leading : Nat) * 2 ^ (f.minExponent + (w / f.leading : Nat) - 1)

example : single.leading = 2 ^ 23 ∧ single.minExponent = -149 ∧ double.leading = 2 ^ 52 ∧
    double.minExponent = -1074 := by decide

/-- No word has a number nearer to `x`, and one with a number as near only if this one is even. -/
structure IsNearest (f : FloatFormat) (x : ℚ) (w : Nat) : Prop where
  le : w ≤ f.infinity
  closest : ∀ v ≤ f.infinity, |x - f.magnitude w| ≤ |x - f.magnitude v|
  even : ∀ v ≤ f.infinity, v ≠ w → |x - f.magnitude v| = |x - f.magnitude w| → w % 2 = 0

open Classical in
/-- The word nearest to a number. -/
noncomputable def nearest (f : FloatFormat) (x : ℚ) : Nat :=
  if h : ∃ w, f.IsNearest x w then h.choose else 0

theorem leading_eq (f : FloatFormat) : f.leading = 2 ^ (f.precision - 1) := Nat.one_shiftLeft _

theorem leading_pos (f : FloatFormat) : 0 < f.leading := f.leading_eq ▸ Nat.two_pow_pos _

/-- Words of one binade count its places. -/
theorem magnitude_add {s n : Nat} (hn : n ≤ 2 * f.leading) (hs : s = 0 ∨ f.leading ≤ n) :
    f.magnitude (s * f.leading + n) = n * 2 ^ (f.minExponent + s) := by
  have hpos := f.leading_pos
  unfold magnitude
  by_cases hlow : n < f.leading
  · obtain rfl : s = 0 := by omega
    simp [hlow]
  have hge : ¬ s * f.leading + n < f.leading := by
    have := Nat.le_add_left n (s * f.leading)
    omega
  rw [if_neg hge]
  rcases Nat.lt_or_eq_of_le hn with hlt | rfl
  · -- inside the binade
    obtain ⟨k, rfl⟩ := Nat.exists_eq_add_of_le (Nat.le_of_not_lt hlow)
    have hk : k < f.leading := by omega
    have hdiv : (s * f.leading + (f.leading + k)) / f.leading = s + 1 := by
      rw [← Nat.add_assoc, ← Nat.succ_mul, Nat.mul_comm, Nat.mul_add_div hpos,
        Nat.div_eq_of_lt hk, Nat.add_zero]
    have hmod : (s * f.leading + (f.leading + k)) % f.leading = k := by
      rw [← Nat.add_assoc, ← Nat.succ_mul, Nat.mul_comm, Nat.mul_add_mod, Nat.mod_eq_of_lt hk]
    rw [hdiv, hmod]
    push_cast
    congr 2
    ring
  · -- the first number of the next one
    have hsum : s * f.leading + 2 * f.leading = f.leading * (s + 2) := by ring
    rw [hsum, Nat.mul_div_cancel_left _ hpos, Nat.mul_mod_right]
    have hexp : f.minExponent + ((s + 2 : Nat) : Int) - 1 = f.minExponent + s + 1 := by
      push_cast
      ring
    rw [hexp, zpow_add_one₀ (by norm_num : (2 : ℚ) ≠ 0)]
    push_cast
    ring

theorem exists_binade (f : FloatFormat) (w : Nat) :
    ∃ s n, w = s * f.leading + n ∧ n < 2 * f.leading ∧ (s = 0 ∨ f.leading ≤ n) := by
  have hpos := f.leading_pos
  by_cases hlow : w < f.leading
  · exact ⟨0, w, by simp, by omega, .inl rfl⟩
  · have hmod := Nat.mod_lt w hpos
    have hdiv := Nat.div_add_mod w f.leading
    obtain ⟨s, hs⟩ : ∃ s, w / f.leading = s + 1 :=
      Nat.exists_eq_add_one.2 (Nat.div_pos (Nat.le_of_not_lt hlow) hpos)
    refine ⟨s, f.leading + w % f.leading, ?_, by omega, .inr (Nat.le_add_right _ _)⟩
    rw [hs] at hdiv
    linarith

theorem magnitude_strictMono (f : FloatFormat) : StrictMono f.magnitude := by
  refine strictMono_nat_of_lt_succ fun w => ?_
  obtain ⟨s, n, rfl, hn, hs⟩ := f.exists_binade w
  rw [Nat.add_assoc, magnitude_add hn.le hs,
    magnitude_add hn (hs.imp_right fun h => Nat.le_succ_of_le h)]
  gcongr
  exact Nat.lt_succ_self n

/-- Two words are not both nearest: between them there would be a nearer one. -/
theorem IsNearest.not_lt (hw : f.IsNearest x w) (hv : f.IsNearest x v) : ¬ w < v := by
  intro hlt
  have hdist := le_antisymm (hw.closest v hv.le) (hv.closest w hw.le)
  have heven := hw.even v hv.le hlt.ne' hdist.symm
  have heven' := hv.even w hw.le hlt.ne hdist
  have h₁ := f.magnitude_strictMono (Nat.lt_add_one w)
  have h₂ := f.magnitude_strictMono (show w + 1 < v by omega)
  have hmid := hw.closest (w + 1) (by have := hv.le; omega)
  -- the number lies in the middle of the two
  have hx : 2 * x = f.magnitude w + f.magnitude v := by
    rcases abs_eq_abs.1 hdist with h | h <;> linarith
  rw [abs_of_nonneg (by linarith)] at hmid
  rcases abs_cases (x - f.magnitude (w + 1)) with ⟨h, -⟩ | ⟨h, -⟩ <;> linarith

theorem IsNearest.unique (hw : f.IsNearest x w) (hv : f.IsNearest x v) : w = v :=
  Nat.le_antisymm (Nat.le_of_not_lt (hv.not_lt hw)) (Nat.le_of_not_lt (hw.not_lt hv))

theorem IsNearest.nearest_eq (hw : f.IsNearest x w) : f.nearest x = w := by
  have hex : ∃ w, f.IsNearest x w := ⟨w, hw⟩
  rw [nearest, dif_pos hex]
  exact hex.choose_spec.unique hw

theorem isNearest_of (hw : w ≤ f.infinity) (h : ∀ v, v ≠ w →
    |x - f.magnitude w| < |x - f.magnitude v| ∨
      |x - f.magnitude w| ≤ |x - f.magnitude v| ∧ w % 2 = 0) : f.IsNearest x w := by
  refine ⟨hw, fun v _ => ?_, fun v _ hne heq => ?_⟩
  · by_cases hne : v = w
    · rw [hne]
    · exact (h v hne).elim le_of_lt And.left
  · exact (h v hne).elim (fun hlt => absurd heq hlt.ne') And.right

/-- The lower one of the words around a number is nearest. -/
theorem isNearest_below (hlow : f.magnitude w ≤ x) (hw : w < f.infinity)
    (hx : x - f.magnitude w < f.magnitude (w + 1) - x ∨
      x - f.magnitude w = f.magnitude (w + 1) - x ∧ w % 2 = 0) : f.IsNearest x w := by
  refine isNearest_of hw.le fun v hne => ?_
  rw [abs_of_nonneg (sub_nonneg.2 hlow)]
  rcases Nat.lt_or_gt_of_ne hne with hv | hv
  · have hless := f.magnitude_strictMono hv
    exact .inl (lt_of_lt_of_le (by linarith) (le_abs_self _))
  · have hmore := f.magnitude_strictMono.monotone (show w + 1 ≤ v from hv)
    have hfar : f.magnitude (w + 1) - x ≤ |x - f.magnitude v| :=
      le_trans (by linarith) (neg_le_abs _)
    exact hx.imp (fun h => h.trans_le hfar) fun h => ⟨h.1.le.trans hfar, h.2⟩

theorem isNearest_above (hhigh : x < f.magnitude (w + 1)) (hw : w < f.infinity)
    (hx : f.magnitude (w + 1) - x < x - f.magnitude w ∨
      f.magnitude (w + 1) - x = x - f.magnitude w ∧ w % 2 = 1) : f.IsNearest x (w + 1) := by
  refine isNearest_of hw fun v hne => ?_
  rw [abs_of_neg (sub_neg.2 hhigh), neg_sub]
  rcases Nat.lt_or_gt_of_ne hne with hv | hv
  · have hless := f.magnitude_strictMono.monotone (Nat.le_of_lt_succ hv)
    have hfar : x - f.magnitude w ≤ |x - f.magnitude v| :=
      le_trans (by linarith) (le_abs_self _)
    exact hx.imp (fun h => h.trans_le hfar) fun h => ⟨h.1.le.trans hfar, by omega⟩
  · have hmore := f.magnitude_strictMono hv
    exact .inl (lt_of_lt_of_le (by linarith) (neg_le_abs _))

/-- Beyond the grid, infinity is nearest. -/
theorem isNearest_infinity (hx : f.magnitude f.infinity ≤ x) : f.IsNearest x f.infinity := by
  refine ⟨le_rfl, fun v hv => ?_, fun v hv hne heq => ?_⟩
  · have hless := f.magnitude_strictMono.monotone hv
    rw [abs_of_nonneg (sub_nonneg.2 hx)]
    exact le_trans (by linarith) (le_abs_self _)
  · have hless := f.magnitude_strictMono (Nat.lt_of_le_of_ne hv hne)
    rw [abs_of_nonneg (by linarith), abs_of_nonneg (by linarith)] at heq
    linarith

theorem two_mul_leading (hf : 2 ≤ f.precision) : 2 * f.leading = 2 ^ f.precision := by
  rw [leading_eq, ← Nat.pow_succ']
  congr 1
  omega

/-- Binades have even numbers of places. -/
theorem leading_even (hf : 2 ≤ f.precision) : f.leading % 2 = 0 := by
  obtain ⟨k, hk⟩ : ∃ k, f.precision - 1 = k + 1 :=
    Nat.exists_eq_add_one.2 (by omega)
  rw [leading_eq, hk, Nat.pow_succ, Nat.mul_mod_left]

/-- Rounding a quotient drops the fraction if it is below a half, or makes an even number. -/
theorem roundHalfEven_cases (a k : Nat) : ∃ y : ℚ, (a : ℚ) / 2 ^ k = (a / 2 ^ k : Nat) + y ∧
    0 ≤ y ∧ y < 1 ∧
      ((y < 1 / 2 ∨ y = 1 / 2 ∧ a / 2 ^ k % 2 = 0) ∧ roundHalfEven a k = a / 2 ^ k ∨
        (1 / 2 < y ∨ y = 1 / 2 ∧ a / 2 ^ k % 2 = 1) ∧ roundHalfEven a k = a / 2 ^ k + 1) := by
  have hpow : (0 : ℚ) < 2 ^ k := by positivity
  have hdiv : (a : ℚ) = 2 ^ k * (a / 2 ^ k : Nat) + (a % 2 ^ k : Nat) := by
    exact_mod_cast (Nat.div_add_mod a (2 ^ k)).symm
  have hmod := Nat.mod_lt a (Nat.two_pow_pos k)
  have hround : roundHalfEven a k = if 2 * (a % 2 ^ k) > 2 ^ k ∨
      (2 * (a % 2 ^ k) = 2 ^ k ∧ a / 2 ^ k % 2 = 1) then a / 2 ^ k + 1 else a / 2 ^ k := by
    simp only [roundHalfEven, Nat.one_shiftLeft]
  rw [hround]
  generalize a / 2 ^ k = q at *
  generalize a % 2 ^ k = r at *
  have half {c : Nat} : (c : ℚ) / 2 ^ k = 1 / 2 ↔ 2 * c = 2 ^ k := by
    rw [div_eq_div_iff hpow.ne' two_ne_zero]
    constructor <;> intro h
    · exact_mod_cast (by linarith : (2 : ℚ) * c = 2 ^ k)
    · have : (2 : ℚ) * c = 2 ^ k := by exact_mod_cast h
      linarith
  have above {c : Nat} : (1 : ℚ) / 2 < c / 2 ^ k ↔ 2 ^ k < 2 * c := by
    rw [div_lt_div_iff₀ two_pos hpow]
    constructor <;> intro h
    · exact_mod_cast (by linarith : (2 : ℚ) ^ k < 2 * c)
    · have : (2 : ℚ) ^ k < 2 * c := by exact_mod_cast h
      linarith
  refine ⟨r / 2 ^ k, ?_, by positivity, ?_, ?_⟩
  · rw [hdiv]
    field_simp
  · rw [div_lt_one hpow]
    exact_mod_cast hmod
  · by_cases h : 2 * r > 2 ^ k ∨ (2 * r = 2 ^ k ∧ q % 2 = 1)
    · rw [if_pos h]
      exact .inr ⟨h.imp above.2 fun h => ⟨half.2 h.1, h.2⟩, rfl⟩
    · rw [if_neg h]
      refine .inl ⟨?_, rfl⟩
      rcases lt_trichotomy ((r : ℚ) / 2 ^ k) (1 / 2) with hlt | heq | hgt
      · exact .inl hlt
      · have := half.1 heq
        exact .inr ⟨heq, by omega⟩
      · exact absurd (.inl (above.1 hgt)) h

/-- Rounding the places of a binade to an integer rounds to the nearest word. -/
theorem isNearest_round (hf : 2 ≤ f.precision) {s a k : Nat} (hq : a / 2 ^ k < 2 * f.leading)
    (hs : s = 0 ∨ f.leading ≤ a / 2 ^ k) :
    f.IsNearest (a / 2 ^ k * 2 ^ (f.minExponent + s))
      (min f.infinity (s * f.leading + roundHalfEven a k)) := by
  have hu : (0 : ℚ) < 2 ^ (f.minExponent + s) := by positivity
  obtain ⟨y, hy, hy0, hy1, hround⟩ := roundHalfEven_cases a k
  have hparity : (s * f.leading + a / 2 ^ k) % 2 = a / 2 ^ k % 2 := by
    rw [Nat.add_mod, Nat.mul_mod, leading_even hf, Nat.mul_zero, Nat.zero_mod, Nat.zero_add,
      Nat.mod_mod]
  have hlow := magnitude_add hq.le hs
  have hhigh := magnitude_add (n := a / 2 ^ k + 1) hq (hs.imp_right Nat.le_succ_of_le)
  rw [← Nat.add_assoc] at hhigh
  push_cast at hhigh
  rw [hy]
  generalize a / 2 ^ k = q at *
  generalize (2 : ℚ) ^ (f.minExponent + s) = u at *
  -- how far the number is from the words below and above
  have hdown : (q + y) * u - f.magnitude (s * f.leading + q) = y * u := by
    rw [hlow]
    ring
  have hup : f.magnitude (s * f.leading + q + 1) - (q + y) * u = (1 - y) * u := by
    rw [hhigh]
    ring
  have hdown0 : 0 ≤ y * u := mul_nonneg hy0 hu.le
  have hup0 : 0 < (1 - y) * u := mul_pos (by linarith) hu
  by_cases hinf : s * f.leading + q < f.infinity
  · rcases hround with ⟨hx, hr⟩ | ⟨hx, hr⟩
    · rw [hr, Nat.min_eq_right hinf.le]
      refine isNearest_below (by linarith) hinf ?_
      rw [hdown, hup, hparity]
      exact hx.imp (fun h => mul_lt_mul_of_pos_right (by linarith) hu)
        fun h => ⟨by rw [h.1]; ring, h.2⟩
    · rw [hr, ← Nat.add_assoc, Nat.min_eq_right hinf]
      refine isNearest_above (by linarith) hinf ?_
      rw [hdown, hup, hparity]
      exact hx.imp (fun h => mul_lt_mul_of_pos_right (by linarith) hu)
        fun h => ⟨by rw [h.1]; ring, h.2⟩
  · have hle : q ≤ roundHalfEven a k := by
      rcases hround with ⟨-, hr⟩ | ⟨-, hr⟩ <;> omega
    rw [Nat.min_eq_left (by omega)]
    have hmono := f.magnitude_strictMono.monotone (Nat.le_of_not_lt hinf)
    exact isNearest_infinity (by linarith)

theorem roundHalfEven_zero (m : Nat) : roundHalfEven m 0 = m := by
  simp [roundHalfEven, Nat.mod_one]

/-- The word is found by rounding to the last place that the exponent leaves to the number. -/
theorem isNearest_nearestMagnitude (hf : 2 ≤ f.precision) (m : Nat) (e : Int) :
    f.IsNearest (m * 2 ^ e) (f.nearestMagnitude m e) := by
  unfold nearestMagnitude
  by_cases hm : m = 0
  · subst hm
    have hzero : f.magnitude 0 = 0 := by simp [magnitude, f.leading_pos]
    exact ⟨by simp, by simp [hzero], fun _ _ _ _ => by simp⟩
  rw [if_neg hm]
  have hlog : 2 ^ m.log2 ≤ m := Nat.log2_self_le hm
  have hlt : m < 2 ^ (m.log2 + 1) := Nat.lt_log2_self
  generalize m.log2 = l at *
  dsimp only
  generalize hlast : max (e + (l + 1) - f.precision) f.minExponent = last
  obtain ⟨s, hs⟩ : ∃ s : Nat, last = f.minExponent + s :=
    ⟨(last - f.minExponent).toNat, by omega⟩
  have hcount : (last - f.minExponent).toNat = s := by omega
  -- shifted to the left or to the right, the number has its last place at `last`
  obtain ⟨j, k, hjk, hplaces⟩ : ∃ j k : Nat, e + k = last + j ∧ (if last ≤ e then
      m <<< (e - last).toNat else roundHalfEven m (last - e).toNat) =
        roundHalfEven (m * 2 ^ j) k := by
    by_cases hle : last ≤ e
    · refine ⟨(e - last).toNat, 0, by omega, ?_⟩
      rw [if_pos hle, roundHalfEven_zero, Nat.shiftLeft_eq]
    · refine ⟨0, (last - e).toNat, by omega, ?_⟩
      rw [if_neg hle, pow_zero, Nat.mul_one]
  have hq : m * 2 ^ j / 2 ^ k < 2 * f.leading := by
    rw [Nat.div_lt_iff_lt_mul (Nat.two_pow_pos k), two_mul_leading hf]
    calc m * 2 ^ j < 2 ^ (l + 1) * 2 ^ j := Nat.mul_lt_mul_of_pos_right hlt (Nat.two_pow_pos j)
      _ = 2 ^ (l + 1 + j) := (Nat.pow_add ..).symm
      _ ≤ 2 ^ (f.precision + k) := Nat.pow_le_pow_right Nat.two_pos (by omega)
      _ = 2 ^ f.precision * 2 ^ k := Nat.pow_add ..
  have hleading : s = 0 ∨ f.leading ≤ m * 2 ^ j / 2 ^ k := by
    by_cases h0 : s = 0
    · exact .inl h0
    · rw [Nat.le_div_iff_mul_le (Nat.two_pow_pos k), leading_eq]
      refine .inr ?_
      calc 2 ^ (f.precision - 1) * 2 ^ k = 2 ^ (f.precision - 1 + k) := (Nat.pow_add ..).symm
        _ = 2 ^ (l + j) := by
          congr 1
          omega
        _ = 2 ^ l * 2 ^ j := Nat.pow_add ..
        _ ≤ m * 2 ^ j := Nat.mul_le_mul_right _ hlog
  have hx : ((m * 2 ^ j : Nat) : ℚ) / 2 ^ k * 2 ^ (f.minExponent + s) = m * 2 ^ e := by
    have hexp : e = last + j - k := by omega
    rw [← hs, hexp, zpow_sub₀ two_ne_zero, zpow_add₀ two_ne_zero, zpow_natCast, zpow_natCast]
    push_cast
    ring
  rw [hcount, hplaces, ← hx]
  exact isNearest_round hf hq hleading

/-- The word of `g` for the number of a word of `f`, both without sign. -/
noncomputable def recode (f g : FloatFormat) (w : Nat) : Nat :=
  if w = f.infinity then g.infinity else g.nearest (f.magnitude w)

theorem recode_le (f g : FloatFormat) (w : Nat) : f.recode g w ≤ g.infinity := by
  unfold recode nearest
  split
  · exact le_rfl
  split
  · rename_i h
    exact h.choose_spec.le
  · exact Nat.zero_le _

/-- A word that is no infinity stands for its number. -/
theorem decode_finite {word : Nat} (h : word % f.signWeight < f.infinity) :
    ∃ m e, f.decode word = .finite (word / f.signWeight % 2 = 1) m e ∧
      (m : ℚ) * 2 ^ e = f.magnitude (word % f.signWeight) := by
  unfold decode magnitude
  dsimp only
  rw [if_neg (by omega), if_neg (by omega)]
  generalize word % f.signWeight = w at *
  by_cases hlow : w < f.leading
  · rw [if_pos (Nat.div_eq_of_lt hlow), if_pos hlow, Nat.mod_eq_of_lt hlow]
    exact ⟨_, _, rfl, rfl⟩
  · have hdiv := Nat.div_pos (Nat.le_of_not_lt hlow) f.leading_pos
    rw [if_neg (by omega), if_neg hlow]
    exact ⟨_, _, rfl, rfl⟩

theorem decode_infinity {word : Nat} (h : word % f.signWeight = f.infinity) :
    f.decode word = .infinite (word / f.signWeight % 2 = 1) := by
  unfold decode
  dsimp only
  rw [if_neg (by omega), if_pos h]

theorem decode_nan {word : Nat} (h : f.infinity < word % f.signWeight) :
    f.decode word = .nan := if_pos h

/-- A word that is read in one format and written in another keeps its sign, and is rounded. -/
theorem encode_decode {g : FloatFormat} (hg : 2 ≤ g.precision) {word : Nat}
    (h : word % f.signWeight ≤ f.infinity) :
    g.encode (f.decode word) = f.recode g (word % f.signWeight) +
      if word / f.signWeight % 2 = 1 then g.signWeight else 0 := by
  rcases Nat.lt_or_eq_of_le h with hlt | heq
  · obtain ⟨m, e, hdecode, hm⟩ := decode_finite hlt
    rw [hdecode, recode, if_neg hlt.ne, ← hm, (isNearest_nearestMagnitude hg m e).nearest_eq]
    simp [encode]
  · rw [decode_infinity heq, recode, if_pos heq]
    simp [encode]

end FloatFormat

end SparseLayout
