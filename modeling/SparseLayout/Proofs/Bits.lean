import SparseLayout.Store.Reach
import Mathlib.Data.Nat.Bitwise

namespace SparseLayout

theorem testBit_toNat_of_le (w : UInt64) {i : Nat} (hi : 64 ≤ i) : w.toNat.testBit i = false :=
  Nat.testBit_lt_two_pow
    (Nat.lt_of_lt_of_le w.toNat_lt (Nat.pow_le_pow_right (by decide) hi))

/-- Words are known by their bits. -/
theorem eq_of_testBit {a b : UInt64} (h : ∀ i < 64, a.toNat.testBit i = b.toNat.testBit i) :
    a = b := by
  apply UInt64.toNat_inj.1
  apply Nat.eq_of_testBit_eq
  intro i
  by_cases hi : i < 64
  · exact h i hi
  · rw [testBit_toNat_of_le a (by omega), testBit_toNat_of_le b (by omega)]

theorem testBit_not (w : UInt64) {i : Nat} (hi : i < 64) :
    (~~~w).toNat.testBit i = !w.toNat.testBit i := by
  rw [← UInt64.toNat_toBitVec, UInt64.toBitVec_not, BitVec.testBit_toNat, BitVec.getLsbD_not,
    ← BitVec.testBit_toNat, UInt64.toNat_toBitVec]
  simp [hi]

theorem toNat_maskBit (lin : UInt64) : (maskBit lin).toNat = 2 ^ (lin.toNat % 64) := by
  unfold maskBit
  rw [UInt64.toNat_shiftLeft, UInt64.toNat_mod]
  have h64 : (64 : UInt64).toNat = 64 := rfl
  have h1 : (1 : UInt64).toNat = 1 := rfl
  rw [h64, h1, Nat.mod_mod, Nat.one_shiftLeft]
  apply Nat.mod_eq_of_lt
  exact Nat.pow_lt_pow_right (by decide) (Nat.mod_lt _ (by decide))

/-- The bit of a cell is not set. -/
theorem and_maskBit_eq_zero_iff (w lin : UInt64) :
    w &&& maskBit lin = 0 ↔ w.toNat.testBit (lin.toNat % 64) = false := by
  rw [← UInt64.toNat_inj, UInt64.toNat_and, toNat_maskBit, Nat.and_two_pow]
  cases w.toNat.testBit (lin.toNat % 64) <;> simp

theorem testBit_or_maskBit (w lin : UInt64) (i : Nat) :
    (w ||| maskBit lin).toNat.testBit i = (w.toNat.testBit i || decide (lin.toNat % 64 = i)) := by
  rw [UInt64.toNat_or, toNat_maskBit, Nat.testBit_or, Nat.testBit_two_pow]

theorem testBit_and_not_maskBit (w lin : UInt64) (i : Nat) :
    (w &&& ~~~maskBit lin).toNat.testBit i =
      (w.toNat.testBit i && !decide (lin.toNat % 64 = i)) := by
  rw [UInt64.toNat_and, Nat.testBit_and]
  by_cases hi : i < 64
  · rw [testBit_not _ hi, toNat_maskBit, Nat.testBit_two_pow]
  · rw [testBit_toNat_of_le w (by omega), Bool.false_and, Bool.false_and]

/-- A word of 64 bits is known by them. -/
theorem eq_ofBits {w : Nat} (hw : w < 2 ^ 64) {f : Fin 64 → Bool}
    (h : ∀ b : Fin 64, w.testBit b = f b) : w = Nat.ofBits f := by
  apply Nat.eq_of_testBit_eq
  intro i
  by_cases hi : i < 64
  · rw [Nat.testBit_ofBits_lt f i hi, ← h ⟨i, hi⟩]
  · rw [Nat.testBit_ofBits_ge f i (by omega)]
    exact Nat.testBit_lt_two_pow (Nat.lt_of_lt_of_le hw (Nat.pow_le_pow_right (by decide) (by omega)))

end SparseLayout
