namespace SparseLayout

/-- Number of axes that one tree can divide. -/
abbrev axisCount : Nat := 12

abbrev Axis := Fin axisCount

/-- The first four axes have letters. -/
def axisText : Nat → String
  | 0 => "i"
  | 1 => "j"
  | 2 => "k"
  | 3 => "l"
  | n => s!"axis{n}"

/-- One axis divided by an extent. -/
structure Division where
  axis : Axis
  extent : UInt32
  deriving DecidableEq

/-- The least power of two that is at least `n`. -/
def leastPowerOfTwo (n : Nat) : Nat := if n ≤ 1 then 1 else 1 <<< ((n - 1).log2 + 1)

theorem le_leastPowerOfTwo (n : Nat) : n ≤ leastPowerOfTwo n := by
  unfold leastPowerOfTwo
  split
  · assumption
  · have := Nat.lt_log2_self (n := n - 1)
    rw [Nat.one_shiftLeft]
    omega

/-- No power of two between a number and its least one. -/
theorem leastPowerOfTwo_le {n k : Nat} (h : n ≤ 1 <<< k) : leastPowerOfTwo n ≤ 1 <<< k := by
  unfold leastPowerOfTwo
  simp only [Nat.one_shiftLeft] at *
  split
  · exact Nat.one_le_two_pow
  · exact Nat.pow_le_pow_right (by decide) ((Nat.log2_lt (by omega)).2 (by omega))

theorem leastPowerOfTwo_eq (n : Nat) : ∃ k, leastPowerOfTwo n = 1 <<< k := by
  unfold leastPowerOfTwo
  split
  · exact ⟨0, rfl⟩
  · exact ⟨_, rfl⟩

def isPowerOfTwo (n : Nat) : Bool := n ≠ 0 ∧ 1 <<< n.log2 = n

theorem isPowerOfTwo_iff (n : Nat) : isPowerOfTwo n ↔ ∃ k, n = 1 <<< k := by
  simp only [isPowerOfTwo, Nat.one_shiftLeft, decide_eq_true_eq]
  constructor
  · exact fun h => ⟨_, h.2.symm⟩
  · rintro ⟨k, rfl⟩
    simp

/-- How declared extents map to memory. -/
inductive Packing
  /-- Memory extents are powers of two. -/
  | padded
  /-- Memory extents are the declared ones. -/
  | packed
  deriving DecidableEq

/-- The memory extent of a declared one. An extent whose power of two does not fit stays. -/
def Packing.extent : Packing → UInt32 → UInt32
  | .packed, n => n
  | .padded, n =>
    if leastPowerOfTwo n.toNat < UInt32.size then .ofNat (leastPowerOfTwo n.toNat) else n

/-- A memory extent holds the declared one. -/
theorem Packing.le_extent (p : Packing) (n : UInt32) : n.toNat ≤ (p.extent n).toNat := by
  cases p
  · simp only [extent]
    split
    · rw [UInt32.toNat_ofNat_of_lt' ‹_›]
      exact le_leastPowerOfTwo _
    · exact Nat.le_refl _
  · exact Nat.le_refl _

end SparseLayout
