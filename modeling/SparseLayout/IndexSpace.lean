import SparseLayout.Axis

/-!
The index space of a node: which axes are divided from the root down to it, in which order they
were first divided, and by how much. An index expression lists one entry per active axis in that
order.
-/

namespace SparseLayout

/-- What one node knows of one axis. -/
structure AxisExtent where
  /-- Whether the axis is divided at this node or above. -/
  active : Bool
  /-- Extent declared at this level, 1 where the level does not divide the axis. -/
  declared : UInt32
  /-- Memory extent at this level. -/
  padded : UInt32
  /-- Product of the declared extents from the root, stopping at the largest word. -/
  fromRoot : UInt64
  deriving DecidableEq

/-- The product of two words, or the largest word when it is too large. -/
def saturatingMul (a b : UInt64) : UInt64 := .ofNat (min (a.toNat * b.toNat) (UInt64.size - 1))

theorem toNat_saturatingMul (a b : UInt64) :
    (saturatingMul a b).toNat = min (a.toNat * b.toNat) (UInt64.size - 1) := by
  unfold saturatingMul UInt64.size
  rw [UInt64.toNat_ofNat']
  exact Nat.mod_eq_of_lt (by omega)

/-- The product of two words; none where it is no word. -/
def checkedMul (a b : UInt64) : Option UInt64 :=
  if a.toNat * b.toNat < UInt64.size then some (a * b) else none

theorem checkedMul_eq_some_iff {a b c : UInt64} :
    checkedMul a b = some c ↔ c.toNat = a.toNat * b.toNat := by
  unfold checkedMul
  split <;> rename_i h
  · rw [Option.some.injEq, ← UInt64.toNat_inj, UInt64.toNat_mul, Nat.mod_eq_of_lt h]
    exact eq_comm
  · have hc := c.toNat_lt
    exact iff_of_false nofun fun he => h (he ▸ hc)

theorem checkedMul_eq_none_iff {a b : UInt64} :
    checkedMul a b = none ↔ UInt64.size ≤ a.toNat * b.toNat := by
  unfold checkedMul
  split <;> rename_i h
  · exact iff_of_false nofun (Nat.not_le.2 h)
  · exact iff_of_true rfl (Nat.le_of_not_lt h)

namespace AxisExtent

def undivided : AxisExtent := ⟨false, 1, 1, 1⟩

/-- The same axis at the next level, which does not divide it yet. -/
def nextLevel (e : AxisExtent) : AxisExtent := { e with declared := 1, padded := 1 }

def divide (packing : Packing) (extent : UInt32) (e : AxisExtent) : AxisExtent where
  active := true
  declared := extent
  padded := packing.extent extent
  fromRoot := saturatingMul e.fromRoot extent.toUInt64

end AxisExtent

structure IndexSpace where
  extents : Vector AxisExtent axisCount
  /-- Active axes in the order of their first division. -/
  positions : List Axis
  deriving DecidableEq

namespace IndexSpace

/-- The space of a root: nothing is divided. -/
def root : IndexSpace := ⟨.replicate axisCount .undivided, []⟩

def extent (s : IndexSpace) (a : Axis) : AxisExtent := s.extents[a]

def nextLevel (s : IndexSpace) : IndexSpace := { s with extents := s.extents.map .nextLevel }

def divideAxis (packing : Packing) (s : IndexSpace) (d : Division) : IndexSpace where
  extents := s.extents.set d.axis ((s.extent d.axis).divide packing d.extent)
  positions := if (s.extent d.axis).active then s.positions else s.positions ++ [d.axis]

@[simp] theorem extent_root (a : Axis) : root.extent a = .undivided := by
  simp [root, extent]

@[simp] theorem extent_nextLevel (s : IndexSpace) (a : Axis) :
    s.nextLevel.extent a = (s.extent a).nextLevel := by
  simp [nextLevel, extent]

@[simp] theorem positions_nextLevel (s : IndexSpace) : s.nextLevel.positions = s.positions := rfl

/-- Dividing an axis changes what is known of it, and of no other. -/
theorem extent_divideAxis (p : Packing) (s : IndexSpace) (d : Division) (a : Axis) :
    (s.divideAxis p d).extent a =
      if a = d.axis then (s.extent a).divide p d.extent else s.extent a := by
  unfold divideAxis extent
  by_cases h : a = d.axis
  · subst h
    simp
  · rw [if_neg h]
    exact Vector.getElem_set_ne d.axis.isLt a.isLt fun he => h (Fin.ext he.symm)

/-- The space of a child that divides axes in turn, and the axes whose division there makes index
arithmetic slow: those divided before, now by an extent that is not a power of two. -/
def divide (packing : Packing) (s : IndexSpace) (ds : List Division) : IndexSpace × List Axis :=
  ds.foldl
    (fun (s, slow) d =>
      (s.divideAxis packing d,
        if (s.extent d.axis).active ∧ ¬ isPowerOfTwo d.extent.toNat then slow ++ [d.axis]
        else slow))
    (s.nextLevel, [])

def child (packing : Packing) (s : IndexSpace) (ds : List Division) : IndexSpace :=
  (s.divide packing ds).1

/-- Entries of an index expression. -/
def arity (s : IndexSpace) : Nat := s.positions.length

/-- Declared shape, one entry per active axis. -/
def shape (s : IndexSpace) : List UInt64 := s.positions.map fun a => (s.extent a).fromRoot

/-- Product of the declared extents of an axis from the root; 1 past the last axis. -/
def shapeAlong (s : IndexSpace) (n : Nat) : UInt64 :=
  if h : n < axisCount then (s.extent ⟨n, h⟩).fromRoot else 1

/-- The product of extents, multiplied up one by one; none where this leaves the words. -/
def countCells (s : IndexSpace) (along : AxisExtent → UInt32) : Option UInt64 :=
  s.extents.toList.foldlM (fun n e => checkedMul n (along e).toUInt64) 1

/-- Memory cells of one container. -/
def paddedCells (s : IndexSpace) : Option UInt64 := s.countCells (·.padded)

/-- Addressable cells of one container. -/
def declaredCells (s : IndexSpace) : Option UInt64 := s.countCells (·.declared)

end IndexSpace

end SparseLayout
