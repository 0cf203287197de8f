import SparseLayout.Layout

namespace SparseLayout

/-- One coordinate per axis. -/
abbrev Coords := Vector UInt64 axisCount

namespace Layout.Node

def indexOffsets (n : Node) : List Int32 :=
  match n.kind with
  | .place info => info.indexOffsets
  | _ => []

/-- The coordinate of an index entry in `[lower, lower + extent)`, counted from `lower`. The upper
bound is added up only to be reported. -/
def resolveEntry (position : Nat) (extent : UInt64) (lower : Int32) (i : Int32) :
    Except AccessError UInt64 :=
  let lower := lower.toInt64
  let extent := extent.toInt64
  let v := i.toInt64 - lower
  if v < 0 ∨ extent ≤ v then
    let upper := lower.toInt + extent.toInt
    if Int64.minValue.toInt ≤ upper ∧ upper ≤ Int64.maxValue.toInt then
      .error (.indexOutOfBounds position i.toInt64 lower (.ofInt upper))
    else .error (.panic .overflow)
  else .ok v.toUInt64

/-- Reads entries in order, from position `k` on, into the coordinates of their axes. -/
def resolveEntries (n : Node) : Nat → List Axis → List Int32 → Coords → Except AccessError Coords
  | k, a :: axes, i :: is, c => do
    let v ← resolveEntry k (n.index.extent a).fromRoot (n.indexOffsets[k]?.getD 0) i
    n.resolveEntries (k + 1) axes is (c.set a v)
  | _, _, _, c => .ok c

/-- The coordinates of an index expression; axes that the node does not divide have 0. -/
def resolve (n : Node) (idx : List Int32) : Except AccessError Coords :=
  if idx.length ≠ n.index.arity then .error (.indexArity n.index.arity idx.length)
  else n.resolveEntries 0 n.index.positions idx (.replicate axisCount 0)

/-- The digit of an axis that `level` reads on the way to a cell of `target`. -/
def digit (target level : Node) (a : Axis) (c : Coords) : UInt64 :=
  let here := level.index.extent a
  let below := (target.index.extent a).fromRoot / max here.fromRoot 1
  (c.get a / max below 1) % (max here.declared 1).toUInt64

/-- Row-major number of the cell in its container at `level`, by memory extents. -/
def linear (target level : Node) (c : Coords) : UInt64 :=
  level.kind.axes.foldl
    (fun n a => n * (level.index.extent a).padded.toUInt64 + digit target level a c) 0

end Layout.Node

end SparseLayout
