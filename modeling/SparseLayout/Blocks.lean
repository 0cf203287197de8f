import SparseLayout.Pool

namespace SparseLayout

structure Blocks where
  blockBytes : Nat
  /-- Blocks given back, the last one first. -/
  free : List Address
  /-- Blocks in use. -/
  live : Nat
  /-- Blocks ever taken from the pool. -/
  total : Nat
  deriving DecidableEq

namespace Blocks

/-- No blocks yet; a block has eight bytes at least. -/
def new (blockBytes : Nat) : Blocks := ⟨max blockBytes 8, [], 0, 0⟩

/-- Takes one zeroed block. -/
def alloc : EStateM Fault (Blocks × Pool) Address := fun (b, p) =>
  match b.free with
  | a :: rest =>
    let b := { b with free := rest }
    if p.holds a b.blockBytes then
      .ok a ({ b with live := b.live + 1 }, p.zero a b.blockBytes)
    else .error .outside (b, p)
  | [] =>
    match Pool.alloc b.blockBytes p with
    | .ok a p => .ok a ({ b with live := b.live + 1, total := b.total + 1 }, p)
    | .error shortage p => .error (.refused (.outOfMemory shortage)) (b, p)

/-- Gives a block back. -/
def release (b : Blocks) (a : Address) : Blocks :=
  { b with free := a :: b.free, live := b.live - 1 }

end Blocks

end SparseLayout
