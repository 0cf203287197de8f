import SparseLayout.Blocks
import SparseLayout.Config
import SparseLayout.Layout

/-!
The storage of one tree: its pool, the cell of its root, and the blocks of each pointer and
dynamic node.
-/

namespace SparseLayout

structure Store where
  pool : Pool
  root : Address
  /-- By node number; nodes that hold no blocks have none. -/
  blocks : Array (Option Blocks)

/-- Operations on stored cells keep what they changed when they end early. -/
abbrev StoreM := EStateM Fault Store

/-- Bytes of the blocks that a node holds its cells in. -/
def Layout.Node.blockBytes? (n : Layout.Node) : Option Nat :=
  match n.container with
  | .pointer => some n.cellSize.toNat
  | .dynamic _ _ chunkBytes => some chunkBytes.toNat
  | _ => none

namespace Store

/-- The storage of a tree in which nothing is active. -/
def new (t : Layout) (c : Config) : Except Shortage Store :=
  match Pool.alloc (max t.rootNode.cellSize.toNat 8) (.new c.segmentBytes c.maxSegments) with
  | .ok root pool => .ok ⟨pool, root, t.nodes.map fun n => n.blockBytes?.map Blocks.new⟩
  | .error shortage _ => .error shortage

/-- The word of `n` bytes at an address. -/
def load (s : Store) (a : Address) (n : Nat) : Except Fault UInt64 :=
  if s.pool.holds a n then .ok (s.pool.load a n) else .error .outside

/-- The address stored at an address. -/
def link (s : Store) (a : Address) : Except Fault Address := do return ⟨← s.load a 8⟩

/-- The length in the header of a list. -/
def listLength (s : Store) (header : Address) : Except Fault UInt32 := do
  return (← s.load header 4).toUInt32

/-- Blocks in use for a node; 0 for nodes that hold no blocks. -/
def liveBlocks (s : Store) (id : NodeId) : Nat :=
  match s.blocks[id]? with
  | some (some b) => b.live
  | _ => 0

end Store

namespace StoreM

/-- Reads without changing anything. -/
def look (f : Store → Except Fault α) : StoreM α := fun s =>
  match f s with
  | .ok a => .ok a s
  | .error e => .error e s

/-- Writes the low `n` bytes of a word. -/
def put (a : Address) (n : Nat) (w : UInt64) : StoreM Unit := fun s =>
  if s.pool.holds a n then .ok () { s with pool := s.pool.store a n w } else .error .outside s

def zero (a : Address) (len : Nat) : StoreM Unit := fun s =>
  if s.pool.holds a len then .ok () { s with pool := s.pool.zero a len } else .error .outside s

/-- Takes a zeroed block for a node. -/
def takeBlock (n : Layout.Node) : StoreM Address := fun ⟨pool, root, blocks⟩ =>
  match blocks[n.id]? with
  | some (some b) =>
    match Blocks.alloc (b, pool) with
    | .ok a (b, pool) => .ok a ⟨pool, root, blocks.set! n.id (some b)⟩
    | .error e (b, pool) => .error e ⟨pool, root, blocks.set! n.id (some b)⟩
  | _ => .error (.refused (.wrongKind .allocate n.type)) ⟨pool, root, blocks⟩

/-- Gives a block of a node back. -/
def dropBlock (id : NodeId) (a : Address) : StoreM Unit :=
  modify fun s => { s with blocks := s.blocks.modify id (·.map (·.release a)) }

end StoreM

end SparseLayout
