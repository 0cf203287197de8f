import SparseLayout.Draft

/-!
Compiled trees: for every node, how its container is encoded, how large it is and where it lies
in a cell of its parent.
-/

namespace SparseLayout

abbrev TreeId := Nat

/-- Alignments that memory needs. -/
inductive Alignment
  | one | two | four | eight
  deriving DecidableEq, Inhabited

namespace Alignment

def bytes : Alignment → UInt64
  | one => 1 | two => 2 | four => 4 | eight => 8

/-- The alignment of a datum of this size. -/
def ofSize (n : UInt32) : Alignment :=
  if 8 ≤ n then .eight else if 4 ≤ n then .four else if 2 ≤ n then .two else .one

def max (a b : Alignment) : Alignment := if a.bytes ≤ b.bytes then b else a

/-- The least multiple of the alignment that is at least `v`; none where it is no word. -/
def roundUp (a : Alignment) (v : UInt64) : Option UInt64 :=
  checkedMul (if v % a.bytes = 0 then v / a.bytes else v / a.bytes + 1) a.bytes

theorem toNat_bytes (a : Alignment) :
    a.bytes.toNat = 1 ∨ a.bytes.toNat = 2 ∨ a.bytes.toNat = 4 ∨ a.bytes.toNat = 8 := by
  cases a <;> decide

/-- The scalars and machine words that are stored are aligned to their own size. -/
theorem toNat_bytes_ofSize {n : UInt32} (h : n ∈ [0, 1, 2, 4, 8]) :
    (ofSize n).bytes.toNat = Nat.max n.toNat 1 := by
  simp only [List.mem_cons, List.not_mem_nil, or_false] at h
  rcases h with rfl | rfl | rfl | rfl | rfl <;> decide

end Alignment

/-- How the container of a node is encoded. -/
inductive Container
  /-- One cell. -/
  | root
  /-- The cells side by side. -/
  | dense
  /-- The cells side by side, then one bit per cell in words from `maskOffset` on. -/
  | bitmasked (maskOffset : UInt64)
  /-- One address per cell, each of a block that holds the cell. -/
  | pointer
  /-- A header with the length and the first chunk; a chunk links to the next one. -/
  | dynamic (axis : Axis) (chunkCapacity : UInt32) (chunkBytes : UInt64)
  /-- One word. -/
  | bitStruct
  /-- One word. -/
  | bitArray
  /-- One scalar. -/
  | place
  deriving DecidableEq, Inhabited

/-- The sizes of a node. -/
structure Measure where
  container : Container
  cellSize : UInt64
  cellAlign : Alignment
  /-- Memory cells of one container. -/
  cells : UInt64
  /-- Bytes that one container takes in a cell of the parent. -/
  bytes : UInt64
  align : Alignment
  /-- Where the container of each child starts in a cell. -/
  childOffsets : List UInt64
  /-- Whether the node or a node below it is sparse. -/
  sparseBelow : Bool
  deriving DecidableEq, Inhabited

/-- A node of a compiled tree. -/
structure Layout.Node extends Measure where
  id : NodeId
  kind : Kind
  name : String
  parent : Option NodeId
  children : List NodeId
  depth : Nat
  index : IndexSpace
  /-- Where the container starts in a cell of the parent. -/
  offset : UInt64
  deriving DecidableEq

def Layout.Node.type (n : Layout.Node) : NodeType := n.kind.type

structure Layout where
  tree : TreeId
  root : RootId
  packing : Packing
  /-- A tree compiled without storage. -/
  compileOnly : Bool
  nodes : Array Layout.Node
  nodes_ne : 0 < nodes.size

namespace Layout

/-- Whether the tree has only its root. -/
def isEmpty (t : Layout) : Bool := t.nodes.size ≤ 1

def rootNode (t : Layout) : Node :=
  have := t.nodes_ne
  t.nodes[0]

def parent? (t : Layout) (id : NodeId) : Option NodeId := t.nodes[id]?.bind (·.parent)

def path (t : Layout) (id : NodeId) : List NodeId := pathFromRoot t.parent? id

/-- The nodes on the way from the root to `id`, the root left out. -/
def branch (t : Layout) (id : NodeId) : List Node := (t.path id).tail.filterMap (t.nodes[·]?)

def childNodes (t : Layout) (n : Node) : List Node := n.children.filterMap (t.nodes[·]?)

/-- The placed members with their place nodes, in node order. -/
def members (t : Layout) : List (MemberId × NodeId) :=
  t.nodes.toList.filterMap fun n => n.kind.place?.map fun info => (info.member.id, n.id)

/-- The place node of a member. -/
def placeOf (t : Layout) (m : MemberId) : Option NodeId := t.members.lookup m

end Layout

end SparseLayout
