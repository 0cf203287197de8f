import SparseLayout.Field
import SparseLayout.IndexSpace
import SparseLayout.Kind

/-!
Trees under construction. Nodes are numbered in the order they are added, so that a node's parent
has a smaller number; the root is number 0.
-/

namespace SparseLayout

/-- The numbers met on the way up from `id`, `id` first, over at most `steps` edges. -/
def climb (parent? : NodeId → Option NodeId) : Nat → NodeId → List NodeId
  | 0, id => [id]
  | steps + 1, id =>
    match parent? id with
    | none => [id]
    | some p => id :: climb parent? steps p

/-- The numbers from the root down to `id`. Parents have smaller numbers, so a node has at most
`id` proper ancestors. -/
def pathFromRoot (parent? : NodeId → Option NodeId) (id : NodeId) : List NodeId :=
  (climb parent? id id).reverse

/-- The ancestor some edges above a node. -/
def ancestor? (parent? : NodeId → Option NodeId) : Nat → NodeId → Option NodeId
  | 0, id => some id
  | k + 1, id => (parent? id).bind (ancestor? parent? k)

namespace Draft

structure Node where
  kind : Kind
  parent : Option NodeId
  /-- In the order they were added. -/
  children : List NodeId
  /-- Edges from the root. -/
  depth : Nat
  name : String
  index : IndexSpace
  /-- Bits taken so far in the word of a bit container. -/
  bitsUsed : UInt32
  /-- Shared-exponent groups opened so far in a bit struct. -/
  exponentGroups : UInt32
  deriving DecidableEq

/-- A place node is named after its member, any other node after its number and type. -/
def Node.nameOf (id : NodeId) (kind : Kind) : String :=
  match kind with
  | .place info => info.member.name
  | k => s!"S{id}{k.type.text}"

def Node.root : Node where
  kind := .root
  parent := none
  children := []
  depth := 0
  name := Node.nameOf 0 .root
  index := .root
  bitsUsed := 0
  exponentGroups := 0

end Draft

structure Draft where
  root : RootId
  packing : Packing
  nodes : Array Draft.Node
  nodes_ne : 0 < nodes.size

namespace Draft

/-- A draft that has only its root. -/
def new (root : RootId) (packing : Packing) : Draft := ⟨root, packing, #[.root], by simp⟩

def parent? (d : Draft) (id : NodeId) : Option NodeId := d.nodes[id]?.bind (·.parent)

def path (d : Draft) (id : NodeId) : List NodeId := pathFromRoot d.parent? id

def children (d : Draft) (id : NodeId) : List NodeId :=
  match d.nodes[id]? with
  | some n => n.children
  | none => []

/-- The number that the next node gets. -/
def next (d : Draft) : NodeId := d.nodes.size

/-- A new node of this kind under a node. -/
def Node.child (packing : Packing) (id : NodeId) (parentId : NodeId) (parent : Node)
    (kind : Kind) : Node where
  kind := kind
  parent := some parentId
  children := []
  depth := parent.depth + 1
  name := Node.nameOf id kind
  index := parent.index.child packing kind.divisions
  bitsUsed := 0
  exponentGroups := 0

/-- The draft with one more node, listed last among the children of an existing node. -/
def push (d : Draft) (parentId : NodeId) (parent : Node) (kind : Kind) : Draft where
  root := d.root
  packing := d.packing
  nodes :=
    (d.nodes.modify parentId fun p => { p with children := p.children ++ [d.next] }).push
      (parent.child d.packing d.next parentId kind)
  nodes_ne := by simp

@[simp] theorem size_push (d : Draft) (parentId : NodeId) (parent : Node) (kind : Kind) :
    (d.push parentId parent kind).nodes.size = d.nodes.size + 1 := by
  simp [push]

/-- Adding a node lists it with its parent and changes no other node. -/
theorem getElem?_push (d : Draft) (parentId : NodeId) (parent : Node) (kind : Kind) (id : NodeId) :
    (d.push parentId parent kind).nodes[id]? =
      if id = d.next then some (parent.child d.packing d.next parentId kind)
      else if id = parentId then
        d.nodes[id]?.map fun p => { p with children := p.children ++ [d.next] }
      else d.nodes[id]? := by
  unfold push next
  rw [Array.getElem?_push]
  simp only [Array.size_modify, Array.getElem?_modify]
  grind

/-- Changes the bit accounting of a node. -/
def setBits (d : Draft) (id : NodeId) (bitsUsed exponentGroups : UInt32) : Draft where
  root := d.root
  packing := d.packing
  nodes := d.nodes.modify id fun n => { n with bitsUsed, exponentGroups }
  nodes_ne := by simpa using d.nodes_ne

@[simp] theorem size_setBits (d : Draft) (id : NodeId) (b g : UInt32) :
    (d.setBits id b g).nodes.size = d.nodes.size := by
  simp [setBits]

theorem getElem?_setBits (d : Draft) (target : NodeId) (bitsUsed exponentGroups : UInt32)
    (id : NodeId) :
    (d.setBits target bitsUsed exponentGroups).nodes[id]? =
      if id = target then d.nodes[id]?.map fun n => { n with bitsUsed, exponentGroups }
      else d.nodes[id]? := by
  unfold setBits
  rw [Array.getElem?_modify]
  grind

/-- The nodes of a subtree that are not places, children before parents, over at most `height`
levels. -/
def postOrder (d : Draft) : Nat → NodeId → List NodeId
  | 0, _ => []
  | height + 1, id =>
    match d.nodes[id]? with
    | none => []
    | some n =>
      match n.kind with
      | .place _ => []
      | _ => n.children.flatMap (d.postOrder height) ++ [id]

end Draft

end SparseLayout
