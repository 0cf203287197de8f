import SparseLayout.Layout

namespace SparseLayout

/-- A node of a compiled tree, together with the tree. -/
structure Handle where
  layout : Layout
  id : NodeId
  isLt : id < layout.nodes.size

/-- The handle of a node, if the tree has it. -/
def Layout.handle? (t : Layout) (id : NodeId) : Option Handle :=
  if h : id < t.nodes.size then some ⟨t, id, h⟩ else none

def Layout.rootHandle (t : Layout) : Handle := ⟨t, 0, t.nodes_ne⟩

namespace Handle

def node (h : Handle) : Layout.Node :=
  have := h.isLt
  h.layout.nodes[h.id]

/-- Handles are the same when they name the same node of trees with the same root. -/
def same (a b : Handle) : Bool := a.layout.root = b.layout.root ∧ a.id = b.id

def member? (h : Handle) : Option Member := h.node.kind.place?.map (·.member)

/-- The ancestor `k` edges up. -/
def ancestor? (h : Handle) (k : Nat) : Option NodeId :=
  SparseLayout.ancestor? h.layout.parent? k h.id

def path (h : Handle) : List NodeId := h.layout.path h.id

def indexOffsets (h : Handle) : List Int32 :=
  match h.node.kind with
  | .place info => info.indexOffsets
  | _ => []

/-- A node as part of a path: its type, and its shape unless that is empty. -/
def nodeText (n : Layout.Node) : String :=
  match n.index.shape with
  | [] => n.type.text
  | shape => n.type.text ++ " [" ++ ", ".intercalate (shape.map toString) ++ "]"

/-- The path from the root, such as `root => dense [8] => place [8]`. -/
def text (h : Handle) : String :=
  " => ".intercalate ((h.path.filterMap (h.layout.nodes[·]?)).map nodeText)

end Handle

/-- An index entry carried from an extent to a coarser one, divided by the ratio so that a
remainder is not negative, or to a finer one, multiplied by it. The ratio is cut to a 32-bit word;
there is no quotient by 0, and no quotient or product beyond the words. -/
def rescaleEntry (source target : UInt64) (i : Int32) : Option Int32 :=
  let source := max source 1
  let target := max target 1
  if source > target then
    let ratio := (source / target).toUInt32.toInt32
    if ratio = 0 ∨ (i = Int32.minValue ∧ ratio = -1) then none
    else some (.ofInt (i.toInt / ratio.toInt))
  else if source < target then
    let product := i.toInt * (target / source).toUInt32.toInt32.toInt
    if Int32.minValue.toInt ≤ product ∧ product ≤ Int32.maxValue.toInt then some (.ofInt product)
    else none
  else some i

/-- Entries are matched by position; those past the shorter shape stay. -/
def rescaleEntries : List UInt64 → List UInt64 → List Int32 → Option (List Int32)
  | s :: ss, t :: ts, i :: is => do return (← rescaleEntry s t i) :: (← rescaleEntries ss ts is)
  | _, _, is => some is

/-- The index of the cell of `b` for an index of node `a`. -/
def rescaleIndex (a b : Handle) (idx : List Int32) : Option (List Int32) :=
  rescaleEntries a.node.index.shape b.node.index.shape idx

end SparseLayout
