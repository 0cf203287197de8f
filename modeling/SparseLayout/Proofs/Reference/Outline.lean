import SparseLayout.Proofs.Reference

namespace SparseLayout

open Layout (Node)
open Layout.Node (around digit)

/-- The memory extent is taken to be the declared one. -/
def AxisExtent.outline (e : AxisExtent) : AxisExtent := { e with padded := e.declared }

namespace IndexSpace

def outline (s : IndexSpace) : IndexSpace := { s with extents := s.extents.map .outline }

@[simp] theorem extent_outline (s : IndexSpace) (a : Axis) :
    s.outline.extent a = (s.extent a).outline := by
  unfold extent outline
  exact Vector.getElem_map _ a.isLt

end IndexSpace

namespace Layout

def Node.outline (n : Node) : Node :=
  { n with toMeasure := default, index := n.index.outline, offset := 0 }

def outline (t : Layout) : Layout where
  tree := 0
  root := 0
  packing := .packed
  compileOnly := false
  nodes := t.nodes.map Node.outline
  nodes_ne := by simpa using t.nodes_ne

namespace Node

variable (n m : Node)

@[simp] theorem extent_outline (a : Axis) :
    n.outline.index.extent a = (n.index.extent a).outline := n.index.extent_outline a

end Node

variable (t : Layout) (n : Node)

@[simp] theorem getElem?_outline (i : NodeId) :
    t.outline.nodes[i]? = (t.nodes[i]?).map Node.outline :=
  Array.getElem?_map

end Layout

namespace Reference

variable (t : Layout) (n m : Node) (c : Coords) (r : Reference)

end Reference

/-- The same operation on the outline of the node. -/
def Call.outline (c : Call) : Call := ⟨c.node.outline, c.action⟩

end SparseLayout
