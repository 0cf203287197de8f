import SparseLayout.Proofs.Draft.Additions
import SparseLayout.Proofs.Draft.Spaces
import SparseLayout.Proofs.Reference.Outline

/-!
The same declarations in two packings. Where both are accepted they make the same nodes, apart
from memory extents and from the bits that are counted in bit arrays, and the compiled trees have
one outline.
-/

namespace SparseLayout

open Draft (Node)

namespace AxisExtent

theorem outline_nextLevel (e : AxisExtent) : e.nextLevel.outline = e.outline.nextLevel := rfl

theorem outline_divide (p : Packing) (n : UInt32) (e : AxisExtent) :
    (e.divide p n).outline = e.outline.divide .packed n := rfl

end AxisExtent

namespace IndexSpace

theorem outline_nextLevel (s : IndexSpace) : s.nextLevel.outline = s.outline.nextLevel := by
  unfold outline nextLevel
  rw [Vector.map_map, Vector.map_map]
  rfl

theorem outline_divideAxis (p : Packing) (s : IndexSpace) (d : Division) :
    (s.divideAxis p d).outline = s.outline.divideAxis .packed d := by
  unfold divideAxis
  rw [extent_outline, ← AxisExtent.outline_divide p]
  unfold outline
  rw [Vector.map_set]
  rfl

/-- Every packing divides axes by the declared extents. -/
theorem outline_child (p : Packing) (s : IndexSpace) (ds : List Division) :
    (s.child p ds).outline = s.outline.child .packed ds := by
  rw [child_eq, child_eq, ← outline_nextLevel]
  generalize s.nextLevel = s
  induction ds generalizing s with
  | nil => rfl
  | cons d ds ih => rw [List.foldl_cons, List.foldl_cons, ih, outline_divideAxis]

end IndexSpace

namespace Draft

/-- Of the bits taken, those in a bit array depend on the packing, and those of other nodes than bit
containers say nothing. -/
def Node.outline (n : Node) : Node :=
  { n with
    index := n.index.outline
    bitsUsed := if n.kind.type = .bitStruct then n.bitsUsed else 0 }

def outline (d : Draft) : Draft where
  root := d.root
  packing := .packed
  nodes := d.nodes.map Node.outline
  nodes_ne := by simpa using d.nodes_ne

variable {d e : Draft} {id p : NodeId} {m n q : Node} {kind : Kind}

theorem getElem?_outline (d : Draft) (id : NodeId) :
    d.outline.nodes[id]? = (d.nodes[id]?).map Node.outline :=
  Array.getElem?_map

theorem outline_ext (hr : d.root = e.root)
    (h : ∀ id : NodeId, (d.nodes[id]?).map Node.outline = (e.nodes[id]?).map Node.outline) :
    d.outline = e.outline := by
  have hnodes : d.outline.nodes = e.outline.nodes :=
    Array.ext_getElem? fun id => by rw [getElem?_outline, getElem?_outline, h]
  unfold outline at hnodes ⊢
  congr 1

theorem root_eq_of_outline (h : d.outline = e.outline) : d.root = e.root := by
  change d.outline.root = e.outline.root
  rw [h]

theorem next_eq_of_outline (h : d.outline = e.outline) : d.next = e.next := by
  have hsize := congrArg (fun d => d.nodes.size) h
  simp only [outline, Array.size_map] at hsize
  exact hsize

/-- Nodes with one number have one outline. -/
theorem node_eq_of_outline (h : d.outline = e.outline) (hm : d.nodes[id]? = some m)
    (hn : e.nodes[id]? = some n) : m.outline = n.outline := by
  have hnode := congrArg (fun d => d.nodes[id]?) h
  simpa [getElem?_outline, hm, hn] using hnode

theorem Node.outline_child (packing : Packing) (id parentId : NodeId) (parent : Node) (kind : Kind) :
    (parent.child packing id parentId kind).outline =
      parent.outline.child .packed id parentId kind := by
  unfold child outline
  simp [IndexSpace.outline_child]

/-- Adding one node to drafts with one outline. -/
theorem outline_push (h : d.outline = e.outline) (hm : d.nodes[p]? = some m)
    (hn : e.nodes[p]? = some n) (kind : Kind) :
    (d.push p m kind).outline = (e.push p n kind).outline := by
  have hroot : d.root = e.root := root_eq_of_outline h
  refine outline_ext hroot fun id => ?_
  have hid := congrArg (fun d => d.nodes[id]?) h
  simp only [getElem?_outline] at hid
  rw [getElem?_push, getElem?_push, next_eq_of_outline h]
  split
  · rw [Option.map_some, Option.map_some, Node.outline_child, Node.outline_child,
      node_eq_of_outline h hm hn]
  · split
    · have hboth := congrArg
        (Option.map fun p : Node => { p with children := p.children ++ [e.next] }) hid
      rw [Option.map_map, Option.map_map] at hboth ⊢
      exact hboth
    · exact hid

theorem Node.kind_eq_of_outline (h : m.outline = n.outline) : m.kind = n.kind := by
  change m.outline.kind = n.outline.kind
  rw [h]

theorem Node.groups_eq_of_outline (h : m.outline = n.outline) :
    m.exponentGroups = n.exponentGroups := by
  change m.outline.exponentGroups = n.outline.exponentGroups
  rw [h]

theorem Node.arity_eq_of_outline (h : m.outline = n.outline) : m.index.arity = n.index.arity := by
  change m.outline.index.arity = n.outline.index.arity
  rw [h]

theorem Node.bitsUsed_eq_of_outline (h : m.outline = n.outline) (hk : m.kind.type = .bitStruct) :
    m.bitsUsed = n.bitsUsed := by
  have hk' : n.kind.type = .bitStruct := kind_eq_of_outline h ▸ hk
  have hused := congrArg Node.bitsUsed h
  simpa only [outline, hk, hk', if_true] using hused

theorem Node.outline_setBits {used used' groups : UInt32} (h : m.outline = n.outline)
    (hused : used' = used ∨ m.kind.type ≠ .bitStruct) :
    Node.outline { m with bitsUsed := used, exponentGroups := groups } =
      Node.outline { n with bitsUsed := used', exponentGroups := groups } := by
  have hkind := kind_eq_of_outline h
  unfold outline at h ⊢
  simp only [Node.mk.injEq, hkind] at h ⊢ hused
  obtain ⟨-, hparent, hchildren, hdepth, hname, hindex, -, -⟩ := h
  refine ⟨trivial, hparent, hchildren, hdepth, hname, hindex, ?_, trivial⟩
  rcases hused with rfl | hk
  · rfl
  · rw [if_neg hk, if_neg hk]

/-- The bits that are counted matter in bit structs only. -/
theorem outline_setBits (h : d.outline = e.outline) {used used' groups : UInt32}
    (hused : used' = used ∨ ∃ n, d.nodes[p]? = some n ∧ n.kind.type ≠ .bitStruct) :
    (d.setBits p used groups).outline = (e.setBits p used' groups).outline := by
  have hroot : d.root = e.root := root_eq_of_outline h
  refine outline_ext hroot fun id => ?_
  have hid := congrArg (fun d => d.nodes[id]?) h
  simp only [getElem?_outline] at hid
  rw [getElem?_setBits, getElem?_setBits]
  split
  · rename_i he
    subst he
    cases hm : d.nodes[id]? with
    | none =>
      cases hn : e.nodes[id]? with
      | none => rfl
      | some n => simp [hm, hn] at hid
    | some m =>
      cases hn : e.nodes[id]? with
      | none => simp [hm, hn] at hid
      | some n =>
        refine congrArg some (Node.outline_setBits (node_eq_of_outline h hm hn) ?_)
        refine hused.imp_right ?_
        rintro ⟨m', hm', hk⟩
        rw [hm, Option.some.injEq] at hm'
        exact hm' ▸ hk
  · exact hid

/-- The subtree of a node is the same. -/
theorem postOrder_outline (d : Draft) (height : Nat) (id : NodeId) :
    d.outline.postOrder height id = d.postOrder height id := by
  induction height generalizing id with
  | zero => rfl
  | succ height ih =>
    unfold postOrder
    rw [getElem?_outline]
    cases d.nodes[id]? with
    | none => rfl
    | some n =>
      have hrest : d.outline.postOrder height = d.postOrder height := funext ih
      simp only [Option.map_some, hrest]
      rfl

theorem children_outline (d : Draft) (id : NodeId) : d.outline.children id = d.children id := by
  unfold children
  rw [getElem?_outline]
  cases d.nodes[id]? <;> rfl

end Draft

/-- The outline of a draft with the catalog. -/
def Drafting.outline (s : Drafting) : Drafting := { s with draft := s.draft.outline }

variable {s s' u u' : Drafting} {target : NodeId} {n n' : Node}

theorem Drafting.draft_eq_of_outline (h : s.outline = s'.outline) :
    s.draft.outline = s'.draft.outline := congrArg Drafting.draft h

theorem Drafting.catalog_eq_of_outline (h : s.outline = s'.outline) : s.catalog = s'.catalog := by
  change s.outline.catalog = s'.outline.catalog
  rw [h]

theorem Drafting.outline_eq (hd : s.draft.outline = s'.draft.outline)
    (hc : s.catalog = s'.catalog) : s.outline = s'.outline := by
  unfold outline
  rw [hd, hc]

theorem pendingAdjoints_outline (s : Drafting) (container : NodeId) :
    pendingAdjoints s.outline container = pendingAdjoints s container := by
  unfold pendingAdjoints
  rw [show s.outline.draft = s.draft.outline from rfl, Draft.children_outline]
  refine List.filterMap_congr fun id _ => ?_
  rw [Draft.getElem?_outline]
  cases s.draft.nodes[id]? <;> rfl

/-- Plans that do the same to drafts with the outline of `d`. -/
structure PlacePlan.Alike (d : Draft) (a b : PlacePlan) : Prop where
  target : a.target = b.target
  implicit : a.implicitDense = b.implicitDense
  infos : a.infos = b.infos
  groups : a.exponentGroups = b.exponentGroups
  used : b.bitsUsed = a.bitsUsed ∨ ∃ n, d.nodes[a.target]? = some n ∧ n.kind.type ≠ .bitStruct

theorem PlacePlan.Alike.mono {d e : Draft} {a b : PlacePlan} (h : a.Alike d b)
    (hd : d.Continues e) : a.Alike e b := by
  refine ⟨h.target, h.implicit, h.infos, h.groups, h.used.imp_right ?_⟩
  rintro ⟨n, hn, hk⟩
  obtain ⟨n', hn', hgrows⟩ := hd _ n hn
  exact ⟨n', hn', hgrows.kind ▸ hk⟩

/-- The bits of new members are the same in every packing. Those taken after them may differ in a
bit array, which takes no more members. -/
theorem planBits_outline {ms : List Member} {shared : Bool} {a b : BitPlan}
    (hn : n.outline = n'.outline) (ha : planBits n ms shared = .ok a)
    (hb : planBits n' ms shared = .ok b) : a.fields = b.fields ∧
      a.exponentGroups = b.exponentGroups ∧
        (b.bitsUsed = a.bitsUsed ∨ n.kind.type ≠ .bitStruct) := by
  have hgroups := Node.groups_eq_of_outline hn
  unfold planBits at ha hb
  rw [← Node.kind_eq_of_outline hn] at hb
  cases hk : n.kind with
  | place info =>
    rw [hk] at ha
    cases ha
  | bitStruct width =>
    rw [hk] at ha hb
    change planStruct width n ms shared = .ok a at ha
    change planStruct width n' ms shared = .ok b at hb
    have hstruct : planStruct width n ms shared = planStruct width n' ms shared := by
      unfold planStruct
      rw [hgroups, Node.bitsUsed_eq_of_outline hn (by rw [hk]; rfl)]
    rw [← hstruct, ha] at hb
    cases hb
    exact ⟨rfl, rfl, Or.inl rfl⟩
  | bitArray ds width =>
    rw [hk] at ha hb
    obtain ⟨-, -, -, -, hfields, hkept⟩ := planArray_ok ha
    obtain ⟨-, -, -, -, hfields', hkept'⟩ := planArray_ok hb
    refine ⟨hfields.trans hfields'.symm, ?_, Or.inr fun htype => by cases htype⟩
    rw [hkept, hkept', hgroups]
  | root | dense ds | pointer ds | bitmasked ds | dynamic axis dim chunk =>
    rw [hk] at ha hb
    rw [(planBytes_ok ha).2, (planBytes_ok hb).2]
    exact ⟨rfl, hgroups, Or.inr fun htype => by cases htype⟩

/-- A placement is planned alike for nodes with one outline. -/
theorem planPlace_outline {d : Draft} {c : Catalog} {ms : List Member} {o : PlaceOptions}
    {a b : PlacePlan} (hat : d.nodes[target]? = some n) (hn : n.outline = n'.outline)
    (ha : planPlace c target n ms o = .ok a) (hb : planPlace c target n' ms o = .ok b) :
    a.Alike d b := by
  rcases planPlace_ok ha with ⟨hnil, -, rfl⟩ | ⟨offsets, bits, hne, -, hoffsets, hbits, rfl⟩
  · rcases planPlace_ok hb with ⟨-, -, rfl⟩ | ⟨_, _, hne, -⟩
    · refine ⟨rfl, rfl, rfl, Node.groups_eq_of_outline hn, ?_⟩
      by_cases hk : n.kind.type = .bitStruct
      · exact Or.inl (Node.bitsUsed_eq_of_outline hn hk).symm
      · exact Or.inr ⟨n, hat, hk⟩
    · exact absurd hnil hne
  · rcases planPlace_ok hb with ⟨hnil, -⟩ | ⟨offsets', bits', -, -, hoffsets', hbits', rfl⟩
    · exact absurd hnil hne
    · rw [← Node.arity_eq_of_outline hn, hoffsets] at hoffsets'
      cases hoffsets'
      obtain ⟨hfields, hgroups, hused⟩ := planBits_outline hn hbits hbits'
      refine ⟨rfl, rfl, ?_, hgroups, hused.imp_right fun hk => ⟨n, hat, hk⟩⟩
      simp only [hfields]

end SparseLayout
