import SparseLayout.Proofs.Draft.Built
import SparseLayout.Proofs.Draft.Sizes

namespace SparseLayout

open Layout (Node)

/-- A draft after a declaration, also where it is refused. -/
def Drafting.after (s : Drafting) (id : NodeId) (decl : Declaration) : Drafting :=
  match DraftM.declare id decl s with
  | .ok _ s => s
  | .error _ s => s

theorem Drafting.after_of_ok {s s' : Drafting} {id id' : NodeId} {decl : Declaration}
    (h : DraftM.declare id decl s = .ok id' s') : s.after id decl = s' := by
  rw [after, h]

theorem Drafting.after_of_error {s s' : Drafting} {id : NodeId} {decl : Declaration}
    {e : BuildError} (h : DraftM.declare id decl s = .error e s') : s.after id decl = s' := by
  rw [after, h]

theorem Draft.Built.after {s : Drafting} (h : s.draft.Built) (id : NodeId) {decl : Declaration}
    (hd : decl.OfFields) : (s.after id decl).draft.Built := by
  cases hr : DraftM.declare id decl s with
  | ok id' s' => exact Drafting.after_of_ok hr ▸ .declared h hd hr
  | error e s' => exact Drafting.after_of_error hr ▸ .refused h hd hr

theorem eq_ok_get {ε α : Type} {r : Except ε α} (h : r.toOption.isSome = true) :
    r = .ok (r.toOption.get h) := by
  cases r with
  | ok a => rfl
  | error e => cases h

namespace Sample

/-- A field of one member of this type, with this number. -/
def fieldOf (dtype : DataType) (name : String) (id : MemberId) : Field :=
  ⟨name, dtype, .scalar, [⟨⟨id, name, dtype⟩, .primal none⟩]⟩

theorem declared_fieldOf {dtype : DataType} {name : String} (id : MemberId) {m : Member}
    (hid : ∃ c, Catalog.declare ⟨name, dtype, .scalar, false⟩ c =
      .ok (fieldOf dtype name id) ⟨c.placements ++ #[none], c.roots⟩)
    (hm : m ∈ (fieldOf dtype name id).members) : m.Declared := by
  obtain ⟨c, hc⟩ := hid
  exact ⟨_, c, _, _, hc, Or.inl hm⟩

/-- A field of one 32-bit integer, whose member has this number. -/
def field (name : String) (id : MemberId) : Field :=
  ⟨name, .int .w32, .scalar, [⟨⟨id, name, .int .w32⟩, .primal none⟩]⟩

/-- Two pointer cells with four bitmasked cells each, which hold `x`; beside them, a list of at most
five `y` in chunks of two. -/
def drafting : Drafting :=
  (((((⟨.new 0 .padded, ⟨#[none, none], 0⟩⟩ : Drafting).after 0
    (.node (.pointer [0] (.uniform 2)))).after 1 (.node (.bitmasked [1] (.uniform 4)))).after 2
      (.place [.one (field "x" 0)] ⟨none, false⟩)).after 0
        (.node (.dynamic [2] 5 (some 2)))).after 4 (.place [.one (field "y" 1)] ⟨none, false⟩)

def layout : Layout := (drafting.draft.compile 0 false).toOption.get (by decide +kernel)

theorem ofFields (name : String) (id : NodeId) (hid : ∃ c, Catalog.declare
    ⟨name, .int .w32, .scalar, false⟩ c = .ok (field name id) ⟨c.placements ++ #[none], c.roots⟩) :
    Declaration.OfFields (.place [.one (field name id)] ⟨none, false⟩) := by
  intro m hm
  have hmem : m ∈ (field name id).members := by
    simpa [FieldGroup.membersOf, FieldGroup.members] using hm
  exact declared_fieldOf id hid hmem

theorem built : drafting.draft.Built := by
  have node (decl : Structural) : Declaration.OfFields (.node decl) := trivial
  have hx := ofFields "x" 0 ⟨.empty, rfl⟩
  have hy := ofFields "y" 1 ⟨⟨#[none], 0⟩, rfl⟩
  have hnew : (⟨.new 0 .padded, ⟨#[none, none], 0⟩⟩ : Drafting).draft.Built := .new 0 .padded
  exact ((((hnew.after 0 (node _)).after 1 (node _)).after 2 hx).after 0 (node _)).after 4 hy

theorem wellSized : drafting.draft.WellSized := by decide +kernel

def node (i : Nat) : Node := layout.nodes[i]?.getD layout.rootNode

end Sample

end SparseLayout
