import SparseLayout.Proofs.Draft.Twins
import SparseLayout.Proofs.Store.Clearing
import SparseLayout.Proofs.Store.Reactivation
import SparseLayout.Proofs.Store.Refinement

/-!
The packing of a tree cannot be seen from its results. Two storages of trees that the same
declarations made in two packings have one store without memory, so that a run has the same
results on both and leaves as many pointer blocks in use.
-/

namespace SparseLayout

open Layout (Node)

/-- Declarations, with the root and the catalog that they start from. -/
structure Blueprint where
  root : RootId
  catalog : Catalog
  steps : List BuildStep

namespace Blueprint

def OfFields (b : Blueprint) : Prop := ∀ step ∈ b.steps, step.OfFields

/-- What the declarations make in a packing, if all are accepted. -/
def build (b : Blueprint) (p : Packing) : Except BuildError Drafting :=
  match b.steps.forM BuildStep.run ⟨.new b.root p, b.catalog⟩ with
  | .ok _ s => .ok s
  | .error e _ => .error e

/-- The tree that the declarations make is well-sized, and was materialized under a checked
configuration. -/
def Makes (b : Blueprint) (p : Packing) (t : Layout) (s : Store) : Prop :=
  ∃ (u : Drafting) (cfg : Config) (tree : TreeId), b.build p = .ok u ∧ u.draft.WellSized ∧
    u.draft.compile tree false = .ok t ∧ cfg.check = .ok () ∧ Store.new t cfg = .ok s

variable {b : Blueprint} {p p' : Packing} {t t' : Layout} {s s' : Store} {u u' : Drafting}

theorem of_build (h : b.build p = .ok u) :
    b.steps.forM BuildStep.run ⟨.new b.root p, b.catalog⟩ = .ok () u := by
  unfold build at h
  split at h
  · rename_i hrun
    cases h
    exact hrun
  · cases h

theorem Makes.starts (h : b.Makes p t s) (hf : b.OfFields) : t.Starts s := by
  obtain ⟨u, cfg, tree, hu, hw, ht, hc, hs⟩ := h
  exact ⟨u.draft, cfg, tree, DraftM.built_of_build (.new b.root p) hf (of_build hu), hw, ht, hc, hs⟩

/-- The trees made in two packings have one outline. -/
theorem Makes.outline_eq (h : b.Makes p t s) (h' : b.Makes p' t' s') : t.outline = t'.outline := by
  obtain ⟨u, -, tree, hu, -, ht, -⟩ := h
  obtain ⟨u', -, tree', hu', -, ht', -⟩ := h'
  have hnew : Drafting.outline ⟨.new b.root p, b.catalog⟩ =
      Drafting.outline ⟨.new b.root p', b.catalog⟩ :=
    Drafting.outline_eq (Draft.outline_new b.root p p') rfl
  have hout := DraftM.build_outline hnew (of_build hu) (of_build hu')
  exact Draft.compile_outline (Drafting.draft_eq_of_outline hout) ht ht'

end Blueprint

/-- Operations on the nodes of a tree that have these numbers. -/
def Layout.calls (t : Layout) (ops : List (NodeId × Action)) : List Call :=
  ops.filterMap fun op => (t.nodes[op.1]?).map fun n => ⟨n, op.2⟩

variable {t t' : Layout} {s : Store} {n n' : Node} {ops : List (NodeId × Action)} {v : View}
  {c : Coords}

/-- Cells that are in use are known by coordinates, so their node can be addressed. -/
theorem View.Named.addressable (hv : v.Named t) (ht : t.WellFormed) (hn : t.Has n)
    (hp : n.type = .pointer) (ha : v.Active t (t.place n c n)) : n.Addressable := by
  have hc : n.container = .pointer := (ht.pointer_iff hn).2 hp
  obtain ⟨q, hq, hnq⟩ := ht.ne_root_of_blocks hn (by simp [Layout.Node.blockBytes?, hc])
  have hon : v.on (t.place n c n) = true := by
    rw [ht.place_child n c hq hnq] at ha ⊢
    simpa only [View.On, hc] using ha.2.2.2
  obtain ⟨m, d, hm, haddr, -, he⟩ := hv _ hon
  obtain rfl : n = m := by rw [← ht.nodeAt_place n c hn, he, ht.nodeAt_place m d hm]
  exact haddr

namespace Store

end Store

namespace Blueprint

variable {b : Blueprint} {p p' : Packing} {s' : Store}

end Blueprint

namespace Sample

def bits : Field := ⟨"z", .quantInt 5 false, .scalar, [⟨⟨2, "z", .quantInt 5 false⟩, .primal none⟩]⟩

/-- Extents that are no powers of two: three pointer cells with five bitmasked cells each, which
hold `x`, a list of at most five `y` in chunks of three, and three `z` of five bits in one word.
-/
def blueprint : Blueprint where
  root := 0
  catalog := ⟨#[none, none, none], 0⟩
  steps := [.declare 0 (.node (.pointer [0] (.uniform 3))),
    .declare 1 (.node (.bitmasked [1] (.uniform 5))),
    .declare 2 (.place [.one (field "x" 0)] ⟨none, false⟩),
    .declare 0 (.node (.dynamic [2] 5 (some 3))),
    .declare 4 (.place [.one (field "y" 1)] ⟨none, false⟩),
    .declare 0 (.node (.bitArray [3] (.uniform 3) 32)),
    .declare 6 (.place [.one bits] ⟨none, false⟩)]

def made (p : Packing) : Drafting :=
  (blueprint.build p).toOption.get (by cases p <;> decide +kernel)

def tree (p : Packing) : Layout :=
  ((made p).draft.compile 0 false).toOption.get (by cases p <;> decide +kernel)

def storage (p : Packing) : Store :=
  (Store.new (tree p) ⟨p, 64, 8⟩).toOption.get (by cases p <;> decide +kernel)

end Sample

namespace Sample

end Sample

end SparseLayout
