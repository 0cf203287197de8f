import SparseLayout.Proofs.Draft.Outline

namespace SparseLayout

open Draft (Node)

variable {s s' u u' : Drafting} {target : NodeId} {infos : List PlaceInfo}

namespace DraftM

variable {α β : Type} {m : DraftM α} {ok : α → Drafting → Prop} {no : Drafting → Prop}

theorem Ends.of_ok (h : Ends m s ok no) {a : α} (hr : m s = .ok a u) : ok a u := by
  unfold Ends at h
  rwa [hr] at h

theorem of_bind {f : α → DraftM β} {b : β} (h : (m >>= f) s = .ok b u) :
    ∃ a v, m s = .ok a v ∧ f a v = .ok b u := by
  change EStateM.bind m f s = .ok b u at h
  unfold EStateM.bind at h
  cases hm : m s with
  | ok a v =>
    rw [hm] at h
    exact ⟨a, v, rfl, h⟩
  | error e v =>
    rw [hm] at h
    cases h

theorem of_node {id : NodeId} {n : Node} (h : node id s = .ok n u) :
    s.draft.nodes[id]? = some n ∧ u = s := by
  have hends : Ends (node id) s (fun n u => s.draft.nodes[id]? = some n ∧ u = s) fun _ => True :=
    ends_node (fun _ hn => ⟨hn, rfl⟩) fun _ => trivial
  exact hends.of_ok h

theorem of_check {r : Except BuildError α} {a : α} (h : check r s = .ok a u) :
    r = .ok a ∧ u = s := by
  have hends : Ends (check r) s (fun a u => r = .ok a ∧ u = s) fun _ => True :=
    ends_check (fun _ ha => ⟨ha, rfl⟩) trivial
  exact hends.of_ok h

theorem of_push {p i : NodeId} {kind : Kind} (h : push p kind s = .ok i u) :
    ∃ q, s.draft.nodes[p]? = some q ∧ i = s.draft.next ∧
      u = { s with draft := s.draft.push p q kind } := by
  obtain ⟨q, v, hq, hv⟩ := of_bind h
  obtain ⟨hq, rfl⟩ := of_node hq
  cases hv
  exact ⟨q, hq, rfl, rfl⟩

theorem of_placeAll_cons {info : PlaceInfo} {rest : List PlaceInfo}
    (h : placeAll target (info :: rest) s = .ok () u) :
    ∃ q c, s.draft.nodes[target]? = some q ∧
      Catalog.bind info.member ⟨s.draft.root, s.draft.next⟩ s.catalog = .ok () c ∧
        placeAll target rest ⟨s.draft.push target q (.place info), c⟩ = .ok () u := by
  obtain ⟨i, v, hi, -⟩ := of_bind h
  obtain ⟨q, hq, -, -⟩ := of_push hi
  have hends : Ends (placeAll target (info :: rest)) s (fun _ u => ∃ c,
      Catalog.bind info.member ⟨s.draft.root, s.draft.next⟩ s.catalog = .ok () c ∧
        placeAll target rest ⟨s.draft.push target q (.place info), c⟩ = .ok () u)
      fun _ => True := by
    refine ends_placeAll_cons hq ?_ fun _ => trivial
    intro c hc
    unfold Ends
    split
    · exact ⟨c, hc, by assumption⟩
    · trivial
  obtain ⟨c, hc, hrest⟩ := hends.of_ok h
  exact ⟨q, c, hq, hc, hrest⟩

/-- Adding a node gives it one number and keeps the outlines the same. -/
theorem push_outline {p i i' : NodeId} {kind : Kind} (h : s.outline = s'.outline)
    (hi : push p kind s = .ok i u) (hi' : push p kind s' = .ok i' u') :
    i = i' ∧ u.outline = u'.outline ∧ s.draft.Continues u.draft := by
  have hd := Drafting.draft_eq_of_outline h
  obtain ⟨q, hq, rfl, rfl⟩ := of_push hi
  obtain ⟨q', hq', rfl, rfl⟩ := of_push hi'
  have hc : s.catalog = s'.catalog := Drafting.catalog_eq_of_outline h
  refine ⟨Draft.next_eq_of_outline hd, ?_, Draft.continues_push _ _ _ _⟩
  exact Drafting.outline_eq (Draft.outline_push hd hq hq' kind) hc

theorem placeAll_outline (h : s.outline = s'.outline) (hu : placeAll target infos s = .ok () u)
    (hu' : placeAll target infos s' = .ok () u') :
    u.outline = u'.outline ∧ s.draft.Continues u.draft := by
  induction infos generalizing s s' with
  | nil =>
    cases hu
    cases hu'
    exact ⟨h, .refl _⟩
  | cons info rest ih =>
    have hd := Drafting.draft_eq_of_outline h
    obtain ⟨q, c, hq, hc, hrest⟩ := of_placeAll_cons hu
    obtain ⟨q', c', hq', hc', hrest'⟩ := of_placeAll_cons hu'
    have hroot : s.draft.root = s'.draft.root := Draft.root_eq_of_outline hd
    have hnext : s.draft.next = s'.draft.next := Draft.next_eq_of_outline hd
    rw [hroot, hnext, Drafting.catalog_eq_of_outline h, hc'] at hc
    cases hc
    have hpush := Draft.outline_push hd hq hq' (.place info)
    have hnew : Drafting.outline ⟨s.draft.push target q (.place info), c⟩ =
        Drafting.outline ⟨s'.draft.push target q' (.place info), c⟩ := Drafting.outline_eq hpush rfl
    obtain ⟨hout, hcont⟩ := ih hnew hrest hrest'
    exact ⟨hout, (Draft.continues_push _ _ _ _).trans hcont⟩

/-- Placing members and accounting for their bits. -/
theorem setBits_outline {used used' groups : UInt32} (h : s.outline = s'.outline)
    (hused : used' = used ∨ ∃ n, s.draft.nodes[target]? = some n ∧ n.kind.type ≠ .bitStruct)
    (hu : placeAll target infos s = .ok () u) (hu' : placeAll target infos s' = .ok () u') :
    Drafting.outline { u with draft := u.draft.setBits target used groups } =
        Drafting.outline { u' with draft := u'.draft.setBits target used' groups } ∧
      s.draft.Continues (u.draft.setBits target used groups) := by
  obtain ⟨hout, hcont⟩ := placeAll_outline h hu hu'
  have hcatalog : u.catalog = u'.catalog := Drafting.catalog_eq_of_outline hout
  have hset : (u.draft.setBits target used groups).outline =
      (u'.draft.setBits target used' groups).outline := by
    refine Draft.outline_setBits (Drafting.draft_eq_of_outline hout) (hused.imp_right ?_)
    rintro ⟨n, hn, hk⟩
    obtain ⟨n', hn', hgrows⟩ := hcont _ n hn
    exact ⟨n', hn', hgrows.kind ▸ hk⟩
  exact ⟨Drafting.outline_eq hset hcatalog, hcont.trans (Draft.continues_setBits _ _ _ _)⟩

/-- Plans that are alike are carried out alike. -/
theorem applyPlan_outline {a b : PlacePlan} (h : s.outline = s'.outline) (hab : a.Alike s.draft b)
    (hu : applyPlan a s = .ok () u) (hu' : applyPlan b s' = .ok () u') :
    u.outline = u'.outline ∧ s.draft.Continues u.draft := by
  unfold applyPlan at hu hu'
  rw [← hab.infos, ← hab.implicit, ← hab.target, ← hab.groups] at hu'
  by_cases hne : (! a.infos.isEmpty) = true
  · rw [if_pos hne] at hu hu'
    by_cases himp : a.implicitDense = true
    · rw [if_pos himp] at hu hu'
      obtain ⟨i, v, hi, hu⟩ := of_bind hu
      obtain ⟨i', v', hi', hu'⟩ := of_bind hu'
      obtain ⟨rfl, hv, hcont⟩ := push_outline h hi hi'
      obtain ⟨_, w, hw, hu⟩ := of_bind hu
      obtain ⟨_, w', hw', hu'⟩ := of_bind hu'
      cases hu
      cases hu'
      -- the new node is dense, so its bits say nothing
      obtain ⟨q, -, rfl, rfl⟩ := of_push hi
      obtain ⟨hout, hrest⟩ := setBits_outline hv
        (Or.inr ⟨_, Draft.getElem?_push_next, fun htype => by cases htype⟩) hw hw'
      exact ⟨hout, hcont.trans hrest⟩
    · rw [if_neg himp] at hu hu'
      obtain ⟨_, w, hw, hset⟩ := of_bind (m := placeAll a.target a.infos) hu
      obtain ⟨_, w', hw', hset'⟩ := of_bind (m := placeAll a.target a.infos) hu'
      cases hset
      cases hset'
      exact setBits_outline h hab.used hw hw'
  · rw [if_neg hne] at hu hu'
    cases hu
    cases hu'
    exact ⟨h, .refl _⟩

theorem applyPlans_outline {d : Draft} {as bs : List PlacePlan} (h : s.outline = s'.outline)
    (hab : List.Forall₂ (PlacePlan.Alike d) as bs) (hd : d.Continues s.draft)
    (hu : as.forM applyPlan s = .ok () u) (hu' : bs.forM applyPlan s' = .ok () u') :
    u.outline = u'.outline := by
  induction hab generalizing s s' with
  | nil =>
    cases hu
    cases hu'
    exact h
  | cons hab _ ih =>
    obtain ⟨_, v, hv, hu⟩ := of_bind hu
    obtain ⟨_, v', hv', hu'⟩ := of_bind hu'
    obtain ⟨hout, hcont⟩ := applyPlan_outline h (hab.mono hd) hv hv'
    exact ih hout (hd.trans hcont) hu hu'

theorem of_extend {id i : NodeId} {decl : Structural} (h : extend id decl s = .ok i u) :
    ∃ q kind, s.draft.nodes[id]? = some q ∧ decl.kind q.kind.type = .ok kind ∧
      push id kind s = .ok i u := by
  obtain ⟨q, v, hq, hrest⟩ := of_bind h
  obtain ⟨hq, rfl⟩ := of_node hq
  cases hk : decl.kind q.kind.type with
  | error e =>
    simp only [hk] at hrest
    cases hrest
  | ok kind =>
    simp only [hk] at hrest
    exact ⟨q, kind, hq, hk, hrest⟩

theorem extend_outline {id i i' : NodeId} {decl : Structural} (h : s.outline = s'.outline)
    (hi : extend id decl s = .ok i u) (hi' : extend id decl s' = .ok i' u') :
    i = i' ∧ u.outline = u'.outline := by
  obtain ⟨q, kind, hq, hk, hpush⟩ := of_extend hi
  obtain ⟨q', kind', hq', hk', hpush'⟩ := of_extend hi'
  have hnode := Draft.node_eq_of_outline (Drafting.draft_eq_of_outline h) hq hq'
  rw [← Draft.Node.kind_eq_of_outline hnode, hk] at hk'
  cases hk'
  obtain ⟨he, hout, -⟩ := push_outline h hpush hpush'
  exact ⟨he, hout⟩

theorem of_place {groups : List FieldGroup} {o : PlaceOptions}
    (h : place target groups o s = .ok () u) : ∃ q plan, s.draft.nodes[target]? = some q ∧
      planPlace s.catalog target q (FieldGroup.membersOf groups) o = .ok plan ∧
        applyPlan plan s = .ok () u := by
  obtain ⟨q, v, hq, hrest⟩ := of_bind h
  obtain ⟨hq, rfl⟩ := of_node hq
  obtain ⟨w, v', hw, hplan⟩ := of_bind (m := get) hrest
  cases hw
  obtain ⟨plan, v', hplan, hrun⟩ := of_bind hplan
  obtain ⟨hplan, rfl⟩ := of_check hplan
  exact ⟨q, plan, hq, hplan, hrun⟩

theorem place_outline {groups : List FieldGroup} {o : PlaceOptions} (h : s.outline = s'.outline)
    (hu : place target groups o s = .ok () u) (hu' : place target groups o s' = .ok () u') :
    u.outline = u'.outline := by
  obtain ⟨q, a, hq, ha, hrun⟩ := of_place hu
  obtain ⟨q', b, hq', hb, hrun'⟩ := of_place hu'
  have hnode := Draft.node_eq_of_outline (Drafting.draft_eq_of_outline h) hq hq'
  rw [← Drafting.catalog_eq_of_outline h] at hb
  exact (applyPlan_outline h (planPlace_outline hq hnode ha hb) hrun hrun').1

theorem of_lazyGrad {id : NodeId} (h : lazyGrad id s = .ok () u) : ∃ plans,
    (s.draft.postOrder s.draft.nodes.size id).mapM (planAdjoints s) = .ok plans ∧
      plans.flatten.forM applyPlan s = .ok () u := by
  obtain ⟨q, v, hq, hrest⟩ := of_bind h
  obtain ⟨-, rfl⟩ := of_node hq
  obtain ⟨w, v', hw, hplans⟩ := of_bind (m := get) hrest
  cases hw
  obtain ⟨plans, v', hplans, hrun⟩ := of_bind hplans
  obtain ⟨hplans, rfl⟩ := of_check hplans
  exact ⟨plans, hplans, hrun⟩

end DraftM

/-- Two maps over one list that succeed have results that go together. -/
theorem forall₂_mapM {α β ε : Type} {R : β → β → Prop} {f g : α → Except ε β} {l : List α}
    {as bs : List β} (h : ∀ x ∈ l, ∀ a b, f x = .ok a → g x = .ok b → R a b)
    (ha : l.mapM f = .ok as) (hb : l.mapM g = .ok bs) : List.Forall₂ R as bs := by
  induction l generalizing as bs with
  | nil =>
    cases ha
    cases hb
    exact .nil
  | cons x l ih =>
    rw [List.mapM_cons] at ha hb
    obtain ⟨a, hax, ha⟩ := exists_of_bind ha
    obtain ⟨as', has, ha⟩ := exists_of_bind ha
    obtain ⟨b, hbx, hb⟩ := exists_of_bind hb
    obtain ⟨bs', hbs, hb⟩ := exists_of_bind hb
    cases ha
    cases hb
    exact .cons (h x List.mem_cons_self a b hax hbx)
      (ih (fun y hy => h y (List.mem_cons_of_mem _ hy)) has hbs)

/-- Gradients are planned alike. -/
theorem planAdjoints_outline (h : s.outline = s'.outline) {container : NodeId}
    {as bs : List PlacePlan} (ha : planAdjoints s container = .ok as)
    (hb : planAdjoints s' container = .ok bs) : List.Forall₂ (PlacePlan.Alike s.draft) as bs := by
  have hpending : pendingAdjoints s container = pendingAdjoints s' container := by
    rw [← pendingAdjoints_outline s, ← pendingAdjoints_outline s', h]
  unfold planAdjoints at ha hb
  rw [← hpending, ← Drafting.catalog_eq_of_outline h] at hb
  refine forall₂_mapM ?_ ha hb
  rintro ⟨offsets, adjoint⟩ - a b ha hb
  simp only at ha hb
  cases hq : s.draft.nodes[container]? with
  | none =>
    rw [hq] at ha
    cases ha
  | some q =>
    cases hq' : s'.draft.nodes[container]? with
    | none =>
      rw [hq'] at hb
      cases hb
    | some q' =>
      rw [hq] at ha
      rw [hq'] at hb
      have hnode := Draft.node_eq_of_outline (Drafting.draft_eq_of_outline h) hq hq'
      exact planPlace_outline hq hnode ha hb

namespace DraftM

theorem lazyGrad_outline {id : NodeId} (h : s.outline = s'.outline)
    (hu : lazyGrad id s = .ok () u) (hu' : lazyGrad id s' = .ok () u') :
    u.outline = u'.outline := by
  obtain ⟨as, ha, hrun⟩ := of_lazyGrad hu
  obtain ⟨bs, hb, hrun'⟩ := of_lazyGrad hu'
  have hd := Drafting.draft_eq_of_outline h
  have horder : s.draft.postOrder s.draft.nodes.size id =
      s'.draft.postOrder s'.draft.nodes.size id := by
    rw [← Draft.postOrder_outline s.draft, ← Draft.postOrder_outline s'.draft, hd]
    exact congrArg (fun height => s'.draft.outline.postOrder height id) (Draft.next_eq_of_outline hd)
  rw [← horder] at hb
  have hplans : List.Forall₂ (PlacePlan.Alike s.draft) as.flatten bs.flatten :=
    List.rel_flatten (forall₂_mapM (fun _ _ _ _ => planAdjoints_outline h) ha hb)
  exact applyPlans_outline h hplans (.refl _) hrun hrun'

/-- A declaration that both drafts accept does the same to them. -/
theorem declare_outline {id i i' : NodeId} {decl : Declaration} (h : s.outline = s'.outline)
    (hi : declare id decl s = .ok i u) (hi' : declare id decl s' = .ok i' u') :
    i = i' ∧ u.outline = u'.outline := by
  cases decl with
  | node decl => exact extend_outline h hi hi'
  | place groups o =>
    obtain ⟨_, v, hv, hend⟩ := of_bind hi
    obtain ⟨_, v', hv', hend'⟩ := of_bind hi'
    cases hend
    cases hend'
    exact ⟨rfl, place_outline h hv hv'⟩
  | lazyGrad =>
    obtain ⟨_, v, hv, hend⟩ := of_bind hi
    obtain ⟨_, v', hv', hend'⟩ := of_bind hi'
    cases hend
    cases hend'
    exact ⟨rfl, lazyGrad_outline h hv hv'⟩

end DraftM

/-- What changes a tree under construction and the catalog: a declaration on a node, or whatever
other trees and new fields do to the catalog between declarations. -/
inductive BuildStep
  | declare (id : NodeId) (decl : Declaration)
  | elsewhere (change : Catalog → Catalog)

def BuildStep.OfFields : BuildStep → Prop
  | declare _ decl => decl.OfFields
  | elsewhere _ => True

def BuildStep.run : BuildStep → DraftM Unit
  | declare id decl => do
    let _ ← DraftM.declare id decl
  | elsewhere change => modify fun s => { s with catalog := change s.catalog }

namespace DraftM

/-- Steps that are all accepted do the same to drafts with one outline. -/
theorem build_outline {steps : List BuildStep} (h : s.outline = s'.outline)
    (hu : steps.forM BuildStep.run s = .ok () u) (hu' : steps.forM BuildStep.run s' = .ok () u') :
    u.outline = u'.outline := by
  induction steps generalizing s s' with
  | nil =>
    cases hu
    cases hu'
    exact h
  | cons step steps ih =>
    obtain ⟨_, v, hv, hrest⟩ := of_bind hu
    obtain ⟨_, v', hv', hrest'⟩ := of_bind hu'
    refine ih ?_ hrest hrest'
    cases step with
    | declare id decl =>
      obtain ⟨i, w, hw, hend⟩ := of_bind hv
      obtain ⟨i', w', hw', hend'⟩ := of_bind hv'
      cases hend
      cases hend'
      exact (declare_outline h hw hw').2
    | elsewhere change =>
      have hd := Drafting.draft_eq_of_outline h
      have hcatalog := congrArg change (Drafting.catalog_eq_of_outline h)
      cases hv
      cases hv'
      exact Drafting.outline_eq hd hcatalog

theorem built_of_build {steps : List BuildStep} (h : s.draft.Built)
    (hf : ∀ step ∈ steps, step.OfFields) (hu : steps.forM BuildStep.run s = .ok () u) :
    u.draft.Built := by
  induction steps generalizing s with
  | nil =>
    cases hu
    exact h
  | cons step steps ih =>
    obtain ⟨_, v, hv, hrest⟩ := of_bind hu
    refine ih ?_ (fun step hmem => hf step (List.mem_cons_of_mem _ hmem)) hrest
    cases step with
    | declare id decl =>
      obtain ⟨i, w, hw, hend⟩ := of_bind hv
      cases hend
      exact .declared h (hf _ List.mem_cons_self) hw
    | elsewhere change =>
      cases hv
      exact h

end DraftM

namespace Draft

theorem outline_new (root : RootId) (p p' : Packing) :
    (new root p).outline = (new root p').outline := rfl

/-- Drafts with one outline are compiled to trees with one outline. -/
theorem compile_outline {d e : Draft} {tree tree' : TreeId} {c c' : Bool} {t t' : Layout}
    (h : d.outline = e.outline) (ht : d.compile tree c = .ok t) (ht' : e.compile tree' c' = .ok t') :
    t.outline = t'.outline := by
  have compiled {d : Draft} {tree : TreeId} {c : Bool} {t : Layout}
      (ht : d.compile tree c = .ok t) (i : NodeId) :
      t.outline.nodes[i]? = (d.outline.nodes[i]?).map fun n =>
        { n with toMeasure := default, id := i, offset := 0 } := by
    obtain ⟨_, -, ht⟩ := exists_of_bind ht
    obtain ⟨_, -, ht⟩ := exists_of_bind ht
    cases ht
    rw [Layout.getElem?_outline, getElem?_outline, Array.getElem?_mapIdx]
    cases d.nodes[i]? <;> rfl
  have hnodes : t.outline.nodes = t'.outline.nodes :=
    Array.ext_getElem? fun i => by rw [compiled ht, compiled ht', h]
  unfold Layout.outline at hnodes ⊢
  congr 1

end Draft

end SparseLayout
