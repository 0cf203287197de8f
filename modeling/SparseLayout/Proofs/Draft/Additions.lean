import SparseLayout.Proofs.Draft.Built

namespace SparseLayout

open Draft (Node)

/-- A place fits under any node but the root. -/
def Draft.Node.Fits (q : Node) (p : NodeId) (kind : Kind) : Prop :=
  ∀ info, kind = .place info →
    p ≠ 0 ∧ (info.indexOffsets = [] ∨ info.indexOffsets.length = q.index.arity)

namespace Draft

/-- The second draft is the first one with nodes added and bits accounted for. -/
inductive Adds (d : Draft) : Draft → Prop
  | refl : Adds d d
  | push {d' : Draft} {p : NodeId} {q : Node} {kind : Kind} (h : Adds d d')
    (hq : d'.nodes[p]? = some q) (hk : q.Fits p kind) : Adds d (d'.push p q kind)
  | setBits {d' : Draft} (h : Adds d d') (p : NodeId) (used groups : UInt32) :
    Adds d (d'.setBits p used groups)

variable {d d' d'' : Draft} {p : NodeId} {q : Node} {kind : Kind}

theorem Adds.continues (h : d.Adds d') : d.Continues d' := by
  induction h with
  | refl => exact .refl d
  | push _ _ _ ih => exact ih.trans (continues_push _ _ _ _)
  | setBits _ p used groups ih => exact ih.trans (continues_setBits _ _ _ _)

theorem Adds.trans (h : d.Adds d') (h' : d'.Adds d'') : d.Adds d'' := by
  induction h' with
  | refl => exact h
  | push _ hq hk ih => exact .push ih hq hk
  | setBits _ p used groups ih => exact .setBits ih p used groups

theorem Adds.size_le (h : d.Adds d') : d.nodes.size ≤ d'.nodes.size := by
  induction h with
  | refl => exact Nat.le_refl _
  | push _ _ _ ih => exact Nat.le_trans ih (by simp)
  | setBits _ p used groups ih => exact Nat.le_trans ih (by simp)

end Draft

/-- A plan for an existing node, with offsets for the indices of this node. -/
structure PlacePlan.Fits (plan : PlacePlan) (d : Draft) : Prop where
  implicit : plan.infos ≠ [] → plan.target = 0 → plan.implicitDense = true
  target : ∃ q, d.nodes[plan.target]? = some q ∧ ∀ i ∈ plan.infos,
    i.indexOffsets = [] ∨ i.indexOffsets.length = q.index.arity

theorem PlacePlan.Fits.mono {plan : PlacePlan} {d d' : Draft} (h : plan.Fits d)
    (hd : d.Continues d') : plan.Fits d' := by
  obtain ⟨q, hq, hi⟩ := h.target
  obtain ⟨q', hq', hg⟩ := hd _ q hq
  exact ⟨h.implicit, q', hq', hg.index ▸ hi⟩

theorem PlaceOptions.length_offsets {o : PlaceOptions} {indices : Nat} {offsets : List Int32}
    (h : o.offsets indices = .ok offsets) : offsets = [] ∨ offsets.length = indices := by
  unfold PlaceOptions.offsets at h
  split at h
  · cases h
    exact Or.inl rfl
  · cases h
    exact Or.inr (List.length_replicate ..)
  · split at h <;> cases h
    exact Or.inr ‹_›

/-- A plan that was accepted fits the tree that it was made for. -/
theorem planPlace_fits {c : Catalog} {d : Draft} {target : NodeId} {node : Node}
    {ms : List Member} {o : PlaceOptions} {plan : PlacePlan} (hn : d.nodes[target]? = some node)
    (h : planPlace c target node ms o = .ok plan) : plan.Fits d := by
  rcases planPlace_ok h with ⟨-, -, rfl⟩ | ⟨offsets, b, -, -, hoffsets, -, rfl⟩
  · exact ⟨fun hne => absurd rfl hne, node, hn, fun i hi => absurd hi List.not_mem_nil⟩
  · refine ⟨fun _ h0 => decide_eq_true h0, node, hn, ?_⟩
    intro i hi
    exact (of_mem_placeInfos hi).2 ▸ PlaceOptions.length_offsets hoffsets

theorem planAdjoints_fits {s : Drafting} {container : NodeId} {plans : List PlacePlan}
    (hplans : planAdjoints s container = .ok plans) : ∀ plan ∈ plans, plan.Fits s.draft := by
  intro plan hplan
  obtain ⟨⟨offsets, adjoint⟩, -, hp⟩ := of_mapM hplans plan hplan
  cases hq : s.draft.nodes[container]? with
  | none => simp [hq] at hp
  | some q =>
    simp only [hq] at hp
    exact planPlace_fits hq hp

namespace DraftM

/-- The declaration adds to the draft, also where it is refused. -/
def OnlyAdds (m : DraftM α) (s : Drafting) : Prop :=
  Ends m s (fun _ s' => s.draft.Adds s'.draft) fun s' => s.draft.Adds s'.draft

variable {s : Drafting} {target : NodeId} {q : Node} {infos : List PlaceInfo} {plan : PlacePlan}

theorem placeAll_onlyAdds (hq : s.draft.nodes[target]? = some q) (h0 : target ≠ 0)
    (hi : ∀ i ∈ infos, i.indexOffsets = [] ∨ i.indexOffsets.length = q.index.arity) :
    OnlyAdds (placeAll target infos) s := by
  induction infos generalizing s q with
  | nil => exact ends_pure .refl
  | cons info rest ih =>
    have hstep : s.draft.Adds (s.draft.push target q (.place info)) := by
      refine .push .refl hq ?_
      rintro i hi'
      cases hi'
      exact ⟨h0, hi info List.mem_cons_self⟩
    obtain ⟨q', hq', hg⟩ := hstep.continues _ q hq
    refine ends_placeAll_cons hq ?_ fun _ => hstep
    intro c _
    refine (ih (s := ⟨s.draft.push target q (.place info), c⟩) hq'
      fun i hm => hg.index ▸ hi i (List.mem_cons_of_mem _ hm)).mono ?_ ?_
    · exact fun _ s' hs => hstep.trans hs
    · exact fun s' hs => hstep.trans hs

theorem applyPlan_onlyAdds (hp : plan.Fits s.draft) : OnlyAdds (applyPlan plan) s := by
  obtain ⟨q, hq, hi⟩ := hp.target
  refine ends_applyPlan hq (fun _ => .refl) ?_ ?_
  · intro hne himp
    have h0 : plan.target ≠ 0 := fun h0 => absurd (hp.implicit hne h0) (Bool.eq_false_iff.1 himp)
    exact (placeAll_onlyAdds hq h0 hi).mono (fun _ s' hs => .setBits hs _ _ _) fun _ hs => hs
  · intro _ _
    have hnext : s.draft.next ≠ 0 := Nat.ne_of_gt s.draft.nodes_ne
    have hpush : s.draft.Adds (s.draft.push plan.target q (.dense [])) :=
      .push .refl hq fun _ hk => nomatch hk
    exact (placeAll_onlyAdds (s := ⟨_, s.catalog⟩) Draft.getElem?_push_next hnext hi).mono
      (fun _ s' hs => .setBits (hpush.trans hs) _ _ _) fun _ hs => hpush.trans hs

theorem applyPlans_onlyAdds {plans : List PlacePlan} (hp : ∀ plan ∈ plans, plan.Fits s.draft) :
    OnlyAdds (plans.forM applyPlan) s := by
  induction plans generalizing s with
  | nil => exact ends_pure .refl
  | cons plan rest ih =>
    refine Ends.bind ((applyPlan_onlyAdds (hp plan List.mem_cons_self)).mono ?_ fun _ hs => hs)
    intro _ s' hs
    refine (ih fun p hmem => (hp p (List.mem_cons_of_mem _ hmem)).mono hs.continues).mono ?_ ?_
    · exact fun _ s'' hs' => hs.trans hs'
    · exact fun s'' hs' => hs.trans hs'

theorem extend_onlyAdds (id : NodeId) (decl : Structural) : OnlyAdds (extend id decl) s := by
  unfold OnlyAdds extend
  apply Ends.bind
  refine ends_node ?_ fun _ => .refl
  intro q hq
  cases hk : decl.kind q.kind.type with
  | error e => exact Draft.Adds.refl
  | ok kind =>
    exact ends_push hq (.push .refl hq fun info hi => absurd hi (Structural.kind_ne_place hk info))

/-- Every declaration only adds to the draft. -/
theorem declare_onlyAdds (id : NodeId) (decl : Declaration) : OnlyAdds (declare id decl) s := by
  cases decl with
  | node decl => exact extend_onlyAdds id decl
  | place groups o =>
    refine Ends.bind (Ends.bind (ends_node ?_ fun _ => .refl))
    intro q hq
    refine Ends.bind (ends_get (Ends.bind (ends_check ?_ .refl)))
    intro plan hplan
    exact applyPlan_onlyAdds (planPlace_fits hq hplan)
  | lazyGrad =>
    refine Ends.bind (Ends.bind (ends_node ?_ fun _ => .refl))
    intro _ _
    refine Ends.bind (ends_get (Ends.bind (ends_check ?_ .refl)))
    intro plans hplans
    refine applyPlans_onlyAdds ?_
    intro plan hplan
    obtain ⟨ps, hps, hmem⟩ := List.mem_flatten.1 hplan
    obtain ⟨container, -, hc⟩ := of_mapM hplans ps hps
    exact planAdjoints_fits hc plan hmem

end DraftM

/-- What was built was added to a new tree. -/
theorem Draft.Built.adds {d : Draft} (h : d.Built) :
    ∃ root packing, (Draft.new root packing).Adds d := by
  induction h with
  | new root packing => exact ⟨root, packing, .refl⟩
  | @declared d c id id' decl s _ _ hs ih =>
    obtain ⟨root, packing, hadds⟩ := ih
    have hstep := DraftM.declare_onlyAdds (s := ⟨d, c⟩) id decl
    rw [DraftM.OnlyAdds, DraftM.Ends, hs] at hstep
    exact ⟨root, packing, hadds.trans hstep⟩
  | @refused d c id decl e s _ _ hs ih =>
    obtain ⟨root, packing, hadds⟩ := ih
    have hstep := DraftM.declare_onlyAdds (s := ⟨d, c⟩) id decl
    rw [DraftM.OnlyAdds, DraftM.Ends, hs] at hstep
    exact ⟨root, packing, hadds.trans hstep⟩

end SparseLayout
