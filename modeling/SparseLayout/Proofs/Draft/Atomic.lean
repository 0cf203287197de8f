import SparseLayout.Proofs.Catalog
import SparseLayout.Proofs.Draft.Pending

namespace SparseLayout

open Draft (Node)

/-- A draft that places members which the catalog registers, each where the catalog records it. -/
structure Drafting.Registered (s : Drafting) (known : Member → Prop) : Prop where
  grown : s.draft.Grown
  members : s.catalog.Registers known
  places : ∀ {id : NodeId} {info : PlaceInfo}, s.draft.placeAt? id = some info → known info.member
  consistent : s.Consistent

/-- Only known members are placed. -/
def Declaration.Uses (decl : Declaration) (known : Member → Prop) : Prop :=
  match decl with
  | .place groups _ => ∀ m ∈ FieldGroup.membersOf groups, known m
  | _ => True

/-- The second draft is the first with one new place per member, in order, behind the children of
`target`. Under the root, they lie below a new dense node without axes. -/
structure Draft.Receives (d d' : Draft) (target : NodeId) (ms : List Member) : Prop where
  nothing : ms = [] → d' = d
  under : ms ≠ [] → target ≠ 0 →
    ∃ infos, infos.map (·.member) = ms ∧ d.PlacedUnder d' target infos
  under_root : ms ≠ [] → target = 0 → ∃ q infos, d.nodes[0]? = some q ∧
    infos.map (·.member) = ms ∧ (d.push 0 q (.dense [])).PlacedUnder d' d.next infos

namespace Drafting.Registered

variable {s s' : Drafting} {known : Member → Prop} {ms : List Member}

/-- Fresh members that are known can be placed. -/
theorem placeable (h : s.Registered known) (hfresh : s.catalog.Fresh ms)
    (hms : ∀ m ∈ ms, known m) : s.catalog.Placeable ms :=
  ⟨hfresh, fun m hm => h.members.id_lt (hms m hm)⟩

/-- A member is placed by one node only. -/
theorem eq_of_placeAt? (h : s.Registered known) {id id' : NodeId} {info info' : PlaceInfo}
    (hid : s.draft.placeAt? id = some info) (hid' : s.draft.placeAt? id' = some info')
    (hm : info.member.id = info'.member.id) : id = id' := by
  have hp := (h.consistent info.member.id id).2 (by rw [hid]; rfl)
  have hp' := (h.consistent info.member.id id').2 (by rw [hid', hm]; rfl)
  rw [hp, Option.some.injEq] at hp'
  exact congrArg Placement.node hp'

/-- A pending adjoint is that of a known member. -/
theorem of_pendingAt (h : s.Registered known) {id : NodeId} {o : List Int32} {a : Member}
    (hp : pendingAt s id = some (o, a)) : ∃ info, s.draft.placeAt? id = some info ∧
      known info.member ∧ info.member.adjoint? = some a ∧ s.catalog.isPlaced a = false := by
  obtain ⟨info, hinfo, hadj, hfree⟩ := SparseLayout.of_pendingAt hp
  exact ⟨info, hinfo, h.places hinfo, hadj, hfree⟩

theorem exists_pendingAt {ids : List NodeId} {a : Member}
    (ha : a ∈ (ids.filterMap (pendingAt s)).map (·.2)) : ∃ id o, pendingAt s id = some (o, a) := by
  obtain ⟨⟨o, a'⟩, hmem, rfl⟩ := List.mem_map.1 ha
  obtain ⟨id, -, hp⟩ := List.mem_filterMap.1 hmem
  exact ⟨id, o, hp⟩

theorem pending_known (h : s.Registered known) {ids : List NodeId} {a : Member}
    (ha : a ∈ (ids.filterMap (pendingAt s)).map (·.2)) : known a := by
  obtain ⟨id, o, hp⟩ := exists_pendingAt ha
  obtain ⟨info, -, hknown, hadj, -⟩ := h.of_pendingAt hp
  exact h.members.adjoint hknown hadj

/-- The pending adjoints of different nodes can be placed together. -/
theorem pending_placeable (h : s.Registered known) {ids : List NodeId} (hids : ids.Nodup) :
    s.catalog.Placeable ((ids.filterMap (pendingAt s)).map (·.2)) := by
  refine h.placeable ⟨?_, fun a ha => ?_⟩ fun a => h.pending_known
  · rw [List.map_map, List.map_filterMap]
    refine hids.filterMap ?_
    -- equal adjoints are those of one member, which one node places
    intro id id' i hi hi'
    obtain ⟨⟨o, a⟩, hp, rfl⟩ := Option.map_eq_some_iff.1 hi
    obtain ⟨⟨o', a'⟩, hp', he⟩ := Option.map_eq_some_iff.1 hi'
    obtain ⟨info, hinfo, hknown, hadj, -⟩ := h.of_pendingAt hp
    obtain ⟨info', hinfo', hknown', hadj', -⟩ := h.of_pendingAt hp'
    have hm := h.members.adjoint_inj hknown hknown' hadj hadj' he.symm
    exact h.eq_of_placeAt? hinfo hinfo' (congrArg (·.id) hm)
  · obtain ⟨id, o, hp⟩ := exists_pendingAt ha
    obtain ⟨-, -, -, -, hfree⟩ := h.of_pendingAt hp
    exact hfree

/-- The adjoints of what is placed are known. -/
theorem lazyGrad_known (h : s.Registered known) {id : NodeId} {plans : List (List PlacePlan)}
    (hplans : (s.draft.postOrder s.draft.nodes.size id).mapM (planAdjoints s) = .ok plans) :
    ∀ m ∈ plans.flatten.flatMap (·.members), known m := by
  rw [planAdjoints_members hplans]
  exact fun a => h.pending_known

theorem lazyGrad_placeable (h : s.Registered known) {id : NodeId} {plans : List (List PlacePlan)}
    (hplans : (s.draft.postOrder s.draft.nodes.size id).mapM (planAdjoints s) = .ok plans) :
    s.catalog.Placeable (plans.flatten.flatMap (·.members)) := by
  rw [planAdjoints_members hplans]
  exact h.pending_placeable (h.grown.nodup_children (h.grown.nodup_postOrder _ id))

theorem lazyGrad_fits {id : NodeId} {plans : List (List PlacePlan)}
    (hplans : (s.draft.postOrder s.draft.nodes.size id).mapM (planAdjoints s) = .ok plans) :
    ∀ plan ∈ plans.flatten, plan.Fits s.draft := by
  intro plan hplan
  obtain ⟨ps, hps, hmem⟩ := List.mem_flatten.1 hplan
  obtain ⟨container, -, hc⟩ := of_mapM hplans ps hps
  exact planAdjoints_fits hc plan hmem

end Drafting.Registered

namespace DraftM

variable {s : Drafting} {known : Member → Prop} {id target : NodeId} {q : Node}

/-- A plan that was accepted is carried out. -/
theorem ends_applyPlan_planPlace (h : s.Registered known) (hq : s.draft.nodes[target]? = some q)
    {ms : List Member} (hms : ∀ m ∈ ms, known m) {o : PlaceOptions} {plan : PlacePlan}
    (hplan : planPlace s.catalog target q ms o = .ok plan) :
    Ends (applyPlan plan) s
      (fun _ s' => s.draft.Receives s'.draft target ms ∧ s.Binds s' ms) fun _ => False := by
  obtain ⟨hmembers, htarget, himplicit, hfresh⟩ := planPlace_members hplan
  have hplaceable := h.placeable hfresh hms
  rw [← hmembers] at hplaceable
  refine (ends_applyPlan_placeable (htarget ▸ hq) hplaceable).mono ?_ fun _ => id
  rintro _ s' ⟨hresult, hbinds⟩
  have hnil : ms = [] ↔ plan.infos = [] := by
    rw [← hmembers, PlacePlan.members, List.map_eq_nil_iff]
  refine ⟨⟨fun hms => hresult.nothing (hnil.1 hms), ?_, ?_⟩, hmembers ▸ hbinds⟩
  · intro hne h0
    have himp : plan.implicitDense = false := (himplicit hne).trans (decide_eq_false h0)
    have hplaced := hresult.explicit (mt hnil.2 hne) himp
    exact ⟨plan.infos, hmembers, htarget ▸ hplaced⟩
  · intro hne h0
    have himp : plan.implicitDense = true := (himplicit hne).trans (decide_eq_true h0)
    obtain ⟨q', hq', hplaced⟩ := hresult.implicit (mt hnil.2 hne) himp
    rw [htarget, h0] at hq' hplaced
    exact ⟨q', plan.infos, hq', hmembers, hplaced⟩

/-- Plans for the adjoints of a subtree are carried out to the end. -/
theorem ends_applyPlans_lazyGrad (h : s.Registered known) {plans : List (List PlacePlan)}
    (hplans : (s.draft.postOrder s.draft.nodes.size id).mapM (planAdjoints s) = .ok plans) :
    Ends (plans.flatten.forM applyPlan) s
      (fun _ s' => s.Binds s' (plans.flatten.flatMap (·.members))) fun _ => False :=
  ends_applyPlans_placeable (Drafting.Registered.lazyGrad_fits hplans) (h.lazyGrad_placeable hplans)

/-- A declaration that is carried out places known members, where those that it was given are
received by the node; one that is refused changes nothing. -/
theorem ends_declare_atomic (h : s.Registered known) (id : NodeId) {decl : Declaration}
    (hd : decl.Uses known) :
    Ends (declare id decl) s (fun id' s' => (∃ ms, (∀ m ∈ ms, known m) ∧ s.Binds s' ms) ∧
      ∀ groups o, decl = .place groups o → id' = id ∧
        s.draft.Receives s'.draft id (FieldGroup.membersOf groups)) fun s' => s' = s := by
  -- all checks of a declaration come before its first change
  cases decl with
  | node decl =>
    unfold declare extend
    refine Ends.bind (ends_node ?_ fun _ => rfl)
    intro q hq
    cases hk : decl.kind q.kind.type with
    | error e => exact ends_throw rfl
    | ok kind =>
      refine ends_push hq ⟨⟨[], fun m hm => absurd hm List.not_mem_nil, ?_⟩,
        fun _ _ he => nomatch he⟩
      refine .of_placeAt? rfl fun id' => ?_
      rw [Draft.placeAt?_push]
      split
      · rename_i hid
        rw [hid, Draft.placeAt?_next]
        cases kind <;> first | rfl | exact absurd rfl (Structural.kind_ne_place hk _)
      · rfl
  | place groups o =>
    refine Ends.bind (Ends.bind (ends_node ?_ fun _ => rfl))
    intro q hq
    refine Ends.bind (ends_get (Ends.bind (ends_check ?_ rfl)))
    intro plan hplan
    refine (ends_applyPlan_planPlace h hq hd hplan).mono ?_ fun _ hs => hs.elim
    rintro _ s' ⟨hreceives, hbinds⟩
    refine ends_pure ⟨⟨_, hd, hbinds⟩, ?_⟩
    rintro _ _ ⟨⟩
    exact ⟨rfl, hreceives⟩
  | lazyGrad =>
    refine Ends.bind (Ends.bind (ends_node ?_ fun _ => rfl))
    intro _ _
    refine Ends.bind (ends_get (Ends.bind (ends_check ?_ rfl)))
    intro plans hplans
    refine (ends_applyPlans_lazyGrad h hplans).mono ?_ fun _ hs => hs.elim
    intro _ s' hbinds
    exact ends_pure ⟨⟨_, h.lazyGrad_known hplans, hbinds⟩, fun _ _ he => nomatch he⟩

end DraftM

end SparseLayout
