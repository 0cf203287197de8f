import SparseLayout.Proofs.Draft.Additions

namespace SparseLayout

open Draft (Node)

namespace Draft

/-- What a node places, if it is a place. -/
def placeAt? (d : Draft) (id : NodeId) : Option PlaceInfo := d.nodes[id]?.bind (·.kind.place?)

/-- The second draft is the first with one new place for each entry, listed in order behind the
other children of `target`, whose bits may be accounted for anew. -/
structure PlacedUnder (d d' : Draft) (target : NodeId) (infos : List PlaceInfo) : Prop where
  root : d'.root = d.root
  packing : d'.packing = d.packing
  size : d'.nodes.size = d.nodes.size + infos.length
  parent : ∃ n bitsUsed exponentGroups, d.nodes[target]? = some n ∧
    d'.nodes[target]? = some { n with
      children := n.children ++ List.range' d.nodes.size infos.length, bitsUsed, exponentGroups }
  other : ∀ id, id < d.nodes.size → id ≠ target → d'.nodes[id]? = d.nodes[id]?
  places : ∀ k info, infos[k]? = some info → ∃ n, d.nodes[target]? = some n ∧
    d'.nodes[d.nodes.size + k]? =
      some (n.child d.packing (d.nodes.size + k) target (.place info))

variable {d d' : Draft} {id p target : NodeId} {n q : Node} {kind : Kind} {info : PlaceInfo}
  {infos : List PlaceInfo}

theorem placeAt?_push (d : Draft) (p : NodeId) (q : Node) (kind : Kind) (id : NodeId) :
    (d.push p q kind).placeAt? id = if id = d.next then kind.place? else d.placeAt? id := by
  unfold placeAt?
  by_cases hid : id = d.next
  · rw [if_pos hid, hid, getElem?_push_next]
    rfl
  · rw [if_neg hid, getElem?_push, if_neg hid]
    split
    · cases d.nodes[id]? <;> rfl
    · rfl

theorem placeAt?_setBits (used groups : UInt32) (id : NodeId) :
    (d.setBits p used groups).placeAt? id = d.placeAt? id := by
  unfold placeAt?
  rw [getElem?_setBits]
  split
  · cases d.nodes[id]? <;> rfl
  · rfl

theorem placeAt?_next (d : Draft) : d.placeAt? d.next = none := by
  unfold placeAt? next
  rw [Array.getElem?_eq_none (Nat.le_refl _)]
  rfl

theorem PlacedUnder.nil (hn : d.nodes[target]? = some n) : d.PlacedUnder d target [] := by
  refine ⟨rfl, rfl, rfl, ⟨n, n.bitsUsed, n.exponentGroups, hn, ?_⟩, fun _ _ _ => rfl, ?_⟩
  · rw [hn, List.length_nil, List.range'_zero, List.append_nil]
  · intro k info hk
    cases hk

/-- One place first, and then the others. -/
theorem PlacedUnder.cons (hq : d.nodes[target]? = some q)
    (h : (d.push target q (.place info)).PlacedUnder d' target infos) :
    d.PlacedUnder d' target (info :: infos) := by
  have hlt : target < d.nodes.size := lt_next_of_some hq
  have hsize := size_push d target q (.place info)
  have hpush : (d.push target q (.place info)).nodes[target]? =
      some { q with children := q.children ++ [d.next] } := by
    rw [getElem?_push_of_some hq, if_pos rfl]
  obtain ⟨n, used, groups, hn, hn'⟩ := h.parent
  rw [hpush, Option.some.injEq] at hn
  refine ⟨h.root, h.packing, ?_, ⟨q, used, groups, hq, ?_⟩, ?_, ?_⟩
  · rw [h.size, hsize, List.length_cons]
    omega
  · rw [hn', ← hn, hsize, List.length_cons, List.range'_succ, List.append_assoc]
    rfl
  · intro id hid hne
    rw [h.other id (by omega) hne, getElem?_push, if_neg (by exact Nat.ne_of_lt hid), if_neg hne]
  · intro k info' hk
    refine ⟨q, hq, ?_⟩
    cases k with
    | zero =>
      rw [List.getElem?_cons_zero, Option.some.injEq] at hk
      rw [Nat.add_zero, h.other _ (by omega) (Nat.ne_of_gt hlt), ← hk]
      exact getElem?_push_next
    | succ k =>
      obtain ⟨m, hm, hplace⟩ := h.places k info' hk
      rw [hpush, Option.some.injEq] at hm
      rw [hsize, Nat.add_assoc, Nat.add_comm 1 k, ← hm] at hplace
      exact hplace

theorem PlacedUnder.setBits (h : d.PlacedUnder d' target infos) (used groups : UInt32) :
    d.PlacedUnder (d'.setBits target used groups) target infos := by
  obtain ⟨n, used', groups', hn, hn'⟩ := h.parent
  have hlt : target < d.nodes.size := lt_next_of_some hn
  refine ⟨h.root, h.packing, (size_setBits ..).trans h.size, ⟨n, used, groups, hn, ?_⟩, ?_, ?_⟩
  · rw [getElem?_setBits_of_some hn', if_pos rfl]
  · intro id hid hne
    rw [getElem?_setBits, if_neg hne, h.other id hid hne]
  · intro k info hk
    obtain ⟨m, hm, hplace⟩ := h.places k info hk
    have hne : d.nodes.size + k ≠ target :=
      Nat.ne_of_gt (Nat.lt_of_lt_of_le hlt (Nat.le_add_right ..))
    exact ⟨m, hm, by rw [getElem?_setBits, if_neg hne, hplace]⟩

end Draft

namespace Drafting

/-- The places of the draft are those that the catalog records for its root. -/
def Consistent (s : Drafting) : Prop :=
  ∀ (i : MemberId) (id : NodeId), s.catalog.placement? i = some ⟨s.draft.root, id⟩ ↔
    (s.draft.placeAt? id).map (·.member.id) = some i

/-- The members were placed in the draft and recorded, and nothing else was. -/
structure Binds (s s' : Drafting) (ms : List Member) : Prop where
  root : s'.draft.root = s.draft.root
  roots : s'.catalog.roots = s.catalog.roots
  size : s'.catalog.placements.size = s.catalog.placements.size
  other : ∀ i, i ∉ ms.map (·.id) → s'.catalog.placement? i = s.catalog.placement? i
  fresh : ∀ m ∈ ms, s.catalog.placement? m.id = none
  here : ∀ m ∈ ms, ∃ id, s'.catalog.placement? m.id = some ⟨s.draft.root, id⟩
  places : ∀ id info, s'.draft.placeAt? id = some info →
    s.draft.placeAt? id = some info ∨ info.member ∈ ms
  consistent : s.Consistent → s'.Consistent

variable {s s' s'' : Drafting} {ms ms' : List Member}

/-- Changes of the draft that touch no place bind nothing. -/
theorem Binds.of_placeAt? {d : Draft} (hroot : d.root = s.draft.root)
    (h : ∀ id, d.placeAt? id = s.draft.placeAt? id) : s.Binds { s with draft := d } [] := by
  refine ⟨hroot, rfl, rfl, fun _ _ => rfl, fun m hm => absurd hm List.not_mem_nil,
    fun m hm => absurd hm List.not_mem_nil, fun id info hi => Or.inl (h id ▸ hi), fun hs i id => ?_⟩
  rw [h, hroot]
  exact hs i id

theorem Binds.refl (s : Drafting) : s.Binds s [] := .of_placeAt? rfl fun _ => rfl

theorem Binds.trans (h : s.Binds s' ms) (h' : s'.Binds s'' ms') : s.Binds s'' (ms ++ ms') := by
  refine ⟨h'.root.trans h.root, h'.roots.trans h.roots, h'.size.trans h.size, ?other, ?fresh, ?here,
    ?places, fun hs => h'.consistent (h.consistent hs)⟩
  case other =>
    intro i hi
    rw [List.map_append, List.mem_append, not_or] at hi
    rw [h'.other i hi.2, h.other i hi.1]
  case fresh =>
    intro m hm
    rcases List.mem_append.1 hm with hm | hm
    · exact h.fresh m hm
    · -- a member that was placed first is no longer free when the others are placed
      by_cases hid : m.id ∈ ms.map (·.id)
      · obtain ⟨m₀, hm₀, he⟩ := List.mem_map.1 hid
        obtain ⟨id, hp⟩ := h.here m₀ hm₀
        have hnone := h'.fresh m hm
        rw [← he, hp] at hnone
        cases hnone
      · rw [← h.other _ hid]
        exact h'.fresh m hm
  case here =>
    intro m hm
    by_cases hm' : m.id ∈ ms'.map (·.id)
    · obtain ⟨m', hmem, hid⟩ := List.mem_map.1 hm'
      obtain ⟨id, hp⟩ := h'.here m' hmem
      exact ⟨id, by rw [← hid, hp, h.root]⟩
    · have hmem : m ∈ ms :=
        (List.mem_append.1 hm).resolve_right fun hmem => hm' (List.mem_map_of_mem hmem)
      rw [h'.other _ hm']
      exact h.here m hmem
  case places =>
    intro id info hi
    rw [List.mem_append]
    rcases h'.places id info hi with hi | hm
    · exact (h.places id info hi).imp_right Or.inl
    · exact Or.inr (Or.inr hm)

end Drafting

theorem Catalog.size_bind {m : Member} {p : Placement} {c c' : Catalog} {u : Unit}
    (h : Catalog.bind m p c = .ok u c') :
    c'.placements.size = c.placements.size ∧ c'.roots = c.roots := by
  unfold Catalog.bind at h
  split at h
  · cases h
  · cases h
    exact ⟨by simp, rfl⟩

/-- A place that is added and bound. -/
theorem Drafting.Binds.place {s : Drafting} (target : NodeId) (q : Node) {info : PlaceInfo}
    {c : Catalog} (hlt : info.member.id < s.catalog.placements.size)
    (hb : Catalog.bind info.member ⟨s.draft.root, s.draft.next⟩ s.catalog = .ok () c) :
    s.Binds ⟨s.draft.push target q (.place info), c⟩ [info.member] := by
  have hplacement := Catalog.placement?_bind hlt hb
  have hfree : s.catalog.placement? info.member.id = none := by
    have := Catalog.bind_eq_ok_iff.1 ⟨c, hb⟩
    simpa [Catalog.isPlaced] using this
  obtain ⟨hsize, hroots⟩ := Catalog.size_bind hb
  refine ⟨rfl, hroots, hsize, ?other, ?fresh, ?here, ?places, ?consistent⟩
  case other =>
    intro i hi
    rw [hplacement, if_neg (by simpa using hi)]
  case fresh =>
    intro m hm
    rw [List.mem_singleton.1 hm, hfree]
  case here =>
    intro m hm
    exact ⟨s.draft.next, by rw [List.mem_singleton.1 hm, hplacement, if_pos rfl]⟩
  case places =>
    intro id i hi
    rw [Draft.placeAt?_push] at hi
    split at hi
    · cases hi
      exact Or.inr List.mem_cons_self
    · exact Or.inl hi
  case consistent =>
    intro hs i id
    have hold := hs i id
    have hnext := hs i s.draft.next
    rw [Draft.placeAt?_next] at hnext
    change c.placement? i = some ⟨s.draft.root, id⟩ ↔ _
    rw [hplacement, Draft.placeAt?_push]
    -- the new place and its entry in the catalog come together; neither was there before
    by_cases hi : i = info.member.id <;> by_cases hid : id = s.draft.next
    · rw [if_pos hi, if_pos hid, hi, hid]
      exact iff_of_true rfl rfl
    · rw [if_pos hi, if_neg hid]
      rw [hi, hfree] at hold
      refine iff_of_false (fun he => hid ?_) (fun he => ?_)
      · exact (congrArg Placement.node (Option.some.inj he)).symm
      · cases hold.2 (hi ▸ he)
    · rw [if_neg hi, if_pos hid, hid]
      refine iff_of_false (fun he => ?_) (fun he => hi (Option.some.inj he).symm)
      cases hnext.1 he
    · rw [if_neg hi, if_neg hid]
      exact hold

/-- Members that can be placed: fresh ones whose ids were given out. -/
def Catalog.Placeable (c : Catalog) (ms : List Member) : Prop :=
  c.Fresh ms ∧ ∀ m ∈ ms, m.id < c.placements.size

/-- Members stay placeable while others are placed. -/
theorem Drafting.Binds.placeable {s s' : Drafting} {ms ms' : List Member} (h : s.Binds s' ms)
    (hp : s.catalog.Placeable (ms ++ ms')) : s'.catalog.Placeable ms' := by
  obtain ⟨⟨hnd, hfree⟩, hlt⟩ := hp
  rw [List.map_append, List.nodup_append] at hnd
  refine ⟨⟨hnd.2.1, fun m hm => ?_⟩, fun m hm => h.size ▸ hlt m (List.mem_append_right _ hm)⟩
  have hnot : m.id ∉ ms.map (·.id) := fun hm' => hnd.2.2 _ hm' _ (List.mem_map_of_mem hm) rfl
  unfold Catalog.isPlaced
  rw [h.other _ hnot]
  exact hfree m (List.mem_append_right _ hm)

namespace PlacePlan

/-- The members that a plan places. -/
def members (plan : PlacePlan) : List Member := plan.infos.map (·.member)

/-- The draft after a plan is carried out. -/
structure Result (plan : PlacePlan) (d d' : Draft) : Prop where
  nothing : plan.infos = [] → d' = d
  implicit : plan.infos ≠ [] → plan.implicitDense = true → ∃ q, d.nodes[plan.target]? = some q ∧
    (d.push plan.target q (.dense [])).PlacedUnder d' d.next plan.infos
  explicit : plan.infos ≠ [] → plan.implicitDense = false →
    d.PlacedUnder d' plan.target plan.infos

end PlacePlan

namespace DraftM

variable {s : Drafting} {target : NodeId} {q : Node} {infos : List PlaceInfo} {plan : PlacePlan}

/-- Placeable members are all placed. -/
theorem ends_placeAll_placeable (hq : s.draft.nodes[target]? = some q)
    (hp : s.catalog.Placeable (infos.map (·.member))) :
    Ends (placeAll target infos) s (fun _ s' => s.draft.PlacedUnder s'.draft target infos ∧
      s.Binds s' (infos.map (·.member))) fun _ => False := by
  induction infos generalizing s q with
  | nil => exact ends_pure ⟨.nil hq, .refl s⟩
  | cons info rest ih =>
    refine ends_placeAll_cons hq ?_ ?_
    · intro c hbind
      have hstep := Drafting.Binds.place target q (hp.2 _ List.mem_cons_self) hbind
      have hq' : (s.draft.push target q (.place info)).nodes[target]? = some _ :=
        Draft.getElem?_push_of_some hq
      refine (ih (s := ⟨s.draft.push target q (.place info), c⟩) hq'
        (hstep.placeable hp)).mono ?_ fun _ => id
      rintro _ s' ⟨hplaced, hbinds⟩
      exact ⟨.cons hq hplaced, hstep.trans hbinds⟩
    · intro hplaced
      rw [hp.1.2 _ List.mem_cons_self] at hplaced
      cases hplaced

theorem ends_placeAll_setBits (hq : s.draft.nodes[target]? = some q)
    (hp : s.catalog.Placeable (infos.map (·.member))) (used groups : UInt32) :
    Ends (placeAll target infos) s (fun _ s' =>
      s.draft.PlacedUnder (s'.draft.setBits target used groups) target infos ∧
        s.Binds { s' with draft := s'.draft.setBits target used groups } (infos.map (·.member)))
      fun _ => False := by
  refine (ends_placeAll_placeable hq hp).mono ?_ fun _ => id
  rintro _ s' ⟨hplaced, hbinds⟩
  have hbits : s'.Binds { s' with draft := s'.draft.setBits target used groups } [] :=
    .of_placeAt? rfl (Draft.placeAt?_setBits _ _)
  refine ⟨hplaced.setBits _ _, ?_⟩
  have hall := hbinds.trans hbits
  rwa [List.append_nil] at hall

/-- A plan for placeable members is carried out. -/
theorem ends_applyPlan_placeable (hq : s.draft.nodes[plan.target]? = some q)
    (hp : s.catalog.Placeable plan.members) :
    Ends (applyPlan plan) s (fun _ s' => plan.Result s.draft s'.draft ∧ s.Binds s' plan.members)
      fun _ => False := by
  refine ends_applyPlan hq ?_ ?_ ?_
  · intro hnil
    refine ⟨⟨fun _ => rfl, fun hne => absurd hnil hne, fun hne => absurd hnil hne⟩, ?_⟩
    rw [PlacePlan.members, hnil]
    exact .refl s
  · intro hne himp
    refine (ends_placeAll_setBits hq hp plan.bitsUsed plan.exponentGroups).mono ?_ fun _ => id
    rintro _ s' ⟨hplaced, hbinds⟩
    exact ⟨⟨fun hnil => absurd hnil hne, fun _ h => absurd (himp.symm.trans h) Bool.false_ne_true,
      fun _ _ => hplaced⟩, hbinds⟩
  · intro hne himp
    -- the new node is no place, so it binds no member
    have hpush : s.Binds ⟨s.draft.push plan.target q (.dense []), s.catalog⟩ [] := by
      refine .of_placeAt? rfl fun id => ?_
      rw [Draft.placeAt?_push]
      split
      · rename_i hid
        rw [hid, Draft.placeAt?_next]
        rfl
      · rfl
    refine (ends_placeAll_setBits (s := ⟨_, s.catalog⟩) Draft.getElem?_push_next
      (hpush.placeable hp) plan.bitsUsed plan.exponentGroups).mono ?_ fun _ => id
    rintro _ s' ⟨hplaced, hbinds⟩
    exact ⟨⟨fun hnil => absurd hnil hne, fun _ _ => ⟨q, hq, hplaced⟩,
      fun _ h => absurd (h.symm.trans himp) Bool.false_ne_true⟩, hpush.trans hbinds⟩

/-- Plans for placeable members are carried out one after the other. -/
theorem ends_applyPlans_placeable {plans : List PlacePlan}
    (hfit : ∀ plan ∈ plans, plan.Fits s.draft)
    (hp : s.catalog.Placeable (plans.flatMap (·.members))) :
    Ends (plans.forM applyPlan) s (fun _ s' => s.Binds s' (plans.flatMap (·.members)))
      fun _ => False := by
  induction plans generalizing s with
  | nil => exact ends_pure (.refl s)
  | cons plan rest ih =>
    rw [List.flatMap_cons] at hp ⊢
    have hmem := hfit plan List.mem_cons_self
    obtain ⟨q, hq, -⟩ := hmem.target
    have hplan : s.catalog.Placeable plan.members :=
      ⟨⟨(List.nodup_append.1 (List.map_append ▸ hp.1.1)).1, fun m hm =>
        hp.1.2 m (List.mem_append_left _ hm)⟩, fun m hm => hp.2 m (List.mem_append_left _ hm)⟩
    refine Ends.bind (((ends_applyPlan_placeable hq hplan).and (applyPlan_onlyAdds hmem)).mono ?_
      fun _ hs => hs.1)
    rintro _ s' ⟨⟨-, hbinds⟩, hadds⟩
    refine (ih (fun p hp => (hfit p (List.mem_cons_of_mem _ hp)).mono hadds.continues)
      (hbinds.placeable hp)).mono (fun _ s'' hs => hbinds.trans hs) fun _ => id

end DraftM

end SparseLayout
