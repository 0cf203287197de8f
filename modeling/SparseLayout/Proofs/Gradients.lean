import SparseLayout.Proofs.Draft.Awaiting
import SparseLayout.Proofs.Workshop
import Mathlib.Data.Set.Function

namespace SparseLayout

open Draft (Node)

/-- The second draft is the first with a new place for each twin, numbered by `number`, behind the
other children of its parent. -/
structure Draft.Gains (d d' : Draft) (ts : List Twin) (number : NodeId → NodeId) : Prop where
  root : d'.root = d.root
  packing : d'.packing = d.packing
  size : d'.nodes.size = d.nodes.size + ts.length
  kept : ∀ {id : NodeId} {n : Node}, d.nodes[id]? = some n → d'.nodes[id]? = some { n with
    children := n.children ++ (ts.filter (·.parent = id)).map fun t => number t.primal }
  added : ∀ t ∈ ts, ∃ q, d.nodes[t.parent]? = some q ∧ d'.nodes[number t.primal]? =
    some (q.child d.packing (number t.primal) t.parent (.place t.info))

namespace Draft.Gains

variable {d d' : Draft} {t : Twin} {ts : List Twin} {number : NodeId → NodeId} {q : Node}

theorem nil (d : Draft) (number : NodeId → NodeId) : d.Gains d [] number := by
  refine ⟨rfl, rfl, rfl, fun hn => ?_, fun t ht => absurd ht List.not_mem_nil⟩
  rw [hn, List.filter_nil, List.map_nil, List.append_nil]

/-- One twin first, and then the others. -/
theorem cons (hq : d.nodes[t.parent]? = some q) (hnumber : number t.primal = d.next)
    (hts : ∀ t' ∈ ts, t'.parent < d.next)
    (h : (d.push t.parent q (.place t.info)).Gains d' ts number) : d.Gains d' (t :: ts) number := by
  refine ⟨h.root, h.packing, ?_, fun {id n} hn => ?_, fun t' ht' => ?_⟩
  · rw [h.size, size_push, List.length_cons, Nat.add_assoc, Nat.add_comm 1]
  · rw [h.kept (getElem?_push_of_some hn)]
    by_cases hid : id = t.parent
    · subst hid
      rw [if_pos rfl, List.filter_cons_of_pos (by simp), List.map_cons, hnumber]
      simp
    · rw [if_neg hid, List.filter_cons_of_neg (by simpa using Ne.symm hid)]
  · rcases List.mem_cons.1 ht' with rfl | ht'
    · have hnone : ts.filter (·.parent = d.next) = [] :=
        List.filter_eq_nil_iff.2 fun t' ht' he =>
          absurd (of_decide_eq_true he) (Nat.ne_of_lt (hts t' ht'))
      refine ⟨q, hq, ?_⟩
      rw [hnumber, h.kept getElem?_push_next, hnone]
      rfl
    · obtain ⟨q', hq', hplace⟩ := h.added t' ht'
      rcases of_getElem?_push hq' with ⟨hid, -⟩ | ⟨n, hn, rfl⟩
      · exact absurd hid (Nat.ne_of_lt (hts t' ht'))
      · refine ⟨n, hn, hplace.trans ?_⟩
        split <;> rfl

end Draft.Gains

namespace DraftM

variable {s : Drafting} {t : Twin} {q : Node}

/-- Carrying out the plan for one twin adds its place, and nothing else. -/
theorem ends_applyPlan_twin (hq : s.draft.nodes[t.parent]? = some q) :
    Ends (applyPlan (t.plan q)) s
      (fun _ s' => s'.draft = s.draft.push t.parent q (.place t.info)) fun _ => True := by
  change Ends (placeAll t.parent [t.info] >>= fun _ => modify fun s =>
    { s with draft := s.draft.setBits t.parent q.bitsUsed q.exponentGroups }) s _ _
  refine Ends.bind (ends_placeAll_cons hq (fun c _ => ?_) fun _ => trivial)
  change (s.draft.push t.parent q (.place t.info)).setBits t.parent q.bitsUsed q.exponentGroups = _
  have hpush : (s.draft.push t.parent q (.place t.info)).nodes[t.parent]? =
      some { q with children := q.children ++ [s.draft.next] } := by
    rw [Draft.getElem?_push_of_some hq, if_pos rfl]
  have hsame := Draft.setBits_self hpush
  exact hsame

/-- Carrying out the plans for twins adds their places, in order. -/
theorem ends_applyPlans_twins {ts : List Twin} {plan : Twin → PlacePlan} {number : NodeId → NodeId}
    (hplan : ∀ t ∈ ts, ∃ q, s.draft.nodes[t.parent]? = some q ∧ plan t = t.plan q)
    (hnumber : (ts.map (·.primal)).map number = List.range' s.draft.next ts.length) :
    Ends ((ts.map plan).forM applyPlan) s (fun _ s' => s.draft.Gains s'.draft ts number)
      fun _ => True := by
  induction ts generalizing s with
  | nil => exact ends_pure (.nil s.draft number)
  | cons t ts ih =>
    obtain ⟨q, hq, ht⟩ := hplan t List.mem_cons_self
    rw [List.map_cons, List.map_cons, List.length_cons, List.range'_succ, List.cons_eq_cons]
      at hnumber
    rw [List.map_cons, ht]
    refine Ends.bind ((ends_applyPlan_twin hq).mono (fun _ s' hs => ?_) fun _ => id)
    have hlt (t' : Twin) (ht' : t' ∈ ts) : t'.parent < s.draft.next := by
      obtain ⟨q', hq', -⟩ := hplan t' (List.mem_cons_of_mem _ ht')
      exact Draft.lt_next_of_some hq'
    -- the other plans were made before this place was added, which changes the bits of no node
    refine (ih (fun t' ht' => ?_) ?_).mono (fun _ s'' h => ?_) fun _ => id
    · obtain ⟨q', hq', hp⟩ := hplan t' (List.mem_cons_of_mem _ ht')
      rw [hs]
      refine ⟨_, Draft.getElem?_push_of_some hq', hp.trans ?_⟩
      split <;> rfl
    · rw [hs, hnumber.2]
      exact congrArg (List.range' · ts.length) (Draft.size_push ..).symm
    · rw [hs] at h
      exact .cons hq hnumber.1 hlt h

end DraftM

theorem Draft.lt_next_of_placeAt? {d : Draft} {id : NodeId} {info : PlaceInfo}
    (h : d.placeAt? id = some info) : id < d.next := by
  obtain ⟨n, hn, -⟩ := Option.bind_eq_some_iff.1 h
  exact lt_next_of_some hn

namespace Drafting

open scoped Classical in
/-- The second state is the first with one new place for each of these nodes that is a place and
awaits an adjoint. -/
structure Twinned (s s' : Drafting) (among : NodeId → Prop) (twin : NodeId → NodeId) : Prop where
  root : s'.draft.root = s.draft.root
  packing : s'.draft.packing = s.draft.packing
  /-- The new nodes are the twins of the places that wait. -/
  numbers : Set.BijOn twin {p | s.Waits among p}
    {id | s.draft.nodes.size ≤ id ∧ id < s'.draft.nodes.size}
  /-- A twin holds the adjoint, under the parent of the primal and with its offsets. -/
  beside : ∀ {p : NodeId} {info : PlaceInfo} {a : Member}, among p → s.Awaits p info a →
    ∃ c q, s.draft.Up p c ∧ s.draft.nodes[c]? = some q ∧ s'.draft.nodes[twin p]? =
      some (q.child s.draft.packing (twin p) c (.place ⟨a, info.indexOffsets, none, none⟩))
  /-- Nodes that were there get the twins of their children, in the order of these, and keep
  everything else. -/
  kept : ∀ {id : NodeId} {n : Node}, s.draft.nodes[id]? = some n →
    s'.draft.nodes[id]? = some { n with
      children := n.children ++ (n.children.filter fun p => s.Waits among p).map twin }
  /-- The adjoints are recorded at the twins. -/
  bound : ∀ {p : NodeId} {info : PlaceInfo} {a : Member}, among p → s.Awaits p info a →
    s'.catalog.placement? a.id = some ⟨s.draft.root, twin p⟩
  /-- No other record changes. -/
  unbound : ∀ i, (∀ p info a, among p → s.Awaits p info a → a.id ≠ i) →
    s'.catalog.placement? i = s.catalog.placement? i
  size : s'.catalog.placements.size = s.catalog.placements.size
  roots : s'.catalog.roots = s.catalog.roots

variable {s s' : Drafting} {known : Member → Prop} {x p : NodeId} {n : Node} {info : PlaceInfo}
  {a : Member} {number : NodeId → NodeId}

/-- A place that waits has a twin. -/
theorem exists_twin (h : s.draft.Grown) (hbelow : s.draft.Below x p)
    (ha : s.Awaits p info a) : ∃ c, s.draft.Up p c ∧ ⟨p, c, a, info.indexOffsets⟩ ∈ s.twins x := by
  obtain ⟨c, hup, -⟩ := Relation.TransGen.head'_iff.1 hbelow
  exact ⟨c, hup, (mem_twins h).2 ⟨hbelow, hup, info, ha, rfl⟩⟩

theorem waits_iff (h : s.draft.Grown) :
    s.Waits (s.draft.Below x) p ↔ p ∈ (s.twins x).map (·.primal) := by
  rw [List.mem_map]
  constructor
  · rintro ⟨hbelow, info, a, ha⟩
    obtain ⟨c, -, ht⟩ := exists_twin h hbelow ha
    exact ⟨_, ht, rfl⟩
  · rintro ⟨t, ht, rfl⟩
    obtain ⟨hbelow, -, info, ha, -⟩ := (mem_twins h).1 ht
    exact ⟨hbelow, info, _, ha⟩

/-- What is gained and bound is what the twins hold. -/
theorem Twinned.of_gains (h : s.Registered known)
    (hgains : s.draft.Gains s'.draft (s.twins x) number)
    (hnumber : ((s.twins x).map (·.primal)).map number =
      List.range' s.draft.next (s.twins x).length)
    (hbinds : s.Binds s' ((s.twins x).map (·.adjoint))) : s.Twinned s' (s.draft.Below x) number := by
  -- the twins are numbered in the order of the list, from the size of the draft on
  have hnew (id : NodeId) : id ∈ ((s.twins x).map (·.primal)).map number ↔
      s.draft.nodes.size ≤ id ∧ id < s'.draft.nodes.size := by
    rw [hnumber, hgains.size]
    exact List.mem_range'_1
  have hnodup : (((s.twins x).map (·.primal)).map number).Nodup := hnumber ▸ List.nodup_range'
  have beside {p : NodeId} {info : PlaceInfo} {a : Member}
      (hbelow : s.draft.Below x p) (ha : s.Awaits p info a) :
      ∃ c q, s.draft.Up p c ∧ s.draft.nodes[c]? = some q ∧ s'.draft.nodes[number p]? =
        some (q.child s.draft.packing (number p) c (.place ⟨a, info.indexOffsets, none, none⟩)) := by
    obtain ⟨c, hup, ht⟩ := exists_twin h.grown hbelow ha
    obtain ⟨q, hq, hplace⟩ := hgains.added _ ht
    exact ⟨c, q, hup, hq, hplace⟩
  refine ⟨hgains.root, hgains.packing, ⟨?maps, ?inj, ?surj⟩, beside, ?kept, ?bound, ?unbound,
    hbinds.size, hbinds.roots⟩
  case maps =>
    intro p hp
    exact (hnew _).1 (List.mem_map_of_mem ((waits_iff h.grown).1 hp))
  case inj =>
    intro p hp p' hp' he
    exact List.inj_on_of_nodup_map hnodup ((waits_iff h.grown).1 hp) ((waits_iff h.grown).1 hp') he
  case surj =>
    intro id hid
    obtain ⟨p, hp, rfl⟩ := List.mem_map.1 ((hnew id).2 hid)
    exact ⟨p, (waits_iff h.grown).2 hp, rfl⟩
  case kept =>
    intro id n hn
    rw [hgains.kept hn, ← Draft.children_of_some hn, ← twins_of_parent h.grown, List.map_map]
    rfl
  case bound =>
    intro p info a hbelow ha
    obtain ⟨c, q, -, -, hplace⟩ := beside hbelow ha
    rw [← hbinds.root, hbinds.consistent h.consistent, Draft.placeAt?, hplace]
    rfl
  case unbound =>
    intro i hi
    refine hbinds.other i fun hmem => ?_
    obtain ⟨a, ha, rfl⟩ := List.mem_map.1 hmem
    obtain ⟨t, ht, rfl⟩ := List.mem_map.1 ha
    obtain ⟨hbelow, -, info, hawaits, -⟩ := (mem_twins h.grown).1 ht
    exact hi _ info _ hbelow hawaits rfl

/-- Numbers in the order of a list. -/
theorem exists_numbers {l : List NodeId} (h : l.Nodup) (k : Nat) :
    ∃ number : NodeId → NodeId, l.map number = List.range' k l.length := by
  refine ⟨fun a => k + l.idxOf a, List.ext_getElem (by simp) fun i hi _ => ?_⟩
  rw [List.getElem_map, List.getElem_range', h.idxOf_getElem, Nat.one_mul]

/-- The gradients below a node are placed. -/
theorem Ready.exists_lazyGrad (h : s.Ready known) (hx : s.draft.nodes[x]? = some n) :
    ∃ s' number, DraftM.lazyGrad x s = .ok () s' ∧ s.Twinned s' (s.draft.Below x) number ∧
      s.Binds s' ((s.twins x).map (·.adjoint)) := by
  have hgrown := h.registered.grown
  obtain ⟨plans, hplans, hflat⟩ := h.exists_plans x
  have hbinds := DraftM.ends_applyPlans_lazyGrad h.registered hplans
  rw [hflat, members_plan] at hbinds
  obtain ⟨number, hnumber⟩ := exists_numbers (nodup_twins hgrown x) s.draft.next
  rw [List.length_map] at hnumber
  have hplan (t : Twin) (ht : t ∈ s.twins x) :
      ∃ q, s.draft.nodes[t.parent]? = some q ∧ s.plan t = t.plan q := by
    obtain ⟨-, hup, info, ha, -⟩ := (mem_twins hgrown).1 ht
    obtain ⟨q, hq, -⟩ := h.awaits ha hup
    exact ⟨q, hq, by rw [plan, hq, Option.getD_some]⟩
  have hends := (DraftM.ends_applyPlans_twins hplan hnumber).and hbinds
  obtain ⟨u, s', hrun, hgains, hbinds⟩ := (hends.mono (fun _ _ => id) fun _ hs => hs.2).exists_ok
  exact ⟨s', _, (h.lazyGrad_eq hx).trans hrun, .of_gains h.registered hgains hnumber hbinds, hbinds⟩

/-- No new node lies between the old ones. -/
theorem Twinned.below_of_below (h : s.Twinned s' (s.draft.Below x) number) (hs' : s'.draft.Grown)
    (hp : p < s.draft.next) (hbelow : s'.draft.Below x p) : s.draft.Below x p := by
  have old {y z : NodeId} (hy : y < s.draft.next) (hup : s'.draft.Up y z) : s.draft.Up y z := by
    have hn : s.draft.nodes[y]? = some s.draft.nodes[y] := Array.getElem?_eq_getElem hy
    unfold Draft.Up Draft.parent? at hup ⊢
    rw [h.kept hn] at hup
    rw [hn]
    exact hup
  induction hbelow using Relation.TransGen.head_induction_on with
  | single hup => exact .single (old hp hup)
  | head hup _ ih => exact .head (old hp hup) (ih (Nat.lt_trans (hs'.lt_of_up hup) hp))

/-- What is not placed was not placed before. -/
theorem Binds.unplaced {ms : List Member} (h : s.Binds s' ms) (ha : s'.catalog.isPlaced a = false) :
    s.catalog.isPlaced a = false := by
  unfold Catalog.isPlaced at *
  by_cases hid : a.id ∈ ms.map (·.id)
  · obtain ⟨m, hm, he⟩ := List.mem_map.1 hid
    rw [← he, h.fresh m hm]
    rfl
  · rwa [← h.other _ hid]

/-- No place below the node awaits an adjoint any more. -/
theorem Twinned.twins_eq_nil (h : s.Twinned s' (s.draft.Below x) number) (hs : s.Ready known)
    (hs' : s'.draft.Grown) (hbinds : s.Binds s' ((s.twins x).map (·.adjoint))) :
    s'.twins x = [] := by
  rw [List.eq_nil_iff_forall_not_mem]
  intro t ht
  obtain ⟨hbelow, hup, info, ha, -⟩ := (mem_twins hs').1 ht
  rcases hbinds.places _ _ ha.place with hplace | hmem
  -- the adjoint of a place that was there is placed now, and what is new is itself an adjoint
  · have hlt := Draft.lt_next_of_placeAt? hplace
    have hfree := hbinds.unplaced ha.unplaced
    have hbound := h.bound (h.below_of_below hs' hlt hbelow) ⟨hplace, ha.primal, ha.adjoint, hfree⟩
    have hunplaced := ha.unplaced
    rw [Catalog.isPlaced, hbound] at hunplaced
    cases hunplaced
  · obtain ⟨t', ht', he⟩ := List.mem_map.1 hmem
    obtain ⟨-, hup', info', ha', -⟩ := (mem_twins hs.registered.grown).1 ht'
    obtain ⟨-, -, -, -, -, -, hnone, -⟩ := hs.awaits ha' hup'
    have hadj := ha.adjoint
    rw [← he, hnone] at hadj
    cases hadj

theorem declare_of_lazyGrad (hrun : DraftM.lazyGrad x s = .ok () s') :
    DraftM.declare x .lazyGrad s = .ok x s' := by
  change EStateM.bind (DraftM.lazyGrad x) (fun _ => pure x) s = _
  unfold EStateM.bind
  rw [hrun]
  rfl

/-- What is known of a draft stays known. -/
theorem Ready.after_lazyGrad (h : s.Ready known)
    (hbinds : s.Binds s' ((s.twins x).map (·.adjoint))) (hrun : DraftM.lazyGrad x s = .ok () s') :
    s'.Ready known := by
  have hfields : Declaration.OfFields .lazyGrad := trivial
  have hbuilt : s'.draft.Built := .declared h.built hfields (declare_of_lazyGrad hrun)
  refine ⟨⟨hbuilt.good.grown, h.registered.members.of_size hbinds.size.symm, ?_,
    hbinds.consistent h.registered.consistent⟩, hbuilt, h.declared⟩
  intro id info hplace
  rcases hbinds.places id info hplace with hplace | hmem
  · exact h.registered.places hplace
  · obtain ⟨t, ht, he⟩ := List.mem_map.1 hmem
    obtain ⟨-, -, info', ha, -⟩ := (mem_twins h.registered.grown).1 ht
    exact he ▸ h.registered.members.adjoint (h.registered.places ha.place) ha.adjoint

/-- Gradients are placed beside their primals, and asking for them again changes nothing. -/
theorem Ready.declare_lazyGrad (h : s.Ready known) (hx : s.draft.nodes[x]? = some n) :
    ∃ s' twin, DraftM.declare x .lazyGrad s = .ok x s' ∧ s.Twinned s' (s.draft.Below x) twin ∧
      DraftM.declare x .lazyGrad s' = .ok x s' := by
  obtain ⟨s', number, hrun, htwinned, hbinds⟩ := h.exists_lazyGrad hx
  have hready := h.after_lazyGrad hbinds hrun
  have hagain : DraftM.lazyGrad x s' = .ok () s' := by
    rw [hready.lazyGrad_eq (htwinned.kept hx),
      htwinned.twins_eq_nil h hready.registered.grown hbinds]
    rfl
  exact ⟨s', number, declare_of_lazyGrad hrun, htwinned, declare_of_lazyGrad hagain⟩

end Drafting

namespace Workshop

variable {w : Workshop} {d : Draft} {x : NodeId} {n : Node}

/-- However fields were declared and drafts built, the gradients of a subtree are placed beside
their primals: every place properly below the node whose adjoint is not placed gets one twin, and
nothing else changes. Asking for them again changes nothing. -/
theorem Reachable.gradients_beside (h : w.Reachable) (hd : d ∈ w.drafts)
    (hx : d.nodes[x]? = some n) : ∃ s twin,
      DraftM.declare x .lazyGrad ⟨d, w.catalog⟩ = .ok x s ∧
        Drafting.Twinned ⟨d, w.catalog⟩ s (d.Below x) twin ∧
          DraftM.declare x .lazyGrad s = .ok x s := by
  have hw := h.sound
  have hready : Drafting.Ready ⟨d, w.catalog⟩ w.Knows :=
    ⟨hw.registered hd, hw.built d hd, hw.declared⟩
  exact hready.declare_lazyGrad hx

end Workshop

namespace Sample

/-- The members of a field with a gradient, placed in the first of two drafts. -/
def primals : Workshop :=
  (drafts.declare 0 0 (.node (.dense [0] (.uniform 4)))).declare 0 1
    (.place (drafts.fields.map .one) ⟨some (.uniform (-2)), false⟩)

theorem reachable_primals : primals.Reachable := by
  refine (reachable_drafts.declare 0 0 ?_).declare 0 1 ?_
  · trivial
  · exact Workshop.uses_fields (Workshop.fields_declare ..) _

/-- The first of the two drafts. -/
def primalDraft : Draft := primals.drafts.head (by decide +kernel)

def primalDrafting : Drafting := ⟨primalDraft, primals.catalog⟩

/-- Asked for at the root, the gradients come behind the primals. -/
theorem gradients_of_primals : ∃ s twin,
    DraftM.declare 0 .lazyGrad primalDrafting = .ok 0 s ∧
      primalDrafting.Twinned s (primalDraft.Below 0) twin ∧
      DraftM.declare 0 .lazyGrad s = .ok 0 s ∧ s.draft.children 1 = [2, 3, 4, 5] ∧
      (List.range 4).map s.catalog.placement? =
        [some ⟨0, 4⟩, some ⟨0, 5⟩, some ⟨0, 2⟩, some ⟨0, 3⟩] := by
  have hroot : primalDraft.nodes[0]? = some (primalDraft.nodes[0]?.getD .root) := by
    decide +kernel
  obtain ⟨s, twin, hrun, htwinned, hagain⟩ :=
    reachable_primals.gradients_beside (List.head_mem _) hroot
  have hs : primalDrafting.after 0 .lazyGrad = s := Drafting.after_of_ok hrun
  refine ⟨s, twin, hrun, htwinned, hagain, ?_, ?_⟩
  · rw [← hs]
    decide +kernel
  · rw [← hs]
    decide +kernel

/-- Asked for at a place, its own gradient is not placed: twins are for places properly below. -/
theorem place_without_twin : ¬ ∀ (w : Workshop) (d : Draft) (x : NodeId) (n : Node), w.Reachable →
    d ∈ w.drafts → d.nodes[x]? = some n → ∃ s twin,
      DraftM.declare x .lazyGrad ⟨d, w.catalog⟩ = .ok x s ∧
        Drafting.Twinned ⟨d, w.catalog⟩ s (d.Within x) twin ∧
          DraftM.declare x .lazyGrad s = .ok x s := by
  intro hall
  have hnode : primalDraft.nodes[2]? = some (primalDraft.nodes[2]?.getD .root) := by
    decide +kernel
  obtain ⟨s, twin, hrun, htwinned, -⟩ :=
    hall primals primalDraft 2 _ reachable_primals (List.head_mem _) hnode
  have hs : primalDrafting.after 2 .lazyGrad = s := Drafting.after_of_ok hrun
  have hplace : primalDraft.placeAt? 2 = some ⟨⟨⟨2, "v[0]", .single⟩,
      .primal (some ⟨0, "v.grad[0]", .single⟩)⟩, [-2], none, none⟩ := by decide +kernel
  have hawaits : primalDrafting.Awaits 2 _ ⟨⟨0, "v.grad[0]", .single⟩, .adjoint⟩ :=
    ⟨hplace, rfl, rfl, by decide +kernel⟩
  have hbound := htwinned.bound .refl hawaits
  have hunbound : (primalDrafting.after 2 .lazyGrad).catalog.placement? 0 = none := by
    decide +kernel
  rw [← hs, hunbound] at hbound
  cases hbound

end Sample

end SparseLayout
