import SparseLayout.Proofs.Draft.Atomic
import SparseLayout.Proofs.Draft.Sound

namespace SparseLayout

open Draft (Node)

namespace Draft

variable {d : Draft} {x c p id : NodeId} {n : Node}

/-- The second node is in the subtree of the first, which may be all of it. -/
def Within (d : Draft) (x p : NodeId) : Prop := Relation.ReflTransGen d.Up p x

/-- The second node is properly below the first. -/
def Below (d : Draft) (x p : NodeId) : Prop := Relation.TransGen d.Up p x

theorem Grown.mem_children_iff (h : d.Grown) : p ∈ d.children c ↔ d.Up p c := by
  constructor
  · intro hp
    obtain ⟨n, hn, hmem⟩ := of_mem_children hp
    exact (h.up_child hn hmem).1
  · intro hup
    unfold Up at hup
    cases hn : d.nodes[p]? with
    | none => simp [parent?, hn] at hup
    | some n =>
      rcases h.parent?_cases hn with ⟨-, hp⟩ | ⟨c', q, hp, -, hq, hmem⟩
      · rw [hp] at hup
        cases hup
      · rw [hp, Option.some.injEq] at hup
        subst hup
        rwa [children_of_some hq]

/-- A node with a child is no place, and the walk passes through it. -/
theorem Grown.postOrder_of_up (h : d.Grown) (hup : d.Up p c) (height : Nat) :
    d.postOrder (height + 1) c = (d.children c).flatMap (d.postOrder height) ++ [c] := by
  obtain ⟨q, hq, hmem⟩ := of_mem_children (h.mem_children_iff.2 hup)
  obtain ⟨-, m, -, -, -, hadm, -⟩ := h.child hq hmem
  rw [postOrder, hq, children_of_some hq]
  dsimp only
  split
  · rename_i hk
    exact absurd (by rw [hk]; rfl) hadm.ne_place
  · rfl

/-- The walk meets every node of the subtree that has a child. -/
theorem Grown.mem_postOrder (h : d.Grown) {height : Nat} (hheight : d.nodes.size ≤ x + height)
    (hc : Relation.ReflTransGen d.Up c x) (hup : d.Up p c) : c ∈ d.postOrder height x := by
  -- children have larger numbers than their parents, so that the height never runs out
  induction height generalizing x with
  | zero =>
    obtain ⟨q, hq, -⟩ := of_mem_children (h.mem_children_iff.2 hup)
    have hlt : c < d.nodes.size := lt_next_of_some hq
    exact absurd (Nat.lt_of_lt_of_le hlt hheight) (Nat.not_lt_of_le (h.le_of_up hc))
  | succ height ih =>
    rcases Relation.ReflTransGen.cases_tail hc with rfl | ⟨y, hy, hyx⟩
    · rw [h.postOrder_of_up hup]
      exact List.mem_append_right _ (List.mem_singleton.2 rfl)
    · rw [h.postOrder_of_up hyx]
      have hnext : x + 1 + height ≤ y + height := Nat.add_le_add_right (h.lt_of_up hyx) height
      rw [Nat.succ_add] at hnext
      refine List.mem_append_left _ (List.mem_flatMap.2 ⟨y, h.mem_children_iff.2 hyx, ?_⟩)
      exact ih (Nat.le_trans hheight hnext) hy

/-- The children of the nodes that the walk meets are what lies properly below. -/
theorem Grown.mem_children_postOrder (h : d.Grown) :
    p ∈ (d.postOrder d.nodes.size x).flatMap d.children ↔ d.Below x p := by
  rw [List.mem_flatMap, Below, Relation.TransGen.head'_iff]
  constructor
  · rintro ⟨c, hc, hp⟩
    exact ⟨c, h.mem_children_iff.1 hp, h.up_of_mem_postOrder hc⟩
  · rintro ⟨c, hup, hc⟩
    exact ⟨c, h.mem_postOrder (Nat.le_add_left ..) hc hup, h.mem_children_iff.2 hup⟩

/-- Accounting for bits as before changes nothing. -/
theorem setBits_self (hn : d.nodes[id]? = some n) :
    d.setBits id n.bitsUsed n.exponentGroups = d := by
  have hnodes : (d.setBits id n.bitsUsed n.exponentGroups).nodes = d.nodes := by
    refine Array.ext_getElem? fun i => ?_
    rw [getElem?_setBits]
    split
    · rename_i hi
      rw [hi, hn]
      rfl
    · rfl
  obtain ⟨root, packing, nodes, hne⟩ := d
  exact (mk.injEq ..).mpr ⟨rfl, rfl, hnodes⟩

end Draft

/-- Where at most one element of a list without repetitions contributes. -/
theorem flatMap_of_nodup {α β : Type} [DecidableEq α] {l : List α} (h : l.Nodup) {f : α → List β}
    {c : α} (hf : ∀ b ∈ l, b ≠ c → f b = []) : l.flatMap f = if c ∈ l then f c else [] := by
  induction l with
  | nil => rfl
  | cons b l ih =>
    obtain ⟨hb, hnd⟩ := List.nodup_cons.1 h
    rw [List.flatMap_cons, ih hnd fun b' hb' => hf b' (List.mem_cons_of_mem _ hb')]
    by_cases hbc : b = c
    · subst hbc
      rw [if_neg hb, if_pos List.mem_cons_self, List.append_nil]
    · rw [hf b List.mem_cons_self hbc, List.nil_append]
      simp only [List.mem_cons, Ne.symm hbc, false_or]

theorem mapM_eq_map {α β ε : Type} {f : α → Except ε β} {g : α → β} {l : List α}
    (h : ∀ a ∈ l, f a = .ok (g a)) : l.mapM f = .ok (l.map g) := by
  induction l with
  | nil => rfl
  | cons a l ih =>
    rw [List.mapM_cons, h a List.mem_cons_self, ih fun b hb => h b (List.mem_cons_of_mem _ hb)]
    rfl

theorem Member.Declared.adjoint_real {m a : Member} (h : m.Declared) (ha : m.adjoint? = some a) :
    a.dtype = m.dtype ∧ a.dtype.isReal = true ∧ a.adjoint? = none := by
  obtain ⟨decl, c, f, c', hdecl, hm⟩ := h
  obtain ⟨-, hall⟩ := Catalog.declare_members hdecl
  rcases hm with hm | ⟨p, hp, hpa⟩
  · obtain ⟨ht, hadj⟩ := hall m hm
    obtain ⟨hta, hreal, hnone⟩ := hadj a ha
    exact ⟨hta.trans ht.symm, hta ▸ hreal, hnone⟩
  · obtain ⟨-, -, hnone⟩ := (hall p hp).2 m hpa
    rw [hnone] at ha
    cases ha

/-- A new place beside another one, which holds the adjoint of its member. -/
structure Twin where
  primal : NodeId
  parent : NodeId
  adjoint : Member
  offsets : List Int32

namespace Twin

/-- What the new place holds. -/
def info (t : Twin) : PlaceInfo := ⟨t.adjoint, t.offsets, none, none⟩

/-- The plan for one twin; bits of the parent are accounted for as they were. -/
def plan (t : Twin) (q : Node) : PlacePlan :=
  ⟨t.parent, false, [t.info], q.bitsUsed, q.exponentGroups⟩

theorem planPlace_eq {t : Twin} {q : Node} {c : Catalog} (hfree : c.isPlaced t.adjoint = false)
    (hoffsets : t.offsets = [] ∨ t.offsets.length = q.index.arity) (h0 : t.parent ≠ 0)
    (hplace : q.kind.type ≠ .place) (hbits : q.kind.type.isBitLevel = false)
    (hreal : t.adjoint.dtype.isReal = true) :
    planPlace c t.parent q [t.adjoint]
      ⟨if t.offsets.isEmpty then none else some (.perIndex t.offsets), false⟩ =
        .ok (t.plan q) := by
  have hquant := (DataType.not_isQuant_of_isReal hreal).1
  -- offsets that are empty, or fit the parent, pass the check
  have hoff : PlaceOptions.offsets
      ⟨if t.offsets.isEmpty then none else some (.perIndex t.offsets), false⟩ q.index.arity =
        .ok t.offsets := by
    by_cases he : t.offsets = []
    · rw [he]
      rfl
    · rw [if_neg (by simpa using he)]
      exact if_pos (hoffsets.resolve_left he)
  have hbytes : planBits q [t.adjoint] false =
      .ok ⟨[⟨none, none⟩], q.bitsUsed, q.exponentGroups⟩ := by
    have hnone : planBytes q [t.adjoint] false =
        .ok ⟨[⟨none, none⟩], q.bitsUsed, q.exponentGroups⟩ := by
      simp [planBytes, hquant]
    unfold planBits
    split <;> rename_i hk
    · exact absurd (by rw [hk]; rfl) hplace
    · rw [hk] at hbits
      cases hbits
    · rw [hk] at hbits
      cases hbits
    · exact hnone
  simp only [planPlace, List.isEmpty_cons, checkFresh, List.not_mem_nil, if_neg, hfree, hoff,
    hbytes, Bool.false_eq_true, not_false_eq_true, bind, Except.bind, pure, Except.pure,
    List.zipWith_cons_cons, List.zipWith_nil_left, decide_eq_false h0]
  rfl

end Twin

namespace Drafting

/-- The place holds a primal with an adjoint that is not placed. -/
structure Awaits (s : Drafting) (p : NodeId) (info : PlaceInfo) (a : Member) : Prop where
  place : s.draft.placeAt? p = some info
  primal : info.member.isPrimal = true
  adjoint : info.member.adjoint? = some a
  unplaced : s.catalog.isPlaced a = false

/-- One of these nodes is a place that awaits the adjoint of its member. -/
def Waits (s : Drafting) (among : NodeId → Prop) (p : NodeId) : Prop :=
  among p ∧ ∃ info a, s.Awaits p info a

/-- The twin of a child, if it is a place that awaits one. -/
def twin? (s : Drafting) (c p : NodeId) : Option Twin :=
  (pendingAt s p).map fun (offsets, a) => ⟨p, c, a, offsets⟩

/-- The twins for the places properly below a node, in the order in which they are added. -/
def twins (s : Drafting) (x : NodeId) : List Twin :=
  (s.draft.postOrder s.draft.nodes.size x).flatMap fun c =>
    (s.draft.children c).filterMap (s.twin? c)

variable {s : Drafting} {known : Member → Prop} {x c p : NodeId} {t : Twin} {q : Node}
  {info : PlaceInfo} {a : Member} {offsets : List Int32}

theorem Awaits.pendingAt_eq (h : s.Awaits p info a) :
    pendingAt s p = some (info.indexOffsets, a) := by
  have hplace := h.place
  unfold Draft.placeAt? at hplace
  unfold pendingAt
  cases hn : s.draft.nodes[p]? with
  | none =>
    rw [hn] at hplace
    cases hplace
  | some n =>
    rw [hn, Option.bind_some] at hplace
    simp only [Option.bind_eq_bind, Option.bind_some, hplace, h.adjoint, h.unplaced]
    rfl

theorem exists_awaits (h : pendingAt s p = some (offsets, a)) :
    ∃ info, s.Awaits p info a ∧ info.indexOffsets = offsets := by
  obtain ⟨info, hplace, hadj, hfree⟩ := SparseLayout.of_pendingAt h
  have hprimal : info.member.isPrimal = true := by
    unfold Member.adjoint? at hadj
    unfold Member.isPrimal
    split at hadj
    · rfl
    · cases hadj
  have hawaits : s.Awaits p info a := ⟨hplace, hprimal, hadj, hfree⟩
  have hpending := hawaits.pendingAt_eq
  rw [h, Option.some.injEq, Prod.mk.injEq] at hpending
  exact ⟨info, hawaits, hpending.1.symm⟩

theorem mem_twin? : t ∈ s.twin? c p ↔ t.primal = p ∧ t.parent = c ∧
    ∃ info, s.Awaits p info t.adjoint ∧ info.indexOffsets = t.offsets := by
  unfold twin?
  rw [Option.mem_def, Option.map_eq_some_iff]
  constructor
  · rintro ⟨⟨offsets, a⟩, hp, rfl⟩
    exact ⟨rfl, rfl, exists_awaits hp⟩
  · rintro ⟨rfl, rfl, info, h, hoff⟩
    exact ⟨_, h.pendingAt_eq, by rw [hoff]⟩

/-- The twins are those of the places properly below the node that await one. -/
theorem mem_twins (h : s.draft.Grown) : t ∈ s.twins x ↔
    s.draft.Below x t.primal ∧ s.draft.Up t.primal t.parent ∧
      ∃ info, s.Awaits t.primal info t.adjoint ∧ info.indexOffsets = t.offsets := by
  unfold twins
  rw [List.mem_flatMap, ← h.mem_children_postOrder, List.mem_flatMap]
  constructor
  · rintro ⟨c, hc, ht⟩
    obtain ⟨p, hp, htp⟩ := List.mem_filterMap.1 ht
    obtain ⟨rfl, rfl, hawaits⟩ := mem_twin?.1 htp
    exact ⟨⟨_, hc, hp⟩, h.mem_children_iff.1 hp, hawaits⟩
  · rintro ⟨⟨c, hc, hp⟩, hup, hawaits⟩
    obtain rfl : c = t.parent := s.draft.rightUnique_up (h.mem_children_iff.1 hp) hup
    exact ⟨_, hc, List.mem_filterMap.2 ⟨_, hp, mem_twin?.2 ⟨rfl, rfl, hawaits⟩⟩⟩

theorem isSome_pendingAt_iff : (pendingAt s p).isSome = true ↔ ∃ info a, s.Awaits p info a := by
  rw [Option.isSome_iff_exists]
  constructor
  · rintro ⟨⟨offsets, a⟩, hp⟩
    obtain ⟨info, ha, -⟩ := exists_awaits hp
    exact ⟨info, a, ha⟩
  · rintro ⟨info, a, ha⟩
    exact ⟨_, ha.pendingAt_eq⟩

theorem map_primal_filterMap (l : List NodeId) : (l.filterMap (s.twin? c)).map (·.primal) =
    l.filter fun p => (pendingAt s p).isSome := by
  rw [List.map_filterMap, ← List.filterMap_eq_filter]
  refine List.filterMap_congr fun p _ => ?_
  cases hp : pendingAt s p <;> simp [twin?, Option.guard, hp]

/-- Every place gets at most one twin. -/
theorem nodup_twins (h : s.draft.Grown) (x : NodeId) : ((s.twins x).map (·.primal)).Nodup := by
  have hmap : (s.twins x).map (·.primal) =
      ((s.draft.postOrder s.draft.nodes.size x).flatMap s.draft.children).filter
        fun p => (pendingAt s p).isSome := by
    unfold twins
    rw [List.map_flatMap, List.filter_flatMap]
    exact List.flatMap_congr fun c _ => map_primal_filterMap _
  rw [hmap]
  exact (h.nodup_children (h.nodup_postOrder _ x)).filter _

open scoped Classical in
/-- The twins that a node gets are those of its children that wait, in their order. -/
theorem twins_of_parent (h : s.draft.Grown) (x c : NodeId) :
    ((s.twins x).filter (·.parent = c)).map (·.primal) =
      (s.draft.children c).filter fun p => s.Waits (s.draft.Below x) p := by
  have hparent {c' : NodeId} {t : Twin}
      (ht : t ∈ (s.draft.children c').filterMap (s.twin? c')) : t.parent = c' := by
    obtain ⟨p, -, htp⟩ := List.mem_filterMap.1 ht
    exact (mem_twin?.1 htp).2.1
  -- the walk meets each node once, and only at `c` it finds twins for children of `c`
  unfold twins
  rw [List.filter_flatMap, flatMap_of_nodup (h.nodup_postOrder _ x) fun c' _ hne =>
    List.filter_eq_nil_iff.2 fun t ht he => hne (hparent ht ▸ of_decide_eq_true he)]
  split
  · rename_i hc
    rw [List.filter_eq_self.2 fun t ht => decide_eq_true (hparent ht), map_primal_filterMap]
    refine List.filter_congr fun p hp => ?_
    have hbelow := h.mem_children_postOrder.1 (List.mem_flatMap.2 ⟨c, hc, hp⟩)
    rw [Bool.eq_iff_iff, decide_eq_true_iff, isSome_pendingAt_iff]
    exact ⟨fun ha => ⟨hbelow, ha⟩, fun ha => ha.2⟩
  · rename_i hc
    rw [List.map_nil, eq_comm, List.filter_eq_nil_iff]
    intro p hp hw
    obtain ⟨hbelow, -⟩ := of_decide_eq_true hw
    obtain ⟨c', hc', hp'⟩ := List.mem_flatMap.1 (h.mem_children_postOrder.2 hbelow)
    have hcc := s.draft.rightUnique_up (h.mem_children_iff.1 hp') (h.mem_children_iff.1 hp)
    exact hc (hcc ▸ hc')

/-- The plan for a twin in the draft as it is. -/
def plan (s : Drafting) (t : Twin) : PlacePlan := t.plan (s.draft.nodes[t.parent]?.getD .root)

/-- Everything that is known of a draft that placed known members. -/
structure Ready (s : Drafting) (known : Member → Prop) : Prop where
  registered : s.Registered known
  built : s.draft.Built
  declared : ∀ {m : Member}, known m → m.Declared

/-- What is known where a place awaits an adjoint. -/
theorem Ready.awaits (h : s.Ready known) (ha : s.Awaits p info a) (hup : s.draft.Up p c) :
    ∃ q, s.draft.nodes[c]? = some q ∧ c ≠ 0 ∧ q.kind.type ≠ .place ∧
      q.kind.type.isBitLevel = false ∧ a.dtype.isReal = true ∧ a.adjoint? = none ∧
        (info.indexOffsets = [] ∨ info.indexOffsets.length = q.index.arity) := by
  have hgrown := h.registered.grown
  obtain ⟨hdtype, hreal, hnone⟩ :=
    (h.declared (h.registered.places ha.place)).adjoint_real ha.adjoint
  obtain ⟨q, hq, hc⟩ := Draft.of_mem_children (hgrown.mem_children_iff.2 hup)
  obtain ⟨-, n, hn, hparent, hindex, hadm, -⟩ := hgrown.child hq hc
  have hkind : n.kind = .place info := by
    have hplace := ha.place
    rw [Draft.placeAt?, hn, Option.bind_some] at hplace
    cases hk : n.kind <;> rw [hk] at hplace <;> cases hplace
    rfl
  obtain ⟨hroot, hoffsets⟩ := h.built.numbered.offsets hn hkind
  have hc0 : c ≠ 0 := fun h0 => hroot (h0 ▸ hparent)
  have hbits : q.kind.type.isBitLevel = false := by
    rw [hkind] at hadm
    rw [← hadm.2.2, ← hdtype]
    exact (DataType.not_isQuant_of_isReal hreal).1
  rw [hindex, hkind] at hoffsets
  exact ⟨q, hq, hc0, hadm.ne_place, hbits, hreal, hnone, hoffsets⟩

/-- Every twin can be planned. -/
theorem Ready.planAdjoints_eq (h : s.Ready known) (c : NodeId) : planAdjoints s c =
    .ok (((s.draft.children c).filterMap (s.twin? c)).map s.plan) := by
  have hlist : pendingAdjoints s c =
      ((s.draft.children c).filterMap (s.twin? c)).map fun t => (t.offsets, t.adjoint) := by
    rw [List.map_filterMap]
    refine List.filterMap_congr fun p _ => ?_
    change pendingAt s p = _
    unfold twin?
    cases pendingAt s p <;> rfl
  unfold planAdjoints
  rw [hlist, List.mapM_map]
  refine mapM_eq_map fun t ht => ?_
  obtain ⟨p, hp, htp⟩ := List.mem_filterMap.1 ht
  obtain ⟨-, rfl, info, ha, hoff⟩ := mem_twin?.1 htp
  obtain ⟨q, hq, h0, hplace, hbits, hreal, -, hoffsets⟩ :=
    h.awaits ha (h.registered.grown.mem_children_iff.1 hp)
  rw [hoff] at hoffsets
  simp only [Function.comp, hq, plan, Option.getD_some]
  exact Twin.planPlace_eq ha.unplaced hoffsets h0 hplace hbits hreal

/-- The plans for a subtree are those for its twins. -/
theorem Ready.exists_plans (h : s.Ready known) (x : NodeId) : ∃ plans,
    (s.draft.postOrder s.draft.nodes.size x).mapM (planAdjoints s) = .ok plans ∧
      plans.flatten = (s.twins x).map s.plan := by
  refine ⟨_, mapM_eq_map fun c _ => h.planAdjoints_eq c, ?_⟩
  unfold twins
  rw [List.map_flatMap]
  rfl

theorem Ready.lazyGrad_eq (h : s.Ready known) {n : Node} (hx : s.draft.nodes[x]? = some n) :
    DraftM.lazyGrad x s = ((s.twins x).map s.plan).forM DraftM.applyPlan s := by
  obtain ⟨plans, hplans, hflat⟩ := h.exists_plans x
  unfold DraftM.lazyGrad
  change EStateM.bind (DraftM.node x) _ s = _
  rw [EStateM.bind, DraftM.node_eq hx, ← hflat]
  change EStateM.bind (DraftM.check ((s.draft.postOrder s.draft.nodes.size x).mapM
    (planAdjoints s))) _ s = _
  rw [EStateM.bind, hplans]
  rfl

theorem members_plan (ts : List Twin) :
    (ts.map s.plan).flatMap (·.members) = ts.map (·.adjoint) := by
  rw [List.flatMap_map, List.map_eq_flatMap]
  rfl

end Drafting

end SparseLayout
