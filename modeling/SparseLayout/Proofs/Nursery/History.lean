import SparseLayout.Proofs.Nursery

namespace SparseLayout

namespace Nursery

/-- The state agrees with what has happened. -/
structure Sound (s : Nursery) (es : List Event) : Prop where
  workshop : s.toWorkshop.Sound
  tends : Tends s.builders s.drafts (attempts es) s.forest.pending
  records : Records s.forest.trees s.drafts (finishes es) (destroyed es)
  finishes_nodup : ((finishes es).map (·.1)).Nodup

variable {s s' : Nursery} {es : List Event} {e : Event} {b : Nat} {builder builder' : Builder}
  {d : Draft}

theorem filterMap_snoc {α β : Type} (g : α → Option β) (l : List α) (a : α) :
    (l ++ [a]).filterMap g = l.filterMap g ++ (g a).toList := by
  rw [List.filterMap_append]
  cases hg : g a with
  | none => rw [List.filterMap_cons_none hg]; rfl
  | some x => rw [List.filterMap_cons_some hg]; rfl

theorem attempted_of_finish {root : Handle} (h : (b, root) ∈ finishes es) : b ∈ attempts es := by
  obtain ⟨e, he, hfinish⟩ := List.mem_filterMap.1 h
  refine List.mem_filterMap.2 ⟨e, he, ?_⟩
  unfold Event.finish? at hfinish
  split at hfinish
  · cases hfinish
    rfl
  · cases hfinish

/-- An event without a part in the records leaves them alone. -/
theorem Sound.snoc (h : s.Sound es) (he : e.finish? = none ∧ e.attempt? = none ∧
    e.destroyed? = none) : s.Sound (es ++ [e]) := by
  obtain ⟨hf, ha, hd⟩ := he
  have hfin : finishes (es ++ [e]) = finishes es := by
    rw [finishes, filterMap_snoc, hf]
    exact List.append_nil _
  have hatt : attempts (es ++ [e]) = attempts es := by
    rw [attempts, filterMap_snoc, ha]
    exact List.append_nil _
  have hdes : destroyed (es ++ [e]) = destroyed es := by
    rw [destroyed, filterMap_snoc, hd]
    exact List.append_nil _
  exact ⟨h.workshop, hatt ▸ h.tends, hfin ▸ hdes ▸ h.records, hfin ▸ h.finishes_nodup⟩

/-- The draft of an open builder is not that of a tree. -/
theorem Sound.ne_of_open (h : s.Sound es) (hb : s.builders[b]? = some (some builder))
    (hd : builder.draft? = some d) {k : Nat} {root : Handle} (hk : (k, root) ∈ finishes es) :
    b ≠ k := by
  rintro rfl
  have hnone := (h.tends.attempted hb).2 (attempted_of_finish hk)
  rw [hd] at hnone
  cases hnone

theorem put_closed (hb : s.builders[b]? = some (some builder)) (hd : builder.draft? = none) :
    s.put b builder = s := by
  unfold put
  rw [hd, Workshop.set_of_getElem? hb]
  rfl

theorem put_open (hd : builder.draft? = some d) : s.put b builder =
    { s with builders := s.builders.set b (some builder), drafts := s.drafts.set b d } := by
  unfold put
  rw [hd]
  rfl

theorem sound_start {config : Config} {forest : Forest} (h : Forest.new config = .ok forest) :
    Sound ⟨⟨.empty, [], []⟩, forest, []⟩ [] := by
  unfold Forest.new at h
  cases hc : config.check with
  | error e =>
    rw [hc] at h
    cases h
  | ok u =>
    rw [hc] at h
    cases h
    exact ⟨Workshop.sound_start, .start, .start, List.nodup_nil⟩

theorem Sound.declareField (h : s.Sound es) (decl : FieldDecl) :
    Sound { s with toWorkshop := s.declareField decl } es := by
  have hdrafts : (s.declareField decl).drafts = s.drafts := by
    unfold Workshop.declareField
    split <;> rfl
  refine ⟨h.workshop.declareField decl, ?_, ?_, h.finishes_nodup⟩
  · exact hdrafts ▸ h.tends
  · exact hdrafts ▸ h.records

theorem Sound.build (h : s.Sound es) {forest : Forest} {catalog : Catalog}
    (hb : Builder.new s.forest s.catalog = (builder, forest, catalog)) : Sound { s with
      forest, catalog
      builders := s.builders ++ [some builder]
      drafts := s.drafts ++ builder.draft?.toList } es := by
  have hnew : Builder.new s.forest s.catalog = (⟨.building (.new s.catalog.roots
      s.forest.config.packing), true, []⟩, { s.forest with
        pending := s.forest.pending ++ [s.catalog.roots] }, s.catalog.newRoot.2) := rfl
  rw [hnew] at hb
  cases hb
  refine ⟨h.workshop.newDraft s.forest.config.packing, h.tends.append rfl ?_, ?_, h.finishes_nodup⟩
  · intro hmem
    obtain ⟨d, hd, hr⟩ := h.tends.exists_draft hmem
    exact Nat.ne_of_lt (h.workshop.root_lt d hd) hr
  · refine h.records.mono fun b root d _ hd => ?_
    exact (List.getElem?_append_left (List.getElem?_eq_some_iff.1 hd).1).trans hd

theorem Sound.declare (h : s.Sound es) (hb : s.builders[b]? = some (some builder))
    {node : Option NodeId} {decl : Declaration} (huses : decl.Uses s.Knows)
    {r : Except BuildError NodeId} {catalog : Catalog}
    (hr : ending (Builder.declare node decl (builder, s.catalog)) = (r, builder', catalog)) :
    Sound { s.put b builder' with catalog } es := by
  cases hd : builder.draft? with
  | none =>
    rw [Builder.declare_of_closed hd] at hr
    cases hr
    rw [put_closed hb hd]
    exact h
  | some d =>
    obtain ⟨r', b', hend, hd'⟩ := Builder.declare_of_open (c := s.catalog) hd node decl
    rw [hend] at hr
    cases hr
    have hdraft := h.tends.building hb hd
    have hworkshop := h.workshop.declare b (node.getD 0) huses
    rw [Workshop.declare, hdraft] at hworkshop
    have hroot := h.workshop.root_after (List.mem_of_getElem? hdraft) (node.getD 0) huses
    rw [put_open hd']
    refine ⟨hworkshop, h.tends.change hb hd hd' hroot, ?_, h.finishes_nodup⟩
    refine h.records.mono fun k root dk hk hdk => ?_
    exact (List.getElem?_set_ne (h.ne_of_open hb hd hk)).trans hdk

/-- A tree that an open builder finished is recorded behind the others, as that builder's only
one. -/
theorem Sound.finished (h : s.Sound es) (hb : s.builders[b]? = some (some builder))
    (hd : builder.draft? = some d) {t : Layout} {compileOnly : Bool}
    (ht : d.compile s.forest.trees.size compileOnly = .ok t) (store : Option Store) :
    Records (s.forest.trees.push ⟨t, store, false⟩) s.drafts
        (finishes es ++ [(b, t.rootHandle)]) (destroyed es) ∧
      ((finishes es ++ [(b, t.rootHandle)]).map (·.1)).Nodup := by
  obtain ⟨hnodes, hid, -⟩ := Draft.compile_nodes ht
  refine ⟨h.records.push (h.tends.building hb hd) hnodes hid store, ?_⟩
  rw [List.map_append, List.nodup_append]
  refine ⟨h.finishes_nodup, List.nodup_singleton _, ?_⟩
  rintro k hk _ hb' rfl
  obtain ⟨⟨k, root⟩, hmem, rfl⟩ := List.mem_map.1 hk
  exact h.ne_of_open hb hd hmem (List.mem_singleton.1 hb').symm

theorem Sound.finalize (h : s.Sound es) (hb : s.builders[b]? = some (some builder))
    {warn compileOnly : Bool} {r : Except BuildError Handle} {forest : Forest}
    (hr : ending (Builder.finalize warn compileOnly (builder, s.forest)) = (r, builder', forest)) :
    Sound { s.put b builder' with forest } (es ++ [.finalized b r]) := by
  have hatt : attempts (es ++ [.finalized b r]) = attempts es ++ [b] := filterMap_snoc ..
  have hdes : destroyed (es ++ [.finalized b r]) = destroyed es :=
    (filterMap_snoc ..).trans (List.append_nil _)
  cases hd : builder.draft? with
  | none =>
    -- a closed builder is refused, and only the attempt is recorded
    rw [Builder.finalize_of_closed hd] at hr
    cases hr
    have hfin : finishes (es ++ [.finalized b (.error .finalized)]) = finishes es :=
      (filterMap_snoc ..).trans (List.append_nil _)
    rw [put_closed hb hd]
    refine ⟨h.workshop, ?_, ?_, hfin ▸ h.finishes_nodup⟩
    · rw [hatt]
      exact (h.tends.closed hb hd).2
    · rw [hfin, hdes]
      exact h.records
  | some d =>
    obtain ⟨b', hclosed, hcases⟩ := Builder.finalize_of_open (f := s.forest) hd
      (h.tends.mem_pending hb hd) warn compileOnly
    have htends : Tends (s.builders.set b (some b')) s.drafts (attempts es ++ [b])
        (s.forest.pending.erase d.root) := h.tends.close hb hd (Or.inr ⟨b', rfl, hclosed, rfl⟩)
    rw [← hatt] at htends
    have hput : s.put b b' = { s with builders := s.builders.set b (some b') } := by
      unfold put
      rw [hclosed]
      rfl
    -- the builder is closed either way; a tree is added only where it compiles
    rcases hcases with ⟨e, he⟩ | ⟨t, store, ht, he⟩
    · rw [he] at hr
      cases hr
      have hfin : finishes (es ++ [.finalized b (.error e)]) = finishes es :=
        (filterMap_snoc ..).trans (List.append_nil _)
      rw [hput]
      refine ⟨h.workshop, htends, ?_, hfin ▸ h.finishes_nodup⟩
      rw [hfin, hdes]
      exact h.records
    · rw [he] at hr
      cases hr
      have hfin : finishes (es ++ [.finalized b (.ok t.rootHandle)]) =
          finishes es ++ [(b, t.rootHandle)] := filterMap_snoc ..
      obtain ⟨hrecords, hnodup⟩ := h.finished hb hd ht store
      rw [hput]
      refine ⟨h.workshop, htends, ?_, ?_⟩
      · rw [hfin, hdes]
        exact hrecords
      · rw [hfin]
        exact hnodup

theorem Sound.drop (h : s.Sound es) (hb : s.builders[b]? = some (some builder)) : Sound
    { s with forest := builder.drop s.forest, builders := s.builders.set b none } es := by
  cases hd : builder.draft? with
  | none =>
    rw [Builder.drop_of_closed hd]
    exact ⟨h.workshop, (h.tends.closed hb hd).1, h.records, h.finishes_nodup⟩
  | some d =>
    rw [Builder.drop_of_open hd]
    have htends : Tends (s.builders.set b none) s.drafts (attempts es ++ [])
        (s.forest.pending.erase d.root) := h.tends.close hb hd (Or.inl ⟨rfl, rfl⟩)
    rw [List.append_nil] at htends
    exact ⟨h.workshop, htends, h.records, h.finishes_nodup⟩

theorem Sound.destroy (h : s.Sound es) {id : TreeId} {r : Except Fault Unit} {forest : Forest}
    (hr : ending (Forest.destroy id s.forest) = (r, forest)) :
    Sound { s with forest } (es ++ [.destroyed id r]) := by
  have hfin : finishes (es ++ [.destroyed id r]) = finishes es :=
    (filterMap_snoc ..).trans (List.append_nil _)
  have hatt : attempts (es ++ [.destroyed id r]) = attempts es :=
    (filterMap_snoc ..).trans (List.append_nil _)
  rcases Forest.destroy_cases id s.forest with ⟨tree, htree, -, he⟩ | ⟨e, he⟩
  · rw [he] at hr
    cases hr
    have hdes : destroyed (es ++ [.destroyed id (.ok ())]) = destroyed es ++ [id] :=
      filterMap_snoc ..
    refine ⟨h.workshop, hatt ▸ h.tends, ?_, hfin ▸ h.finishes_nodup⟩
    rw [hfin, hdes]
    exact h.records.destroy htree
  · rw [he] at hr
    cases hr
    exact h.snoc ⟨rfl, rfl, rfl⟩

/-- Every call keeps the state in agreement with what has happened. -/
theorem Sound.step (h : s.Sound es) (hs : Step s e s') : s'.Sound (es ++ [e]) := by
  cases hs with
  | declareField decl => exact (h.declareField decl).snoc ⟨rfl, rfl, rfl⟩
  | build hb => exact (h.build hb).snoc ⟨rfl, rfl, rfl⟩
  | declare hb huses hr => exact (h.declare hb huses hr).snoc ⟨rfl, rfl, rfl⟩
  | finalize hb hr => exact h.finalize hb hr
  | drop hb => exact (h.drop hb).snoc ⟨rfl, rfl, rfl⟩
  | destroy hr => exact h.destroy hr

theorem History.sound (h : History s es) : s.Sound es := by
  induction h with
  | start hnew => exact sound_start hnew
  | step _ hs ih => exact ih.step hs

/-- Entries picked by position are those that pass a check. -/
theorem filterMap_range {α : Type} {l : List α} {g : Nat → Option α} {p : α → Bool}
    (h : ∀ i x, l[i]? = some x → g i = if p x = true then some x else none) :
    (List.range l.length).filterMap g = l.filter p := by
  induction l using List.reverseRecOn with
  | nil => rfl
  | append_singleton l x ih =>
    have hlast := h l.length x List.getElem?_concat_length
    have hinit (i : Nat) (y : α) (hi : l[i]? = some y) :=
      h i y ((List.getElem?_append_left (List.getElem?_eq_some_iff.1 hi).1).trans hi)
    rw [List.length_append, List.length_singleton, List.range_succ, filterMap_snoc,
      List.filter_append, ih hinit, hlast]
    split
    · rw [List.filter_cons_of_pos ‹_›]
      rfl
    · rw [List.filter_cons_of_neg ‹_›]
      rfl

theorem Sound.roots (h : s.Sound es) : s.forest.roots =
    ((finishes es).map (·.2)).filter fun root => root.layout.tree ∉ destroyed es := by
  unfold Forest.roots
  have hlength : s.forest.trees.size = ((finishes es).map (·.2)).length :=
    h.records.size.trans (List.length_map _).symm
  rw [hlength]
  refine filterMap_range fun i root hi => ?_
  rw [List.getElem?_map] at hi
  obtain ⟨⟨b, root⟩, hfin, rfl⟩ := Option.map_eq_some_iff.1 hi
  obtain ⟨tree, d, htree, hroot, hid, hdestroyed, -⟩ := h.records.tree hfin
  dsimp only at hroot ⊢
  rw [Forest.root?, htree, hroot]
  change (if tree.destroyed = true then none else some tree.layout.rootHandle) =
    if decide (tree.layout.tree ∉ destroyed es) = true then some tree.layout.rootHandle else none
  rw [hid]
  by_cases hd : tree.destroyed = true
  · rw [if_pos hd, if_neg]
    simpa using hdestroyed.1 hd
  · rw [if_neg hd, if_pos]
    simpa using mt hdestroyed.2 hd

/-- The member table of a compiled tree, in terms of the places of its draft. -/
theorem mem_members_iff {t : Layout} (h : t.NodesOf d) {m : MemberId} {id : NodeId} :
    (m, id) ∈ t.members ↔ (d.placeAt? id).map (·.member.id) = some m := by
  rw [h.mem_members, Draft.placeAt?, Option.map_eq_some_iff]
  simp only [Option.bind_eq_some_iff]
  constructor
  · rintro ⟨n, info, hn, hk, hm⟩
    exact ⟨info, ⟨n, hn, by rw [hk]; rfl⟩, hm⟩
  · rintro ⟨info, ⟨n, hn, hk⟩, hm⟩
    refine ⟨n, info, hn, ?_, hm⟩
    cases hkind : n.kind <;> rw [hkind] at hk <;> cases hk
    rfl

/-- Where a table of members lists each once, they are found where they are listed. -/
theorem lookup_eq_some_iff {α β : Type} [BEq α] [LawfulBEq α] {l : List (α × β)} {a : α} {b : β}
    (h : ∀ b b', (a, b) ∈ l → (a, b') ∈ l → b = b') : l.lookup a = some b ↔ (a, b) ∈ l := by
  have mem {b : β} (hb : l.lookup a = some b) : (a, b) ∈ l := by
    obtain ⟨l₁, l₂, rfl, -⟩ := List.lookup_eq_some_iff.1 hb
    exact List.mem_append_right _ List.mem_cons_self
  refine ⟨mem, fun hb => ?_⟩
  cases hl : l.lookup a with
  | none =>
    have hne := List.lookup_eq_none_iff.1 hl _ hb
    simp at hne
  | some b' => rw [h b b' hb (mem hl)]

/-- Every tree was compiled from the draft of a builder that was finalized. -/
theorem Sound.exists_builder (h : s.Sound es) {i : Nat} {tree : Forest.Tree}
    (hi : s.forest.trees[i]? = some tree) : ∃ b d,
      (finishes es)[i]? = some (b, tree.layout.rootHandle) ∧ s.drafts[b]? = some d ∧
        tree.layout.NodesOf d := by
  have hlt : i < (finishes es).length := h.records.size ▸ (Array.getElem?_eq_some_iff.1 hi).1
  obtain ⟨⟨b, root⟩, hb⟩ : ∃ x, (finishes es)[i]? = some x := ⟨_, List.getElem?_eq_getElem hlt⟩
  obtain ⟨tree', d, htree, rfl, -, -, hd, hnodes⟩ := h.records.tree hb
  rw [hi, Option.some.injEq] at htree
  subst htree
  exact ⟨b, d, hb, hd, hnodes⟩

/-- Trees with equal roots come from one draft, and so from one builder. -/
theorem Sound.eq_of_root (h : s.Sound es) {i j : Nat} {u v : Forest.Tree}
    (hi : s.forest.trees[i]? = some u) (hj : s.forest.trees[j]? = some v)
    (hr : u.layout.root = v.layout.root) : u = v := by
  obtain ⟨b, d, hb, hd, hnodes⟩ := h.exists_builder hi
  obtain ⟨b', d', hb', hd', hnodes'⟩ := h.exists_builder hj
  have hbb : b = b' := by
    refine (List.getElem?_inj ?_ h.workshop.roots).1 ?_
    · rw [List.length_map]
      exact (List.getElem?_eq_some_iff.1 hd).1
    · rw [List.getElem?_map, List.getElem?_map, hd, hd']
      exact congrArg some (hnodes.root.symm.trans (hr.trans hnodes'.root))
  have hij : i = j := by
    refine (List.getElem?_inj ?_ h.finishes_nodup).1 ?_
    · rw [List.length_map]
      exact (List.getElem?_eq_some_iff.1 hb).1
    · rw [List.getElem?_map, List.getElem?_map, hb, hb', hbb]
      rfl
  subst hij
  exact Option.some.inj (hi.symm.trans hj)

/-- The tree with a root is found by it. -/
theorem Sound.find?_eq_some_iff (h : s.Sound es) {r : RootId} {tree : Forest.Tree} :
    s.forest.trees.find? (·.layout.root = r) = some tree ↔
      ∃ i : Nat, s.forest.trees[i]? = some tree ∧ tree.layout.root = r := by
  constructor
  · intro hfind
    obtain ⟨i, hi⟩ := Array.mem_iff_getElem?.1 (Array.mem_of_find?_eq_some hfind)
    exact ⟨i, hi, by simpa using Array.find?_some hfind⟩
  · rintro ⟨i, hi, hr⟩
    cases hfind : s.forest.trees.find? (·.layout.root = r) with
    | none =>
      have hne := Array.find?_eq_none.1 hfind tree (Array.mem_iff_getElem?.2 ⟨i, hi⟩)
      simp [hr] at hne
    | some v =>
      obtain ⟨j, hj⟩ := Array.mem_iff_getElem?.1 (Array.mem_of_find?_eq_some hfind)
      have hv : v.layout.root = r := by simpa using Array.find?_some hfind
      rw [h.eq_of_root hi hj (hr.trans hv.symm)]

/-- A member is found where a builder with a finished tree placed it. -/
theorem Sound.nodeOf_eq_some_iff (h : s.Sound es) {m : Member} {handle : Handle} :
    s.forest.nodeOf s.catalog m = some handle ↔ ∃ b root d, (b, root) ∈ finishes es ∧
      s.drafts[b]? = some d ∧ (d.placeAt? handle.id).map (·.member.id) = some m.id ∧
        handle.layout = root.layout := by
  -- a member is placed once in a draft, so that its first entry in the table is the only one
  have lookup_iff {b : Nat} {t : Layout} {d : Draft} (hd : s.drafts[b]? = some d)
      (ht : t.NodesOf d) {id : NodeId} :
      t.placeOf m.id = some id ↔ (d.placeAt? id).map (·.member.id) = some m.id := by
    rw [← mem_members_iff ht]
    refine lookup_eq_some_iff fun id id' hid hid' => ?_
    rw [mem_members_iff ht] at hid hid'
    obtain ⟨info, hinfo, hm⟩ := Option.map_eq_some_iff.1 hid
    obtain ⟨info', hinfo', hm'⟩ := Option.map_eq_some_iff.1 hid'
    exact (h.workshop.once hd hd hinfo hinfo' (hm.trans hm'.symm)).2
  unfold Forest.nodeOf
  simp only [Option.bind_eq_bind, Option.bind_eq_some_iff, h.find?_eq_some_iff]
  constructor
  · rintro ⟨p, hp, tree, ⟨i, hi, hr⟩, id, hid, hhandle⟩
    obtain ⟨b, d, hb, hd, hnodes⟩ := h.exists_builder hi
    unfold Layout.handle? at hhandle
    split at hhandle
    · cases hhandle
      exact ⟨b, _, d, List.mem_of_getElem? hb, hd, (lookup_iff hd hnodes).1 hid, rfl⟩
    · cases hhandle
  · rintro ⟨b, root, d, hfin, hd, hplace, hlayout⟩
    obtain ⟨i, hi⟩ := List.mem_iff_getElem?.1 hfin
    obtain ⟨tree, d', htree, hroot, -, -, hd', hnodes⟩ := h.records.tree hi
    rw [hd, Option.some.injEq] at hd'
    subst hd'
    have hp := (h.workshop.recorded m.id ⟨d.root, handle.id⟩).2
      ⟨d, List.mem_of_getElem? hd, rfl, hplace⟩
    refine ⟨_, hp, tree, ⟨i, htree, hnodes.root⟩, handle.id, (lookup_iff hd hnodes).2 hplace, ?_⟩
    obtain ⟨t, id, hlt⟩ := handle
    have ht : t = tree.layout := by
      rw [hroot] at hlayout
      exact hlayout
    subst ht
    exact dif_pos hlt

/-- What the parts of the state promise at every moment of a history. -/
structure Kept (s : Nursery) (es : List Event) : Prop where
  /-- As many trees as builders were finalized with success, numbered in this order. -/
  size : s.forest.trees.size = (finishes es).length
  tree : ∀ {i b : Nat} {root : Handle}, (finishes es)[i]? = some (b, root) →
    root.layout.tree = i ∧ root.id = 0 ∧ s.forest.layout? i = some root.layout
  /-- The roots are those of the trees that were not destroyed, in this order. -/
  roots : s.forest.roots =
    ((finishes es).map (·.2)).filter fun root => root.layout.tree ∉ destroyed es
  /-- Every open builder has a pending root, and no other is pending. -/
  pending : s.forest.pending = s.builders.filterMap openRoot?
  pending_length : s.forest.pending.length =
    s.builders.countP fun builder => (builder.bind (·.draft?)).isSome
  /-- No builder is finalized with success twice. -/
  finished_once : ((finishes es).map (·.1)).Nodup
  /-- A builder is open until it is finalized for the first time. -/
  is_open : ∀ {b : Nat} {builder : Builder}, s.builders[b]? = some (some builder) →
    b ∉ attempts es → ∃ d, builder.draft? = some d ∧ s.drafts[b]? = some d
  /-- From then on it refuses every call and changes nothing. -/
  is_closed : ∀ {b : Nat} {builder : Builder}, s.builders[b]? = some (some builder) →
    b ∈ attempts es → builder.isFinalized = true ∧
      (∀ warn compileOnly, Builder.finalize warn compileOnly (builder, s.forest) =
        .error .finalized (builder, s.forest)) ∧
      ∀ node decl, Builder.declare node decl (builder, s.catalog) =
        .error .finalized (builder, s.catalog)
  /-- A member is found if it was placed by a builder that was finalized with success. -/
  found : ∀ m : Member, (s.forest.nodeOf s.catalog m).isSome = true ↔
    ∃ b root d id, (b, root) ∈ finishes es ∧ s.drafts[b]? = some d ∧
      (d.placeAt? id).map (·.member.id) = some m.id
  /-- It is found at its place node, which is the one that the catalog records. -/
  located : ∀ {m : Member} {h : Handle}, s.forest.nodeOf s.catalog m = some h →
    s.catalog.placement? m.id = some ⟨h.layout.root, h.id⟩ ∧ h.member?.map (·.id) = some m.id ∧
      ∃ b root, (b, root) ∈ finishes es ∧ h.layout = root.layout

theorem Sound.located (h : s.Sound es) {m : Member} {handle : Handle}
    (hm : s.forest.nodeOf s.catalog m = some handle) :
    s.catalog.placement? m.id = some ⟨handle.layout.root, handle.id⟩ ∧
      handle.member?.map (·.id) = some m.id ∧
        ∃ b root, (b, root) ∈ finishes es ∧ handle.layout = root.layout := by
  obtain ⟨b, root, d, hfin, hd, hplace, hlayout⟩ := h.nodeOf_eq_some_iff.1 hm
  obtain ⟨i, hi⟩ := List.mem_iff_getElem?.1 hfin
  obtain ⟨tree, d', -, hroot, -, -, hd', hnodes⟩ := h.records.tree hi
  rw [hd, Option.some.injEq] at hd'
  subst hd'
  have ht : handle.layout.NodesOf d := by
    rw [hlayout, hroot]
    exact hnodes
  refine ⟨?_, ?_, b, root, hfin, hlayout⟩
  · rw [h.workshop.recorded, ht.root]
    exact ⟨d, List.mem_of_getElem? hd, rfl, hplace⟩
  · have hnode : handle.layout.nodes[handle.id]? = some handle.node :=
      Array.getElem?_eq_getElem handle.isLt
    obtain ⟨n, hn, -, hk, -⟩ := ht.node hnode
    rw [Draft.placeAt?, hn, Option.bind_some] at hplace
    rw [Handle.member?, hk, Option.map_map]
    exact hplace

/-- Through every history of a forest, its trees, roots and members are accounted for by the
builders that were finalized. -/
theorem History.kept (h : History s es) : s.Kept es := by
  have hs := h.sound
  constructor
  case size => exact hs.records.size
  case tree =>
    intro i b root hi
    obtain ⟨tree, d, htree, rfl, hid, -⟩ := hs.records.tree hi
    exact ⟨hid, rfl, by rw [Forest.layout?, htree]; rfl⟩
  case roots => exact hs.roots
  case pending => exact hs.tends.pending_eq
  case pending_length =>
    rw [hs.tends.pending_eq, List.length_filterMap_eq_countP]
    simp only [openRoot?, Option.isSome_map]
  case finished_once => exact hs.finishes_nodup
  case is_open =>
    intro b builder hb hnot
    cases hd : builder.draft? with
    | none => exact absurd ((hs.tends.attempted hb).1 hd) hnot
    | some d => exact ⟨d, rfl, hs.tends.building hb hd⟩
  case is_closed =>
    intro b builder hb hmem
    have hd := (hs.tends.attempted hb).2 hmem
    refine ⟨by rw [Builder.isFinalized, hd]; rfl, ?_, ?_⟩
    · exact Builder.finalize_of_closed hd
    · exact Builder.declare_of_closed hd
  case found =>
    intro m
    rw [Option.isSome_iff_exists]
    constructor
    · rintro ⟨handle, hm⟩
      obtain ⟨b, root, d, hfin, hd, hplace, -⟩ := hs.nodeOf_eq_some_iff.1 hm
      exact ⟨b, root, d, handle.id, hfin, hd, hplace⟩
    · -- the tree has the nodes of its draft, so the place is one of the tree
      rintro ⟨b, root, d, id, hfin, hd, hplace⟩
      obtain ⟨i, hi⟩ := List.mem_iff_getElem?.1 hfin
      obtain ⟨tree, d', -, hroot, -, -, hd', hnodes⟩ := hs.records.tree hi
      rw [hd, Option.some.injEq] at hd'
      subst hd'
      obtain ⟨info, hinfo, -⟩ := Option.map_eq_some_iff.1 hplace
      obtain ⟨n, hn, -⟩ := Option.bind_eq_some_iff.1 hinfo
      obtain ⟨v, hv⟩ := hnodes.exists_node hn
      have hlt : id < root.layout.nodes.size := by
        rw [hroot]
        exact (Array.getElem?_eq_some_iff.1 hv).1
      exact ⟨⟨root.layout, id, hlt⟩, hs.nodeOf_eq_some_iff.2 ⟨b, root, d, hfin, hd, hplace, rfl⟩⟩
  case located => exact hs.located

end Nursery

namespace Sample

open Nursery

def soil : Config := ⟨.padded, 64, 2⟩

/-- A field and two builders. -/
def sown : Nursery :=
  let w := (⟨.empty, [], []⟩ : Workshop).declareField pair
  let (b₀, forest, catalog) := Builder.new ⟨soil, [], #[]⟩ w.catalog
  let (b₁, forest, catalog) := Builder.new forest catalog
  ⟨⟨catalog, [b₀, b₁].filterMap (·.draft?), w.fields⟩, forest, [some b₀, some b₁]⟩

def builderAt (s : Nursery) (b : Nat) : Builder :=
  s.builders[b]?.join.getD ⟨.finalized none, true, []⟩

/-- A builder is asked to place the field on the root. -/
def placed (s : Nursery) (b : Nat) : Event × Nursery :=
  let (r, builder, catalog) := ending (Builder.declare none
    (.place (s.fields.map .one) ⟨none, false⟩) (builderAt s b, s.catalog))
  (.declared b r, { s.put b builder with catalog })

def finished (s : Nursery) (b : Nat) : Event × Nursery :=
  let (r, builder, forest) := ending (Builder.finalize true false (builderAt s b, s.forest))
  (.finalized b r, { s.put b builder with forest })

/-- The first builder places the field, the second one cannot, and both are finalized. -/
def harvest : List Event × Nursery :=
  let (e₁, s₁) := placed sown 0
  let (e₂, s₂) := placed s₁ 1
  let (e₃, s₃) := finished s₂ 0
  let (e₄, s₄) := finished s₃ 1
  let (r, forest) := ending (Forest.destroy 0 s₄.forest)
  ([.fieldDeclared, .built, .built, e₁, e₂, e₃, e₄, .destroyed 0 r], { s₄ with forest })

theorem placed_history {s : Nursery} {es : List Event} {b : Nat} (h : History s es)
    (hb : s.builders[b]? = some (some (builderAt s b))) :
    History (placed s b).2 (es ++ [(placed s b).1]) :=
  h.step (.declare hb (Workshop.uses_fields rfl _) rfl)

theorem finished_history {s : Nursery} {es : List Event} {b : Nat} (h : History s es)
    (hb : s.builders[b]? = some (some (builderAt s b))) :
    History (finished s b).2 (es ++ [(finished s b).1]) :=
  h.step (.finalize hb rfl)

theorem history_harvest : History harvest.2 harvest.1 := by
  have hnew : History ⟨⟨.empty, [], []⟩, ⟨soil, [], #[]⟩, []⟩ [] :=
    .start (show Forest.new soil = .ok ⟨soil, [], #[]⟩ from rfl)
  have hsown : History sown [.fieldDeclared, .built, .built] :=
    ((hnew.step (.declareField pair)).step (.build rfl)).step (.build rfl)
  have h₁ := placed_history (b := 0) hsown rfl
  have h₂ := placed_history (b := 1) h₁ rfl
  have h₃ := finished_history (b := 0) h₂ rfl
  have h₄ := finished_history (b := 1) h₃ rfl
  exact h₄.step (.destroy rfl)

/-- Of the two trees, the first one, which was destroyed, has the members. -/
theorem kept_harvest : harvest.2.Kept harvest.1 ∧ harvest.2.forest.trees.size = 2 ∧
    harvest.2.forest.roots.map (·.layout.tree) = [1] ∧
      ((harvest.2.fields.flatMap (·.members)).map fun m =>
        (harvest.2.forest.nodeOf harvest.2.catalog m).map fun h => (h.layout.tree, h.id)) =
          [some (0, 2), some (0, 3)] := by
  refine ⟨history_harvest.kept, ?_, ?_, ?_⟩ <;> decide +kernel

end Sample

end SparseLayout
