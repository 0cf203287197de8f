import SparseLayout.Proofs.Draft.Additions
import SparseLayout.Proofs.Draft.Sample
import SparseLayout.Proofs.Draft.Spaces

namespace SparseLayout

namespace Draft

variable {d d' : Draft} {id p c : NodeId} {n q : Node} {kind : Kind} {info : PlaceInfo} {k : Nat}

/-- What is known of the numbers, depths and names of nodes, and of the offsets of places. -/
structure Numbered (d : Draft) : Prop where
  root : ∃ n, d.nodes[0]? = some n ∧ n.depth = 0
  name : ∀ {id : NodeId} {n : Node}, d.nodes[id]? = some n → n.name = Node.nameOf id n.kind
  depth : ∀ {id p : NodeId} {n : Node}, d.nodes[id]? = some n → n.parent = some p →
    ∃ q, d.nodes[p]? = some q ∧ n.depth = q.depth + 1
  sorted : ∀ {id : NodeId} {n : Node}, d.nodes[id]? = some n →
    n.children.Pairwise (· < ·) ∧ ∀ c ∈ n.children, c < d.next
  offsets : ∀ {id : NodeId} {n : Node} {info : PlaceInfo}, d.nodes[id]? = some n →
    n.kind = .place info → n.parent ≠ some 0 ∧
      (info.indexOffsets = [] ∨ info.indexOffsets.length = n.index.arity)

theorem numbered_new (root : RootId) (packing : Packing) : (new root packing).Numbered := by
  have hroot {id : NodeId} {n : Node} (hn : (new root packing).nodes[id]? = some n) :
      id = 0 ∧ n = Node.root := by
    cases id with
    | zero => exact ⟨rfl, (Option.some.inj hn).symm⟩
    | succ id => cases hn
  refine ⟨⟨_, rfl, rfl⟩, ?name, ?depth, ?sorted, ?offsets⟩
  case name =>
    intro id n hn
    obtain ⟨rfl, rfl⟩ := hroot hn
    rfl
  case depth =>
    intro id n p hn hp
    obtain ⟨rfl, rfl⟩ := hroot hn
    cases hp
  case sorted =>
    intro id n hn
    obtain ⟨rfl, rfl⟩ := hroot hn
    exact ⟨.nil, fun c hc => absurd hc List.not_mem_nil⟩
  case offsets =>
    intro id n info hn hk
    obtain ⟨rfl, rfl⟩ := hroot hn
    cases hk

theorem Numbered.root_of_continues {d' : Draft} (h : d.Numbered) (hc : d.Continues d') :
    ∃ n, d'.nodes[0]? = some n ∧ n.depth = 0 := by
  obtain ⟨n, hn, hd⟩ := h.root
  obtain ⟨n', hn', hg⟩ := hc 0 n hn
  exact ⟨n', hn', hg.depth.trans hd⟩

/-- A node that is added gets the next number, which is larger than those listed before it. -/
theorem Numbered.push (h : d.Numbered) (hq : d.nodes[p]? = some q) (hk : q.Fits p kind) :
    (d.push p q kind).Numbered := by
  have hcont := continues_push d p q kind
  have hnext : (d.push p q kind).next = d.next + 1 := size_push ..
  constructor
  case root => exact h.root_of_continues hcont
  case name =>
    intro id m hm
    rcases of_getElem?_push hm with ⟨rfl, rfl⟩ | ⟨n, hn, rfl⟩
    · rfl
    · have := h.name hn
      split <;> exact this
  case depth =>
    intro id p' m hm hp'
    rcases of_getElem?_push hm with ⟨rfl, rfl⟩ | ⟨n, hn, rfl⟩
    · cases hp'
      obtain ⟨q', hq', hg⟩ := hcont p q hq
      exact ⟨q', hq', by rw [hg.depth]; rfl⟩
    · obtain ⟨q₀, hq₀, hd⟩ := h.depth hn (show n.parent = some p' by split at hp' <;> exact hp')
      obtain ⟨q', hq', hg⟩ := hcont p' q₀ hq₀
      refine ⟨q', hq', ?_⟩
      rw [hg.depth, ← hd]
      split <;> rfl
  case sorted =>
    intro id m hm
    rw [hnext]
    rcases of_getElem?_push hm with ⟨rfl, rfl⟩ | ⟨n, hn, rfl⟩
    · exact ⟨.nil, fun c hc => absurd hc List.not_mem_nil⟩
    · obtain ⟨hsorted, hlt⟩ := h.sorted hn
      split
      · refine ⟨?_, ?_⟩
        · -- the new number is larger than all numbers given out before
          rw [List.pairwise_append]
          refine ⟨hsorted, List.pairwise_singleton _ _, ?_⟩
          intro c hc e he
          exact List.mem_singleton.1 he ▸ hlt c hc
        · intro c hc
          rcases List.mem_append.1 hc with hc | hc
          · exact Nat.lt_succ_of_lt (hlt c hc)
          · exact List.mem_singleton.1 hc ▸ Nat.lt_succ_self _
      · exact ⟨hsorted, fun c hc => Nat.lt_succ_of_lt (hlt c hc)⟩
  case offsets =>
    intro id m info hm hkind
    rcases of_getElem?_push hm with ⟨rfl, rfl⟩ | ⟨n, hn, rfl⟩
    · obtain ⟨h0, hoff⟩ := hk info hkind
      refine ⟨fun he => h0 (Option.some.inj he), ?_⟩
      obtain rfl : kind = .place info := hkind
      exact hoff
    · have := h.offsets hn (show n.kind = .place info by split at hkind <;> exact hkind)
      split <;> exact this

theorem Numbered.setBits (h : d.Numbered) (p : NodeId) (used groups : UInt32) :
    (d.setBits p used groups).Numbered := by
  have hcont := continues_setBits d p used groups
  have hnext : (d.setBits p used groups).next = d.next := size_setBits ..
  constructor
  case root => exact h.root_of_continues hcont
  case name =>
    intro id m hm
    obtain ⟨n, hn, hg, -⟩ := exists_of_setBits hm
    rw [hg.name, hg.kind, h.name hn]
  case depth =>
    intro id p' m hm hp'
    obtain ⟨n, hn, hg, -⟩ := exists_of_setBits hm
    obtain ⟨q, hq, hdq⟩ := h.depth hn (hg.parent ▸ hp')
    obtain ⟨q', hq', hgq⟩ := hcont p' q hq
    exact ⟨q', hq', by rw [hg.depth, hgq.depth, hdq]⟩
  case sorted =>
    intro id m hm
    obtain ⟨n, hn, -, hc⟩ := exists_of_setBits hm
    rw [hnext, hc]
    exact h.sorted hn
  case offsets =>
    intro id m info hm hkind
    obtain ⟨n, hn, hg, -⟩ := exists_of_setBits hm
    rw [hg.parent, hg.index]
    exact h.offsets hn (hg.kind ▸ hkind)

theorem Adds.numbered (h : d.Adds d') (hd : d.Numbered) : d'.Numbered := by
  induction h with
  | refl => exact hd
  | push _ hq hk ih => exact ih.push hq hk
  | setBits _ p used groups ih => exact ih.setBits p used groups

theorem Built.numbered (h : d.Built) : d.Numbered := by
  obtain ⟨root, packing, hadds⟩ := h.adds
  exact hadds.numbered (numbered_new root packing)

theorem Grown.parent?_root (h : d.Grown) : d.parent? 0 = none := by
  have hroot := h.root
  unfold parent?
  cases hn : d.nodes[0]? with
  | none => rfl
  | some n =>
    rw [hn, Option.map_some, Option.some.injEq, Prod.mk.injEq, Prod.mk.injEq] at hroot
    exact hroot.2.1

/-- A node is the root, or has a parent with a smaller number that lists it. -/
theorem Grown.parent?_cases (h : d.Grown) (hn : d.nodes[id]? = some n) :
    (id = 0 ∧ d.parent? id = none) ∨ ∃ p q, d.parent? id = some p ∧ p < id ∧
      d.nodes[p]? = some q ∧ id ∈ q.children := by
  by_cases h0 : id = 0
  · exact Or.inl ⟨h0, h0 ▸ h.parent?_root⟩
  · obtain ⟨p, q, hp, hq, hmem⟩ := h.parent hn h0
    exact Or.inr ⟨p, q, by rw [parent?, hn, Option.bind_some, hp], (h.child hq hmem).1, hq, hmem⟩

/-- The climb from a node ends at the root within as many steps as the number of the node, and meets
the ancestors of the node one after the other. -/
theorem Numbered.climb (hd : d.Numbered) (h : d.Grown) (hn : d.nodes[id]? = some n) {steps : Nat}
    (hs : id ≤ steps) : (climb d.parent? steps id).length = n.depth + 1 ∧
      (climb d.parent? steps id).getLast? = some 0 ∧
        ∀ k, (climb d.parent? steps id)[k]? = ancestor? d.parent? k id := by
  -- the parent of a node has a smaller number, so both the climb and the steps go on with less
  induction id using Nat.strongRecOn generalizing n steps with
  | ind id ih =>
    rcases h.parent?_cases hn with ⟨rfl, hp⟩ | ⟨p, q, hp, hlt, hq, -⟩
    · have hclimb : SparseLayout.climb d.parent? steps 0 = [0] := by
        cases steps with
        | zero => rfl
        | succ steps => rw [SparseLayout.climb, hp]
      obtain ⟨m, hm, hdepth⟩ := hd.root
      rw [hn, Option.some.injEq] at hm
      rw [hclimb, hm, hdepth]
      refine ⟨rfl, rfl, ?_⟩
      intro k
      cases k with
      | zero => rfl
      | succ k => rw [SparseLayout.ancestor?, hp]; rfl
    · obtain ⟨steps, rfl⟩ := Nat.exists_eq_succ_of_ne_zero (n := steps)
        (Nat.ne_of_gt (Nat.lt_of_lt_of_le (Nat.zero_lt_of_lt hlt) hs))
      have hclimb : SparseLayout.climb d.parent? (steps + 1) id =
          id :: SparseLayout.climb d.parent? steps p := by
        rw [SparseLayout.climb, hp]
      obtain ⟨hlen, hlast, hget⟩ := ih p hlt hq (Nat.le_of_lt_succ (Nat.lt_of_lt_of_le hlt hs))
      obtain ⟨q', hq', hdepth⟩ := hd.depth hn (by simpa [parent?, hn] using hp)
      rw [hq, Option.some.injEq] at hq'
      rw [hclimb, List.length_cons, hlen, hdepth, hq']
      refine ⟨rfl, ?_, ?_⟩
      · rw [List.getLast?_cons, hlast]
        rfl
      · intro k
        cases k with
        | zero => rfl
        | succ k => rw [List.getElem?_cons_succ, hget k, SparseLayout.ancestor?, hp]; rfl

theorem isChain_climb (parent? : NodeId → Option NodeId) (steps : Nat) (id : NodeId) :
    (SparseLayout.climb parent? steps id).IsChain fun a b => parent? a = some b := by
  induction steps generalizing id with
  | zero => exact .singleton _
  | succ steps ih =>
    rw [SparseLayout.climb]
    cases hp : parent? id with
    | none => exact .singleton _
    | some p =>
      refine List.IsChain.cons (ih p) ?_
      cases steps with
      | zero => rintro y ⟨⟩; exact hp
      | succ steps =>
        rw [SparseLayout.climb]
        split <;> (rintro y ⟨⟩; exact hp)

/-- The structure of a tree under construction. -/
structure Structured (d : Draft) : Prop where
  /-- Number 0 is the root, and no other node is one. -/
  root : ∀ {id : NodeId} {n : Node}, d.nodes[id]? = some n →
    (n.kind = .root ↔ id = 0) ∧ (n.parent = none ↔ id = 0) ∧ (n.depth = 0 ↔ id = 0)
  /-- A node other than a place carries its number in its name. -/
  name : ∀ {id : NodeId} {n : Node}, d.nodes[id]? = some n → n.name = Node.nameOf id n.kind
  /-- The parent has a smaller number, and lists the node once. -/
  parent : ∀ {id : NodeId} {n : Node}, d.nodes[id]? = some n → id ≠ 0 → ∃ p q,
    n.parent = some p ∧ p < id ∧ d.nodes[p]? = some q ∧ q.children.count id = 1 ∧
      n.depth = q.depth + 1
  /-- Children are listed by their parent only, in the order of their numbers. -/
  children : ∀ {id : NodeId} {n : Node}, d.nodes[id]? = some n →
    n.children.Pairwise (· < ·) ∧
      ∀ c ∈ n.children, ∃ m, d.nodes[c]? = some m ∧ m.parent = some id
  /-- The path to a node runs from the root to the node, from parent to child. -/
  path : ∀ {id : NodeId} {n : Node}, d.nodes[id]? = some n →
    (d.path id).length = n.depth + 1 ∧ (d.path id).head? = some 0 ∧
      (d.path id).getLast? = some id ∧ (d.path id).IsChain fun a b => d.parent? b = some a
  /-- Ancestors are met on the path backwards, as many as the node is deep. -/
  ancestor : ∀ {id : NodeId} {n : Node}, d.nodes[id]? = some n → ∀ k,
    ancestor? d.parent? k id = (d.path id).reverse[k]? ∧
      (ancestor? d.parent? k id = none ↔ n.depth < k)
  /-- A place lies under a node other than the root, in a bit container just if it is quantized. -/
  place : ∀ {id : NodeId} {n : Node} {info : PlaceInfo}, d.nodes[id]? = some n →
    n.kind = .place info → ∃ p q, n.parent = some p ∧ p ≠ 0 ∧ d.nodes[p]? = some q ∧
      q.kind ≠ .root ∧ info.member.dtype.isQuant = q.kind.type.isBitLevel ∧
        (info.indexOffsets = [] ∨ info.indexOffsets.length = n.index.arity)
  /-- Nothing lies under a place, and only places in a bit container. -/
  below : ∀ {id : NodeId} {n : Node}, d.nodes[id]? = some n →
    (n.kind.type = .place → n.children = []) ∧
      (n.kind.type.isBitLevel = true → ∀ c ∈ n.children, ∃ m info,
        d.nodes[c]? = some m ∧ m.kind = .place info)
  array : ∀ {id : NodeId} {n : Node} {ds : List Division} {width : UInt32},
    d.nodes[id]? = some n → n.kind = .bitArray ds width → n.children.length ≤ 1
  /-- Axes are distinct and extents positive; a list has one axis and a positive chunk. -/
  kind : ∀ {id : NodeId} {n : Node}, d.nodes[id]? = some n → n.kind.axes.Nodup ∧
    (∀ e ∈ n.kind.extents, 0 < e.toNat) ∧ ∀ axis dim chunk, n.kind = .dynamic axis dim chunk →
      n.kind.axes = [axis] ∧ 0 < chunk.toNat

section

variable (hd : d.Numbered) (hg : d.Grown) (hn : d.nodes[id]? = some n)
include hd hg hn

theorem Numbered.exists_parent (h0 : id ≠ 0) : ∃ p q, n.parent = some p ∧ p < id ∧
    d.nodes[p]? = some q ∧ q.children.count id = 1 ∧ n.depth = q.depth + 1 := by
  obtain ⟨p, q, hp, hq, hmem⟩ := hg.parent hn h0
  obtain ⟨q', hq', hdepth⟩ := hd.depth hn hp
  rw [hq, Option.some.injEq] at hq'
  exact ⟨p, q, hp, (hg.child hq hmem).1, hq, List.count_eq_one_of_mem (hg.nodup hq) hmem,
    hq' ▸ hdepth⟩

theorem Numbered.root_iff :
    (n.kind = .root ↔ id = 0) ∧ (n.parent = none ↔ id = 0) ∧ (n.depth = 0 ↔ id = 0) := by
  rcases hg.index_cases hn with ⟨h0, hk, hp, -⟩ | ⟨h0, -, p, q, -, hq, hmem, hp, -, hadm⟩
  · obtain ⟨m, hm, hdepth⟩ := hd.root
    rw [← h0, hn, Option.some.injEq] at hm
    exact ⟨iff_of_true hk h0, iff_of_true hp h0, iff_of_true (hm ▸ hdepth) h0⟩
  · refine ⟨iff_of_false ?_ h0, iff_of_false (by simp [hp]) h0, iff_of_false ?_ h0⟩
    · intro hk
      rw [hk] at hadm
      exact hadm
    · obtain ⟨_, _, _, _, _, _, hdepth⟩ := hd.exists_parent hg hn h0
      omega

/-- The path to a node is the climb from it, backwards. -/
theorem Numbered.path_eq : (d.path id).length = n.depth + 1 ∧
    (d.path id).head? = some 0 ∧ ∀ k, (d.path id).reverse[k]? = ancestor? d.parent? k id := by
  obtain ⟨hlen, hlast, hget⟩ := hd.climb hg hn (Nat.le_refl id)
  unfold path pathFromRoot
  refine ⟨by rw [List.length_reverse, hlen], by rw [List.head?_reverse, hlast], ?_⟩
  rw [List.reverse_reverse]
  exact hget

omit hd in
theorem Grown.children_place (hk : n.kind.type = .place) : n.children = [] := by
  rw [List.eq_nil_iff_forall_not_mem]
  intro c hc
  obtain ⟨-, m, -, -, -, hadm, -⟩ := hg.child hn hc
  rw [hk] at hadm
  cases hm : m.kind <;> rw [hm] at hadm <;> simp [NodeType.Admits, NodeType.acceptsChildren] at hadm

omit hd in
theorem Grown.place_of_isBitLevel (hb : n.kind.type.isBitLevel = true) (hc : c ∈ n.children) :
    ∃ m info, d.nodes[c]? = some m ∧ m.kind = .place info := by
  obtain ⟨-, m, hm, -, -, hadm, -⟩ := hg.child hn hc
  have hno : n.kind.type.acceptsChildren = false := by
    cases htype : n.kind.type <;> rw [htype] at hb <;>
      first | rfl | simp [NodeType.isBitLevel] at hb
  cases hk : m.kind with
  | place info => exact ⟨m, info, hm, hk⟩
  | _ => rw [hk] at hadm; simp [NodeType.Admits, hno] at hadm

end

/-- A tree under construction is structured. -/
theorem Good.structured_of_numbered (h : d.Good) (hd : d.Numbered) : d.Structured := by
  have hg := h.grown
  constructor
  case root => exact fun hn => hd.root_iff hg hn
  case name => exact hd.name
  case parent => exact fun hn h0 => hd.exists_parent hg hn h0
  case children =>
    intro id n hn
    refine ⟨(hd.sorted hn).1, ?_⟩
    intro c hc
    obtain ⟨-, m, hm, hp, -⟩ := hg.child hn hc
    exact ⟨m, hm, hp⟩
  case path =>
    intro id n hn
    obtain ⟨hlen, hhead, hget⟩ := hd.path_eq hg hn
    refine ⟨hlen, hhead, ?_, ?_⟩
    · -- the path is the climb turned round, so that it ends where the climb starts
      rw [List.getLast?_eq_head?_reverse, List.head?_eq_getElem?, hget 0]
      rfl
    · unfold path pathFromRoot
      rw [List.isChain_reverse]
      exact isChain_climb d.parent? id id
  case ancestor =>
    intro id n hn k
    obtain ⟨hlen, -, hget⟩ := hd.path_eq hg hn
    rw [← hget k]
    refine ⟨rfl, ?_⟩
    rw [List.getElem?_eq_none_iff, List.length_reverse, hlen]
    exact Nat.succ_le_iff
  case place =>
    intro id n info hn hk
    obtain ⟨hroot, hoff⟩ := hd.offsets hn hk
    rcases hg.index_cases hn with ⟨-, hr, -⟩ | ⟨-, -, p, q, -, hq, -, hp, -, hadm⟩
    · rw [hk] at hr
      cases hr
    · rw [hk] at hadm
      have h0 : p ≠ 0 := fun h0 => hroot (h0 ▸ hp)
      exact ⟨p, q, hp, h0, hq, fun hr => h0 ((hd.root_iff hg hq).1.1 hr), hadm.2.2, hoff⟩
  case below => exact fun hn => ⟨hg.children_place hn, fun hb c hc => hg.place_of_isBitLevel hn hb hc⟩
  case array => exact fun hn hk => (h.packs.array hn hk (by simp)).1
  case kind =>
    intro id n hn
    have hvalid := hg.valid hn
    refine ⟨hvalid.axes_nodup, ?_, ?_⟩
    · intro e he
      obtain ⟨division, hmem, rfl⟩ := List.mem_map.1 he
      exact hvalid.extent_pos division hmem
    · intro axis dim chunk hk
      exact ⟨by rw [hk]; rfl, hvalid.chunk_pos chunk (by rw [hk]; rfl)⟩

/-- Every tree that declarations make is structured, and what is declared next, carried out or
refused, leaves its nodes at their numbers and numbers new ones from its size on. -/
theorem Built.structured (h : d.Built) : d.Structured ∧ ∀ catalog id decl,
    d.Continues ((⟨d, catalog⟩ : Drafting).after id decl).draft ∧
      d.nodes.size ≤ ((⟨d, catalog⟩ : Drafting).after id decl).draft.nodes.size := by
  refine ⟨h.good.structured_of_numbered h.numbered, ?_⟩
  intro catalog id decl
  have hadds : d.Adds ((⟨d, catalog⟩ : Drafting).after id decl).draft := by
    have hstep := DraftM.declare_onlyAdds (s := ⟨d, catalog⟩) id decl
    unfold DraftM.OnlyAdds DraftM.Ends at hstep
    unfold Drafting.after
    cases hr : DraftM.declare id decl ⟨d, catalog⟩ <;> rw [hr] at hstep <;> exact hstep
  exact ⟨hadds.continues, hadds.size_le⟩

/-- The member of a bitmasked level below a pointer level is three edges below the root. -/
theorem structured_sample : Sample.drafting.draft.Structured ∧
    Sample.drafting.draft.path 3 = [0, 1, 2, 3] ∧
      Sample.drafting.draft.nodes[3]?.map (·.depth) = some 3 :=
  ⟨Sample.built.structured.1, by decide +kernel, by decide +kernel⟩

end Draft

end SparseLayout
