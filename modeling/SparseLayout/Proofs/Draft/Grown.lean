import SparseLayout.Draft.Placement
import Mathlib.Algebra.GroupWithZero.Nat
import Mathlib.Data.List.Basic

namespace SparseLayout

/-- The type of a member is valid, and its gradient has a real type. -/
def Member.Valid (m : Member) : Prop :=
  m.dtype.check = .ok () ∧ ∀ a, m.adjoint? = some a → a.dtype.isReal = true ∧ a.adjoint? = none

/-- Axes are distinct and extents positive, and words have a machine width. -/
structure Kind.Valid (k : Kind) : Prop where
  axes_nodup : k.axes.Nodup
  extent_pos : ∀ d ∈ k.divisions, 0 < d.extent.toNat
  chunk_pos : ∀ c, k.chunk? = some c → 0 < c.toNat
  width : ∀ w, k.wordBits? = some w → w ∈ [8, 16, 32, 64]

/-- A node of this type can have a child of this kind. Quantized members lie in bit containers, and
no others do. -/
def NodeType.Admits (parent : NodeType) : Kind → Prop
  | .root => False
  | .place info => parent ≠ .place ∧ info.member.Valid ∧
      info.member.dtype.isQuant = parent.isBitLevel
  | _ => parent.acceptsChildren = true

namespace PlaceInfo

/-- Bits of the exponent that the member brings along. -/
def exponentBits (i : PlaceInfo) : Nat :=
  match i.sharedExponent with
  | some e => if e.owner then e.bits.toNat else 0
  | none => 0

/-- Bits of the member itself. -/
def ownBits (i : PlaceInfo) : Nat :=
  match i.sharedExponent with
  | some _ => i.member.dtype.digitBits.toNat
  | none => i.member.dtype.bits.toNat

/-- Bits that members take side by side. -/
def totalBits (is : List PlaceInfo) : Nat := (is.map fun i => i.exponentBits + i.ownBits).sum

/-- Members lie side by side from a bit on, each behind the exponent that it brings along. -/
def Laid : Nat → List PlaceInfo → Prop
  | _, [] => True
  | start, i :: rest => i.bitOffset = some (.ofNat (start + i.exponentBits)) ∧
    Laid (start + (i.exponentBits + i.ownBits)) rest

theorem totalBits_append (is js : List PlaceInfo) :
    totalBits (is ++ js) = totalBits is + totalBits js := by
  simp [totalBits]

theorem laid_append {start : Nat} {is js : List PlaceInfo} :
    Laid start (is ++ js) ↔ Laid start is ∧ Laid (start + totalBits is) js := by
  induction is generalizing start with
  | nil => simp [Laid, totalBits]
  | cons i is ih =>
    simp only [List.cons_append, Laid, ih, and_assoc]
    simp [totalBits, Nat.add_assoc]

end PlaceInfo

namespace Draft

/-- The members placed under a node. -/
def placed (d : Draft) (id : NodeId) : List PlaceInfo :=
  (d.children id).filterMap fun c => (d.nodes[c]?).bind (·.kind.place?)

/-- The nodes form one tree, in which every child was added under its parent. -/
structure Grown (d : Draft) : Prop where
  root : d.nodes[0]?.map (fun n => (n.kind, n.parent, n.index)) = some (.root, none, .root)
  child : ∀ {id c : NodeId} {n : Node}, d.nodes[id]? = some n → c ∈ n.children → id < c ∧
    ∃ m, d.nodes[c]? = some m ∧ m.parent = some id ∧
      m.index = n.index.child d.packing m.kind.divisions ∧ n.kind.type.Admits m.kind ∧ m.kind.Valid
  parent : ∀ {id : NodeId} {n : Node}, d.nodes[id]? = some n → id ≠ 0 → ∃ p q, n.parent = some p ∧
    d.nodes[p]? = some q ∧ id ∈ q.children
  nodup : ∀ {id : NodeId} {n : Node}, d.nodes[id]? = some n → n.children.Nodup

/-- Members of bit containers lie side by side in the order they were placed; the container `mid`
is left out. -/
structure Packs (d : Draft) (mid : Option NodeId) : Prop where
  struct : ∀ {id : NodeId} {n : Node} {width : UInt32}, d.nodes[id]? = some n →
    n.kind = .bitStruct width → some id ≠ mid →
      n.bitsUsed = .ofNat (PlaceInfo.totalBits (d.placed id)) ∧ PlaceInfo.Laid 0 (d.placed id)
  array : ∀ {id : NodeId} {n : Node} {ds : List Division} {width : UInt32},
    d.nodes[id]? = some n → n.kind = .bitArray ds width → some id ≠ mid →
      n.children.length ≤ 1 ∧ ∀ i ∈ d.placed id, i.bitOffset = some 0 ∧ i.sharedExponent = none

/-- A node is what it was, apart from new children and its bits. -/
structure Node.Grows (n n' : Node) : Prop where
  kind : n'.kind = n.kind
  parent : n'.parent = n.parent
  depth : n'.depth = n.depth
  name : n'.name = n.name
  index : n'.index = n.index
  children : n.children <+: n'.children

/-- Nodes keep their numbers. -/
def Continues (d d' : Draft) : Prop :=
  ∀ (id : NodeId) (n : Node), d.nodes[id]? = some n → ∃ n', d'.nodes[id]? = some n' ∧ n.Grows n'

variable {d d' d'' : Draft} {id p : NodeId} {n q : Node} {kind : Kind}

theorem Grown.lt_next (h : d.Grown) (hn : d.nodes[id]? = some n) {c : NodeId}
    (hc : c ∈ n.children) : c < d.next := by
  obtain ⟨-, m, hm, -⟩ := h.child hn hc
  exact (Array.getElem?_eq_some_iff.1 hm).1

theorem lt_next_of_some (hn : d.nodes[id]? = some n) : id < d.next :=
  (Array.getElem?_eq_some_iff.1 hn).1

/-- Adding a node keeps the others as they are, but for the children of its parent. -/
theorem getElem?_push_of_some (hn : d.nodes[id]? = some n) :
    (d.push p q kind).nodes[id]? = some
      (if id = p then { n with children := n.children ++ [d.next] } else n) := by
  rw [getElem?_push, if_neg (Nat.ne_of_lt (lt_next_of_some hn)), hn]
  split <;> rfl

theorem getElem?_push_next : (d.push p q kind).nodes[d.next]? =
    some (q.child d.packing d.next p kind) := by
  rw [getElem?_push, if_pos rfl]

/-- A node of the larger draft is the new one or was there before. -/
theorem of_getElem?_push {m : Node} (hm : (d.push p q kind).nodes[id]? = some m) :
    (id = d.next ∧ m = q.child d.packing d.next p kind) ∨
      ∃ n, d.nodes[id]? = some n ∧
        m = if id = p then { n with children := n.children ++ [d.next] } else n := by
  by_cases hid : id = d.next
  · subst hid
    rw [getElem?_push_next, Option.some.injEq] at hm
    exact Or.inl ⟨rfl, hm.symm⟩
  · rw [getElem?_push, if_neg hid] at hm
    right
    cases hn : d.nodes[id]? with
    | none =>
      rw [hn] at hm
      split at hm <;> cases hm
    | some n =>
      rw [hn] at hm
      refine ⟨n, rfl, ?_⟩
      split at hm <;> rename_i hp <;> cases hm
      · rw [if_pos hp]
      · rw [if_neg hp]

theorem Node.Grows.refl (n : Node) : n.Grows n := ⟨rfl, rfl, rfl, rfl, rfl, List.prefix_rfl⟩

theorem Node.Grows.trans {n n' n'' : Node} (h : n.Grows n') (h' : n'.Grows n'') : n.Grows n'' :=
  ⟨h'.kind.trans h.kind, h'.parent.trans h.parent, h'.depth.trans h.depth, h'.name.trans h.name,
    h'.index.trans h.index, h.children.trans h'.children⟩

theorem Continues.refl (d : Draft) : d.Continues d := fun _ n hn => ⟨n, hn, .refl n⟩

theorem Continues.trans (h : d.Continues d') (h' : d'.Continues d'') : d.Continues d'' := by
  intro id n hn
  obtain ⟨n', hn', hg⟩ := h id n hn
  obtain ⟨n'', hn'', hg'⟩ := h' id n' hn'
  exact ⟨n'', hn'', hg.trans hg'⟩

theorem continues_push (d : Draft) (p : NodeId) (q : Node) (kind : Kind) :
    d.Continues (d.push p q kind) := by
  intro id n hn
  refine ⟨_, getElem?_push_of_some hn, ?_⟩
  split
  · exact ⟨rfl, rfl, rfl, rfl, rfl, List.prefix_append ..⟩
  · exact .refl n

/-- A node that continues the root is the root. -/
theorem Continues.root (h : d.Continues d')
    (hroot : d.nodes[0]?.map (fun n => (n.kind, n.parent, n.index)) = some (.root, none, .root)) :
    d'.nodes[0]?.map (fun n => (n.kind, n.parent, n.index)) = some (.root, none, .root) := by
  obtain ⟨n, hn, he⟩ := Option.map_eq_some_iff.1 hroot
  obtain ⟨n', hn', hg⟩ := h 0 n hn
  rw [hn', Option.map_some, hg.kind, hg.parent, hg.index, he]

theorem Grown.push (h : d.Grown) (hq : d.nodes[p]? = some q) (ha : q.kind.type.Admits kind)
    (hk : kind.Valid) : (d.push p q kind).Grown := by
  have hp := lt_next_of_some hq
  have hcont := continues_push d p q kind
  -- children that were there before keep their parents and index spaces
  have old {id : NodeId} {n : Node} {c : NodeId} (hn : d.nodes[id]? = some n)
      (hc : c ∈ n.children) : id < c ∧ ∃ m, (d.push p q kind).nodes[c]? = some m ∧
        m.parent = some id ∧ m.index = n.index.child d.packing m.kind.divisions ∧
          n.kind.type.Admits m.kind ∧ m.kind.Valid := by
    obtain ⟨hlt, m, hm, hpar, hidx, hadm, hval⟩ := h.child hn hc
    obtain ⟨m', hm', hg⟩ := hcont c m hm
    exact ⟨hlt, m', hm', hg.parent.trans hpar, by rw [hg.index, hidx, hg.kind], hg.kind ▸ hadm,
      hg.kind ▸ hval⟩
  constructor
  case root => exact hcont.root h.root
  case child =>
    intro id m c hm hc
    rcases of_getElem?_push hm with ⟨rfl, rfl⟩ | ⟨n, hn, rfl⟩
    · cases hc
    · -- only the list of the parent gets longer, by the new node
      by_cases hid : id = p
      · subst hid
        rw [hq, Option.some.injEq] at hn
        subst hn
        rw [if_pos rfl] at hc ⊢
        rcases List.mem_append.1 hc with hc | hc
        · exact old (n := q) hq hc
        · rw [List.mem_singleton.1 hc]
          exact ⟨hp, _, getElem?_push_next, rfl, rfl, ha, hk⟩
      · rw [if_neg hid] at hc ⊢
        exact old hn hc
  case parent =>
    intro id m hm h0
    rcases of_getElem?_push hm with ⟨rfl, rfl⟩ | ⟨n, hn, rfl⟩
    · refine ⟨p, _, rfl, getElem?_push_of_some hq, ?_⟩
      rw [if_pos rfl]
      exact List.mem_append_right _ (List.mem_singleton.2 rfl)
    · obtain ⟨p', q', hpar, hq', hmem⟩ := h.parent hn h0
      obtain ⟨m', hm', hg⟩ := hcont p' q' hq'
      refine ⟨p', m', ?_, hm', hg.children.subset hmem⟩
      split <;> exact hpar
  case nodup =>
    intro id m hm
    rcases of_getElem?_push hm with ⟨rfl, rfl⟩ | ⟨n, hn, rfl⟩
    · exact List.nodup_nil
    · split
      · refine List.nodup_append.2 ⟨h.nodup hn, List.nodup_cons.2 ⟨List.not_mem_nil, List.nodup_nil⟩, ?_⟩
        intro x hx y hy
        rw [List.mem_singleton.1 hy]
        exact Nat.ne_of_lt (h.lt_next hn hx)
      · exact h.nodup hn

theorem children_of_some (hn : d.nodes[id]? = some n) : d.children id = n.children := by
  unfold children
  rw [hn]

/-- The new node counts as placed under its parent if it is a place. -/
theorem Grown.placed_push (h : d.Grown) (hq : d.nodes[p]? = some q) (id : NodeId) :
    (d.push p q kind).placed id =
      if id = p then d.placed id ++ kind.place?.toList else d.placed id := by
  -- old nodes keep their kinds, and with them what they place
  have kept {c : NodeId} (hc : c < d.next) :
      ((d.push p q kind).nodes[c]?).bind (·.kind.place?) = (d.nodes[c]?).bind (·.kind.place?) := by
    have hm : d.nodes[c]? = some d.nodes[c] := Array.getElem?_eq_getElem hc
    rw [getElem?_push_of_some hm, hm, Option.bind_some, Option.bind_some]
    split <;> rfl
  have same {l : List NodeId} (hl : ∀ c ∈ l, c < d.next) :
      l.filterMap (fun c => ((d.push p q kind).nodes[c]?).bind (·.kind.place?)) =
        l.filterMap fun c => (d.nodes[c]?).bind (·.kind.place?) :=
    List.filterMap_congr fun c hc => kept (hl c hc)
  unfold placed
  cases hn : d.nodes[id]? with
  | none =>
    have hne : id ≠ p := by
      rintro rfl
      rw [hq] at hn
      cases hn
    have hold : d.children id = [] := by simp [children, hn]
    have hnew : (d.push p q kind).children id = [] := by
      unfold children
      by_cases hid : id = d.next
      · rw [hid, getElem?_push_next]
        rfl
      · rw [getElem?_push, if_neg hid, if_neg hne, hn]
    rw [hold, hnew, if_neg hne]
    rfl
  | some n =>
    have hl := fun c => h.lt_next (c := c) hn
    rw [children_of_some hn, children_of_some (getElem?_push_of_some hn)]
    by_cases hid : id = p
    · subst hid
      rw [if_pos rfl, if_pos rfl, List.filterMap_append, same hl]
      congr 1
      rw [List.filterMap_cons, getElem?_push_next]
      cases kind <;> rfl
    · rw [if_neg hid, if_neg hid, same hl]

theorem placed_next (d : Draft) : d.placed d.next = [] := by
  unfold placed children next
  rw [Array.getElem?_eq_none (Nat.le_refl _)]
  rfl

/-- Members placed in a container of whole bytes, or in the one left out, are none of the others'.
-/
theorem Packs.push {mid : Option NodeId} (h : d.Packs mid) (hg : d.Grown)
    (hq : d.nodes[p]? = some q) (hb : q.kind.type.isBitLevel = false ∨ mid = some p) :
    (d.push p q kind).Packs mid := by
  have hpn : d.next ≠ p := Nat.ne_of_gt (lt_next_of_some hq)
  -- the parent is no bit container that counts, so the words of these stay
  have other {id : NodeId} {n : Node} (hn : d.nodes[id]? = some n)
      (hw : n.kind.type.isBitLevel = true) (hmid : some id ≠ mid) : id ≠ p := by
    rintro rfl
    rw [hq, Option.some.injEq] at hn
    rcases hb with hb | hb
    · rw [hn, hw] at hb
      cases hb
    · exact hmid hb.symm
  constructor
  case struct =>
    intro id m width hm hk hmid
    rw [hg.placed_push hq]
    rcases of_getElem?_push hm with ⟨rfl, rfl⟩ | ⟨n, hn, rfl⟩
    · rw [if_neg hpn, placed_next]
      exact ⟨rfl, trivial⟩
    · have hk' : n.kind = .bitStruct width := by
        rw [← hk]
        split <;> rfl
      have hid := other hn (by rw [hk']; rfl) hmid
      rw [if_neg hid, if_neg hid]
      exact h.struct hn hk' hmid
  case array =>
    intro id m ds width hm hk hmid
    rw [hg.placed_push hq]
    rcases of_getElem?_push hm with ⟨rfl, rfl⟩ | ⟨n, hn, rfl⟩
    · rw [if_neg hpn, placed_next]
      exact ⟨Nat.zero_le _, by simp⟩
    · have hk' : n.kind = .bitArray ds width := by
        rw [← hk]
        split <;> rfl
      have hid := other hn (by rw [hk']; rfl) hmid
      rw [if_neg hid, if_neg hid]
      exact h.array hn hk' hmid

/-- Bit accounting changes nothing else. -/
theorem of_getElem?_setBits {used groups : UInt32} {m : Node}
    (hm : (d.setBits p used groups).nodes[id]? = some m) : ∃ n, d.nodes[id]? = some n ∧
      m = if id = p then { n with bitsUsed := used, exponentGroups := groups } else n := by
  rw [getElem?_setBits] at hm
  cases hn : d.nodes[id]? with
  | none =>
    rw [hn] at hm
    split at hm <;> cases hm
  | some n =>
    rw [hn] at hm
    refine ⟨n, rfl, ?_⟩
    split at hm <;> rename_i hp <;> cases hm
    · rw [if_pos hp]
    · rw [if_neg hp]

theorem getElem?_setBits_of_some (hn : d.nodes[id]? = some n) (used groups : UInt32) :
    (d.setBits p used groups).nodes[id]? = some
      (if id = p then { n with bitsUsed := used, exponentGroups := groups } else n) := by
  rw [getElem?_setBits, hn]
  split <;> rfl

theorem continues_setBits (d : Draft) (p : NodeId) (used groups : UInt32) :
    d.Continues (d.setBits p used groups) := by
  intro id n hn
  refine ⟨_, getElem?_setBits_of_some hn used groups, ?_⟩
  split
  · exact ⟨rfl, rfl, rfl, rfl, rfl, List.prefix_rfl⟩
  · exact .refl n

/-- Bit accounting keeps all of a node but its bits. -/
theorem exists_of_setBits {used groups : UInt32} {m : Node}
    (hm : (d.setBits p used groups).nodes[id]? = some m) : ∃ n, d.nodes[id]? = some n ∧
      n.Grows m ∧ m.children = n.children := by
  obtain ⟨n, hn, rfl⟩ := of_getElem?_setBits hm
  refine ⟨n, hn, ?_⟩
  split <;> exact ⟨⟨rfl, rfl, rfl, rfl, rfl, List.prefix_rfl⟩, rfl⟩

theorem placed_setBits (used groups : UInt32) (id : NodeId) :
    (d.setBits p used groups).placed id = d.placed id := by
  have hkind (c : NodeId) : ((d.setBits p used groups).nodes[c]?).bind (·.kind.place?) =
      (d.nodes[c]?).bind (·.kind.place?) := by
    rw [getElem?_setBits]
    split
    · cases d.nodes[c]? <;> rfl
    · rfl
  have hchildren : (d.setBits p used groups).children id = d.children id := by
    unfold children
    rw [getElem?_setBits]
    by_cases hid : id = p
    · rw [if_pos hid]
      cases d.nodes[id]? <;> rfl
    · rw [if_neg hid]
  unfold placed
  rw [hchildren]
  exact List.filterMap_congr fun c _ => hkind c

theorem Grown.setBits (h : d.Grown) (p : NodeId) (used groups : UInt32) :
    (d.setBits p used groups).Grown := by
  have hcont := continues_setBits d p used groups
  constructor
  case root => exact hcont.root h.root
  case child =>
    intro id c n hn hc
    obtain ⟨n₀, hn₀, hg₀, hch⟩ := exists_of_setBits hn
    obtain ⟨hlt, m, hm, hpar, hidx, hadm, hval⟩ := h.child hn₀ (hch ▸ hc)
    obtain ⟨m', hm', hg⟩ := hcont c m hm
    refine ⟨hlt, m', hm', hg.parent.trans hpar, ?_, ?_, hg.kind ▸ hval⟩
    · rw [hg.index, hidx, hg.kind, hg₀.index]
      rfl
    · rw [hg.kind, hg₀.kind]
      exact hadm
  case parent =>
    intro id n hn h0
    obtain ⟨n₀, hn₀, hg₀, -⟩ := exists_of_setBits hn
    obtain ⟨p', q', hpar, hq', hmem⟩ := h.parent hn₀ h0
    obtain ⟨m', hm', hg⟩ := hcont p' q' hq'
    exact ⟨p', m', hg₀.parent.trans hpar, hm', hg.children.subset hmem⟩
  case nodup =>
    intro id n hn
    obtain ⟨n₀, hn₀, -, hch⟩ := exists_of_setBits hn
    exact hch ▸ h.nodup hn₀

theorem Packs.setBits {mid : Option NodeId} (h : d.Packs mid) (hq : d.nodes[p]? = some q)
    (hb : q.kind.type.isBitLevel = false ∨ mid = some p) (used groups : UInt32) :
    (d.setBits p used groups).Packs mid := by
  have kind_eq {id : NodeId} {n : Node} : (if id = p then
      { n with bitsUsed := used, exponentGroups := groups } else n).kind = n.kind := by
    split <;> rfl
  constructor
  · intro id m width hm hk hmid
    obtain ⟨n, hn, rfl⟩ := of_getElem?_setBits hm
    rw [kind_eq] at hk
    have hid : id ≠ p := by
      rintro rfl
      rw [hq, Option.some.injEq] at hn
      rcases hb with hb | hb
      · rw [hn, hk] at hb
        cases hb
      · exact hmid hb.symm
    rw [placed_setBits, if_neg hid]
    exact h.struct hn hk hmid
  · intro id m ds width hm hk hmid
    obtain ⟨n, hn, rfl⟩ := of_getElem?_setBits hm
    rw [kind_eq] at hk
    rw [placed_setBits]
    have hch : (if id = p then { n with bitsUsed := used, exponentGroups := groups }
        else n).children = n.children := by
      split <;> rfl
    rw [hch]
    exact h.array hn hk hmid

end Draft

end SparseLayout
