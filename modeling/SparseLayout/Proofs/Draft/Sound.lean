import SparseLayout.Proofs.Draft.Compiled

namespace SparseLayout

open Draft (Node)

/-- A node with a child is no place. -/
theorem NodeType.Admits.ne_place {type : NodeType} {kind : Kind} (h : type.Admits kind) :
    type ≠ .place := by
  rintro rfl
  cases kind with
  | root => exact h
  | place info => exact h.1 rfl
  | dense | pointer | bitmasked | dynamic | bitStruct | bitArray => cases h

/-- Only members are placed in bit containers. -/
theorem NodeType.Admits.exists_place {type : NodeType} {kind : Kind} (h : type.Admits kind)
    (hb : type.isBitLevel = true) : ∃ info, kind = .place info ∧
      info.member.dtype.isQuant = true ∧ info.member.Valid := by
  cases kind with
  | root => exact h.elim
  | place info => exact ⟨info, rfl, h.2.2.trans hb, h.2.1⟩
  | dense | pointer | bitmasked | dynamic | bitStruct | bitArray =>
    have hnot : type.isBitLevel = false := (not_isBitLevel_of_acceptsChildren h).1
    rw [hnot] at hb
    cases hb

theorem map_filterMap_eq {α β : Type} {f : α → Option β} {g : β → α} {l : List α}
    (h : ∀ a ∈ l, ∃ b, f a = some b ∧ g b = a) : (l.filterMap f).map g = l := by
  induction l with
  | nil => rfl
  | cons a l ih =>
    obtain ⟨b, hb, hg⟩ := h a List.mem_cons_self
    rw [List.filterMap_cons, hb, List.map_cons, hg, ih fun a ha => h a (List.mem_cons_of_mem _ ha)]

namespace PlaceInfo

/-- The bits of a member start here. -/
def start (i : PlaceInfo) : Nat := (i.bitOffset.getD 0).toNat

theorem Laid.within {lo : Nat} {is : List PlaceInfo} (h : Laid lo is)
    (hw : lo + totalBits is < UInt32.size) : ∀ i ∈ is, lo ≤ i.start ∧
      i.start + i.ownBits ≤ lo + totalBits is := by
  induction is generalizing lo with
  | nil => exact fun i hi => absurd hi List.not_mem_nil
  | cons j is ih =>
    have hsum : totalBits (j :: is) = j.exponentBits + j.ownBits + totalBits is := by
      simp [totalBits]
    rw [hsum] at hw ⊢
    have hj : j.start = lo + j.exponentBits := by
      unfold start
      rw [h.1, Option.getD_some]
      exact UInt32.toNat_ofNat_of_lt' (by omega)
    intro i hi
    rcases List.mem_cons.1 hi with rfl | hi
    · omega
    · have := ih h.2 (by omega) i hi
      omega

theorem Laid.pairwise {lo : Nat} {is : List PlaceInfo} (h : Laid lo is)
    (hw : lo + totalBits is < UInt32.size) :
    is.Pairwise fun i j => i.start + i.ownBits ≤ j.start := by
  induction is generalizing lo with
  | nil => exact .nil
  | cons j is ih =>
    have hsum : totalBits (j :: is) = j.exponentBits + j.ownBits + totalBits is := by
      simp [totalBits]
    rw [hsum] at hw
    have hj : j.start = lo + j.exponentBits := by
      unfold start
      rw [h.1, Option.getD_some]
      exact UInt32.toNat_ofNat_of_lt' (by omega)
    refine .cons ?_ (ih h.2 (by omega))
    intro i hi
    have := (h.2.within (by omega) i hi).1
    omega

end PlaceInfo

namespace Layout.NodesOf

variable {t : Layout} {d : Draft} {p n : Layout.Node}

theorem id_eq (h : t.NodesOf d) {i : Nat} {v : Layout.Node} (hv : t.nodes[i]? = some v) :
    v.id = i := by
  obtain ⟨-, -, hid, -⟩ := h.node hv
  exact hid

theorem map_id_childNodes (h : t.NodesOf d) (hg : d.Grown) (hp : t.Has p) :
    (t.childNodes p).map (·.id) = p.children := by
  apply map_filterMap_eq
  intro c hc
  obtain ⟨q, hq, -, -, -, hch, -⟩ := h.node hp
  obtain ⟨-, m, hm, -⟩ := hg.child hq (hch ▸ hc)
  obtain ⟨v, hv⟩ := h.exists_node hm
  exact ⟨v, hv, h.id_eq hv⟩

theorem has_of_mem (h : t.NodesOf d) (hn : n ∈ t.childNodes p) : t.Has n := by
  obtain ⟨c, -, hc⟩ := List.mem_filterMap.1 hn
  rw [Has, h.id_eq hc]
  exact hc

/-- What a node has from its parent. -/
theorem child (h : t.NodesOf d) (hg : d.Grown) (hp : t.Has p) (hn : n ∈ t.childNodes p) :
    n.id ∈ p.children ∧ p.id < n.id ∧ n.parent = some p.id ∧
      n.index = p.index.child d.packing n.kind.divisions ∧ p.type.Admits n.kind ∧
        n.kind.Valid := by
  have hmem : n.id ∈ p.children :=
    h.map_id_childNodes hg hp ▸ List.mem_map_of_mem hn
  obtain ⟨q, hq, -, hkq, -, hch, hiq, -⟩ := h.node hp
  obtain ⟨hlt, m, hm, hpar, hidx, hadm, hval⟩ := hg.child hq (hch ▸ hmem)
  obtain ⟨m', hm', -, hkn, hpn, -, hin, -⟩ := h.node (h.has_of_mem hn)
  rw [hm, Option.some.injEq] at hm'
  subst hm'
  unfold Layout.Node.type
  rw [hkn, hin, hkq, hiq, hpn]
  exact ⟨hmem, hlt, hpar, hidx, hadm, hval⟩

theorem has_root (h : t.NodesOf d) : t.Has t.rootNode ∧ t.rootNode.id = 0 := by
  have hroot : t.nodes[0]? = some t.rootNode := Array.getElem?_eq_getElem t.nodes_ne
  have hid := h.id_eq hroot
  exact ⟨by rw [Has, hid]; exact hroot, hid⟩

theorem exists_parent (h : t.NodesOf d) (hg : d.Grown) (hn : t.Has n) (hne : n.id ≠ 0) :
    ∃ p, t.Has p ∧ n ∈ t.childNodes p := by
  obtain ⟨m, hm, -⟩ := h.node hn
  obtain ⟨p, q, hpar, hq, hmem⟩ := hg.parent hm hne
  obtain ⟨v, hv⟩ := h.exists_node hq
  obtain ⟨q', hq', hidv, -, -, hch, -⟩ := h.node hv
  rw [hq, Option.some.injEq] at hq'
  subst hq'
  refine ⟨v, by rw [Has, hidv]; exact hv, ?_⟩
  exact List.mem_filterMap.2 ⟨n.id, hch ▸ hmem, hn⟩

theorem branching (h : t.NodesOf d) (hg : d.Grown) : t.Branching := by
  obtain ⟨hroot, hid⟩ := h.has_root
  obtain ⟨r, hr, -, hkr, hpr, -⟩ := h.node hroot
  have h0 := hg.root
  rw [← hid, hr, Option.map_some, Option.some.injEq] at h0
  obtain ⟨hk0, hp0, -⟩ : r.kind = .root ∧ r.parent = none ∧ r.index = .root := by
    simpa using h0
  constructor
  case id_eq => exact h.id_eq
  case root_kind => exact hkr.trans hk0
  case root_parent => exact hpr.trans hp0
  case kind_ne_root =>
    intro p n hp hn he
    obtain ⟨-, -, -, -, hadm, -⟩ := h.child hg hp hn
    rw [he] at hadm
    exact hadm
  case id_lt =>
    intro p n hp hn
    exact (h.child hg hp hn).2.1
  case parent_eq =>
    intro p n hp hn
    exact (h.child hg hp hn).2.2.1
  case exists_parent => exact h.exists_parent hg
  case nodup =>
    intro p hp
    obtain ⟨q, hq, -, -, -, hch, -⟩ := h.node hp
    apply List.Nodup.of_map (·.id)
    rw [h.map_id_childNodes hg hp, hch]
    exact hg.nodup hq

theorem indexed (h : t.NodesOf d) (hg : d.Grown) : t.Indexed := by
  obtain ⟨hroot, hid⟩ := h.has_root
  -- what the index spaces of the draft satisfy is carried over node by node
  constructor
  case axes_nodup =>
    intro n hn
    obtain ⟨m, hm, -, hk, -⟩ := h.node hn
    exact hk ▸ (hg.valid hm).axes_nodup
  case division =>
    intro n e hn he
    obtain ⟨m, hm, -, hk, -, -, hi, -⟩ := h.node hn
    rw [hi]
    exact hg.division hm (hk ▸ he)
  case undivided =>
    intro n a hn ha
    obtain ⟨m, hm, -, hk, -, -, hi, -⟩ := h.node hn
    rw [hi]
    exact (hg.undivided hm (hk ▸ ha)).1
  case unpadded =>
    intro n a hn ha
    obtain ⟨m, hm, -, hk, -, -, hi, -⟩ := h.node hn
    rw [hi]
    exact (hg.undivided hm (hk ▸ ha)).2
  case fromRoot_root =>
    intro a
    obtain ⟨r, hr, -, -, -, -, hi, -⟩ := h.node hroot
    rcases hg.index_cases hr with ⟨-, -, -, hidx⟩ | ⟨hne, -⟩
    · rw [hi, hidx, IndexSpace.extent_root]
      rfl
    · exact absurd hid hne
  case fromRoot_child =>
    intro p n a hp hn
    obtain ⟨-, -, -, hidx, -, hval⟩ := h.child hg hp hn
    rw [hidx]
    exact IndexSpace.fromRoot_child hval.axes_nodup a
  case positions_nodup =>
    intro n hn
    obtain ⟨m, hm, -, -, -, -, hi, -⟩ := h.node hn
    exact hi ▸ (hg.listed hm).nodup
  case fromRoot_inactive =>
    intro n a hn ha
    obtain ⟨m, hm, -, -, -, -, hi, -⟩ := h.node hn
    rw [hi] at ha ⊢
    exact (hg.listed hm).inactive a ha

theorem mem_members (h : t.NodesOf d) (m : MemberId) (id : NodeId) : (m, id) ∈ t.members ↔
    ∃ n info, d.nodes[id]? = some n ∧ n.kind = .place info ∧ info.member.id = m := by
  unfold Layout.members
  rw [List.mem_filterMap]
  constructor
  · rintro ⟨v, hv, hmember⟩
    obtain ⟨i, hi⟩ := List.getElem?_of_mem hv
    rw [Array.getElem?_toList] at hi
    obtain ⟨n, hn, hid, hk, -⟩ := h.node hi
    obtain ⟨info, hinfo, hpair⟩ := Option.map_eq_some_iff.1 hmember
    obtain ⟨rfl, rfl⟩ := Prod.mk.inj hpair
    refine ⟨n, info, hid ▸ hn, ?_, rfl⟩
    rw [hk] at hinfo
    cases hkind : n.kind <;> rw [hkind] at hinfo <;> cases hinfo
    rfl
  · rintro ⟨n, info, hn, hk, rfl⟩
    obtain ⟨v, hv⟩ := h.exists_node hn
    obtain ⟨n', hn', hid, hkv, -⟩ := h.node hv
    rw [hn, Option.some.injEq] at hn'
    subst hn'
    refine ⟨v, ?_, by rw [hkv, hk, hid]; rfl⟩
    rw [← Array.getElem?_toList] at hv
    exact List.mem_of_getElem? hv

/-- The members placed under a node of the draft are those of the node's children. -/
theorem mem_placed (h : t.NodesOf d) (hg : d.Grown) (hp : t.Has p) (hn : n ∈ t.childNodes p)
    {info : PlaceInfo} (hk : n.kind = .place info) : n.id ∈ d.children p.id ∧
      d.nodes[n.id]?.bind (·.kind.place?) = some info := by
  obtain ⟨hmem, -⟩ := h.child hg hp hn
  obtain ⟨q, hq, -, -, -, hch, -⟩ := h.node hp
  obtain ⟨m, hm, -, hkm, -⟩ := h.node (h.has_of_mem hn)
  refine ⟨?_, ?_⟩
  · rw [Draft.children_of_some hq, ← hch]
    exact hmem
  · rw [hm, Option.bind_some, ← hkm, hk]
    rfl

theorem valid_of_place (h : t.NodesOf d) (hg : d.Grown) (hn : t.Has n) {info : PlaceInfo}
    (hk : n.kind = .place info) : info.member.Valid := by
  obtain ⟨m, hm, -, hkm, -⟩ := h.node hn
  rcases hg.index_cases hm with ⟨-, hroot, -⟩ | ⟨-, -, p, q, -, -, -, -, -, hadm⟩
  · rw [← hkm, hk] at hroot
    cases hroot
  · rw [← hkm, hk] at hadm
    exact hadm.2.1

/-- The only child of a bit array is the place of its member, whose bits start with the word. -/
theorem array_child (h : t.NodesOf d) (hg : d.Good) (hp : t.Has p) (hn : n ∈ t.childNodes p)
    {ds : List Division} {width : UInt32} (hkp : p.kind = .bitArray ds width) :
    ∃ info, n.kind = .place info ∧ info ∈ d.placed p.id ∧ info.bitOffset = some 0 ∧
      t.childNodes p = [n] := by
  obtain ⟨q, hq, -, hkq, -, hch, -⟩ := h.node hp
  obtain ⟨-, -, -, -, hadm, -⟩ := h.child hg.grown hp hn
  obtain ⟨info, hk, -⟩ := hadm.exists_place (by rw [Layout.Node.type, hkp]; rfl)
  obtain ⟨hmem, hinfo⟩ := h.mem_placed hg.grown hp hn hk
  have hin : info ∈ d.placed p.id := List.mem_filterMap.2 ⟨n.id, hmem, hinfo⟩
  obtain ⟨hone, hbits⟩ := hg.packs.array hq (hkq ▸ hkp) (by simp)
  refine ⟨info, hk, hin, (hbits info hin).1, ?_⟩
  have hlen : (t.childNodes p).length ≤ 1 := by
    rw [← List.length_map (·.id), h.map_id_childNodes hg.grown hp, hch]
    exact hone
  obtain ⟨m, hm⟩ := List.length_eq_one_iff.1 (Nat.le_antisymm hlen (List.length_pos_of_mem hn))
  rw [hm] at hn ⊢
  rw [List.mem_singleton.1 hn]

theorem charted (h : t.NodesOf d) (hg : d.Grown) : t.Charted := ⟨h.branching hg, h.indexed hg⟩

end Layout.NodesOf

namespace Layout.CompiledFrom

variable {t : Layout} {d : Draft} {p n : Layout.Node}

theorem suits (h : t.CompiledFrom d) (hn : t.Has n) :
    ∃ u, n.toMeasure.Suits u n.kind ((t.childNodes n).map (·.toMeasure)) := by
  obtain ⟨m, hm, -, hk, -⟩ := h.node hn
  exact ⟨_, hk ▸ h.fits hn hm⟩

/-- The sizes of a child suit the kind of its parent. -/
theorem suits_child (h : t.CompiledFrom d) (hg : d.Grown) (hp : t.Has p) (hn : n ∈ t.childNodes p) :
    n.toMeasure.Suits p.type.isBitLevel n.kind ((t.childNodes n).map (·.toMeasure)) := by
  obtain ⟨q, hq, -, hkq, -⟩ := h.node hp
  obtain ⟨m, hm, -, hkn, hpn, -⟩ := h.node (h.has_of_mem hn)
  have hbits : d.underBits m = p.type.isBitLevel := by
    unfold Draft.underBits Layout.Node.type
    rw [← hpn, (h.child hg hp hn).2.2.1, Option.bind_some, hq, hkq]
    rfl
  rw [← hbits, hkn]
  exact h.fits (h.has_of_mem hn) hm

/-- Where the container of a child lies among those of its siblings. -/
theorem slot (h : t.CompiledFrom d) (hg : d.Grown) (hp : t.Has p) (hn : n ∈ t.childNodes p)
    (hb : p.type.isBitLevel = false) : ∃ (k : Nat) (o : UInt64), (t.childNodes p)[k]? = some n ∧
      p.childOffsets[k]? = some o ∧ n.offset = o ∧
        Measure.Spread 0 p.childOffsets ((t.childNodes p).map (·.toMeasure)) p.cellSize.toNat := by
  obtain ⟨k, hk⟩ := List.getElem?_of_mem hn
  have hch : p.children[k]? = some n.id := by
    rw [← h.map_id_childNodes hg hp, List.getElem?_map, hk]
    rfl
  obtain ⟨-, -, hpar, -, hadm, -⟩ := h.child hg hp hn
  obtain ⟨u, hs⟩ := h.suits hp
  have hspread := hs.spread ⟨hb, hadm.ne_place⟩
  obtain ⟨o, ho, -⟩ := hspread.within (k := k) (m := n.toMeasure) (by rw [List.getElem?_map, hk]; rfl)
  have hoff := h.offset (h.has_of_mem hn) hpar hp hch
  rw [ho, Option.getD_some] at hoff
  exact ⟨k, o, hk, ho, hoff, hspread⟩

/-- A member in a bit container takes no bytes. -/
theorem below_bits (h : t.CompiledFrom d) (hg : d.Grown) (hp : t.Has p) (hn : n ∈ t.childNodes p)
    (hb : p.type.isBitLevel = true) : n.container = .place ∧ n.bytes = 0 ∧ n.offset = 0 := by
  obtain ⟨hmem, -, hpar, -, hadm, -⟩ := h.child hg hp hn
  obtain ⟨info, hk, -⟩ := hadm.exists_place hb
  have hs := h.suits_child hg hp hn
  obtain ⟨hbytes, hcell⟩ := hs.place info hk
  rw [hb, if_pos rfl] at hcell
  obtain ⟨u, hsp⟩ := h.suits hp
  obtain ⟨k, hch⟩ := List.getElem?_of_mem hmem
  refine ⟨(hs.typed n rfl rfl).1.container_of_place hk, ?_, ?_⟩
  · rw [hbytes]
    exact UInt64.toNat_inj.1 hcell
  · rw [h.offset (h.has_of_mem hn) hpar hp hch, hsp.bits hb]
    rfl

theorem typed (h : t.CompiledFrom d) (hn : t.Has n) : n.Typed := by
  obtain ⟨u, hs⟩ := h.suits hn
  exact (hs.typed n rfl rfl).1

theorem slot_le (h : t.CompiledFrom d) (hg : d.Grown) (hp : t.Has p) (hn : n ∈ t.childNodes p) :
    n.offset.toNat + n.bytes.toNat ≤ p.cellSize.toNat := by
  by_cases hb : p.type.isBitLevel = true
  · obtain ⟨-, hbytes, hoff⟩ := h.below_bits hg hp hn hb
    rw [hbytes, hoff]
    exact Nat.zero_le _
  · obtain ⟨k, o, hk, ho, hoff, hspread⟩ := h.slot hg hp hn (Bool.eq_false_iff.2 hb)
    obtain ⟨o', ho', -, hle⟩ := hspread.within (k := k) (m := n.toMeasure)
      (by rw [List.getElem?_map, hk]; rfl)
    rw [ho, Option.some.injEq] at ho'
    subst ho'
    rw [hoff]
    exact hle

/-- Of two siblings the one listed first lies before the other. -/
theorem slot_apart (h : t.CompiledFrom d) (hg : d.Grown) (hp : t.Has p) (hm : m ∈ t.childNodes p)
    (hn : n ∈ t.childNodes p) (hne : m ≠ n) :
    m.offset.toNat + m.bytes.toNat ≤ n.offset.toNat ∨
      n.offset.toNat + n.bytes.toNat ≤ m.offset.toNat := by
  by_cases hb : p.type.isBitLevel = true
  · obtain ⟨-, hbytes, hoff⟩ := h.below_bits hg hp hm hb
    rw [hbytes, hoff]
    exact Or.inl (Nat.zero_le _)
  · have hb := Bool.eq_false_iff.2 hb
    obtain ⟨j, o, hj, ho, hoff, hspread⟩ := h.slot hg hp hm hb
    obtain ⟨k, o', hk, ho', hoff', -⟩ := h.slot hg hp hn hb
    have hj' : ((t.childNodes p).map (·.toMeasure))[j]? = some m.toMeasure := by
      rw [List.getElem?_map, hj]
      rfl
    have hk' : ((t.childNodes p).map (·.toMeasure))[k]? = some n.toMeasure := by
      rw [List.getElem?_map, hk]
      rfl
    -- offsets are exact sums in the order of the children
    rcases Nat.lt_trichotomy j k with hlt | heq | hlt
    · obtain ⟨a, b, ha, hb, hle⟩ := hspread.apart hj' hk' hlt
      rw [ho, Option.some.injEq] at ha
      rw [ho', Option.some.injEq] at hb
      subst ha hb
      rw [hoff, hoff']
      exact Or.inl hle
    · rw [heq, hk, Option.some.injEq] at hj
      exact absurd hj.symm hne
    · obtain ⟨a, b, ha, hb, hle⟩ := hspread.apart hk' hj' hlt
      rw [ho', Option.some.injEq] at ha
      rw [ho, Option.some.injEq] at hb
      subst ha hb
      rw [hoff, hoff']
      exact Or.inr hle

theorem packed (h : t.CompiledFrom d) (hg : d.Grown) : t.Packed := by
  constructor
  case typed => exact h.typed
  case sized =>
    intro n hn
    obtain ⟨u, hs⟩ := h.suits hn
    exact (hs.typed n rfl rfl).2
  case slot_le => exact h.slot_le hg
  case slot_apart => exact h.slot_apart hg
  case below_word =>
    intro p n hp hn hword
    obtain ⟨-, -, -, -, hadm, -⟩ := h.child hg hp hn
    have hb : p.type.isBitLevel = true := by
      rw [(h.typed hp).isBitLevel_iff]
      rcases hword with hc | hc | hc
      · exact Or.inl hc
      · exact Or.inr hc
      · -- a place has no children
        refine absurd ?_ hadm.ne_place
        rw [(h.typed hp).type_eq, hc]
        rfl
    exact ⟨hb, h.below_bits hg hp hn hb⟩
  case sparseBelow_iff =>
    intro n hn
    obtain ⟨u, hs⟩ := h.suits hn
    rw [hs.sparse, Bool.or_eq_true, List.any_map, List.any_eq_true]
    rfl

theorem counted (h : t.CompiledFrom d) (hg : d.Grown) : t.Counted := by
  constructor
  intro n hn
  obtain ⟨m, hm, -, hk, -, -, hi, -⟩ := h.node hn
  rw [h.cells hn, hi, hk]
  exact hg.exactCells_eq hm

/-- Quantized integers take their own bits, whether or not they share an exponent. -/
theorem bitRange_eq {info : PlaceInfo} (hk : n.kind = .place info) (hq : n.isQuantInt) :
    n.bitRange = (info.start, info.ownBits) := by
  obtain ⟨info', bits, signed, hk', ht⟩ := hq
  rw [hk, Kind.place.injEq] at hk'
  subst hk'
  unfold Layout.Node.bitRange PlaceInfo.start PlaceInfo.ownBits
  simp only [hk]
  rw [ht]
  cases info.sharedExponent <;> rfl

/-- What is known of the word of a bit struct. -/
theorem struct_word (h : t.CompiledFrom d) (hg : d.Good) (hw : d.WellSized) (hp : t.Has p)
    {width : UInt32} (hk : p.kind = .bitStruct width) :
    PlaceInfo.Laid 0 (d.placed p.id) ∧ PlaceInfo.totalBits (d.placed p.id) ≤ width.toNat ∧
      0 + PlaceInfo.totalBits (d.placed p.id) < UInt32.size := by
  obtain ⟨q, hq, -, hkq, -⟩ := h.node hp
  have hle := hw.struct hq (hkq ▸ hk)
  refine ⟨(hg.packs.struct hq (hkq ▸ hk) (by simp)).2, hle, ?_⟩
  rw [Nat.zero_add]
  exact Nat.lt_of_le_of_lt hle width.toNat_lt

/-- A place outside bit containers has the bytes of its type. -/
theorem scalar_size (h : t.CompiledFrom d) (hg : d.Grown) (hp : t.Has p) (hn : n ∈ t.childNodes p)
    (hword : ¬ p.isWord) {info : PlaceInfo} (hk : n.kind = .place info) :
    ∃ bytes, info.member.dtype.byteSize = some bytes ∧ n.cellSize.toNat = bytes.toNat := by
  obtain ⟨-, -, -, -, hadm, -⟩ := h.child hg hp hn
  have hb : p.type.isBitLevel = false := by
    rw [Bool.eq_false_iff]
    intro hb
    rcases (h.typed hp).isBitLevel_iff.1 hb with hc | hc
    · exact hword (Or.inl hc)
    · exact hword (Or.inr (Or.inl hc))
  have hquant : info.member.dtype.isQuant = false := by
    rw [hk] at hadm
    exact hadm.2.2.trans hb
  have hcell := ((h.suits_child hg hp hn).place info hk).2
  rw [hb, if_neg (by simp)] at hcell
  cases ht : info.member.dtype with
  | quantInt | quantFloat =>
    rw [ht] at hquant
    cases hquant
  | _ =>
    rw [ht] at hcell
    exact ⟨_, rfl, hcell⟩

/-- Of two members of a bit struct the one placed earlier ends before the other begins. -/
theorem struct_apart (h : t.CompiledFrom d) (hg : d.Good) (hw : d.WellSized) (hp : t.Has p)
    (hm : m ∈ t.childNodes p) (hn : n ∈ t.childNodes p) {width : UInt32}
    (hkp : p.kind = .bitStruct width) (hne : m ≠ n) (hqm : m.isQuantInt) (hqn : n.isQuantInt) :
    m.bitRange.1 + m.bitRange.2 ≤ n.bitRange.1 ∨ n.bitRange.1 + n.bitRange.2 ≤ m.bitRange.1 := by
  obtain ⟨i, -, -, hki, -⟩ := id hqm
  obtain ⟨j, -, -, hkj, -⟩ := id hqn
  obtain ⟨hlaid, -, hlt⟩ := h.struct_word hg hw hp hkp
  obtain ⟨hmem, hi⟩ := h.mem_placed hg.grown hp hm hki
  obtain ⟨hmem', hj⟩ := h.mem_placed hg.grown hp hn hkj
  have hpair := List.pairwise_filterMap.1 (hlaid.pairwise hlt)
  let apart (a b : NodeId) : Prop := ∀ i, d.nodes[a]?.bind (·.kind.place?) = some i →
    ∀ j, d.nodes[b]?.bind (·.kind.place?) = some j →
      i.start + i.ownBits ≤ j.start ∨ j.start + j.ownBits ≤ i.start
  have : Std.Symm apart := ⟨fun a b hab i hi j hj => (hab j hj i hi).symm⟩
  have hsymm : (d.children p.id).Pairwise apart :=
    hpair.imp fun hab i hi j hj => Or.inl (hab i hi j hj)
  have hid : m.id ≠ n.id := fun he => hne ((h.has_of_mem hm).eq_of_id (h.has_of_mem hn) he)
  rw [bitRange_eq hki hqm, bitRange_eq hkj hqn]
  exact hsymm.forall hmem hmem' hid i hi j hj

/-- The only member of a bit array has its elements from the first bit on, and they fit the
word. -/
theorem array_member (h : t.CompiledFrom d) (hg : d.Good) (hw : d.WellSized) (hp : t.Has p)
    (hn : n ∈ t.childNodes p) {ds : List Division} {width : UInt32}
    (hkp : p.kind = .bitArray ds width) :
    n.bitRange.1 = 0 ∧ p.cells.toNat * n.bitRange.2 ≤ width.toNat ∧ t.childNodes p = [n] := by
  obtain ⟨q, hq, -, hkq, -, -, hiq, -⟩ := h.node hp
  obtain ⟨info, hk, hin, hzero, honly⟩ := h.array_child hg hp hn hkp
  have hle := hw.array hq (hkq ▸ hkp) info hin
  unfold Layout.Node.bitRange
  rw [hk]
  refine ⟨?_, ?_, honly⟩
  · change (info.bitOffset.getD 0).toNat = 0
    rw [hzero]
    rfl
  · rw [h.cells hp, hiq]
    exact hle

theorem valued (h : t.CompiledFrom d) (hg : d.Good) (hw : d.WellSized) : t.Valued := by
  constructor
  case scalar => exact fun hp hn hword hk => h.scalar_size hg.grown hp hn hword hk
  case word =>
    intro n width hn hwidth
    obtain ⟨m, hm, -, hkm, -⟩ := h.node hn
    obtain ⟨u, hs⟩ := h.suits hn
    exact ⟨(hg.grown.valid hm).width width (hkm ▸ hwidth), hs.word width hwidth⟩
  case quant_below =>
    intro p n info hp hn hb hk
    obtain ⟨-, -, -, -, hadm, -⟩ := h.child hg.grown hp hn
    rw [hk] at hadm
    exact hadm.2.2.trans hb
  case quant =>
    intro n info bits signed hn hk ht
    have hcheck := (h.valid_of_place hg.grown hn hk).1
    rw [ht] at hcheck
    simp only [DataType.check] at hcheck
    by_cases hle : 1 ≤ bits ∧ bits ≤ 32
    · exact ⟨hle.1, hle.2⟩
    · rw [if_neg hle] at hcheck
      cases hcheck
  case struct_le =>
    intro p n width hp hn hkp hq
    obtain ⟨info, -, -, hk, -⟩ := id hq
    obtain ⟨hlaid, hle, hlt⟩ := h.struct_word hg hw hp hkp
    obtain ⟨hmem, hinfo⟩ := h.mem_placed hg.grown hp hn hk
    have hin : info ∈ d.placed p.id := List.mem_filterMap.2 ⟨n.id, hmem, hinfo⟩
    have hend := (hlaid.within hlt info hin).2
    rw [bitRange_eq hk hq]
    omega
  case struct_apart =>
    exact fun hp hm hn hkp hne hqm hqn => h.struct_apart hg hw hp hm hn hkp hne hqm hqn
  case array => exact fun hp hn hkp => h.array_member hg hw hp hn hkp

end Layout.CompiledFrom

/-- A well-sized tree that was built by declarations compiles to a well-formed one. -/
theorem Draft.Built.compile {d : Draft} (h : d.Built) (hw : d.WellSized) (tree : TreeId)
    (compileOnly : Bool) : ∃ t, d.compile tree compileOnly = .ok t ∧ t.WellFormed := by
  obtain ⟨t, ht, hfrom⟩ := compile_ok h.good.grown hw.isWords tree compileOnly
  have hg := h.good.grown
  exact ⟨t, ht, hfrom.charted hg, hfrom.packed hg, hfrom.counted hg,
    hfrom.valued h.good hw⟩

theorem Draft.Built.wellFormed {d : Draft} (h : d.Built) (hw : d.WellSized) {tree : TreeId}
    {compileOnly : Bool} {t : Layout} (ht : d.compile tree compileOnly = .ok t) :
    t.WellFormed := by
  obtain ⟨t', ht', hwf⟩ := h.compile hw tree compileOnly
  rw [ht, Except.ok.injEq] at ht'
  exact ht' ▸ hwf

end SparseLayout
