import SparseLayout.Proofs.Contents.Activity
import SparseLayout.Proofs.Reference

namespace SparseLayout

namespace Layout

open Node (around digit number)

variable {t : Layout} {k m n p : Node} {c d e : Coords} {info : PlaceInfo}
  {axis : Axis} {dim chunk : UInt32}

theorem WellFormed.type_of_dynamic (ht : t.WellFormed) (hn : t.Has n) {axis : Axis}
    {cap : UInt32} {bytes : UInt64} (hc : n.container = .dynamic axis cap bytes) :
    n.type = .dynamic := by
  rw [ht.type_eq hn, hc]
  rfl

theorem Has.id_eq_iff (hn : t.Has n) (hm : t.Has m) : n.id = m.id ↔ n = m :=
  ⟨fun h => hn.eq_of_id hm h, fun h => congrArg (fun n => n.id) h⟩

theorem WellFormed.not_isWord_of_sparse (ht : t.WellFormed) (hn : t.Has n)
    (hs : n.type.isSparse = true) : ¬ n.isWord := by
  unfold Node.isWord
  rcases (ht.isSparse_iff hn).1 hs with hc | ⟨o, hc⟩ | ⟨axis, cap, bytes, hc⟩ <;> simp [hc]

/-- Cells of pointer nodes and of lists lie in blocks of their own. -/
theorem WellFormed.not_isInline_iff (ht : t.WellFormed) (hn : t.Has n) :
    ¬ n.isInline ↔ n.type = .pointer ∨ n.type = .dynamic := by
  rw [ht.type_eq hn]
  unfold Node.isInline
  cases n.container <;> simp [Container.type]

/-- Only places lie below a bit container. -/
theorem WellFormed.not_isWord_of_child (ht : t.WellFormed) (hp : t.Has p) (hn : n ∈ t.childNodes p)
    (hk : ∀ info, n.kind ≠ .place info) : ¬ p.isWord := by
  intro hw
  have hc := (ht.below_word hp hn hw).2.1
  cases ht.level (ht.has_child hn) with
  | place hk' _ => exact hk _ hk'
  | _ hk' hc' =>
    rw [hc] at hc'
    cases hc'

theorem outer_eq (ht : t.WellFormed) (hp : t.Has p) (hn : n ∈ t.childNodes p) : t.outer n = p := by
  unfold outer
  rw [ht.parent_eq hp hn, Option.bind_some, show t.nodes[p.id]? = some p from hp]
  rfl

/-- The path to a node goes through the nodes above it. -/
theorem Branching.mem_path_iff (h : t.Branching) (hk : t.Has k) (hn : t.Has n) :
    k.id ∈ t.path n.id ↔ t.Above k n := by
  refine h.induction (motive := fun n => k.id ∈ t.path n.id ↔ t.Above k n) ?_ ?_ hn
  · rw [h.root_id]
    constructor
    · intro hmem
      have h0 : k.id = 0 := List.mem_singleton.1 hmem
      rw [hk.eq_of_id h.has_root (h0.trans h.root_id.symm)]
      exact .refl _
    · intro ha
      have h0 := ha.id_le h
      rw [h.root_id, Nat.le_zero] at h0
      rw [h0]
      exact List.mem_singleton.2 rfl
  · intro p n hp hn ih
    rw [h.path_child hp hn, List.mem_append, List.mem_singleton, ih]
    constructor
    · rintro (ha | he)
      · exact .step hp hn ha
      · rw [hk.eq_of_id (h.has_child hn) he]
        exact .refl _
    · intro ha
      cases ha with
      | refl => exact Or.inr rfl
      | step hp' hn' ha =>
        rw [h.parent_unique hp' hp hn' hn] at ha
        exact Or.inl ha

theorem Branching.isBelow_iff (h : t.Branching) (hk : t.Has k) (hn : t.Has n) :
    t.isBelow k n = true ↔ t.Above k n := by
  rw [isBelow, decide_eq_true_iff]
  exact h.mem_path_iff hk hn

theorem Branching.isBelow_and_iff (h : t.Branching) (hk : t.Has k) (hn : t.Has n) {P : Prop}
    [Decidable P] : (t.isBelow k n && decide P) = true ↔ t.Above k n ∧ P := by
  rw [Bool.and_eq_true, h.isBelow_iff hk hn, decide_eq_true_iff]

/-- Coordinates of a node outside bit containers name one cell only. -/
theorem WellFormed.place_self_inj (ht : t.WellFormed) (hn : t.Has n) (hw : ¬ n.isWord)
    (ha : n.Addressable) (hc : n.Within c) (hd : n.Within d)
    (h : t.place n c n = t.place n d n) : c = d := by
  refine ht.place_inj hn ha hc hd h ?_
  intro m hm hba
  exact absurd (hm.isWord ht (Or.inr (Or.inl hba))) hw

/-- A cell lies in the cell of a node above it that its coordinates name. -/
theorem WellFormed.place_suffix_iff (ht : t.WellFormed) (hn : t.Has n) (hw : ¬ n.isWord)
    (hc : n.Within c) (hm : t.Has m) (ha : m.Addressable) (hd : m.Within d) :
    t.place n c n <:+ t.place m d m ↔ t.Above n m ∧ around m n d = c := by
  constructor
  · intro hs
    obtain ⟨k, hk, he⟩ := (ht.suffix_place hm).1 hs
    have hkn := congrArg t.nodeAt he
    rw [ht.nodeAt_place n c hn, ht.nodeAt_place m d (hk.has hm)] at hkn
    subst hkn
    rw [← (Above.refl n).place_around ht.toCharted hk hm ha] at he
    refine ⟨hk, (ht.place_self_inj hn hw (hk.exists_side ht.toCharted ha).1 hc ?_ he).symm⟩
    exact hk.around_within ht.toCharted hm ha hd
  · rintro ⟨hk, rfl⟩
    rw [(Above.refl n).place_around ht.toCharted hk hm ha]
    exact (ht.suffix_place hm).2 ⟨n, hk, rfl⟩

theorem WellFormed.place_eq_iff (ht : t.WellFormed) (hn : t.Has n) (hw : ¬ n.isWord)
    (hc : n.Within c) (hm : t.Has m) (ha : m.Addressable) (hd : m.Within d) :
    t.place m d m = t.place n c n ↔ m = n ∧ d = c := by
  constructor
  · intro he
    have hmn := congrArg t.nodeAt he
    rw [ht.nodeAt_place m d hm, ht.nodeAt_place n c hn] at hmn
    subst hmn
    exact ⟨rfl, ht.place_self_inj hm hw ha hd hc he⟩
  · rintro ⟨rfl, rfl⟩
    rfl

/-- A cell lies in a container in the cell that its coordinates name, if it lies below the node. -/
theorem WellFormed.container_suffix_iff (ht : t.WellFormed) (hp : t.Has p) (hn : n ∈ t.childNodes p)
    (hw : ¬ p.isWord) (he : p.Within e) (hm : t.Has m) (ha : m.Addressable) (hd : m.Within d) :
    (∃ i, (n, i) :: t.place p e p <:+ t.place m d m) ↔ t.Above n m ∧ around m p d = e := by
  constructor
  · rintro ⟨i, hs⟩
    obtain ⟨l, hl, heq⟩ := (ht.suffix_place hm).1 hs
    have hln := congrArg t.nodeAt heq
    rw [ht.nodeAt_place m d (hl.has hm)] at hln
    obtain rfl : n = l := hln
    have htail : t.place p e p <:+ t.place m d m := (List.suffix_cons _ _).trans hs
    exact ⟨hl, ((ht.place_suffix_iff hp hw he hm ha hd).1 htail).2⟩
  · rintro ⟨hl, rfl⟩
    have hpm := (Above.child hp hn).trans hl
    rw [(Above.refl p).place_around ht.toCharted hpm hm ha]
    refine ⟨number m n d, ?_⟩
    rw [← ht.place_child m d hp hn]
    exact (ht.suffix_place hm).2 ⟨n, hl, rfl⟩

theorem Above.of_ne (h : t.Above k n) (ht : t.WellFormed) (hp : t.Has p) (hn : n ∈ t.childNodes p)
    (hne : k ≠ n) : t.Above k p := by
  cases h with
  | refl => exact absurd rfl hne
  | step hp' hn' h =>
    rw [ht.parent_unique hp' hp hn' hn] at h
    exact h

/-- Values that share a word are in one bit container, or are the same. -/
theorem WellFormed.keyOf_cases (ht : t.WellFormed) {q : Node} {info' : PlaceInfo} (hp : t.Has p)
    (hn : n ∈ t.childNodes p) (hk : n.kind = .place info) (hq : t.Has q) (hm : m ∈ t.childNodes q)
    (hk' : m.kind = .place info') (ha : n.Addressable) (hc : n.Within c) (hd : m.Within d)
    (h : View.keyOf t m d = View.keyOf t n c) :
    (m = n ∧ d = c) ∨ (p = q ∧ p.type.isBitLevel = true ∧ (m ≠ n ∨ m.element p d ≠ n.element p c)) := by
  rw [ht.keyOf_eq hp hn, ht.keyOf_eq hq hm] at h
  cases hb : p.type.isBitLevel with
  | false =>
    rw [ht.wordKey_place hp hb] at h
    cases hb' : q.type.isBitLevel with
    | false =>
      rw [ht.wordKey_place hq hb', Prod.mk.injEq] at h
      obtain ⟨hplace, rfl⟩ := h
      obtain rfl := ht.parent_unique hp hq hn hm
      refine Or.inl ⟨rfl, ht.cell_inj hp hn hk ha hd hc ?_ fun hb' => ?_⟩
      · rw [ht.place_of_place hp hn hk, ht.place_of_place hp hn hk, hplace]
      · rw [hb] at hb'
        cases hb'
    | true =>
      -- the word of a bit container is not that of a place
      obtain ⟨x, -, hx⟩ := ht.place_of_bits hq hb' m m d
      rw [hx, Prod.mk.injEq] at h
      obtain ⟨-, rfl⟩ := h
      rw [Node.type, hk] at hb'
      cases hb'
  | true =>
    obtain ⟨x, hplace, hx⟩ := ht.place_of_bits hp hb n n c
    rw [hx] at h
    cases hb' : q.type.isBitLevel with
    | false =>
      rw [ht.wordKey_place hq hb', Prod.mk.injEq] at h
      obtain ⟨-, rfl⟩ := h
      rw [Node.type, hk'] at hb
      cases hb
    | true =>
      obtain ⟨y, hplace', hy⟩ := ht.place_of_bits hq hb' m m d
      rw [hy, Prod.mk.injEq] at h
      obtain ⟨rfl, rfl⟩ := h
      by_cases hsame : m = n ∧ m.element q d = n.element q c
      · obtain ⟨rfl, hel⟩ := hsame
        refine Or.inl ⟨rfl, ht.cell_inj hp hn hk ha hd hc ?_ fun _ => hel⟩
        rw [ht.place_of_place hp hn hk, ht.place_of_place hp hn hk, hplace, hplace']
      · refine Or.inr ⟨rfl, rfl, ?_⟩
        by_cases hmn : m = n
        · exact Or.inr fun hel => hsame ⟨hmn, hel⟩
        · exact Or.inl hmn

/-- Below a list, the extent of its axis is larger by its length. -/
theorem WellFormed.side_element (ht : t.WellFormed) (hp : t.Has p) (hn : n ∈ t.childNodes p)
    (hk : n.kind = .dynamic axis dim chunk) (hm : m ∈ t.childNodes n) (hmk : m.kind = .place info)
    (ha : m.Addressable) (a : Axis) :
    m.side a = n.side a ∧ n.side a = p.side a * if a = axis then dim.toNat else 1 := by
  have hnhas := ht.has_child hn
  have hm1 : (m.index.extent a).declared = 1 :=
    ht.undivided (ht.has_child hm) (by rw [hmk]; exact List.not_mem_nil)
  have hna := ((Above.child hnhas hm).exists_side ht.toCharted ha).1
  refine ⟨?_, ?_⟩
  · rw [ht.side_eq hnhas hm ha, hm1]
    exact Nat.mul_one _
  · rw [ht.side_eq hp hn hna]
    split
    · rename_i he
      subst he
      have hdiv := ht.division hnhas (d := ⟨a, dim⟩) (by rw [hk]; exact List.mem_singleton.2 rfl)
      rw [hdiv.1]
    · rename_i he
      have hn1 : (n.index.extent a).declared = 1 := by
        refine ht.undivided hnhas ?_
        rw [hk]
        simpa [Kind.axes, Kind.divisions] using he
      rw [hn1]
      rfl

/-- The coordinates of an element of a list in exact numbers. -/
theorem Node.toNat_elementCoords (hk : n.kind = .dynamic axis dim chunk) (c : Coords) {e : Nat}
    (hfit : (c.get axis).toNat * dim.toNat + e < 2 ^ 64) (a : Axis) :
    ((n.elementCoords c e).get a).toNat =
      if a = axis then (c.get axis).toNat * dim.toNat + e else (c.get a).toNat := by
  unfold elementCoords
  rw [hk]
  dsimp only
  rw [Coords.get_set]
  split
  · rw [UInt64.toNat_add, UInt64.toNat_mul, UInt32.toNat_toUInt64, UInt64.toNat_ofNat',
      Nat.mod_eq_of_lt (show (c.get axis).toNat * dim.toNat < 2 ^ 64 by omega),
      Nat.mod_eq_of_lt (show e < 2 ^ 64 by omega), Nat.mod_eq_of_lt hfit]
  · rfl

/-- The coordinates of an element are those whose digit is its number, in the cell around the
list. -/
theorem WellFormed.element_iff (ht : t.WellFormed) (hp : t.Has p) (hn : n ∈ t.childNodes p)
    (hk : n.kind = .dynamic axis dim chunk) (hm : m ∈ t.childNodes n) (hmk : m.kind = .place info)
    (ha : m.Addressable) (hc : p.Within c) {e : Nat} (he : e < dim.toNat) :
    (digit m n axis d).toNat = e ∧ around m p d = c ↔ d = n.elementCoords c e := by
  have hnhas := ht.has_child hn
  have hmhas := ht.has_child hm
  have hside := ht.side_element hp hn hk hm hmk ha
  have hpos (a : Axis) : 0 < p.side a := ht.side_pos hp a
  have hdigit : (digit m n axis d).toNat = (d.get axis).toNat % dim.toNat := by
    have hdiv := ht.division hnhas (d := ⟨axis, dim⟩) (by rw [hk]; exact List.mem_singleton.2 rfl)
    rw [(Above.child hnhas hm).toNat_digit ht.toCharted hmhas ha, Node.toNat_around, (hside axis).1,
      Nat.div_self (ht.side_pos hnhas axis), Nat.div_one, hdiv.1]
  have haround (a : Axis) : ((around m p d).get a).toNat =
      (d.get a).toNat / if a = axis then dim.toNat else 1 := by
    rw [Node.toNat_around, (hside a).1, (hside a).2, Nat.mul_div_cancel_left _ (hpos a)]
  -- the coordinate of the element is one of the element node, hence a word
  have hfit : (c.get axis).toNat * dim.toNat + e < 2 ^ 64 := by
    have hlt := Nat.mul_le_mul_right dim.toNat (Nat.succ_le_of_lt (hc axis))
    have hax := ha axis
    rw [(hside axis).1, (hside axis).2, if_pos rfl] at hax
    rw [Nat.succ_mul] at hlt
    omega
  rw [hdigit]
  constructor
  · rintro ⟨rfl, rfl⟩
    apply Coords.ext_toNat
    intro a
    rw [Node.toNat_elementCoords hk _ hfit]
    split
    · rename_i hax
      subst hax
      rw [haround, if_pos rfl, Nat.mul_comm, Nat.div_add_mod]
    · rename_i hax
      rw [haround, if_neg hax, Nat.div_one]
  · intro hde
    have hget (a : Axis) := congrArg (fun d : Coords => (d.get a).toNat) hde
    simp only [Node.toNat_elementCoords hk c hfit] at hget
    constructor
    · rw [hget, if_pos rfl, Nat.mul_comm, Nat.mul_add_mod, Nat.mod_eq_of_lt he]
    · apply Coords.ext_toNat
      intro a
      rw [haround, hget]
      split
      · rename_i hax
        subst hax
        rw [Nat.mul_comm, Nat.mul_add_div (by omega), Nat.div_eq_of_lt he, Nat.add_zero]
      · exact Nat.div_one _

/-- The value in an element of a list is the one at the coordinates of the element. -/
theorem WellFormed.keyOf_element (ht : t.WellFormed) (hp : t.Has p) (hn : n ∈ t.childNodes p)
    (hk : n.kind = .dynamic axis dim chunk) (hm : m ∈ t.childNodes n) (hmk : m.kind = .place info)
    (ha : m.Addressable) (hc : p.Within c) (hd : m.Within d) {e : Nat} (he : e < dim.toNat) :
    View.keyOf t m d = ((n, e) :: t.place p c p, m) ↔ d = n.elementCoords c e := by
  have hnhas := ht.has_child hn
  have hmhas := ht.has_child hm
  have hpm := (Above.child hp hn).trans (Above.child hnhas hm)
  have hw : ¬ p.isWord := ht.not_isWord_of_child hp hn (by rw [hk]; simp)
  have hnb : n.type.isBitLevel = false := by
    rw [Node.type, hk]
    rfl
  obtain ⟨cap, bytes, hcont⟩ := ht.container_of_dynamic hnhas hk
  have hnumber : number m n d = (digit m n axis d).toNat := by rw [number, hcont]
  rw [← ht.element_iff hp hn hk hm hmk ha hc he, ← hnumber, ht.keyOf_eq hnhas hm,
    ht.wordKey_place hnhas hnb, ht.place_child m d hp hn,
    ← (Above.refl p).place_around ht.toCharted hpm hmhas ha, Prod.mk.injEq, List.cons.injEq, Prod.mk.injEq,
    ht.place_eq_iff hp hw hc hp (hpm.exists_side ht.toCharted ha).1 (hpm.around_within ht.toCharted hmhas ha hd)]
  simp

/-- A value that can be read fills a word of its own, or has bits of the word of a bit container. -/
theorem WellFormed.slot_cases (ht : t.WellFormed) (hp : t.Has p) (hn : n ∈ t.childNodes p)
    (hk : n.kind = .place info) (hd : info.member.dtype.checkAccess = .ok ()) :
    info.member.dtype.Readable ∧
      ((p.type.isBitLevel = false ∧ info.member.dtype.bits.toNat = 8 * n.bytes.toNat ∧
        ∀ c, t.valueSlot n c = .ok ⟨n.bytes.toNat, none⟩) ∨
      (p.type.isBitLevel = true ∧ n.isQuantInt ∧
        n.bitRange.2 = info.member.dtype.bits.toNat)) := by
  cases hb : p.type.isBitLevel with
  | false =>
    obtain ⟨hsize, -, hbytes⟩ := ht.scalar_bytes hp hn hk hb
    obtain ⟨b, hdb, he⟩ := Option.map_eq_some_iff.1 hbytes
    obtain ⟨hbits, hpos, hle⟩ := DataType.bits_of_byteSize hdb
    refine ⟨⟨hd, by omega, by omega⟩, Or.inl ⟨rfl, by rw [hbits, he], ?_⟩⟩
    intro c
    unfold valueSlot
    rw [ht.parentNode_eq hp hn]
    simp only [hk, bind, Except.bind, pure, Except.pure, hsize]
    unfold Node.type at hb
    cases hpk : p.kind with
    | bitStruct | bitArray =>
      rw [hpk] at hb
      cases hb
    | _ => rfl
  | true =>
    have hq := ht.quant_below hp hn hb hk
    -- of the quantized types only the integers can be read
    obtain ⟨bits, signed, hdt⟩ : ∃ bits signed, info.member.dtype = .quantInt bits signed := by
      cases hdt : info.member.dtype with
      | quantInt bits signed => exact ⟨bits, signed, rfl⟩
      | quantFloat =>
        rw [hdt] at hd
        cases hd
      | _ =>
        rw [hdt] at hq
        cases hq
    obtain ⟨hrange, hbits⟩ := quantInt_bits hk hdt
    obtain ⟨hpos, hle⟩ := ht.quant (ht.has_child hn) hk hdt
    exact ⟨⟨hd, by omega, by omega⟩, Or.inr ⟨rfl, ⟨info, bits, signed, hk, hdt⟩, by omega⟩⟩

/-- Different members of a bit struct, and different elements of a bit array, have slots apart in
the word of their container. -/
theorem WellFormed.slots_apart (ht : t.WellFormed) {info' : PlaceInfo} (hp : t.Has p)
    (hb : p.type.isBitLevel = true) (hn : n ∈ t.childNodes p) (hk : n.kind = .place info)
    (hd : info.member.dtype.checkAccess = .ok ()) (hm : m ∈ t.childNodes p)
    (hk' : m.kind = .place info') (hd' : info'.member.dtype.checkAccess = .ok ())
    (hne : m ≠ n ∨ m.element p d ≠ n.element p c) : ∃ offset offset' : UInt32,
      t.valueSlot n c = .ok ⟨p.bytes.toNat, some offset⟩ ∧
      t.valueSlot m d = .ok ⟨p.bytes.toNat, some offset'⟩ ∧
      offset.toNat + info.member.dtype.bits.toNat ≤ 8 * p.bytes.toNat ∧
      offset'.toNat + info'.member.dtype.bits.toNat ≤ 8 * p.bytes.toNat ∧ p.bytes.toNat ≤ 8 ∧
      Apart offset.toNat info.member.dtype.bits.toNat offset'.toNat
        info'.member.dtype.bits.toNat := by
  have quant {l : Node} {i : PlaceInfo} (hl : l ∈ t.childNodes p) (hlk : l.kind = .place i)
      (hacc : i.member.dtype.checkAccess = .ok ()) :
      l.isQuantInt ∧ l.bitRange.2 = i.member.dtype.bits.toNat := by
    rcases (ht.slot_cases hp hl hlk hacc).2 with ⟨hf, -, -⟩ | ⟨-, hq, hrange⟩
    · rw [hb] at hf
      cases hf
    · exact ⟨hq, hrange⟩
  obtain ⟨hqn, hrn⟩ := quant hn hk hd
  obtain ⟨hqm, hrm⟩ := quant hm hk' hd'
  obtain ⟨o, hs, ho, hle, h8⟩ := ht.valueSlot_bits hp hn hqn c
  obtain ⟨o', hs', ho', hle', -⟩ := ht.valueSlot_bits hp hm hqm d
  have hapart := ht.bits_apart hp hm hn hqm hqn hne
  rw [← ho, ← ho', hrn, hrm] at hapart
  exact ⟨o, o', hs, hs', hrn ▸ hle, hrm ▸ hle', h8, hapart.symm⟩

/-- Values of different cells that share a word have slots apart in it. -/
theorem WellFormed.slots_of_shared (ht : t.WellFormed) {op op' : Operation} {f f' : DataType}
    {slot slot' : ValueSlot} (hn : t.Has n) (hm : t.Has m) (ha : n.Addressable) (hc : n.Within c)
    (hd : m.Within d) (hf : n.accessType op = .ok f) (hf' : m.accessType op' = .ok f')
    (hs : t.valueSlot n c = .ok slot) (hs' : t.valueSlot m d = .ok slot') (hne : (m, d) ≠ (n, c))
    (hkey : View.keyOf t m d = View.keyOf t n c) : f.Readable ∧ f'.Readable ∧
      ∃ (bytes : Nat) (offset offset' : UInt32), slot = ⟨bytes, some offset⟩ ∧
        slot' = ⟨bytes, some offset'⟩ ∧ offset.toNat + f.bits.toNat ≤ 8 * bytes ∧
        offset'.toNat + f'.bits.toNat ≤ 8 * bytes ∧ bytes ≤ 8 ∧
        Apart offset.toNat f.bits.toNat offset'.toNat f'.bits.toNat := by
  obtain ⟨info, hk, hacc, rfl⟩ := Node.of_accessType hf
  obtain ⟨info', hk', hacc', rfl⟩ := Node.of_accessType hf'
  obtain ⟨p, hp, hnp⟩ := ht.ne_root_of_kind hn (by rw [hk]; simp)
  obtain ⟨q, hq, hmq⟩ := ht.ne_root_of_kind hm (by rw [hk']; simp)
  rcases ht.keyOf_cases hp hnp hk hq hmq hk' ha hc hd hkey with ⟨rfl, rfl⟩ | ⟨rfl, hb, hother⟩
  · exact absurd rfl hne
  obtain ⟨o, o', ho, ho', hle, hle', h8, hapart⟩ :=
    ht.slots_apart hp hb hnp hk hacc hmq hk' hacc' hother
  rw [ho, Except.ok.injEq] at hs
  rw [ho', Except.ok.injEq] at hs'
  exact ⟨(ht.slot_cases hp hnp hk hacc).1, (ht.slot_cases hp hmq hk' hacc').1, p.bytes.toNat, o, o',
    hs.symm, hs'.symm, hle, hle', h8, hapart⟩

end Layout

end SparseLayout
