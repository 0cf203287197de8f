import SparseLayout.Proofs.Coordinates
import SparseLayout.Proofs.Layout.Slot

namespace SparseLayout

namespace Layout

open Node (linear number)

variable {t : Layout} {p m n : Node} {c d : Coords} {info : PlaceInfo}

theorem Node.not_isWord_of_scalar {info : PlaceInfo} (ht : t.WellFormed) (hp : t.Has p)
    (hn : n ∈ t.childNodes p) (hk : n.kind = .place info) (hq : info.member.dtype.isQuant = false) :
    ¬ p.isWord := by
  intro hw
  have := ht.quant_below hp hn (ht.below_word hp hn hw).1 hk
  rw [hq] at this
  cases this

/-- Quantized integers are placed in bit containers only. -/
theorem WellFormed.isBitLevel_of_quantInt (ht : t.WellFormed) (hp : t.Has p)
    (hn : n ∈ t.childNodes p) (hq : n.isQuantInt) : p.type.isBitLevel = true := by
  obtain ⟨info, bits, signed, hk, hd⟩ := hq
  by_contra hb
  have hw : ¬ p.isWord := fun hw => hb (ht.below_word hp hn hw).1
  obtain ⟨bytes, hbytes, -⟩ := ht.scalar hp hn hw hk
  rw [hd] at hbytes
  cases hbytes

/-- The kind of a bit container, and its word. -/
theorem WellFormed.kind_of_isBitLevel (ht : t.WellFormed) (hp : t.Has p)
    (hb : p.type.isBitLevel = true) : ∃ width : UInt32,
    (p.kind = .bitStruct width ∨ ∃ ds, p.kind = .bitArray ds width) ∧
      width.toNat = 8 * p.bytes.toNat ∧ (width / 8).toNat = p.bytes.toNat ∧ width.toNat ≤ 64 := by
  have hc := (ht.typed hp).isBitLevel_iff.1 hb
  obtain ⟨width, hk⟩ : ∃ width : UInt32, p.kind = .bitStruct width ∨
      ∃ ds, p.kind = .bitArray ds width := by
    unfold Node.type at hb
    cases hk : p.kind with
    | bitStruct width => exact ⟨width, Or.inl rfl⟩
    | bitArray ds width => exact ⟨width, Or.inr ⟨ds, rfl⟩⟩
    | _ => simp [hk, Kind.type, NodeType.isBitLevel] at hb
  have hwidth : p.kind.wordBits? = some width := by
    rcases hk with hk | ⟨ds, hk⟩ <;> rw [hk] <;> rfl
  obtain ⟨hbytes, -⟩ := ht.word_bytes hp hwidth hc
  obtain ⟨hmem, -⟩ := ht.word hp hwidth
  have hsize : width.toNat = 8 * (width / 8).toNat ∧ width.toNat ≤ 64 := by
    simp only [List.mem_cons, List.not_mem_nil, or_false] at hmem
    rcases hmem with rfl | rfl | rfl | rfl <;> decide
  rw [hbytes] at hsize
  exact ⟨width, hk, hsize.1, hbytes, hsize.2⟩

/-- Number of the element of a bit array; a bit struct has one cell. -/
def Node.element (n p : Node) (c : Coords) : Nat :=
  match p.kind with
  | .bitArray .. => (linear n p c).toNat
  | _ => 0

theorem quantInt_bits {bits : UInt8} {signed : Bool} (hk : n.kind = .place info)
    (hd : info.member.dtype = .quantInt bits signed) :
    n.bitRange.2 = bits.toNat ∧ info.member.dtype.bits.toNat = bits.toNat := by
  unfold Node.bitRange
  rw [hk]
  simp [hd, DataType.bits]

theorem WellFormed.linear_lt (ht : t.WellFormed) (hp : t.Has p) (target : Node) (c : Coords) :
    (linear target p c).toNat < p.cells.toNat := by
  rw [ht.toNat_linear hp, ht.cells_eq hp, ← map_fst_digits target p c]
  exact rowMajor_lt (ht.digits_lt hp target c)

/-- The elements of a bit array follow one another from the first bit on, as long as their offsets
are counted by a word. -/
theorem Branching.valueSlot_bitArray (ht : t.Branching) (hp : t.Has p) (hn : n ∈ t.childNodes p)
    {ds : List Division} {width : UInt32} (hkp : p.kind = .bitArray ds width)
    (hk : n.kind = .place info) (h0 : info.bitOffset.getD 0 = 0)
    (hpos : 0 < info.member.dtype.bits.toNat)
    (hlt : (linear n p c).toNat * info.member.dtype.bits.toNat < UInt32.size) :
    ∃ offset : UInt32, t.valueSlot n c = .ok ⟨(width / 8).toNat, some offset⟩ ∧
      offset.toNat = (linear n p c).toNat * info.member.dtype.bits.toNat := by
  have hlin : (linear n p c).toNat < UInt32.size :=
    Nat.lt_of_le_of_lt (Nat.le_mul_of_pos_right _ hpos) hlt
  unfold valueSlot
  rw [ht.parentNode_eq hp hn]
  simp only [hk, hkp, bind, Except.bind, pure, Except.pure, h0, UInt32.zero_add]
  refine ⟨_, rfl, ?_⟩
  rw [UInt32.toNat_mul, UInt64.toNat_toUInt32, Nat.mod_eq_of_lt hlin]
  exact Nat.mod_eq_of_lt hlt

/-- The bits of a quantized integer start behind those of the elements before it. -/
theorem WellFormed.valueSlot_bits (ht : t.WellFormed) (hp : t.Has p) (hn : n ∈ t.childNodes p)
    (hq : n.isQuantInt) (c : Coords) : ∃ offset : UInt32,
    t.valueSlot n c = .ok ⟨p.bytes.toNat, some offset⟩ ∧
      offset.toNat = n.bitRange.1 + n.element p c * n.bitRange.2 ∧
      offset.toNat + n.bitRange.2 ≤ 8 * p.bytes.toNat ∧ p.bytes.toNat ≤ 8 := by
  have hhas := ht.has_child hn
  obtain ⟨width, hkind, hwidth, hbytes, hle⟩ :=
    ht.kind_of_isBitLevel hp (ht.isBitLevel_of_quantInt hp hn hq)
  obtain ⟨info, bits, signed, hk, hd⟩ := id hq
  have hrange := (quantInt_bits hk hd).1
  have hb := (quantInt_bits hk hd).2
  have hstart : n.bitRange.1 = (info.bitOffset.getD 0).toNat := by
    unfold Node.bitRange
    rw [hk]
  unfold Node.element
  -- in a bit struct the offset is the recorded one, in a bit array that of the element
  rcases hkind with hkind | ⟨ds, hkind⟩
  · have hfit := ht.struct_le hp hn hkind hq
    unfold valueSlot
    rw [ht.parentNode_eq hp hn]
    simp only [hk, hkind, bind, Except.bind, pure, Except.pure, hbytes]
    refine ⟨_, rfl, ?_, ?_, by omega⟩
    · rw [hstart, Nat.zero_mul, Nat.add_zero]
    · rw [← hstart, ← hwidth]
      exact hfit
  · obtain ⟨hzero, hfit, -⟩ := ht.array hp hn hkind
    obtain ⟨hb1, -⟩ := ht.quant hhas hk hd
    have hlin := ht.linear_lt hp n c
    have h0 : info.bitOffset.getD 0 = 0 := UInt32.toNat_inj.1 (hstart ▸ hzero)
    have hmul : (linear n p c).toNat * bits.toNat + bits.toNat ≤ p.cells.toNat * bits.toNat := by
      rw [← Nat.succ_mul]
      exact Nat.mul_le_mul_right _ hlin
    rw [hrange] at hfit
    obtain ⟨offset, hslot, hoff⟩ := ht.valueSlot_bitArray hp hn hkind hk h0 (c := c)
      (by omega) (by rw [hb, UInt32.size]; omega)
    rw [hb] at hoff
    simp only [hkind]
    refine ⟨offset, by rw [hslot, hbytes], ?_, ?_, by omega⟩
    · rw [hoff, hzero, hrange, Nat.zero_add]
    · rw [hoff, hrange]
      omega

/-- Different members of a bit struct, and different elements of a bit array, have no bit in
common. -/
theorem WellFormed.bits_apart (ht : t.WellFormed) (hp : t.Has p) (hm : m ∈ t.childNodes p)
    (hn : n ∈ t.childNodes p) (hqm : m.isQuantInt) (hqn : n.isQuantInt)
    (hne : m ≠ n ∨ m.element p c ≠ n.element p d) :
    Apart (m.bitRange.1 + m.element p c * m.bitRange.2) m.bitRange.2
      (n.bitRange.1 + n.element p d * n.bitRange.2) n.bitRange.2 := by
  obtain ⟨width, hkind | ⟨ds, hkind⟩, -⟩ :=
    ht.kind_of_isBitLevel hp (ht.isBitLevel_of_quantInt hp hn hqn)
  · have he (k : Node) (e : Coords) : k.element p e = 0 := by
      unfold Node.element
      rw [hkind]
    rw [he, he] at hne ⊢
    have := ht.struct_apart hp hm hn hkind (hne.resolve_right (absurd rfl)) hqm hqn
    unfold Apart
    omega
  · obtain ⟨-, -, honly⟩ := ht.array hp hn hkind
    obtain rfl : m = n := by
      rw [honly] at hm
      exact List.mem_singleton.1 hm
    have helements := apart_mul (hne.resolve_left (absurd rfl)) m.bitRange.2
    unfold Apart at helements ⊢
    omega

/-- Below a bit container or a place there is nothing but places. -/
theorem Above.isWord (ht : t.WellFormed) (h : t.Above m n) (hm : m.isWord) : n.isWord := by
  induction h with
  | refl => exact hm
  | step hp hn _ ih => exact Or.inr (Or.inr (ht.below_word hp hn ih).2.1)

/-- A bit array above a place is its parent. -/
theorem WellFormed.eq_of_bitArray_above (ht : t.WellFormed) (hp : t.Has p)
    (hn : n ∈ t.childNodes p) (hk : n.kind = .place info) (h : t.Above m n)
    (hc : m.container = .bitArray) : m = p := by
  cases h with
  | refl =>
    rw [ht.place_container (ht.has_child hn) hk] at hc
    cases hc
  | step hp' hn' h =>
    rw [ht.parent_unique hp' hp hn' hn] at h
    cases h with
    | refl => rfl
    | step hr hpr h =>
      -- the parent would itself be a place
      have hcp := (ht.below_word hr hpr (h.isWord ht (Or.inr (Or.inl hc)))).2.1
      refine absurd ?_ (ht.type_ne_place hp hn)
      rw [ht.type_eq hp, hcp]
      rfl

/-- The cell of a bit container, and the word that the places in it share. -/
theorem WellFormed.place_of_bits (ht : t.WellFormed) (hm : t.Has m)
    (hb : m.type.isBitLevel = true) (n target : Node) (c : Coords) :
    ∃ q, t.place target c m = (m, 0) :: q ∧ wordKey n (t.place target c m) = (q, m) := by
  have hcon := (ht.typed hm).isBitLevel_iff.1 hb
  have hne : m.kind ≠ .root := by
    intro hk
    simp [Node.type, hk, Kind.type, NodeType.isBitLevel] at hb
  obtain ⟨p, hp, hmp⟩ := ht.ne_root_of_kind hm hne
  have hnum : number target m c = 0 := by rcases hcon with hcon | hcon <;> simp [number, hcon]
  have hplace := ht.place_child target c hp hmp
  rw [hnum] at hplace
  exact ⟨_, hplace, by rw [hplace, wordKey_of_bits n hb]⟩

theorem WellFormed.wordKey_place (ht : t.WellFormed) (hp : t.Has p)
    (hb : p.type.isBitLevel = false) (n target : Node) (c : Coords) :
    wordKey n (t.place target c p) = (t.place target c p, n) :=
  wordKey_of_bytes n (by rwa [ht.nodeAt_place target c hp])

/-- A place has one cell or element for each coordinates. -/
theorem WellFormed.cell_inj (ht : t.WellFormed) (hp : t.Has p) (hn : n ∈ t.childNodes p)
    (hk : n.kind = .place info) (ha : n.Addressable) (hc : n.Within c) (hd : n.Within d)
    (h : t.place n c n = t.place n d n)
    (he : p.type.isBitLevel = true → n.element p c = n.element p d) : c = d := by
  refine ht.place_inj (ht.has_child hn) ha hc hd h ?_
  intro m hm hba
  obtain rfl : m = p := ht.eq_of_bitArray_above hp hn hk hm hba
  have hb := (ht.typed hp).isBitLevel_iff.2 (Or.inr hba)
  have he := he hb
  unfold Node.element at he
  cases ht.level hp with
  | bitArray hkp _ =>
    simp only [hkp] at he
    exact UInt64.toNat_inj.1 he
  | pointer _ hc | bitmasked _ hc | dynamic _ hc | root _ hc | dense _ hc | bitStruct _ hc
  | place _ hc =>
    rw [hba] at hc
    cases hc

end Layout

end SparseLayout
