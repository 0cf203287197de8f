import SparseLayout.Proofs.Layout.Cell

namespace SparseLayout

open Layout (Node)
open Layout.Node (around digit number)

/-- The store tells of the cells of a tree what the view does. -/
structure Mirrors (t : Layout) (v : View) (r : Reference) : Prop where
  on : ∀ {n : Node} {c : Coords}, t.Has n → n.Addressable → n.Within c → n.type.isSparse = true →
    v.on (t.place n c n) = r.on n.id c
  length : ∀ {p n : Node} {c : Coords}, t.Has p → n ∈ t.childNodes p → p.Addressable → p.Within c →
    n.type = .dynamic → v.length (t.place p c p) n = r.length n.id c
  value : ∀ {n : Node} {c : Coords} {info : PlaceInfo} {slot : ValueSlot}, t.Has n →
    n.Addressable → n.Within c → n.kind = .place info →
      info.member.dtype.checkAccess = .ok () → t.valueSlot n c = .ok slot →
        info.member.dtype.inSlot slot (v.word (View.keyOf t n c).1 (View.keyOf t n c).2) =
          (r.value n.id c).getD info.member.dtype.zero

namespace Mirrors

variable {t : Layout} {v : View} {r : Reference} {p q m n : Node} {c d e : Coords}
  {info : PlaceInfo} {slot : ValueSlot}

variable (ht : t.WellFormed) (h : Mirrors t v r)
include ht h

/-- A pointer or bitmasked cell is put to use. -/
theorem setOn (hm : t.Has m) (hs : m.type.isSparse = true) (hc : m.Within c) :
    Mirrors t { v with on := Function.update v.on (t.place m c m) true } (r.setOn m.id c) := by
  refine ⟨?_, h.length, h.value⟩
  intro n d hn ha hd hns
  have hiff := ht.place_eq_iff hm (ht.not_isWord_of_sparse hm hs) hc hn ha hd
  rw [Reference.on_setOn, ← h.on hn ha hd hns]
  simp only [Function.update_apply, hiff, hn.id_eq_iff hm]
  by_cases he : n = m ∧ d = c <;> simp [he]

/-- A list gets another length. -/
theorem setLength (hp : t.Has p) (hm : m ∈ t.childNodes p) (hmd : m.type = .dynamic)
    (hc : p.Within c) (len : Nat) :
    Mirrors t (v.setLength (t.place p c p) m len) (r.setLength m.id c len) := by
  refine ⟨h.on, ?_, h.value⟩
  intro q n d hq hn ha hd hnd
  have hw : ¬ p.isWord := by
    refine ht.not_isWord_of_child hp hm fun info hk => ?_
    rw [Node.type, hk] at hmd
    cases hmd
  have hiff : t.place q d q = t.place p c p ∧ n = m ↔ n.id = m.id ∧ d = c := by
    rw [ht.place_eq_iff hp hw hc hq ha hd, (ht.has_child hn).id_eq_iff (ht.has_child hm)]
    constructor
    · rintro ⟨⟨-, he⟩, hnm⟩
      exact ⟨hnm, he⟩
    · rintro ⟨rfl, he⟩
      exact ⟨⟨ht.parent_unique hq hp hn hm, he⟩, rfl⟩
  rw [View.length_setLength, Reference.length_setLength, if_congr hiff rfl rfl,
    h.length hq hn ha hd hnd]

/-- One level on the way to a cell is put to use. -/
theorem raise (hp : t.Has p) (hm : m ∈ t.childNodes p) (hmn : t.Above m n) (hn : t.Has n)
    (ha : n.Addressable) (hc : n.Within c) :
    Mirrors t (v.raise m (number n m c) (t.place n c p)) (r.raise t n c m) := by
  have hhas := ht.has_child hm
  have hpn := (Layout.Above.child hp hm).trans hmn
  have hcell : (m, number n m c) :: t.place n c p = t.place m (around n m c) m := by
    rw [(Layout.Above.refl m).place_around ht.toCharted hmn hn ha, ht.place_child n c hp hm]
  have hon (hs : m.type.isSparse = true) : Mirrors t
      { v with on := Function.update v.on ((m, number n m c) :: t.place n c p) true }
      (r.setOn m.id (around n m c)) := by
    rw [hcell]
    exact h.setOn ht hhas hs (hmn.around_within ht.toCharted hn ha hc)
  unfold Reference.raise
  cases ht.level hhas with
  | pointer hk hkc | bitmasked hk hkc =>
    simp only [View.raise, hk, hkc]
    exact hon (by rw [Node.type, hk]; rfl)
  | @dynamic axis dim chunk cap bytes hk hkc =>
    have hmd : m.type = .dynamic := by
      rw [Node.type, hk]
      rfl
    have hwithin := hpn.around_within ht.toCharted hn ha hc
    have hplace : t.place n c p = t.place p (around n p c) p :=
      ((Layout.Above.refl p).place_around ht.toCharted hpn hn ha c).symm
    have hlen := h.length hp hm (hpn.exists_side ht.toCharted ha).1 hwithin hmd
    simp only [hk, Layout.outer_eq ht hp hm]
    rw [View.raise_dynamic _ hkc, hplace, ← hlen,
      show number n m c = (digit n m axis c).toNat by rw [number, hkc]]
    exact h.setLength ht hp hm hmd hwithin _
  | root hk hkc | dense hk hkc | bitStruct hk hkc | bitArray hk hkc | place hk hkc =>
    simp only [View.raise, hk, hkc]
    exact h

/-- All levels on the way to a cell are put to use. -/
theorem activate (hn : t.Has n) (ha : n.Addressable) (hc : n.Within c) :
    Mirrors t (v.activate (t.place n c n)) (r.activate t n c) := by
  suffices t.Above n n → Mirrors t (v.activate (t.place n c n))
      ((t.branch n.id).foldl (Reference.raise t n c) r) from this (.refl n)
  refine ht.induction (motive := fun m => t.Above m n → Mirrors t (v.activate (t.place n c m))
    ((t.branch m.id).foldl (Reference.raise t n c) r)) ?_ ?_ hn
  · intro _
    rw [ht.place_root, ht.branch_root]
    exact h
  · intro p m hp hm ih hmn
    rw [ht.place_child n c hp hm, ht.branch_child hp hm, List.foldl_append]
    exact (ih ((Layout.Above.child hp hm).trans hmn)).raise ht hp hm hmn hn ha hc

/-- One level on the way to a cell is in use. -/
theorem holds_iff (hp : t.Has p) (hm : m ∈ t.childNodes p) (hmn : t.Above m n) (hn : t.Has n)
    (ha : n.Addressable) (hc : n.Within c) :
    v.On m (number n m c) (t.place n c p) ↔ r.holds t n c m = true := by
  have hhas := ht.has_child hm
  have hpn := (Layout.Above.child hp hm).trans hmn
  have hcell : (m, number n m c) :: t.place n c p = t.place m (around n m c) m := by
    rw [(Layout.Above.refl m).place_around ht.toCharted hmn hn ha, ht.place_child n c hp hm]
  have hon (hs : m.type.isSparse = true) : v.on ((m, number n m c) :: t.place n c p) =
      r.on m.id (around n m c) := by
    rw [hcell]
    exact h.on hhas (hmn.exists_side ht.toCharted ha).1 (hmn.around_within ht.toCharted hn ha hc) hs
  unfold View.On Reference.holds
  cases ht.level hhas with
  | pointer hk hkc | bitmasked hk hkc =>
    simp only [hk, hkc]
    rw [hon (by rw [Node.type, hk]; rfl)]
  | @dynamic axis dim chunk cap bytes hk hkc =>
    have hplace : t.place n c p = t.place p (around n p c) p :=
      ((Layout.Above.refl p).place_around ht.toCharted hpn hn ha c).symm
    have hlen := h.length hp hm (hpn.exists_side ht.toCharted ha).1 (hpn.around_within ht.toCharted hn ha hc)
      (by rw [Node.type, hk]; rfl)
    simp only [hk, hkc, Layout.outer_eq ht hp hm]
    rw [show number n m c = (digit n m axis c).toNat by rw [number, hkc], hplace, hlen,
      decide_eq_true_iff]
  | root hk hkc | dense hk hkc | bitStruct hk hkc | bitArray hk hkc | place hk hkc =>
    simp only [hk, hkc]

/-- A cell is in use for the store where it is for the view. -/
theorem active_iff (hn : t.Has n) (ha : n.Addressable) (hc : n.Within c) :
    v.Active t (t.place n c n) ↔ r.active t n c = true := by
  suffices t.Above n n → (v.Active t (t.place n c n) ↔
      (t.branch n.id).all (r.holds t n c) = true) from this (.refl n)
  refine ht.induction (motive := fun m => t.Above m n → (v.Active t (t.place n c m) ↔
    (t.branch m.id).all (r.holds t n c) = true)) ?_ ?_ hn
  · intro _
    rw [ht.place_root, ht.branch_root]
    exact iff_of_true trivial rfl
  · intro p m hp hm ih hmn
    have hloc := ht.locates_place n c (ht.has_child hm)
    rw [ht.place_child n c hp hm] at hloc ⊢
    rw [ht.branch_child hp hm, List.all_append, Bool.and_eq_true, List.all_cons, List.all_nil,
      Bool.and_true, ← ih ((Layout.Above.child hp hm).trans hmn), ← h.holds_iff ht hp hm hmn hn ha hc]
    constructor
    · exact fun hv => ⟨hv.1, hv.2.2.2⟩
    · exact fun hv => ⟨hv.1, hloc.2.1, hloc.2.2, hv.2⟩

omit ht in
/-- A word is replaced. It is enough to look at the values in it. -/
theorem setWord {x : Position} {b : Node} {w : Nat} {s : Scalar} (hn : t.Has n)
    (hother : ∀ {m : Node} {d : Coords} {info : PlaceInfo}, t.Has m → m.Addressable → m.Within d →
      m.kind = .place info → View.keyOf t m d ≠ (x, b) → ¬ (m = n ∧ d = e))
    (hvalue : ∀ {m : Node} {d : Coords} {info : PlaceInfo} {slot : ValueSlot}, t.Has m →
      m.Addressable → m.Within d → m.kind = .place info →
        info.member.dtype.checkAccess = .ok () → t.valueSlot m d = .ok slot →
          View.keyOf t m d = (x, b) → info.member.dtype.inSlot slot w =
            if m = n ∧ d = e then s else info.member.dtype.inSlot slot (v.word x b)) :
    Mirrors t (v.setWord x b w) (r.store n.id e s) := by
  refine ⟨h.on, h.length, ?_⟩
  intro m d info slot hm ha hd hk hacc hslot
  have hv := h.value hm ha hd hk hacc hslot
  rw [View.word_setWord, Reference.value_store,
    if_congr (and_congr (hm.id_eq_iff hn) Iff.rfl) rfl rfl]
  by_cases hkey : View.keyOf t m d = (x, b)
  · rw [hkey] at hv ⊢
    rw [if_pos ⟨rfl, rfl⟩, hvalue hm ha hd hk hacc hslot hkey]
    by_cases hsame : m = n ∧ d = e
    · rw [if_pos hsame, if_pos hsame, Option.getD_some]
    · rw [if_neg hsame, if_neg hsame, hv]
  · rw [if_neg fun he => hkey (Prod.ext he.1 he.2), if_neg (hother hm ha hd hk hkey), hv]

/-- A value is stored in its place, and in no other. -/
theorem write (hn : t.Has n) (ha : n.Addressable) (hc : n.Within c) (hk : n.kind = .place info)
    (hd : info.member.dtype.checkAccess = .ok ()) (hslot : t.valueSlot n c = .ok slot)
    (x : Scalar) :
    Mirrors t (v.setWord (View.keyOf t n c).1 (View.keyOf t n c).2 (info.member.dtype.intoSlot slot
        (v.word (View.keyOf t n c).1 (View.keyOf t n c).2) x))
      (r.store n.id c (x.convert info.member.dtype)) := by
  obtain ⟨p, hp, hnp⟩ := ht.ne_root_of_kind hn (by rw [hk]; simp)
  apply h.setWord hn
  · rintro m d info' hm ha' hd' hk' hkey ⟨rfl, rfl⟩
    exact hkey rfl
  intro m d info' slot' hm ha' hd' hk' hacc hslot' hkey
  obtain ⟨q, hq, hmq⟩ := ht.ne_root_of_kind hm (by rw [hk']; simp)
  obtain ⟨hread, hcase⟩ := ht.slot_cases hp hnp hk hd
  obtain ⟨hread', -⟩ := ht.slot_cases hq hmq hk' hacc
  rcases ht.keyOf_cases hp hnp hk hq hmq hk' ha hc hd' hkey with ⟨rfl, rfl⟩ | ⟨rfl, hb, hne⟩
  · rw [hk, Kind.place.injEq] at hk'
    subst hk'
    rw [hslot, Except.ok.injEq] at hslot'
    subst hslot'
    rw [if_pos ⟨rfl, rfl⟩, ← DataType.stored_eq_convert hread]
    rcases hcase with ⟨-, hbits, hs⟩ | ⟨-, hq, hrange⟩
    · rw [hs d, Except.ok.injEq] at hslot
      subst hslot
      exact DataType.inSlot_intoSlot_bytes hread (Nat.le_of_eq hbits) _ _
    · obtain ⟨offset, hs, -, hle, h8⟩ := ht.valueSlot_bits hp hnp hq d
      rw [hs, Except.ok.injEq] at hslot
      subst hslot
      exact DataType.inSlot_intoSlot_bits hread (hrange ▸ hle) h8 _ _
  · -- two members or elements of one bit container
    obtain ⟨o, o', hs, hs', hle, hle', h8, hapart⟩ :=
      ht.slots_apart hp hb hnp hk hd hmq hk' hacc hne
    rw [hs, Except.ok.injEq] at hslot
    rw [hs', Except.ok.injEq] at hslot'
    subst hslot hslot'
    have hnot : ¬ (m = n ∧ d = c) := by
      rintro ⟨rfl, rfl⟩
      rcases hne with hne | hne <;> exact hne rfl
    rw [if_neg hnot]
    exact DataType.inSlot_intoSlot_apart hread hread' hle hle' h8 hapart _ _

/-- A value is stored in an element of a list. -/
theorem writeElement {axis : Axis} {dim chunk : UInt32} (hp : t.Has p) (hn : n ∈ t.childNodes p)
    (hk : n.kind = .dynamic axis dim chunk) (hm : m ∈ t.childNodes n) (hmk : m.kind = .place info)
    (hd : info.member.dtype.checkAccess = .ok ()) (hc : p.Within c) {len : Nat}
    (hlen : len < dim.toNat) (x : Scalar) :
    Mirrors t (v.setWord ((n, len) :: t.place p c p) m
        ((info.member.dtype.encode x).toNat % 256 ^ m.bytes.toNat))
      (r.store m.id (n.elementCoords c len) (x.convert info.member.dtype)) := by
  have hnhas := ht.has_child hn
  have hnb : n.type.isBitLevel = false := by
    rw [Node.type, hk]
    rfl
  apply h.setWord (ht.has_child hm)
  · rintro l d info' hl hla hld hlk hkey ⟨rfl, hde⟩
    exact hkey ((ht.keyOf_element hp hn hk hm hlk hla hc hld hlen).2 hde)
  intro l d info' slot hl hla hld hlk hacc hslot hkey
  -- the word is that of a place outside bit containers
  obtain rfl : l = m := by
    rcases View.snd_keyOf t l d with he | hb
    · rw [← he, hkey]
    · rw [hkey, Node.type, hmk] at hb
      cases hb
  rw [hmk, Kind.place.injEq] at hlk
  subst hlk
  rw [if_pos ⟨rfl, (ht.keyOf_element hp hn hk hm hmk hla hc hld hlen).1 hkey⟩]
  obtain ⟨hread, ⟨-, hbits, hs⟩ | ⟨hb, -⟩⟩ := ht.slot_cases hnhas hm hmk hd
  · rw [hs d, Except.ok.injEq] at hslot
    subst hslot
    rw [← DataType.stored_eq_convert hread]
    exact DataType.inSlot_intoSlot_bytes hread (Nat.le_of_eq hbits) 0 x
  · rw [hnb] at hb
    cases hb

end Mirrors

end SparseLayout
