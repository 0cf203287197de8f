import SparseLayout.Proofs.Reference.Mirrors

namespace SparseLayout

open Layout (Node)
open Layout.Node (around number)

namespace Layout

variable {t : Layout} {k m n p q : Node} {c d e : Coords} {info : PlaceInfo}

/-- A list lies in a cell of a node other than its own where the cell around it does. -/
theorem WellFormed.list_suffix_iff (ht : t.WellFormed) (hn : t.Has n) (hw : ¬ n.isWord)
    (hc : n.Within c) (hp : t.Has p) (hm : m ∈ t.childNodes p) (ha : p.Addressable)
    (hd : p.Within d) (hne : n ≠ m) :
    t.place n c n <:+ (m, 0) :: t.place p d p ↔ t.Above n m ∧ around p n d = c := by
  have hcons : t.place n c n <:+ (m, 0) :: t.place p d p ↔ t.place n c n <:+ t.place p d p := by
    rw [List.suffix_cons_iff, or_iff_right]
    intro he
    have hnm := congrArg t.nodeAt he
    rw [ht.nodeAt_place n c hn] at hnm
    exact hne hnm
  rw [hcons, ht.place_suffix_iff hn hw hc hp ha hd]
  exact and_congr ⟨.step hp hm, fun h => h.of_ne ht hp hm hne⟩ Iff.rfl

/-- A list lies in a container where the cell around it does, or is that container. -/
theorem WellFormed.list_container_iff (ht : t.WellFormed) (hq : t.Has q) (hn : n ∈ t.childNodes q)
    (hw : ¬ q.isWord) (he : q.Within e) (hp : t.Has p) (hm : m ∈ t.childNodes p)
    (ha : p.Addressable) (hd : p.Within d) :
    (∃ i, (n, i) :: t.place q e q <:+ (m, 0) :: t.place p d p) ↔
      t.Above n m ∧ around p q d = e := by
  by_cases hne : n = m
  · subst hne
    obtain rfl := ht.parent_unique hq hp hn hm
    have hself := ht.around_self hq d
    rw [hself]
    constructor
    · rintro ⟨i, hs⟩
      have hs : t.place q e q <:+ t.place q d q := by
        rcases List.suffix_cons_iff.1 hs with h | h
        · rw [(List.cons.inj h).2]
        · exact (List.suffix_cons _ _).trans h
      have := ((ht.place_suffix_iff hq hw he hq ha hd).1 hs).2
      exact ⟨.refl n, hself ▸ this⟩
    · rintro ⟨-, rfl⟩
      exact ⟨0, List.suffix_rfl⟩
  · have hcons (i : Nat) : (n, i) :: t.place q e q <:+ (m, 0) :: t.place p d p ↔
        (n, i) :: t.place q e q <:+ t.place p d p := by
      rw [List.suffix_cons_iff, or_iff_right]
      exact fun h => hne (congrArg Prod.fst (List.cons.inj h).1)
    simp only [hcons]
    rw [ht.container_suffix_iff hq hn hw he hp ha hd]
    exact and_congr ⟨.step hp hm, fun h => h.of_ne ht hp hm hne⟩ Iff.rfl

/-- The region of a value is given up with the cells of blocks or lists around it. -/
theorem WellFormed.region_keyOf (ht : t.WellFormed) (hn : t.Has n) (hk : n.kind = .place info)
    (c : Coords) :
    (View.keyOf t n c).1.region = (t.place n c n).region := by
  obtain ⟨p, hp, hnp⟩ := ht.ne_root_of_kind hn (by rw [hk]; simp)
  have hl := ht.locates_place n c hn
  rw [ht.place_of_place hp hnp hk] at hl ⊢
  rw [ht.keyOf_eq hp hnp]
  exact (ht.word_datum hl hk).2.1

/-- A cell of a sparse node is around a place where it is around the word of the place. -/
theorem WellFormed.suffix_keyOf_iff (ht : t.WellFormed) (hn : t.Has n) (hk : n.kind = .place info)
    (c : Coords) {l : Node} {j : Nat} {x : Position} (hs : l.type.isSparse = true) :
    (l, j) :: x <:+ (View.keyOf t n c).1 ↔ (l, j) :: x <:+ t.place n c n := by
  obtain ⟨p, hp, hnp⟩ := ht.ne_root_of_kind hn (by rw [hk]; simp)
  have hl := ht.locates_place n c hn
  rw [ht.place_of_place hp hnp hk] at hl ⊢
  rw [ht.keyOf_eq hp hnp]
  refine ⟨fun h => h.trans ?_, fun h => ht.suffix_wordKey hl hk h hs⟩
  rcases ht.wordKey_cases hl with he | ⟨b, he, -⟩
  · rw [he]
    exact List.suffix_cons _ _
  · conv_rhs => rw [he]
    exact (List.suffix_cons _ _).trans (List.suffix_cons _ _)

end Layout

namespace Mirrors

variable {t : Layout} {v v' : View} {r : Reference} {k m n p : Node} {c d : Coords}
  {info : PlaceInfo} {D : Set Position}

/-- Cells, lists and values are lost alike. -/
theorem remove (ht : t.WellFormed) (h : Mirrors t v r) {gone : Node → Node → Coords → Bool}
    {lost : Node → Coords → Bool}
    (hon : ∀ {m : Node} {d : Coords}, t.Has m → m.Addressable → m.Within d →
      m.type.isSparse = true → v'.on (t.place m d m) = (v.on (t.place m d m) && !gone m m d))
    (hlen : ∀ {p m : Node} {d : Coords}, t.Has p → m ∈ t.childNodes p → p.Addressable →
      p.Within d → m.type = .dynamic → v'.length (t.place p d p) m =
        if gone m p d then 0 else v.length (t.place p d p) m)
    (hword : ∀ {m : Node} {d : Coords} {info : PlaceInfo}, t.Has m → m.Addressable → m.Within d →
      m.kind = .place info → v'.word (View.keyOf t m d).1 (View.keyOf t m d).2 =
        if lost m d then 0 else v.word (View.keyOf t m d).1 (View.keyOf t m d).2) :
    Mirrors t v' (r.remove t gone lost) := by
  have hany {m : Node} (hm : t.Has m) (f : Node → Bool) : (t.nodes[m.id]?).any f = f m := by
    rw [show t.nodes[m.id]? = some m from hm]
    rfl
  refine ⟨?_, ?_, ?_⟩
  · intro m d hm ha hd hs
    rw [hon hm ha hd hs, h.on hm ha hd hs]
    simp only [Reference.remove, hany hm]
  · intro p m d hp hm ha hd hmd
    rw [hlen hp hm ha hd hmd, h.length hp hm ha hd hmd]
    simp only [Reference.remove, hany (ht.has_child hm), Layout.outer_eq ht hp hm]
  · intro m d info slot hm ha hd hk hacc hslot
    have hv := h.value hm ha hd hk hacc hslot
    rw [hword hm ha hd hk]
    simp only [Reference.remove, hany hm]
    by_cases hl : lost m d = true
    · rw [if_pos hl, if_pos hl]
      exact DataType.inSlot_zero hacc slot
    · rw [if_neg hl, if_neg hl]
      exact hv

/-- A view that forgets cells keeps the others in use. -/
theorem on_forget {x : Position} {b : Bool} (h : x ∈ D ↔ b = true) :
    (v.forget D).on x = (v.on x && !b) := by
  unfold View.forget
  by_cases hx : x ∈ D
  · simp [hx, h.1 hx]
  · have hb : b = false := Bool.eq_false_iff.2 fun hb => hx (h.2 hb)
    simp [hx, hb]

theorem length_forget {x : Position} {b : Bool} (h : (m, 0) :: x ∈ D ↔ b = true) :
    (v.forget D).length x m = if b then 0 else v.length x m := by
  classical exact if_congr h rfl rfl

theorem word_forget {x : Position} {b : Bool} (h : x.region.In D ↔ b = true) :
    (v.forget D).word x m = if b then 0 else v.word x m := by
  classical exact if_congr h rfl rfl

variable (ht : t.WellFormed) (h : Mirrors t v r)
include ht h

/-- A pointer or bitmasked cell is cleared; `v'` is the view without it, and without the words
in it. -/
theorem clearCell (hn : t.Has n) (hs : n.type.isSparse = true) (hnd : n.type ≠ .dynamic)
    (hc : n.Within c) (hon : v'.on = (v.forget (Position.From (t.place n c n))).on)
    (hlen : v'.length = (v.forget (Position.From (t.place n c n))).length)
    (hword : ∀ {m : Node} {d : Coords} {info : PlaceInfo} {b : Bool}, t.Has m →
      m.kind = .place info → (t.place n c n <:+ t.place m d m ↔ b = true) →
        v'.word (View.keyOf t m d).1 (View.keyOf t m d).2 =
          if b then 0 else v.word (View.keyOf t m d).1 (View.keyOf t m d).2) :
    Mirrors t v' (r.clear t n n c) := by
  have hw := ht.not_isWord_of_sparse hn hs
  refine h.remove ht ?_ ?_ ?_
  · intro m d hm ha hd _
    rw [hon]
    exact on_forget ((ht.place_suffix_iff hn hw hc hm ha hd).trans (ht.isBelow_and_iff hn hm).symm)
  · intro p m d hp hm ha hd hmd
    rw [hlen]
    have hne : n ≠ m := by
      rintro rfl
      exact hnd hmd
    exact length_forget ((ht.list_suffix_iff hn hw hc hp hm ha hd hne).trans
      (ht.isBelow_and_iff hn (ht.has_child hm)).symm)
  · intro m d info hm ha hd hk
    exact hword hm hk ((ht.place_suffix_iff hn hw hc hm ha hd).trans
      (ht.isBelow_and_iff hn hm).symm)

/-- The values in a block are lost with its cell. -/
theorem deactivate_pointer (hn : t.Has n) (hk : n.type = .pointer) (hkc : n.container = .pointer)
    (hc : n.Within c) {q : Position} {i : Nat} (hcell : (n, i) :: q = t.place n c n) :
    Mirrors t (v.forget (Position.From ((n, i) :: q))) (r.clear t n n c) := by
  refine h.clearCell ht hn (by rw [hk]; rfl) (by rw [hk]; simp) hc (by rw [hcell]) (by rw [hcell]) ?_
  intro m d info b hm hmk hb
  refine word_forget (Iff.trans ?_ hb)
  rw [ht.region_keyOf hm hmk, region_in_from_iff hkc, hcell]

/-- A bitmasked cell stays where it is, and its values are set to zero. -/
theorem deactivate_bitmasked (hn : t.Has n) (hk : n.type = .bitmasked) {mask : UInt64}
    (hkc : n.container = .bitmasked mask) (hc : n.Within c) {q : Position} {i : Nat}
    (hcell : (n, i) :: q = t.place n c n) :
    Mirrors t ((v.forget (Position.From ((n, i) :: q))).wipe ((n, i) :: q)) (r.clear t n n c) := by
  have hs : n.type.isSparse = true := by rw [hk]; rfl
  have hclosed : Closed (Position.From ((n, i) :: q)) := closed_from (by simp [hkc])
  refine h.clearCell ht hn hs (by rw [hk]; simp) hc (by rw [hcell]; rfl) (by rw [hcell]; rfl) ?_
  intro m d info b hm hmk hb
  have hkey : (n, i) :: q <:+ (View.keyOf t m d).1 ↔ b = true := by
    rw [← hb, ← hcell]
    exact ht.suffix_keyOf_iff hm hmk d hs
  cases b with
  | true => exact if_pos (hkey.2 rfl)
  | false =>
    have hnot : ¬ (n, i) :: q <:+ (View.keyOf t m d).1 := fun hx => Bool.false_ne_true (hkey.1 hx)
    refine (if_neg hnot).trans (word_forget (iff_of_false ?_ Bool.false_ne_true))
    exact fun hin => hnot (suffix_of_region_in hclosed hin)

/-- A list in the cell with coordinates `c` of its parent is lost with all its elements. -/
theorem deactivate_dynamic (hp : t.Has p) (hnp : n ∈ t.childNodes p) (hk : n.type = .dynamic)
    (hi : ¬ n.isInline) (hc : p.Within c) :
    Mirrors t (v.forget ((t.place p c p).Inside n)) (r.clear t n p c) := by
  have hn := ht.has_child hnp
  have hw : ¬ p.isWord := by
    refine ht.not_isWord_of_child hp hnp fun info hplace => ?_
    rw [Node.type, hplace] at hk
    cases hk
  refine h.remove ht ?_ ?_ ?_
  · intro m d hm hma hd _
    exact on_forget ((ht.container_suffix_iff hp hnp hw hc hm hma hd).trans
      (ht.isBelow_and_iff hn hm).symm)
  · intro q m d hq hm hqa hd _
    exact length_forget ((ht.list_container_iff hp hnp hw hc hq hm hqa hd).trans
      (ht.isBelow_and_iff hn (ht.has_child hm)).symm)
  · intro m d info hm hma hd hmk
    refine word_forget ?_
    rw [ht.region_keyOf hm hmk, region_in_inside_iff hi,
      ht.container_suffix_iff hp hnp hw hc hm hma hd]
    exact (ht.isBelow_and_iff hn hm).symm

/-- One cell is deactivated, or a whole list. -/
theorem deactivate (hn : t.Has n) (hs : n.type.isSparse = true) (ha : n.Addressable)
    (hc : n.Within c) :
    Mirrors t (v.deactivate n (number n n c) (t.place n c n).tail) (r.deactivate t n c) := by
  obtain ⟨p, hp, hnp⟩ := ht.ne_root_of_kind hn (by
    intro hk
    rw [Node.type, hk] at hs
    cases hs)
  have hcell : (n, number n n c) :: (t.place n c n).tail = t.place n c n := by
    rw [ht.place_child n c hp hnp]
    rfl
  have hon := h.on hn ha hc hs
  unfold View.deactivate Reference.deactivate
  cases ht.level hn with
  | pointer hk hkc =>
    simp only [hk, hkc]
    exact h.deactivate_pointer ht hn (by rw [Node.type, hk]; rfl) hkc hc hcell
  | bitmasked hk hkc =>
    simp only [hk, hkc, hcell, hon]
    split
    · rw [← hcell]
      exact h.deactivate_bitmasked ht hn (by rw [Node.type, hk]; rfl) hkc hc hcell
    · exact h
  | @dynamic axis dim chunk cap bytes hk hkc =>
    simp only [hk, hkc, Layout.outer_eq ht hp hnp]
    have hpn := Layout.Above.child hp hnp
    have hwithin := hpn.around_within ht.toCharted hn ha hc
    rw [ht.tail_place hp hnp, ← (Layout.Above.refl p).place_around ht.toCharted hpn hn ha]
    exact h.deactivate_dynamic ht hp hnp (by rw [Node.type, hk]; rfl)
      (by simp [Node.isInline, hkc]) hwithin
  | root hk _ | dense hk _ | bitStruct hk _ | bitArray hk _ | place hk _ =>
    rw [Node.type, hk] at hs
    cases hs

/-- All cells of a node are deactivated, and values are forgotten with the blocks and lists
around them. -/
theorem deactivateAll (hk : t.Has k) : Mirrors t (v.deactivateAll k) (r.deactivateAll t k) := by
  rw [View.deactivateAll_eq]
  -- a cell is below the node as a cell just when its node is below it in the tree
  have hbelow {m : Node} {x : Position} {i : Nat} (hl : t.Locates ((m, i) :: x)) :
      (m, i) :: x ∈ k.cellsBelow ↔ t.isBelow k m = true :=
    (hl.mem_cellsBelow ht hk).trans (ht.isBelow_iff hk (ht.has_child hl.2.1)).symm
  refine h.remove ht ?_ ?_ ?_
  · intro m d hm _ _ hs
    obtain ⟨p, hp, hmp⟩ := ht.ne_root_of_kind hm (by
      intro hk
      rw [Node.type, hk] at hs
      cases hs)
    have hl := ht.locates_place m d hm
    rw [ht.place_child m d hp hmp] at hl ⊢
    exact on_forget (hbelow hl)
  · intro p m d hp hm _ _ hmd
    apply length_forget
    refine hbelow ⟨ht.locates_place p d hp, by rwa [ht.nodeAt_place p d hp], ?_⟩
    cases ht.level (ht.has_child hm) with
    | dynamic _ hc =>
      unfold Node.Numbers
      simp only [hc]
    | pointer hk' _ | bitmasked hk' _ | root hk' _ | dense hk' _ | bitStruct hk' _
    | bitArray hk' _ | place hk' _ =>
      rw [Node.type, hk'] at hmd
      cases hmd
  · intro m d info hm _ _ hmk
    apply word_forget
    rw [ht.region_keyOf hm hmk, (ht.locates_place m d hm).region_in_cellsBelow ht hk,
      ht.nodeAt_place m d hm, List.any_eq_true]
    simp only [Bool.and_eq_true, decide_eq_true_iff]
    constructor
    · rintro ⟨l, hlm, hi, hkl⟩
      have hl := hlm.has hm
      have hty := (ht.not_isInline_iff hl).1 hi
      refine ⟨l, ((ht.above_iff hm).1 hlm).resolve_left ?_, hty, (ht.isBelow_iff hk hl).2 hkl⟩
      rintro rfl
      rw [Node.type, ht.root_kind] at hty
      simp [Kind.type] at hty
    · rintro ⟨l, hmem, hty, hkl⟩
      have hlm := (ht.above_iff hm).2 (Or.inr hmem)
      have hl := hlm.has hm
      exact ⟨l, hlm, (ht.not_isInline_iff hl).2 hty, (ht.isBelow_iff hk hl).1 hkl⟩

end Mirrors

end SparseLayout
