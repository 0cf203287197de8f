import SparseLayout.Proofs.Reference.Forget
import SparseLayout.Proofs.Store.Frame

namespace SparseLayout

open Layout (Node Above)
open Layout.Node (around number)
open StoreM (Ends never)

variable {t : Layout} {g g' : Contents} {D : Set Position} {k m n p : Node} {c d : Coords}

namespace Layout

/-- The node whose cell a deactivation empties: of a list, the one around it. -/
def emptied (t : Layout) (n : Node) : Node := if n.type = .dynamic then t.outer n else n

/-- Cells of `m`, or its list, in the cell of `p` at `d` lie in what is released of `n` with the
cell at `c`. -/
def Released (t : Layout) (n : Node) (c : Coords) (m p : Node) (d : Coords) : Prop :=
  t.Above n m ∧ around p (t.emptied n) d = around n (t.emptied n) c

theorem emptied_of_dynamic (h : n.type = .dynamic) : t.emptied n = t.outer n := if_pos h

theorem emptied_of_ne (h : n.type ≠ .dynamic) : t.emptied n = n := if_neg h

/-- No sparse node lies in a bit container. -/
theorem WellFormed.not_isWord_outer (ht : t.WellFormed) (hn : t.Has n)
    (hs : n.type.isSparse = true) : ¬ (t.outer n).isWord := by
  obtain ⟨hp, hnp⟩ := ht.child_outer hn (Node.kind_ne_root_of_sparse hs)
  refine ht.not_isWord_of_child hp hnp ?_
  intro info hk
  rw [Node.not_sparse_of_place hk] at hs
  cases hs

/-- What a deactivation takes out of use, by the kind of the node. -/
theorem WellFormed.lost_eq (ht : t.WellFormed) (hn : t.Has n) (hs : n.type.isSparse = true)
    (k : Nat) (q : Position) : n.lost k q =
      if n.type = .dynamic then q.Inside n else Position.From ((n, k) :: q) := by
  unfold Node.lost Node.type
  cases ht.level hn with
  | dynamic hk hc => simp [hk, hc, Kind.type]
  | pointer hk hc | bitmasked hk hc => simp [hk, hc, Kind.type]
  | root hk _ | dense hk _ | bitStruct hk _ | bitArray hk _ | place hk _ =>
    rw [Node.type, hk] at hs
    cases hs

section

variable (ht : t.WellFormed) (hs : n.type.isSparse = true) (hc : t.HasCell n c)

include ht hs hc

/-- The cell that a deactivation empties. -/
theorem WellFormed.place_emptied : t.place (t.emptied n) (around n (t.emptied n) c) (t.emptied n) =
    if n.type = .dynamic then t.place n c (t.outer n) else t.place n c n := by
  obtain ⟨hp, hnp⟩ := ht.child_outer hc.has (Node.kind_ne_root_of_sparse hs)
  by_cases hd : n.type = .dynamic
  · rw [if_pos hd, emptied_of_dynamic hd]
    exact (Above.refl _).place_around ht.toCharted (.child hp hnp) hc.has hc.addressable c
  · rw [if_neg hd, emptied_of_ne hd, ht.around_self hc.has]

/-- A list is released as a whole, in the cell around it; of any other node, one cell is. -/
theorem WellFormed.lost_cases :
    (n.type = .dynamic ∧ t.emptied n = t.outer n ∧
      n.lost (number n n c) (t.place n c (t.outer n)) =
        (t.place (t.outer n) (around n (t.outer n) c) (t.outer n)).Inside n) ∨
    (n.type ≠ .dynamic ∧ t.emptied n = n ∧
      n.lost (number n n c) (t.place n c (t.outer n)) = Position.From (t.place n c n)) := by
  obtain ⟨hp, hnp⟩ := ht.child_outer hc.has (Node.kind_ne_root_of_sparse hs)
  have hplace := ht.place_emptied hs hc
  rw [ht.lost_eq hc.has hs, ← ht.place_child n c hp hnp]
  by_cases hdyn : n.type = .dynamic
  · rw [if_pos hdyn, emptied_of_dynamic hdyn] at hplace
    rw [if_pos hdyn, hplace]
    exact Or.inl ⟨hdyn, emptied_of_dynamic hdyn, rfl⟩
  · rw [if_neg hdyn]
    exact Or.inr ⟨hdyn, emptied_of_ne hdyn, rfl⟩

theorem WellFormed.mem_lost_iff (hd : t.HasCell m d) :
    t.place m d m ∈ n.lost (number n n c) (t.place n c (t.outer n)) ↔ t.Released n c m m d := by
  obtain ⟨hp, hnp⟩ := ht.child_outer hc.has (Node.kind_ne_root_of_sparse hs)
  rcases ht.lost_cases hs hc with ⟨hdyn, hem, hlost⟩ | ⟨hdyn, hem, hlost⟩
  · rw [Released, hem, hlost]
    exact ht.container_suffix_iff hp hnp (ht.not_isWord_outer hc.has hs)
      (hc.around ht (.child hp hnp)).inside hd.has hd.addressable hd.inside
  · rw [Released, hem, hlost, ht.around_self hc.has]
    exact ht.place_suffix_iff hc.has (ht.not_isWord_of_sparse hc.has hs) hc.inside hd.has
      hd.addressable hd.inside

theorem WellFormed.mem_lost_list_iff (hm : t.Has m) (hmd : m.type = .dynamic)
    (hd : t.HasCell (t.outer m) d) : (m, 0) :: t.place (t.outer m) d (t.outer m) ∈
      n.lost (number n n c) (t.place n c (t.outer n)) ↔ t.Released n c m (t.outer m) d := by
  obtain ⟨hp, hnp⟩ := ht.child_outer hc.has (Node.kind_ne_root_of_sparse hs)
  obtain ⟨hq, hmq⟩ := ht.child_outer hm (Node.kind_ne_root_of_sparse (by rw [hmd]; rfl))
  rcases ht.lost_cases hs hc with ⟨hdyn, hem, hlost⟩ | ⟨hdyn, hem, hlost⟩
  · rw [Released, hem, hlost]
    exact ht.list_container_iff hp hnp (ht.not_isWord_outer hc.has hs)
      (hc.around ht (.child hp hnp)).inside hq hmq hd.addressable hd.inside
  · rw [Released, hem, hlost, ht.around_self hc.has]
    refine ht.list_suffix_iff hc.has (ht.not_isWord_of_sparse hc.has hs) hc.inside hq hmq
      hd.addressable hd.inside ?_
    rintro rfl
    exact hdyn hmd

end

end Layout

namespace Store

/-- A block of `m` is held below the slot of a container of `n`: by that container, or by one in an
active cell of it. -/
inductive Hangs (s : Store) (t : Layout) (m : Node) (b : Address) : Node → Address → Prop
  | held {slot : Address} {blocks : List Address} (h : s.Holds m slot blocks) (hb : b ∈ blocks) :
    Hangs s t m b m slot
  | inner {n l : Node} {slot cell : Address} {cells : List Address}
    (hcells : s.activeCells n slot = .ok cells) (hcell : cell ∈ cells) (hl : l ∈ t.childNodes n)
    (h : Hangs s t m b l (cell.add l.offset)) : Hangs s t m b n slot

/-- The block of `m` at `b` is reached through what is released of `n` with the cell at `c`. -/
def Freed (s : Store) (t : Layout) (n : Node) (c : Coords) (m : Node) (b : Address) : Prop :=
  ∃ a, s.address t (t.emptied n) (around n (t.emptied n) c) = .ok a ∧
    if n.type = .dynamic then s.Hangs t m b n (a.add n.offset)
    else n.type = .pointer ∧ m = n ∧ b = a ∨ ∃ l ∈ t.childNodes n, s.Hangs t m b l (a.add l.offset)

variable {s s' : Store} {q x : Position} {slot a b : Address} {j : Nat}

namespace Represents

section

variable (ht : t.WellFormed) (h : s.Represents t g)

include ht h

theorem exists_region_of_hangs (hh : s.Hangs t m b n slot) (hq : g.Active t q)
    (hn : n ∈ t.childNodes (t.nodeAt q)) (hslot : slot.toNat = g.cellStart q + n.offset.toNat) :
    ∃ r ∈ regionsOf g.base m, r.In (q.Inside n) ∧ g.base r = some b := by
  -- by induction on the levels down to the block; each goes on in an active cell
  induction hh generalizing q with
  | @held slot blocks hheld hb =>
    obtain ⟨as, rs, has, -, hl⟩ := h.holds ht hq hn hslot hheld.blockBytes
    obtain ⟨r, hr, hbase⟩ := hl.mem (hheld.unique has ▸ hb)
    obtain ⟨hsome, hhome⟩ := (hl.mem_iff r).1 hr
    have hhome : r.home? = some (q, m) := hhome
    have ho : r.owner? = some m := by
      rw [Region.owner_eq, hhome]
      rfl
    obtain ⟨q', i, hhome', -, hin⟩ := h.exists_key hsome ho
    rw [hhome] at hhome'
    cases hhome'
    exact ⟨r, ⟨hsome, ho⟩, (hin _).2 ⟨i, List.suffix_rfl⟩, hbase⟩
  | @inner n l slot cell cells hcells hcell hl _ ih =>
    obtain ⟨ks, -, hks, -⟩ := h.enumerates_of_activeCells ht hq hn hslot hcells
    obtain ⟨i, hi, rfl⟩ := List.getElem_of_mem hcell
    obtain ⟨hact, hstart⟩ := (List.forall₂_iff_get.1 hks).2 i hi (hks.length_eq ▸ hi)
    obtain ⟨r, hr, hin, hbase⟩ := ih hact hl (h.toNat_slot ht hact hl hstart)
    refine ⟨r, hr, ?_, hbase⟩
    obtain ⟨q', j, -, -, hiff⟩ := h.exists_key hr.1 hr.2
    obtain ⟨e, he⟩ := (hiff _).1 hin
    exact (hiff _).2 ⟨_, (List.suffix_cons _ _).trans he⟩

/-- A block in use is reached from every container around it. -/
theorem hangs_of_region {r : Region} (hr : r ∈ regionsOf g.base m) (hbase : g.base r = some b)
    (hin : r.In (q.Inside n)) (hslot : slot.toNat = g.cellStart q + n.offset.toNat) :
    s.Hangs t m b n slot := by
  obtain ⟨q', i, hhome, hkey, hiff⟩ := h.exists_key hr.1 hr.2
  obtain ⟨j, pre, hpre⟩ := (hiff _).1 hin
  clear hin hiff
  -- by induction on the levels in between, from the container down
  induction pre using List.reverseRecOn generalizing n j q slot with
  | nil =>
    cases hpre
    obtain ⟨hq, hm⟩ := h.sound.active_of_keyed hkey
    obtain ⟨as, rs, has, -, hl⟩ := h.holds ht hq hm hslot (h.blockBytes_of_owner hr.1 hr.2)
    have hmem : r ∈ rs := (hl.mem_iff r).2 ⟨hr.1, hhome⟩
    exact .held has (hl.mem_address hmem hbase)
  | append_singleton pre z ih =>
    obtain ⟨l, e⟩ := z
    rw [List.append_assoc] at hpre
    have hle : (l, e) :: (n, j) :: q <:+ (m, i) :: q' := ⟨pre, hpre⟩
    have hlj : (n, j) :: q <:+ (m, i) :: q' := (List.suffix_cons _ _).trans hle
    have hact : g.Active t ((n, j) :: q) := h.sound.active_around hkey hle
    have hl := ((h.sound.locates_of_keyed hkey).suffix hle).2.1
    -- cells with a block below them take memory
    have hpos : 0 < n.cellSize.toNat := by
      have hloc := h.sound.locates_of_keyed hkey
      have hlm : t.Above l m := (hloc.above_iff ht).2 ⟨_, hle, rfl⟩
      have hm := ht.has_child hloc.2.1
      have hn := hloc.suffix hlj
      have hsp := ht.isSparse_of_blocks hm (h.blockBytes_of_owner hr.1 hr.2)
      have hb := hlm.bytes_pos ht hm (ht.kind_ne_root (ht.has_child hn.2.1) hl)
        (ht.bytes_pos_of_sparse hm hsp)
      exact Nat.lt_of_lt_of_le (Nat.lt_of_lt_of_le hb (Nat.le_add_left _ _))
        (ht.slot_le (ht.has_child hn.2.1) hl)
    obtain ⟨cells, hcells, ks, -, hks, hall⟩ := h.activeCells ht hact.1 hact.2.1 hslot
      fun hc => h.cells_le ht hact.1 hact.2.1 hc hpos
    have hmem := hall (h.sound.not_isWord_of_keyed ht hkey hlj) j hact
    obtain ⟨f, hf, rfl⟩ := List.getElem_of_mem hmem
    have hf' : f < cells.length := hks.length_eq ▸ hf
    have hstart := ((List.forall₂_iff_get.1 hks).2 f hf' hf).2
    exact .inner hcells (List.getElem_mem hf') hl
      (ih (h.toNat_slot ht hact hl hstart) _ hpre)

/-- The blocks below a container are those that are given up with its cells. -/
theorem hangs_iff (hq : g.Active t q) (hn : n ∈ t.childNodes (t.nodeAt q))
    (hslot : slot.toNat = g.cellStart q + n.offset.toNat) : s.Hangs t m b n slot ↔
      ∃ r ∈ regionsOf g.base m, r.In (q.Inside n) ∧ g.base r = some b := by
  constructor
  · exact fun hh => h.exists_region_of_hangs ht hh hq hn hslot
  · rintro ⟨r, hr, hin, hbase⟩
    exact h.hangs_of_region ht hr hbase hin hslot

omit ht in
theorem active_of_region_in {r : Region} (hr : r ∈ regionsOf g.base m) (hin : r.In (q.Inside n)) :
    g.Active t q := by
  obtain ⟨x, i, -, hkey, hiff⟩ := h.exists_key hr.1 hr.2
  obtain ⟨e, he⟩ := (hiff _).1 hin
  exact h.sound.active_around hkey he

omit ht in
theorem active_of_block (hb : g.base (.block ((n, j) :: q)) = some b) :
    n.container = .pointer ∧ g.Active t ((n, j) :: q) ∧ g.cellStart ((n, j) :: q) = b.toNat := by
  have hsome : (g.block ((n, j) :: q)).isSome := Option.isSome_of_eq_some hb
  obtain ⟨hq, hn, hj, hc⟩ := h.sound.block_on hsome
  refine ⟨hc, ⟨hq, hn, ?_, ?_⟩, ?_⟩
  · simpa [Node.Numbers, hc] using hj
  · simpa only [Contents.On, hc] using hsome
  · rw [Contents.cellStart, Layout.region_pointer hc, Contents.start_of_base hb]
    simp only [Position.offset, hc, Nat.add_zero]

omit ht in
/-- The regions that are given up with a cell: its own block, and those in its containers. -/
theorem region_in_from {r : Region} (hr : r ∈ regionsOf g.base m)
    (hc : ∀ axis c b, n.container ≠ .dynamic axis c b) :
    r.In (Position.From ((n, j) :: q)) ↔ r = .block ((n, j) :: q) ∨
      ∃ l ∈ t.childNodes n, r.In (Position.Inside ((n, j) :: q) l) := by
  obtain ⟨x, i, hhome, hkey, hiff⟩ := h.exists_key hr.1 hr.2
  constructor
  · intro hin
    obtain ⟨pre, hpre⟩ := (hiff _).1 hin
    rcases List.eq_nil_or_concat pre with rfl | ⟨pre, ⟨l, e⟩, rfl⟩
    · left
      cases hpre
      cases r with
      | root => cases hhome
      | block y => exact congrArg Region.block ((hiff {y}).1 rfl).symm
      | chunk p l e =>
        cases hhome
        obtain ⟨axis, cap, bytes, hdyn⟩ := h.sound.dynamic_of_chunk hr.1
        exact absurd hdyn (hc axis cap bytes)
    · right
      rw [List.concat_eq_append, List.append_assoc] at hpre
      have hle : (l, e) :: (n, j) :: q <:+ (m, i) :: x := ⟨pre, hpre⟩
      exact ⟨l, ((h.sound.locates_of_keyed hkey).suffix hle).2.1, (hiff _).2 ⟨e, hle⟩⟩
  · rintro (rfl | ⟨l, -, hin⟩)
    · exact List.suffix_rfl
    · obtain ⟨e, he⟩ := (hiff _).1 hin
      exact (hiff _).2 ((List.suffix_cons _ _).trans he)

/-- The blocks below an active cell, its own one among them, are those that are given up with it. -/
theorem hangs_cell_iff (hn : t.Has n)
    (hcon : ∀ axis cap bytes, n.container ≠ .dynamic axis cap bytes)
    (hx : g.Active t ((n, j) :: q)) (hstart : a.toNat = g.cellStart ((n, j) :: q)) :
    (n.type = .pointer ∧ m = n ∧ b = a ∨ ∃ l ∈ t.childNodes n, s.Hangs t m b l (a.add l.offset)) ↔
      ∃ r ∈ regionsOf g.base m, r.In (Position.From ((n, j) :: q)) ∧ g.base r = some b := by
  constructor
  · rintro (⟨hptr, rfl, rfl⟩ | ⟨l, hl, hh⟩)
    · have hblock : (g.block ((m, j) :: q)).isSome := by
        simpa only [Contents.On, (ht.pointer_iff hn).2 hptr] using hx.2.2.2
      obtain ⟨a', ha'⟩ := Option.isSome_iff_exists.1 hblock
      have hcell := (h.active_of_block ha').2.2
      rw [Address.ext_toNat (hstart.trans hcell)]
      exact ⟨.block ((m, j) :: q), ⟨hblock, rfl⟩, List.suffix_rfl, ha'⟩
    · obtain ⟨r, hr, hin, hb⟩ := (h.hangs_iff ht hx hl (h.toNat_slot ht hx hl hstart)).1 hh
      exact ⟨r, hr, (h.region_in_from hr hcon).2 (Or.inr ⟨l, hl, hin⟩), hb⟩
  · rintro ⟨r, hr, hin, hb⟩
    rcases (h.region_in_from hr hcon).1 hin with rfl | ⟨l, hl, hin⟩
    · obtain ⟨hptr, -, hcell⟩ := h.active_of_block hb
      obtain rfl : n = m := Option.some.inj hr.2
      have hba := Address.ext_toNat (hcell.symm.trans hstart.symm)
      exact Or.inl ⟨(ht.pointer_iff hn).1 hptr, rfl, hba⟩
    · exact Or.inr ⟨l, hl, (h.hangs_iff ht hx hl (h.toNat_slot ht hx hl hstart)).2 ⟨r, hr, hin, hb⟩⟩

/-- The blocks that are reached through the released part are those that are given up with it. -/
theorem freed_iff (hs : n.type.isSparse = true) (hc : t.HasCell n c) : s.Freed t n c m b ↔
    ∃ r ∈ regionsOf g.base m, r.In (n.lost (number n n c) (t.place n c (t.outer n))) ∧
      g.base r = some b := by
  obtain ⟨hp, hnp⟩ := ht.child_outer hc.has (Node.kind_ne_root_of_sparse hs)
  have hplace := ht.place_emptied hs hc
  have hnode := ht.nodeAt_place n c hp
  have hemptied : t.Has (t.emptied n) := by
    unfold Layout.emptied
    split
    · exact hp
    · exact hc.has
  rw [ht.place_child n c hp hnp] at hplace
  rw [ht.lost_eq hc.has hs]
  unfold Freed
  generalize t.place n c (t.outer n) = q at hplace hnode ⊢
  generalize number n n c = k at hplace ⊢
  -- nothing is reached, and nothing lost, where the emptied cell is not in use
  by_cases hdyn : n.type = .dynamic
  · simp only [if_pos hdyn] at hplace ⊢
    by_cases hq : g.Active t q
    · obtain ⟨a, ha, hstart⟩ := h.address_of_active ht (hplace.symm ▸ hq)
      rw [hplace] at hstart
      have hn' : n ∈ t.childNodes (t.nodeAt q) := hnode.symm ▸ hnp
      rw [← h.hangs_iff ht hq hn' (h.toNat_slot ht hq hn' hstart)]
      simp [ha]
    · rw [h.address_of_not_active ht hemptied (hplace.symm ▸ hq)]
      refine iff_of_false (by simp) ?_
      rintro ⟨r, hr, hin, -⟩
      exact hq (h.active_of_region_in hr hin)
  · have hcon (axis cap bytes) : n.container ≠ .dynamic axis cap bytes :=
      fun hcon => hdyn (ht.type_of_dynamic hc.has hcon)
    simp only [if_neg hdyn] at hplace ⊢
    by_cases hx : g.Active t ((n, k) :: q)
    · obtain ⟨a, ha, hstart⟩ := h.address_of_active ht (hplace.symm ▸ hx)
      rw [hplace] at hstart
      rw [← h.hangs_cell_iff ht hc.has hcon hx hstart]
      simp [ha]
    · rw [h.address_of_not_active ht hemptied (hplace.symm ▸ hx)]
      refine iff_of_false (by simp) ?_
      rintro ⟨r, hr, hin, hb⟩
      rcases (h.region_in_from hr hcon).1 hin with rfl | ⟨l, -, hin⟩
      · exact hx (h.active_of_block hb).2.1
      · exact hx (h.active_of_region_in hr hin)

/-- A deactivation that finds nothing in use changes nothing. -/
theorem deactivate_unchanged (hs : n.type.isSparse = true) (hc : t.HasCell n c)
    (hoff : ¬ g.Active t (t.place n c (t.outer n)) ∨
      n.type ≠ .dynamic ∧ ¬ g.Active t (t.place n c n)) :
    Ends (StoreM.deactivate t n c) s (fun _ s' => s' = s) never := by
  obtain ⟨hp, hnp⟩ := ht.child_outer hc.has (Node.kind_ne_root_of_sparse hs)
  have hl := ht.locates_place n c hp
  have hlookup := s.lookup_parentBranch ht hp hnp c
  have hnum := ht.numbers_number hc.has n c
  have hplace := ht.place_child n c hp hnp
  unfold StoreM.deactivate
  rw [hs]
  by_cases hq : g.Active t (t.place n c (t.outer n))
  · -- the cell is off in a container that is there
    obtain ⟨hdyn, hx⟩ := hoff.resolve_left (not_not.2 hq)
    obtain ⟨cell, hloc, hcell⟩ := h.locate_of_active ht hq
    have hn' : n ∈ t.childNodes (t.nodeAt (t.place n c (t.outer n))) := by
      rwa [ht.nodeAt_place n c hp]
    have hslot := h.toNat_slot ht hq hn' hcell
    have hon : ¬ g.On n (number n n c) (t.place n c (t.outer n)) :=
      fun hon => hx (hplace ▸ ⟨hq, hn', hnum, hon⟩)
    refine Ends.bind (StoreM.ends_look (hlookup.trans hloc) ?_)
    unfold StoreM.releaseOne
    rcases (ht.isSparse_iff hc.has).1 hs with hk | ⟨o, hk⟩ | ⟨axis, cap, bytes, hk⟩
    · simp only [number, Contents.On, Node.Numbers, hk] at hnum hon ⊢
      obtain ⟨b, hb, hv⟩ := h.loadEntry ht hq hn' hslot hk hnum
      have hnull := (h.isNull_iff (r := .block ((n, _) :: _)) hv).2 hon
      refine Ends.bind (StoreM.ends_look hb ?_)
      rw [hnull]
      exact StoreM.ends_pure rfl
    · simp only [number, Contents.On, Node.Numbers, hk] at hnum hon ⊢
      obtain ⟨w, hw, -, hbit⟩ := h.loadMask ht hq hn' hslot hk hnum
      refine Ends.bind (StoreM.ends_look hw ?_)
      rw [if_neg (not_not.2 (hbit.2 hon))]
      exact StoreM.ends_pure rfl
    · exact absurd (ht.type_of_dynamic hc.has hk) hdyn
  · -- the walk stops above the container
    exact Ends.bind (StoreM.ends_look (hlookup.trans (h.locate_of_not_active ht hl hq))
      (StoreM.ends_pure rfl))

end

end Represents

/-- What deactivating the cell of `n` at `c` does. -/
structure Deactivated (s s' : Store) (t : Layout) (n : Node) (c : Coords) : Prop where
  /-- Cells in the released part are inactive. -/
  inactive : ∀ {m d}, t.HasCell m d → t.Released n c m m d → s'.isActive t m d = .ok false
  kept : ∀ {m d}, t.HasCell m d → ¬ t.Released n c m m d → s.SameCell s' t m d
  /-- Lists in the released part are empty; the released list is one of them. -/
  emptied : ∀ {m d}, t.Has m → m.type = .dynamic → t.HasCell (t.outer m) d →
    t.Released n c m (t.outer m) d → s'.length t m d = .ok 0
  lengths : ∀ {m d}, t.Has m → m.type = .dynamic → t.HasCell (t.outer m) d →
    ¬ t.Released n c m (t.outer m) d → s'.length t m d = s.length t m d
  /-- Blocks that were reached through the released part are given back, and no others. -/
  live : ∀ {m}, t.Has m →
    (s.liveBlocks m.id : ℕ∞) = s'.liveBlocks m.id + {b | s.Freed t n c m b}.encard
  /-- Nothing happens where nothing is in use. -/
  unchanged : s.isActive t (t.outer n) (around n (t.outer n) c) = .ok false ∨
    n.type ≠ .dynamic ∧ s.isActive t n c = .ok false → s' = s

theorem run_deactivate {idx : List Int32} (hidx : n.resolve idx = .ok c)
    (h : StoreM.deactivate t n c s = .ok () s') :
    (⟨n, .deactivate idx⟩ : Call).run t s = .ok .done s' := by
  have hcoords : refuse (n.resolve idx) = .ok c := by
    rw [hidx]
    rfl
  apply Ends.eq_ok
  refine .bind (StoreM.ends_look rfl (.bind (StoreM.ends_look hcoords ?_)))
  exact .bind (.of_ok h ⟨rfl, rfl⟩)

namespace Represents

variable (ht : t.WellFormed) (h : s.Represents t g)

include ht h

/-- A deactivation succeeds, and nothing but the released part is lost. -/
theorem exists_deactivated (hs : n.type.isSparse = true) (hc : t.HasCell n c) :
    ∃ s', StoreM.deactivate t n c s = .ok () s' ∧ s.Deactivated s' t n c := by
  obtain ⟨hp, hnp⟩ := ht.child_outer hc.has (Node.kind_ne_root_of_sparse hs)
  obtain ⟨_, s', hrun, h'⟩ := (h.deactivate ht hp hnp hs c).exists_ok
  have hD := closed_lost n (number n n c) (t.place n c (t.outer n))
  have hloses := h.sound.loses_deactivate ht hc.has hs (number n n c) (t.place n c (t.outer n))
  refine ⟨s', hrun, ⟨?inactive, ?kept, ?emptied, ?lengths, ?live, ?unchanged⟩⟩
  case inactive =>
    intro m d hd hrel
    obtain ⟨j, hx, hmem⟩ := Node.exists_lost ((ht.mem_lost_iff hs hc hd).2 hrel)
    rw [h'.isActive_eq_false_iff ht hd.has]
    exact hloses.not_active ht h.sound h'.sound hD hx hs hmem
  case kept =>
    intro m d hd hrel
    exact h.sameCell_of_loses ht h' hloses hD hd.has (mt (ht.mem_lost_iff hs hc hd).1 hrel)
  case emptied =>
    intro m d hm hdyn hd hrel
    exact h'.length_eq_zero ht hm hdyn
      (hloses.length_eq_zero ((ht.mem_lost_list_iff hs hc hm hdyn hd).2 hrel))
  case lengths =>
    intro m d hm hdyn hd hrel
    exact h.length_eq ht h' hm fun _ =>
      hloses.length_eq (mt (ht.mem_lost_list_iff hs hc hm hdyn hd).1 hrel)
  case live =>
    intro m hm
    rw [h.live_of_loses h' hloses hm, ← h.encard_starts fun r hr => hr.1.1]
    congr 2
    ext b
    simp only [Set.mem_ofPred_eq, h.freed_iff ht hs hc, and_assoc]
  case unchanged =>
    -- where nothing was in use there is nothing to release
    intro hoff
    have hplace : t.place (t.outer n) (around n (t.outer n) c) (t.outer n) =
        t.place n c (t.outer n) :=
      (Above.refl _).place_around ht.toCharted (.child hp hnp) hc.has hc.addressable c
    have hends := h.deactivate_unchanged ht hs hc (hoff.imp
      (fun hq => hplace ▸ (h.isActive_eq_false_iff ht hp).1 hq)
      (And.imp_right (h.isActive_eq_false_iff ht hc.has).1))
    unfold Ends at hends
    rwa [hrun] at hends

end Represents

variable {s₀ : Store} {hist : List Call} {idx : List Int32}

/-- After any run, deactivating at an index expression succeeds, takes out of use what lies in the
addressed cell or list, gives the blocks there back, and changes nothing else. -/
theorem session_deactivate (h : t.Starts s₀) (hh : t.Calls hist)
    (hs : (s₀.session t hist).2 = s) (hn : t.Has n) (hsparse : n.type.isSparse = true)
    (hidx : n.resolve idx = .ok c) : ∃ s',
      (⟨n, .deactivate idx⟩ : Call).run t s = .ok .done s' ∧ s.Deactivated s' t n c := by
  have ht := h.wellFormed
  obtain ⟨rs, v, -, -, g, hg, -, -⟩ := h.shows.session ht hh
  rw [hs] at hg
  obtain ⟨s', hrun, hd⟩ := hg.exists_deactivated ht hsparse (.of_resolve ht hn hidx)
  exact ⟨s', run_deactivate hidx hrun, hd⟩

/-- One of two pointer cells is released with the member in it, and a list of three elements. -/
theorem session_deactivate_sample :
    let t := Sample.layout
    let hist : List Call := [⟨Sample.node 3, .write [1, 3] (.int 42)⟩,
      ⟨Sample.node 3, .write [0, 2] (.int 7)⟩, ⟨Sample.node 5, .write [2] (.int 1)⟩]
    let s := (Sample.store.session t hist).2
    (∃ s', (⟨Sample.node 1, .deactivate [1]⟩ : Call).run t s = .ok .done s' ∧
      s'.isActive t (Sample.node 3) Sample.cell = .ok false ∧
      ∃ d, (Sample.node 3).resolve [0, 2] = .ok d ∧ s'.read t (Sample.node 3) d = .ok (.int 7)) ∧
    ∃ s' c, (⟨Sample.node 4, .deactivate [4]⟩ : Call).run t s = .ok .done s' ∧
      t.rootNode.resolve [] = .ok c ∧ s.length t (Sample.node 4) c = .ok 3 ∧
        s'.length t (Sample.node 4) c = .ok 0 := by
  intro t hist s
  have ht := Sample.starts.wellFormed
  have hh : t.Calls hist := by
    unfold Layout.Calls
    decide +kernel
  constructor
  · have hat := eq_ok_get (r := (Sample.node 1).resolve [1]) (by decide +kernel)
    obtain ⟨s', hrun, hd⟩ := session_deactivate Sample.starts hh rfl
      (show t.Has (Sample.node 1) by decide +kernel) (by decide +kernel) hat
    have habove : t.Above (Sample.node 1) (Sample.node 3) :=
      .step (p := Sample.node 2) (by decide +kernel) (by decide +kernel)
        (.child (by decide +kernel) (by decide +kernel))
    have hcell : t.HasCell (Sample.node 3) Sample.cell :=
      .of_resolve ht (by decide +kernel) (eq_ok_get (r := (Sample.node 3).resolve [1, 3]) _)
    have hother := eq_ok_get (r := (Sample.node 3).resolve [0, 2]) (by decide +kernel)
    have hbelow := hd.inactive hcell ⟨habove, Layout.Coords.ext_toNat (by decide +kernel)⟩
    refine ⟨s', hrun, hbelow, _, hother, ?_⟩
    have hsame := hd.kept (.of_resolve ht (by decide +kernel) hother)
      fun hrel => absurd (congrArg (fun c : Coords => c.get 0) hrel.2) (by decide +kernel)
    rw [hsame.read]
    decide +kernel
  · have hat := eq_ok_get (r := (Sample.node 4).resolve [4]) (by decide +kernel)
    obtain ⟨s', hrun, hd⟩ := session_deactivate Sample.starts hh rfl
      (show t.Has (Sample.node 4) by decide +kernel) (by decide +kernel) hat
    have hroot := eq_ok_get (r := t.rootNode.resolve []) (by decide +kernel)
    refine ⟨s', _, hrun, hroot, by decide +kernel, ?_⟩
    have houter : t.outer (Sample.node 4) = t.rootNode := by decide +kernel
    refine hd.emptied (by decide +kernel) (by decide +kernel) ?_
      ⟨.refl _, Layout.Coords.ext_toNat (by decide +kernel)⟩
    rw [houter]
    exact .of_resolve ht ht.has_root hroot

end Store

end SparseLayout
