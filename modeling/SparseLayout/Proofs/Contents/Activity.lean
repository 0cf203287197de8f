import SparseLayout.Proofs.Store.Perform

namespace SparseLayout

open Layout (Node)

variable {t : Layout} {v v' v'' : View} {p q x y : Position} {k l m n : Node} {i j : Nat}
  {D : Set Position}

namespace Layout

/-- The nodes of the cells around a cell are the nodes above its node. -/
theorem Locates.above_iff (ht : t.WellFormed) (hq : t.Locates q) :
    t.Above l (t.nodeAt q) ↔ ∃ x, x <:+ q ∧ t.nodeAt x = l := by
  induction q with
  | nil =>
    constructor
    · intro h
      rcases (ht.above_iff ht.has_root).1 h with rfl | h
      · exact ⟨[], List.suffix_rfl, rfl⟩
      · rw [ht.branch_root] at h
        cases h
    · rintro ⟨x, hx, rfl⟩
      rw [List.suffix_nil.1 hx]
      exact .refl _
  | cons y q ih =>
    obtain ⟨n, i⟩ := y
    obtain ⟨hq, hn, -⟩ := hq
    constructor
    · intro h
      cases h with
      | refl => exact ⟨(n, i) :: q, List.suffix_rfl, rfl⟩
      | step hp hnp h =>
        rw [ht.parent_unique hp (hq.has ht) hnp hn] at h
        obtain ⟨x, hx, hl⟩ := (ih hq).1 h
        exact ⟨x, hx.trans (List.suffix_cons _ _), hl⟩
    · rintro ⟨x, hx, rfl⟩
      rcases List.suffix_cons_iff.1 hx with rfl | hx
      · exact .refl _
      · exact .step (hq.has ht) hn ((ih hq).2 ⟨x, hx, rfl⟩)

/-- Around a cell there is one of every node above its node. -/
theorem Locates.exists_cell (ht : t.WellFormed) (hq : t.Locates q)
    (hl : t.Above l (t.nodeAt q)) (hroot : l ≠ t.rootNode) : ∃ j p, (l, j) :: p <:+ q := by
  obtain ⟨x, hx, hxl⟩ := (hq.above_iff ht).1 hl
  cases x with
  | nil => exact absurd hxl.symm hroot
  | cons y p =>
    obtain rfl : y.1 = l := hxl
    exact ⟨y.2, p, hx⟩

/-- A sparse node is not the root. -/
theorem WellFormed.not_sparse_root (ht : t.WellFormed) : t.rootNode.type.isSparse = false := by
  rw [Node.type, ht.root_kind]
  rfl

theorem WellFormed.ne_root_of_sparse (ht : t.WellFormed) (hs : l.type.isSparse = true) :
    l ≠ t.rootNode := by
  rintro rfl
  rw [ht.not_sparse_root] at hs
  cases hs

end Layout

/-- A region is given up with a cell of `D` that starts it or lies around the start of it. -/
theorem Closed.region_in (hD : Closed D) (hs : (l, j) :: p <:+ q) (hx : (l, j) :: p ∈ D)
    (hl : ¬ l.isInline) : q.region.In D := by
  induction q with
  | nil => cases List.suffix_nil.1 hs
  | cons y q ih =>
    obtain ⟨n, i⟩ := y
    have hq : (n, i) :: q ∈ D := hD.below hx hs
    rcases n.kinds with hc | ⟨axis, c, b, hc⟩ | hi
    · rw [Layout.region_pointer hc]
      exact hq
    · rw [Layout.region_dynamic hc]
      exact hD.list hc hq
    · rw [Layout.region_inline hi]
      rcases List.suffix_cons_iff.1 hs with he | hs
      · cases he
        exact absurd hi hl
      · exact ih hs

/-- A region that is given up starts with a cell of `D`. -/
theorem Closed.of_region_in (hD : Closed D) (h : q.region.In D) :
    ∃ l j p, (l, j) :: p <:+ q ∧ (l, j) :: p ∈ D ∧ ¬ l.isInline := by
  induction q with
  | nil => exact h.elim
  | cons y q ih =>
    obtain ⟨n, i⟩ := y
    rcases n.kinds with hc | ⟨axis, c, b, hc⟩ | hi
    · rw [Layout.region_pointer hc] at h
      exact ⟨n, i, q, List.suffix_rfl, h, by simp [Node.isInline, hc]⟩
    · rw [Layout.region_dynamic hc] at h
      exact ⟨n, i, q, List.suffix_rfl, hD.list hc h, by simp [Node.isInline, hc]⟩
    · rw [Layout.region_inline hi] at h
      obtain ⟨l, j, p, hs, hx⟩ := ih h
      exact ⟨l, j, p, hs.trans (List.suffix_cons _ _), hx⟩

/-- The region of a cell is given up with the cells of `D` around it that have their own memory. -/
theorem Closed.region_in_iff (hD : Closed D) :
    q.region.In D ↔ ∃ l j p, (l, j) :: p <:+ q ∧ (l, j) :: p ∈ D ∧ ¬ l.isInline := by
  refine ⟨hD.of_region_in, ?_⟩
  rintro ⟨l, j, p, hs, hx, hl⟩
  exact hD.region_in hs hx hl

theorem suffix_of_region_in (hD : Closed x.From) (h : q.region.In x.From) : x <:+ q := by
  obtain ⟨l, j, p, hs, hx, -⟩ := hD.of_region_in h
  exact List.IsSuffix.trans hx hs

/-- A block is given up with its cell. -/
theorem region_in_from_iff (hc : n.container = .pointer) :
    q.region.In (Position.From ((n, i) :: p)) ↔ (n, i) :: p <:+ q := by
  have hD : Closed (Position.From ((n, i) :: p)) := closed_from (by simp [hc])
  refine ⟨suffix_of_region_in hD, fun hs => ?_⟩
  exact hD.region_in hs List.suffix_rfl (by simp [Node.isInline, hc])

/-- The chunks of a list are given up together. -/
theorem region_in_inside_iff (hn : ¬ n.isInline) :
    q.region.In (p.Inside n) ↔ ∃ i, (n, i) :: p <:+ q := by
  rw [(closed_inside p n).region_in_iff]
  constructor
  · rintro ⟨l, j, y, hy, ⟨i, hi⟩, -⟩
    exact ⟨i, hi.trans hy⟩
  · rintro ⟨i, hi⟩
    exact ⟨n, i, p, hi, ⟨i, List.suffix_rfl⟩, hn⟩

namespace View

/-- Views in which at least as much is in use. -/
structure Le (v v' : View) : Prop where
  on : ∀ x, v.on x = true → v'.on x = true
  length : ∀ p n, v.length p n ≤ v'.length p n

theorem Le.refl (v : View) : v.Le v := ⟨fun _ h => h, fun _ _ => Nat.le_refl _⟩

theorem Le.trans (h : v.Le v') (h' : v'.Le v'') : v.Le v'' :=
  ⟨fun x hx => h'.on x (h.on x hx), fun p n => Nat.le_trans (h.length p n) (h'.length p n)⟩

theorem Active.locates (h : v.Active t p) : t.Locates p := by
  induction p with
  | nil => trivial
  | cons x p ih => exact ⟨ih h.1, h.2.1, h.2.2.1⟩

/-- A cell is in use where all levels on the way to it are. -/
theorem active_iff : v.Active t q ↔
    t.Locates q ∧ ∀ n i p, (n, i) :: p <:+ q → v.On n i p := by
  induction q with
  | nil => simp [Active, Layout.Locates]
  | cons y q ih =>
    obtain ⟨n, i⟩ := y
    constructor
    · rintro ⟨hq, hn, hi, ho⟩
      obtain ⟨hl, hall⟩ := ih.1 hq
      refine ⟨⟨hl, hn, hi⟩, ?_⟩
      intro m j p hs
      rcases List.suffix_cons_iff.1 hs with he | hs
      · cases he
        exact ho
      · exact hall m j p hs
    · rintro ⟨⟨hl, hn, hi⟩, hall⟩
      refine ⟨ih.2 ⟨hl, ?_⟩, hn, hi, hall n i q List.suffix_rfl⟩
      exact fun m j p hs => hall m j p (hs.trans (List.suffix_cons _ _))

theorem Le.on_of (h : v.Le v') (ho : v.On n i p) : v'.On n i p := by
  unfold On at *
  cases hc : n.container with
  | pointer | bitmasked _ =>
    simp only [hc] at ho ⊢
    exact h.on _ ho
  | dynamic axis c b =>
    simp only [hc] at ho ⊢
    exact Nat.lt_of_lt_of_le ho (h.length p n)
  | _ => trivial

theorem Le.active (h : v.Le v') (ha : v.Active t q) : v'.Active t q := by
  rw [active_iff] at *
  exact ⟨ha.1, fun n i p hs => h.on_of (ha.2 n i p hs)⟩

/-- Activity does not depend on words. -/
theorem active_congr (hon : v.on = v'.on) (hlen : v.length = v'.length) :
    v.Active t q ↔ v'.Active t q :=
  ⟨Le.active ⟨fun _ h => hon ▸ h, fun _ _ => hlen ▸ Nat.le_refl _⟩,
    Le.active ⟨fun _ h => hon ▸ h, fun _ _ => hlen ▸ Nat.le_refl _⟩⟩

theorem le_raise (v : View) (n : Node) (i : Nat) (p : Position) : v.Le (v.raise n i p) := by
  have update : v.Le { v with on := Function.update v.on ((n, i) :: p) true } := by
    refine ⟨?_, fun _ _ => Nat.le_refl _⟩
    intro x hx
    simp only [Function.update_apply]
    split
    · rfl
    · exact hx
  unfold raise
  cases n.container with
  | pointer | bitmasked _ => exact update
  | dynamic =>
    refine ⟨fun _ hx => hx, ?_⟩
    intro q m
    dsimp only
    split
    · exact Nat.le_max_left _ _
    · exact Nat.le_refl _
  | _ => exact .refl v

theorem on_raise (v : View) (n : Node) (i : Nat) (p : Position) : (v.raise n i p).On n i p := by
  unfold raise On
  cases n.container with
  | pointer | bitmasked _ => exact Function.update_self _ _ _
  | dynamic =>
    simp only [and_self, if_true]
    exact Nat.lt_of_lt_of_le (Nat.lt_succ_self i) (Nat.le_max_right _ _)
  | _ => trivial

theorem le_activate (v : View) (x : Position) : v.Le (v.activate x) := by
  induction x with
  | nil => exact .refl v
  | cons y x ih => exact ih.trans (le_raise _ _ _ _)

/-- A cell is in use once it was activated. -/
theorem active_activate (v : View) (h : t.Locates x) : (v.activate x).Active t x := by
  induction x with
  | nil => trivial
  | cons y x ih => exact ⟨(le_raise _ _ _ _).active (ih h.1), h.2.1, h.2.2, on_raise _ _ _ _⟩

theorem le_setLength {len : Nat} (h : v.length p n ≤ len) : v.Le (v.setLength p n len) := by
  refine ⟨fun _ hx => hx, ?_⟩
  intro q m
  simp only [setLength]
  split
  · rename_i he
    rw [he.1, he.2]
    exact h
  · exact Nat.le_refl _

theorem active_setWord {w : Nat} : (v.setWord p n w).Active t q ↔ v.Active t q :=
  active_congr rfl rfl

theorem active_wipe : (v.wipe x).Active t q ↔ v.Active t q := active_congr rfl rfl

theorem forget_le (v : View) (D : Set Position) : (v.forget D).Le v := by
  constructor
  · intro x hx
    simp only [forget] at hx
    split at hx
    · cases hx
    · exact hx
  · intro p n
    simp only [forget]
    split
    · exact Nat.zero_le _
    · exact Nat.le_refl _

/-- A cell that is lost lies in a cell of a sparse node that is forgotten. -/
theorem active_forget (ht : t.WellFormed) (hD : Closed D) :
    (v.forget D).Active t q ↔ v.Active t q ∧
      ∀ l j p, (l, j) :: p <:+ q → l.type.isSparse = true → (l, j) :: p ∉ D := by
  constructor
  · intro h
    refine ⟨(v.forget_le D).active h, ?_⟩
    intro l j p hs hsp hx
    have hl := h.locates.suffix hs
    have ho := (active_iff.1 h).2 l j p hs
    unfold On at ho
    rcases (ht.isSparse_iff (ht.has_child hl.2.1)).1 hsp with hc | ⟨m, hc⟩ | ⟨axis, c, b, hc⟩ <;>
      simp only [hc, forget] at ho
    · simp [hx] at ho
    · simp [hx] at ho
    · simp [hD.list hc hx] at ho
  · rintro ⟨h, hall⟩
    rw [active_iff] at h ⊢
    refine ⟨h.1, ?_⟩
    intro l j p hs
    have ho := h.2 l j p hs
    have hl := h.1.suffix hs
    have hx := hall l j p hs
    rw [ht.isSparse_iff (ht.has_child hl.2.1)] at hx
    unfold On at *
    cases hc : l.container with
    | pointer =>
      simp only [hc, forget] at ho ⊢
      rwa [if_neg (hx (Or.inl hc))]
    | bitmasked m =>
      simp only [hc, forget] at ho ⊢
      rwa [if_neg (hx (Or.inr (Or.inl ⟨m, hc⟩)))]
    | dynamic axis c b =>
      -- a list is forgotten as a whole: with one element all are
      have hx0 : (l, 0) :: p ∉ D := fun h0 =>
        hx (Or.inr (Or.inr ⟨axis, c, b, hc⟩)) (hD.list hc h0)
      simp only [hc, forget] at ho ⊢
      rwa [if_neg hx0]
    | _ => trivial

end View

/-- The cells of a node and all below them; of the root, all below it. -/
def Layout.Node.cellsBelow (k : Node) : Set Position :=
  if k.id = 0 then Position.Below [] else {y | ∃ i, (k, i) ∈ y}

theorem View.deactivateAll_eq (v : View) (k : Node) :
    v.deactivateAll k = v.forget k.cellsBelow := by
  unfold View.deactivateAll Node.cellsBelow
  split <;> rfl

/-- A cell other than the root is among those of a node and below where its node is. -/
theorem Layout.Locates.mem_cellsBelow (ht : t.WellFormed) (hk : t.Has k)
    (hq : t.Locates ((n, i) :: q)) : (n, i) :: q ∈ k.cellsBelow ↔ t.Above k n := by
  unfold Node.cellsBelow
  by_cases h0 : k.id = 0
  · have hroot := hk.eq_of_id ht.has_root (h0.trans ht.root_id.symm)
    rw [if_pos h0, hroot]
    exact iff_of_true ⟨List.nil_suffix, by simp⟩ (ht.above_root (ht.has_child hq.2.1))
  · rw [if_neg h0]
    constructor
    · rintro ⟨j, hj⟩
      obtain ⟨r, p, hrp⟩ := List.append_of_mem hj
      exact (hq.above_iff ht).2 ⟨(k, j) :: p, hrp ▸ List.suffix_append _ _, rfl⟩
    · intro h
      obtain ⟨j, p, hs⟩ := hq.exists_cell ht h fun he => h0 (he ▸ ht.root_id)
      exact ⟨j, hs.subset List.mem_cons_self⟩

theorem closed_cellsBelow (k : Node) :
    Closed k.cellsBelow := by
  unfold Node.cellsBelow
  split
  · exact closed_below []
  · constructor
    · rintro x y ⟨i, hi⟩ hs
      exact ⟨i, hs.subset hi⟩
    · rintro n j l p axis c b - ⟨i, hi⟩
      rcases List.mem_cons.1 hi with he | hi
      · cases he
        exact ⟨l, List.mem_cons_self⟩
      · exact ⟨i, List.mem_cons_of_mem _ hi⟩

/-- The memory of a cell is given up with the blocks and lists among the cells that are lost. -/
theorem Layout.Locates.region_in_cellsBelow (ht : t.WellFormed) (hk : t.Has k)
    (hq : t.Locates q) : q.region.In k.cellsBelow ↔
      ∃ l, t.Above l (t.nodeAt q) ∧ ¬ l.isInline ∧ t.Above k l := by
  rw [(closed_cellsBelow k).region_in_iff]
  constructor
  · rintro ⟨l, j, p, hs, hx, hi⟩
    exact ⟨l, (hq.above_iff ht).2 ⟨_, hs, rfl⟩, hi, ((hq.suffix hs).mem_cellsBelow ht hk).1 hx⟩
  · rintro ⟨l, hl, hi, hkl⟩
    have hsp := ht.sparse_of_not_isInline (hl.has (hq.has ht)) hi
    obtain ⟨j, p, hs⟩ := hq.exists_cell ht hl (ht.ne_root_of_sparse hsp)
    exact ⟨l, j, p, hs, ((hq.suffix hs).mem_cellsBelow ht hk).2 hkl, hi⟩

end SparseLayout
