import SparseLayout.Proofs.Layout.WellFormed
import SparseLayout.Proofs.Memory
import SparseLayout.Store.Reach

/-!
Where cells lie. A cell is named by the way to it from the root, and lies at a fixed offset in a
region of memory of its own: the cell of the root, the block of a pointer cell, or a chunk of a
list. Two cells of one region lie apart unless one holds the other.
-/

namespace SparseLayout

/-- The way to a cell: on every level the node and the number of the cell in its container, the
last level first. -/
abbrev Position := List (Layout.Node × Nat)

/-- Memory that is handed out in one piece. -/
inductive Region
  | root
  /-- The block of a pointer cell. -/
  | block (p : Position)
  /-- A chunk of the list of `n` in a cell. -/
  | chunk (p : Position) (n : Layout.Node) (i : Nat)
  deriving DecidableEq

namespace Layout

namespace Node

/-- Numbers that cells of a container can have. -/
def Numbers (n : Node) (k : Nat) : Prop :=
  match n.container with
  | .dense | .bitmasked _ | .pointer => k < n.cells.toNat
  | .dynamic .. => True
  | .root | .bitStruct | .bitArray | .place => k = 0

/-- Elements of one chunk. -/
def capacity (n : Node) : Nat := n.chunkCapacity.toNat

end Node

/-- The node whose cell is at a position. -/
def nodeAt (t : Layout) : Position → Node
  | [] => t.rootNode
  | (n, _) :: _ => n

/-- The position follows the tree. -/
def Locates (t : Layout) : Position → Prop
  | [] => True
  | (n, k) :: p => t.Locates p ∧ n ∈ t.childNodes (t.nodeAt p) ∧ n.Numbers k

end Layout

namespace Position

/-- The region that a cell lies in. -/
def region : Position → Region
  | [] => .root
  | (n, k) :: p =>
    match n.container with
    | .pointer => .block ((n, k) :: p)
    | .dynamic .. => .chunk p n (k / n.capacity)
    | _ => region p

/-- Where a cell starts in its region. -/
def offset : Position → Nat
  | [] => 0
  | (n, k) :: p =>
    match n.container with
    | .pointer => 0
    | .dynamic .. => 8 + k % n.capacity * n.cellSize.toNat
    | _ => offset p + n.offset.toNat + k * n.cellSize.toNat

end Position

/-- Cells that lie in the region of the cell around them. -/
def Layout.Node.isInline (n : Layout.Node) : Prop :=
  match n.container with
  | .pointer | .dynamic .. => False
  | _ => True

namespace Layout

variable {t : Layout} {p q r : Position} {m n : Node} {k l : Nat}

theorem region_pointer (h : n.container = .pointer) :
    Position.region ((n, k) :: p) = .block ((n, k) :: p) := by
  simp only [Position.region, h]

theorem region_dynamic {axis : Axis} {c : UInt32} {b : UInt64}
    (h : n.container = .dynamic axis c b) :
    Position.region ((n, k) :: p) = .chunk p n (k / n.capacity) := by
  simp only [Position.region, h]

theorem region_inline (h : n.isInline) : Position.region ((n, k) :: p) = Position.region p := by
  unfold Node.isInline at h
  cases hc : n.container <;> simp_all [Position.region]

theorem offset_inline (h : n.isInline) :
    Position.offset ((n, k) :: p) = Position.offset p + n.offset.toNat + k * n.cellSize.toNat := by
  unfold Node.isInline at h
  cases hc : n.container <;> simp_all [Position.offset]

theorem offset_dynamic {axis : Axis} {c : UInt32} {b : UInt64}
    (h : n.container = .dynamic axis c b) :
    Position.offset ((n, k) :: p) = 8 + k % n.capacity * n.cellSize.toNat := by
  simp only [Position.offset, h]

/-- A cell starts a region of its own, lies in a chunk, or in the region around it. -/
theorem Node.kinds (n : Node) :
    n.container = .pointer ∨ (∃ axis c b, n.container = .dynamic axis c b) ∨ n.isInline := by
  unfold Node.isInline
  cases n.container <;> simp

theorem Locates.tail (h : t.Locates ((n, k) :: p)) : t.Locates p := h.1

theorem Locates.suffix (h : t.Locates p) (hs : q <:+ p) : t.Locates q := by
  induction p with
  | nil => rwa [List.suffix_nil.1 hs]
  | cons x p ih =>
    rcases List.suffix_cons_iff.1 hs with rfl | hs
    · exact h
    · exact ih h.1 hs

theorem Locates.has (ht : t.WellFormed) (h : t.Locates p) : t.Has (t.nodeAt p) := by
  cases p with
  | nil => exact ht.has_root
  | cons x p => exact ht.has_child h.2.1

theorem WellFormed.capacity_eq (ht : t.WellFormed) (hn : t.Has n) {axis : Axis} {c : UInt32}
    {b : UInt64} (h : n.container = .dynamic axis c b) : n.capacity = c.toNat ∧ 0 < c.toNat := by
  have hs := ht.sized hn
  simp only [Node.Sized, h] at hs
  refine ⟨?_, hs.2.1⟩
  simp only [Node.capacity, Node.chunkCapacity, h]
  have h1 : (max c 1) = c := by
    change (if c ≤ 1 then 1 else c) = c
    split
    · rename_i h1
      have h2 : c.toNat ≤ 1 := UInt32.le_iff_toNat_le.1 h1
      exact UInt32.toNat_inj.1 (Nat.le_antisymm hs.2.1 h2)
    · rfl
  rw [h1, UInt32.toNat_toUInt64]

theorem WellFormed.capacity_pos (ht : t.WellFormed) (hn : t.Has n) : 0 < n.capacity := by
  cases hc : n.container with
  | dynamic axis c b =>
    obtain ⟨h1, h2⟩ := ht.capacity_eq hn hc
    omega
  | _ => simp [Node.capacity, Node.chunkCapacity, hc]

/-- The cells of an inline container lie in it. -/
theorem WellFormed.cell_le (ht : t.WellFormed) (hn : t.Has n) (hi : n.isInline)
    (hk : n.Numbers k) (hr : n.kind ≠ .root) :
    k * n.cellSize.toNat + n.cellSize.toNat ≤ n.bytes.toNat := by
  have hs := ht.sized hn
  unfold Node.Sized at hs
  unfold Node.Numbers at hk
  unfold Node.isInline at hi
  have hmul {c : Nat} (h : k < c) :
      k * n.cellSize.toNat + n.cellSize.toNat ≤ c * n.cellSize.toNat := by
    rw [← Nat.succ_mul]
    exact Nat.mul_le_mul_right _ h
  cases hc : n.container with
  | root => exact absurd hc (ht.container_ne_root hn hr)
  | dense =>
    simp only [hc] at hs hk
    rw [hs]
    exact hmul hk
  | bitmasked maskOffset =>
    simp only [hc] at hs hk
    have := hmul hk
    omega
  | pointer => simp [hc] at hi
  | dynamic => simp [hc] at hi
  | bitStruct | bitArray | place =>
    simp only [hc] at hs hk
    simp [hk, hs]

/-- A block region starts at a position on the way to the cell. -/
theorem suffix_of_region_block {x : Position} (h : p.region = .block x) : x <:+ p := by
  induction p with
  | nil => cases h
  | cons y p ih =>
    obtain ⟨n, k⟩ := y
    rcases n.kinds with hc | ⟨axis, c, b, hc⟩ | hi
    · rw [region_pointer hc] at h
      cases h
      exact List.suffix_rfl
    · rw [region_dynamic hc] at h
      cases h
    · rw [region_inline hi] at h
      exact (ih h).trans (List.suffix_cons _ _)

/-- A chunk region holds an element on the way to the cell. -/
theorem suffix_of_region_chunk {x : Position} {i : Nat} (h : p.region = .chunk x n i) :
    ∃ k, (n, k) :: x <:+ p ∧ k / n.capacity = i ∧ ∃ axis c b, n.container = .dynamic axis c b := by
  induction p with
  | nil => cases h
  | cons y p ih =>
    obtain ⟨m, k⟩ := y
    rcases m.kinds with hc | ⟨axis, c, b, hc⟩ | hi
    · rw [region_pointer hc] at h
      cases h
    · rw [region_dynamic hc] at h
      cases h
      exact ⟨k, List.suffix_rfl, rfl, axis, c, b, hc⟩
    · rw [region_inline hi] at h
      obtain ⟨k, hs, hk, hd⟩ := ih h
      exact ⟨k, hs.trans (List.suffix_cons _ _), hk, hd⟩

/-- The last step to a cell in the region of a cell above it is inline. -/
theorem isInline_of_region_eq (hs : q <:+ p) (h : Position.region ((n, k) :: p) = q.region) :
    n.isInline ∧ p.region = q.region := by
  have hlen := hs.length_le
  rcases n.kinds with hc | ⟨axis, c, b, hc⟩ | hi
  · rw [region_pointer hc] at h
    have := (suffix_of_region_block h.symm).length_le
    simp only [List.length_cons] at this
    omega
  · rw [region_dynamic hc] at h
    obtain ⟨l, hl, -⟩ := suffix_of_region_chunk h.symm
    have := hl.length_le
    simp only [List.length_cons] at this
    omega
  · rw [region_inline hi] at h
    exact ⟨hi, h⟩

/-- Cells between two cells of one region lie in that region. -/
theorem region_eq_of_append (hs : q <:+ p) (h : Position.region (r ++ p) = q.region) :
    p.region = q.region := by
  induction r with
  | nil => exact h
  | cons x r ih =>
    exact ih (isInline_of_region_eq (n := x.1) (k := x.2) (hs.trans (List.suffix_append _ _)) h).2

/-- The bytes of a cell are among those of another one in its region. -/
def Within (t : Layout) (p q : Position) : Prop :=
  q.offset ≤ p.offset ∧
    p.offset + (t.nodeAt p).cellSize.toNat ≤ q.offset + (t.nodeAt q).cellSize.toNat

theorem Within.trans {p q r : Position} (h : t.Within p q) (h' : t.Within q r) :
    t.Within p r := ⟨Nat.le_trans h'.1 h.1, Nat.le_trans h.2 h'.2⟩

/-- The slot of a child's container in a cell. -/
theorem WellFormed.within_slot (ht : t.WellFormed) (hp : t.Locates ((n, k) :: p))
    (hi : n.isInline) :
    p.offset + n.offset.toNat ≤ Position.offset ((n, k) :: p) ∧
      Position.offset ((n, k) :: p) + n.cellSize.toNat ≤
        p.offset + n.offset.toNat + n.bytes.toNat := by
  have hm := hp.1.has ht
  have hc := ht.cell_le (ht.has_child hp.2.1) hi hp.2.2 (ht.kind_ne_root hm hp.2.1)
  rw [offset_inline hi]
  omega

theorem WellFormed.within_tail (ht : t.WellFormed) (hp : t.Locates ((n, k) :: p))
    (hi : n.isInline) : t.Within ((n, k) :: p) p := by
  have hs := ht.within_slot hp hi
  have hle := ht.slot_le (hp.1.has ht) hp.2.1
  unfold Within
  change _ ∧ _ + n.cellSize.toNat ≤ _
  omega

theorem WellFormed.within_append (ht : t.WellFormed) (hp : t.Locates (r ++ p))
    (h : Position.region (r ++ p) = p.region) : t.Within (r ++ p) p := by
  induction r with
  | nil => exact ⟨Nat.le_refl _, Nat.le_refl _⟩
  | cons x r ih =>
    obtain ⟨hi, hr⟩ := isInline_of_region_eq (n := x.1) (k := x.2) (List.suffix_append r p) h
    exact (ht.within_tail hp hi).trans (ih hp.tail hr)

/-- The bytes of two cells of one region have none in common. -/
def CellsApart (t : Layout) (p q : Position) : Prop :=
  Apart p.offset (t.nodeAt p).cellSize.toNat q.offset (t.nodeAt q).cellSize.toNat

/-- The cell at `p` lies in a cell of the container of `x.1` in the cell at `q`. -/
def Nested (t : Layout) (p q : Position) : Prop :=
  ∃ r x, p = r ++ x :: q ∧ x.1.isInline ∧ t.Within p (x :: q)

theorem WellFormed.nested_of_suffix (ht : t.WellFormed) (hp : t.Locates p) (hs : q <:+ p)
    (hne : p ≠ q) (h : p.region = q.region) : t.Nested p q := by
  obtain ⟨r, rfl⟩ := hs
  rcases List.eq_nil_or_concat r with rfl | ⟨r', x, rfl⟩
  · exact absurd rfl hne
  · rw [List.concat_append] at hp h ⊢
    have hx : Position.region (x :: q) = q.region :=
      region_eq_of_append (List.suffix_cons _ _) h
    have hi := (isInline_of_region_eq (n := x.1) (k := x.2) List.suffix_rfl hx).1
    exact ⟨r', x, rfl, hi, ht.within_append hp (h.trans hx.symm)⟩

/-- Different cells of one container that lie in one region lie apart. -/
theorem cellsApart_of_ne (hne : k ≠ l)
    (h : Position.region ((n, k) :: p) = Position.region ((n, l) :: p)) :
    t.CellsApart ((n, k) :: p) ((n, l) :: p) := by
  have hmul {a b : Nat} (hab : a ≠ b) :
      a * n.cellSize.toNat + n.cellSize.toNat ≤ b * n.cellSize.toNat ∨
        b * n.cellSize.toNat + n.cellSize.toNat ≤ a * n.cellSize.toNat := by
    rw [← Nat.succ_mul, ← Nat.succ_mul]
    rcases Nat.lt_or_gt_of_ne hab with hlt | hlt
    · exact Or.inl (Nat.mul_le_mul_right _ hlt)
    · exact Or.inr (Nat.mul_le_mul_right _ hlt)
  unfold CellsApart Apart
  simp only [nodeAt]
  rcases n.kinds with hc | ⟨axis, c, b, hc⟩ | hi
  · rw [region_pointer hc, region_pointer hc] at h
    cases h
    exact absurd rfl hne
  · rw [region_dynamic hc, region_dynamic hc] at h
    -- elements of one chunk have different numbers in it
    have hq : k / n.capacity = l / n.capacity := by
      simpa only [Region.chunk.injEq, true_and] using h
    have hmod : k % n.capacity ≠ l % n.capacity := by
      intro hm
      apply hne
      rw [← Nat.div_add_mod k n.capacity, ← Nat.div_add_mod l n.capacity, hq, hm]
    rw [offset_dynamic hc, offset_dynamic hc]
    have := hmul hmod
    omega
  · rw [offset_inline hi, offset_inline hi]
    have := hmul hne
    omega

/-- Two cells of one region lie apart unless one lies in a cell of a child of the other. -/
theorem WellFormed.apart_or_nested (ht : t.WellFormed) (hp : t.Locates p) (hq : t.Locates q)
    (h : p.region = q.region) :
    p = q ∨ t.CellsApart p q ∨ t.Nested p q ∨ t.Nested q p := by
  -- a cell of the region below `x` is `x` or nested in it
  have below {x : Position} (hs : x <:+ q) (hx : x.region = q.region) :
      x = q ∨ t.Nested q x := by
    by_cases he : q = x
    · exact Or.inl he.symm
    · exact Or.inr (ht.nested_of_suffix hq hs he hx.symm)
  -- cells of one container, the second of them around `q`
  have beside {n : Node} {k l : Nat} {p : Position} (hkl : k ≠ l)
      (hr : Position.region ((n, k) :: p) = Position.region ((n, l) :: p))
      (hw : t.Within q ((n, l) :: p)) : t.CellsApart ((n, k) :: p) q :=
    Apart.mono (cellsApart_of_ne hkl hr) (Nat.le_refl _) (Nat.le_refl _) hw.1 hw.2
  induction p with
  | nil =>
    rcases below (List.nil_suffix) h with he | hn
    · exact Or.inl he
    · exact Or.inr (Or.inr (Or.inr hn))
  | cons y p ih =>
    obtain ⟨n, k⟩ := y
    rcases n.kinds with hc | ⟨axis, c, b, hc⟩ | hi
    · have hs := suffix_of_region_block (region_pointer hc ▸ h).symm
      rcases below hs h with he | hn
      · exact Or.inl he
      · exact Or.inr (Or.inr (Or.inr hn))
    · have hreg := h
      rw [region_dynamic hc] at hreg
      obtain ⟨l, ⟨r, rfl⟩, hl, -⟩ := suffix_of_region_chunk hreg.symm
      have hrl : Position.region ((n, l) :: p) = Position.region (r ++ (n, l) :: p) := by
        rw [region_dynamic hc, hl, ← hreg]
      by_cases hkl : k = l
      · subst hkl
        rcases below (List.suffix_append _ _) h with he | hn
        · exact Or.inl he
        · exact Or.inr (Or.inr (Or.inr hn))
      · exact Or.inr (Or.inl (beside hkl (h.trans hrl.symm)
          (ht.within_append hq hrl.symm)))
    · rw [region_inline hi] at h
      have hw := ht.within_tail hp hi
      rcases ih hp.tail h with rfl | ha | ⟨r, x, rfl, hx, hn⟩ | ⟨r, x, rfl, hx, hn⟩
      · exact Or.inr (Or.inr (Or.inl ⟨[], (n, k), rfl, hi, Nat.le_refl _, Nat.le_refl _⟩))
      · exact Or.inr (Or.inl (Apart.mono ha hw.1 hw.2 (Nat.le_refl _) (Nat.le_refl _)))
      · exact Or.inr (Or.inr (Or.inl ⟨(n, k) :: r, x, rfl, hx, hw.trans hn⟩))
      · obtain ⟨m, l⟩ := x
        have hxl : t.Locates ((m, l) :: p) := hq.suffix (List.suffix_append _ _)
        have hrx : Position.region ((m, l) :: p) = Position.region p := region_inline hx
        by_cases hmn : m = n
        · subst hmn
          by_cases hkl : k = l
          · subst hkl
            rcases below (List.suffix_append _ _) (hrx.trans h) with he | hn
            · exact Or.inl he
            · exact Or.inr (Or.inr (Or.inr hn))
          · exact Or.inr (Or.inl (beside hkl (by rw [hrx, region_inline hi]) hn))
        · have hs := ht.slot_apart (hp.1.has ht) hp.2.1 hxl.2.1 (Ne.symm hmn)
          have h1 := ht.within_slot hp hi
          have h2 := ht.within_slot hxl hx
          have h3 := hn.1
          have h4 : Position.offset (r ++ (m, l) :: p) +
              (t.nodeAt (r ++ (m, l) :: p)).cellSize.toNat ≤
              Position.offset ((m, l) :: p) + m.cellSize.toNat := hn.2
          refine Or.inr (Or.inl ?_)
          unfold CellsApart Apart
          change _ + n.cellSize.toNat ≤ _ ∨ _
          omega

/-- Bytes of the blocks of a node. -/
def Node.blockSize (n : Node) : Nat := max (n.blockBytes?.getD 0) 8

/-- Bytes of a region. -/
def regionSize (t : Layout) : Region → Nat
  | .root => max t.rootNode.cellSize.toNat 8
  | .block p => (t.nodeAt p).blockSize
  | .chunk _ n _ => n.blockSize

/-- A cell lies in its region, in a chunk behind the link. -/
theorem WellFormed.offset_le_regionSize (ht : t.WellFormed) (hp : t.Locates p) :
    p.offset + (t.nodeAt p).cellSize.toNat ≤ t.regionSize p.region := by
  -- inline cells add their offset to that of the cell around, the others start a region
  induction p with
  | nil =>
    change 0 + t.rootNode.cellSize.toNat ≤ max _ _
    omega
  | cons x p ih =>
    obtain ⟨n, k⟩ := x
    rcases n.kinds with hc | ⟨axis, c, b, hc⟩ | hi
    · rw [region_pointer hc]
      simp only [Position.offset, hc, regionSize, nodeAt, Node.blockSize, Node.blockBytes?,
        Option.getD_some, Nat.zero_add]
      exact Nat.le_max_left _ _
    · rw [region_dynamic hc, offset_dynamic hc]
      have hn := ht.has_child hp.2.1
      obtain ⟨hcap, hpos⟩ := ht.capacity_eq hn hc
      have hs := ht.sized hn
      simp only [Node.Sized, hc] at hs
      have hmod : k % n.capacity < c.toNat := by
        rw [hcap]
        exact Nat.mod_lt _ hpos
      have hle : k % n.capacity * n.cellSize.toNat + n.cellSize.toNat ≤
          c.toNat * n.cellSize.toNat := by
        rw [← Nat.succ_mul]
        exact Nat.mul_le_mul_right _ hmod
      simp only [regionSize, nodeAt, Node.blockSize, Node.blockBytes?, hc, Option.getD_some]
      omega
    · rw [region_inline hi]
      have hw := ht.within_tail hp hi
      exact Nat.le_trans hw.2 (ih hp.1)

theorem link_le_offset {x : Position} {i : Nat} (h : p.region = .chunk x n i) :
    8 ≤ p.offset := by
  induction p with
  | nil => cases h
  | cons y p ih =>
    obtain ⟨m, k⟩ := y
    rcases m.kinds with hc | ⟨axis, c, b, hc⟩ | hi
    · rw [region_pointer hc] at h
      cases h
    · rw [offset_dynamic hc]
      omega
    · rw [region_inline hi] at h
      rw [offset_inline hi]
      have := ih h
      omega

end Layout

end SparseLayout
