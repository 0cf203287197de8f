import SparseLayout.Proofs.Contents.View
import SparseLayout.Proofs.Store.Release

namespace SparseLayout

open Layout (Node Datum Part)
open Layout.Node (addressSlot)
open StoreM (Ends never)

namespace Contents

variable {t : Layout} {g : Contents} {D : Set Position} {q x : Position} {f : Datum}

/-- A datum is zero where nothing that it tells of is in use. -/
theorem Sound.value_eq_zero_of_not_keyed (hs : g.Sound t) (hf : ∀ p n, f ≠ .part p n .word)
    (hy : ∀ y, f.Reads y → ¬ g.Keyed y) : g.value f = 0 := by
  rw [← forget_eq_self (D := {y | f.Reads y}) hs fun y hk hr => hy y hr hk]
  exact value_forget_eq_zero hf fun y hr => hr

theorem forget_wipe (g : Contents) (D : Set Position) (x : Position) :
    (g.wipe x).forget D = (g.forget D).wipe x := by
  unfold forget wipe
  congr 1
  ext p n
  by_cases hr : p.region.In D <;> by_cases hx : x <:+ p <;> simp [hr, hx]

theorem keyed_wipe_iff (g : Contents) (x y : Position) : (g.wipe x).Keyed y ↔ g.Keyed y := by
  cases y <;> exact Iff.rfl

/-- The cells below a bare cell that have memory lie in its region. -/
theorem Bare.region_eq (hs : g.Sound t) (hb : g.Bare x) (hx : x <:+ q)
    (hq : (g.base q.region).isSome) : q.region = x.region := by
  -- the region starts at a cell in use, which is not below `x`
  have start {z : Position} (hz : z <:+ q) (hr : q.region = z.region) (hzx : x <:+ z → z = x) :
      q.region = x.region := by
    rcases List.suffix_or_suffix_of_suffix hx hz with h | h
    · rw [hr, hzx h]
    · obtain ⟨r, rfl⟩ := hx
      rw [hr, Layout.region_eq_of_append h hr]
  rcases keyed_of_base hs hq with hr | ⟨z, hr, hz⟩ | ⟨u, n, i, hr, hz⟩
  · exact start List.nil_suffix hr fun h => (List.suffix_nil.1 h).symm
  · refine start (Layout.suffix_of_region_block hr) ?_ fun h => hb.eq_of_keyed hz h
    cases z with
    | nil => exact hz.elim
    | cons y z =>
      have hblock : (g.block (y :: z)).isSome := by
        rw [hr] at hq
        exact hq
      rw [hr, Layout.region_pointer (hs.block_on hblock).2.2.2]
  · obtain ⟨k, hsuf, hk, axis, c, b, hc⟩ := Layout.suffix_of_region_chunk hr
    refine start hsuf ?_ fun h => hb.eq_of_keyed (hz k) h
    rw [hr, Layout.region_dynamic hc, hk]

/-- All data below a bare cell are zero once its bytes are cleared. -/
theorem Bare.value_wipe (hs : g.Sound t) (hb : g.Bare x) (hq : x <:+ q) (m : Node) (f : Part) :
    (g.wipe x).value (.part q m f) = 0 := by
  by_cases hf : f = .word
  · subst hf
    exact if_pos hq
  · apply (hs.wipe _).value_eq_zero_of_not_keyed
    · intro p n he
      cases he
      exact hf rfl
    · intro y hy hk
      rw [keyed_wipe_iff] at hk
      obtain ⟨j, rfl⟩ := Datum.exists_of_reads hy
      refine hb _ hk ⟨hq.trans (List.suffix_cons _ _), ?_⟩
      intro he
      have h1 := hq.length_le
      have h2 := congrArg List.length he
      simp only [Datum.position, List.length_cons] at h1 h2
      omega

end Contents

namespace Store.Represents

variable {s : Store} {t : Layout} {g : Contents} {p : Position} {n : Node} {k : Nat}
  {a slot : Address}

/-- A bitmasked cell lies in a segment: the mask is behind the cells. -/
theorem covers_masked (ht : t.WellFormed) (h : s.Represents t g) (hp : g.Active t ((n, k) :: p))
    {m : UInt64} (hc : n.container = .bitmasked m) :
    s.pool.Covers (g.cellStart ((n, k) :: p)) n.cellSize.toNat := by
  have hregion := h.covers_region (hp.base_isSome h.sound)
  obtain ⟨hp', hn, hk, -⟩ := hp
  have hi : n.isInline := by simp [Node.isInline, hc]
  have hslot := ht.slot_le (hp'.locates.has ht) hn
  have hle := ht.offset_le_regionSize hp'.locates
  have hs := ht.sized (ht.has_child hn)
  simp only [Node.Sized, hc] at hs
  simp only [Node.Numbers, hc] at hk
  have hmul : k * n.cellSize.toNat + n.cellSize.toNat ≤ n.cells.toNat * n.cellSize.toNat := by
    rw [← Nat.succ_mul]
    exact Nat.mul_le_mul_right _ hk
  rw [← Layout.region_inline (k := k) hi] at hle
  unfold Contents.cellStart
  rw [Layout.offset_inline hi]
  exact hregion.part (by omega) (by omega) (by omega) h.owns.valid

/-- A datum of a container in a bare cell lies in the bytes of the cell. -/
theorem datum_in_cell (ht : t.WellFormed) (h : s.Represents t g) {x q : Position} {m : Node}
    {f : Part} (hbare : g.Bare x) (hx : x <:+ q) (hf : g.HasDatum t (.part q m f)) :
    g.cellStart x ≤ g.datumStart (.part q m f) ∧ g.datumStart (.part q m f) +
      (Datum.part q m f).size ≤ g.cellStart x + (t.nodeAt x).cellSize.toNat := by
  have hreg : q.region = x.region := hbare.region_eq h.sound hx hf.2
  have hwithin : t.Within q x := by
    obtain ⟨r, rfl⟩ := hx
    exact ht.within_append hf.1.1 hreg
  have hpart := ht.part_within hf.1
  have hstart : g.start (Datum.part q m f).region = g.start x.region := by
    rw [← hreg]
    rfl
  have h1 := hwithin.1
  have h2 := hwithin.2
  unfold Contents.cellStart Contents.datumStart
  rw [hstart]
  omega

/-- A datum of no container in a cell lies apart from the cell. -/
theorem apart_cell (ht : t.WellFormed) (h : s.Represents t g) {x : Position} (hx : g.Active t x)
    (hw : ¬ (t.nodeAt x).isWord) {f : Datum} (hf : g.HasDatum t f)
    (hout : ∀ q m y, f = .part q m y → ¬ x <:+ q) :
    Apart (g.cellStart x) (t.nodeAt x).cellSize.toNat (g.datumStart f) f.size := by
  obtain ⟨b, hb⟩ := Option.isSome_iff_exists.1 (hx.base_isSome h.sound)
  obtain ⟨c, hfc, hfs⟩ := hf.start
  rw [Contents.cellStart, Contents.start_of_base hb, hfs]
  by_cases hr : x.region = f.region
  · have hap := ht.datum_apart_cell hx.locates hw hf.1 hr hout
    rw [hr, hfc, Option.some.injEq] at hb
    rw [hb]
    simp only [Apart] at hap ⊢
    omega
  · have hle := ht.offset_le_regionSize hx.locates
    have hfle := ht.datum_le_regionSize hf.1
    have hap := h.owns.apart (P := .region x.region) (Q := .region f.region) hb hfc
      (by simpa using hr)
    simp only [Piece.size, Apart] at hap ⊢
    omega

/-- The bytes of a bare bitmasked cell are cleared. -/
theorem wipe (ht : t.WellFormed) (h : s.Represents t g) (hp : g.Active t ((n, k) :: p))
    {m : UInt64} (hc : n.container = .bitmasked m) (hbare : g.Bare ((n, k) :: p))
    (ha : a.toNat = g.cellStart ((n, k) :: p)) :
    Ends (StoreM.zero a n.cellSize.toNat) s
      (fun _ s => s.Represents t (g.wipe ((n, k) :: p))) never := by
  have hcov : s.pool.Covers a.toNat n.cellSize.toNat := ha ▸ h.covers_masked ht hp hc
  refine StoreM.ends_zero (Pool.holds_of_covers hcov h.owns.valid) ?_
  refine h.withPool (s.pool.sameBounds_zero a _) (g.base_wipe _) (h.sound.wipe _) ?_
  intro f hf
  by_cases hin : ∃ q m x, f = .part q m x ∧ (n, k) :: p <:+ q
  · obtain ⟨q, m, x, rfl, hs⟩ := hin
    have hwithin := h.datum_in_cell ht hbare hs hf
    simp only [Layout.nodeAt] at hwithin
    rw [hbare.value_wipe h.sound hs]
    apply Pool.wordAt_eq_zero
    intro i h1 h2
    rw [Pool.byteAt_zero hcov h.owns.valid, if_pos (by omega)]
  · have hap := h.apart_cell ht hp (by simp [Layout.nodeAt, Node.isWord, hc]) hf
      fun q m x he hs => hin ⟨q, m, x, he, hs⟩
    rw [← ha] at hap
    rw [Pool.wordAt_zero_of_apart hcov h.owns.valid hap, h.value hf]
    cases f with
    | link q m i => rfl
    | part q m x =>
      cases x with
      | word => exact (if_neg fun hs => hin ⟨q, m, .word, rfl, hs⟩).symm
      | _ => rfl

section

variable (ht : t.WellFormed) (h : s.Represents t g) (hp : g.Active t p)
  (hn : n ∈ t.childNodes (t.nodeAt p)) (hslot : slot.toNat = g.cellStart p + n.offset.toNat)

include ht h hp hn hslot

/-- The bit of a bare bitmasked cell is cleared. -/
theorem clearBit {m : UInt64} (hc : n.container = .bitmasked m) {lin w : UInt64}
    (hk : lin.toNat < n.cells.toNat) (hbare : g.Bare ((n, lin.toNat) :: p))
    (hw : w.toNat = g.value (.part p n (.mask (lin.toNat / 64)))) :
    Ends (StoreM.put (maskWord slot m lin) 8 (w &&& ~~~maskBit lin)) s
      (fun _ s => s.Represents t (g.forget (Position.From ((n, lin.toNat) :: p)))) never := by
  have hset : {y : Position | ∃ k ∈ {k | k = lin.toNat}, (n, k) :: p <:+ y} =
      Position.From ((n, lin.toNat) :: p) := by
    ext y
    simp [Position.From]
  have hf := h.hasDatum_mask hp hn hc hk
  rw [← hset]
  refine h.clearBits ht hp hn hslot hc hf.1.2.2.2 ?_ ?_ ?_
  · rintro k rfl
    rfl
  · rintro k rfl
    exact hbare
  · intro i
    have hdiv : lin.toNat / 64 * 64 + lin.toNat % 64 = lin.toNat := Nat.div_add_mod' _ _
    have hne : (lin.toNat / 64 * 64 + i.val = lin.toNat) ↔ lin.toNat % 64 = i.val := by omega
    rw [testBit_and_not_maskBit, hw, g.testBit_mask p n _ i.isLt, Set.mem_ofPred_eq, hne]
    by_cases hi : lin.toNat % 64 = i.val <;> simp [hi]

/-- A bitmasked cell is released, its bytes are cleared, and then its bit. -/
theorem releaseBitmasked {m : UInt64} (hc : n.container = .bitmasked m) {lin w : UInt64}
    (hk : lin.toNat < n.cells.toNat) (hon : g.On n lin.toNat p)
    (hw : w.toNat = g.value (.part p n (.mask (lin.toNat / 64)))) :
    Ends (do
      StoreM.releaseBelow t n (n.cellAt slot lin)
      StoreM.zero (n.cellAt slot lin) n.cellSize.toNat
      StoreM.put (maskWord slot m lin) 8 (w &&& ~~~maskBit lin)) s
      (fun _ s => s.Represents t
        ((g.forget (Position.From ((n, lin.toNat) :: p))).wipe ((n, lin.toNat) :: p))) never := by
  have hi : n.isInline := by simp [Node.isInline, hc]
  have hnum : n.Numbers lin.toNat := by simpa [Node.Numbers, hc] using hk
  have hx : g.Active t ((n, lin.toNat) :: p) := ⟨hp, hn, hnum, hon⟩
  have hcell := h.toNat_cellAt ht hp hn hslot hi hnum
  have hB := closed_below ((n, lin.toNat) :: p)
  have hxB : ((n, lin.toNat) :: p : Position) ∉ Position.Below ((n, lin.toNat) :: p) :=
    Position.not_mem_below
  have hpB : p ∉ Position.Below ((n, lin.toNat) :: p) :=
    fun hpb => p.not_mem_inside n ⟨lin.toNat, hpb.1⟩
  refine Ends.bind ((StoreM.releaseBelow_releases ht n h hx rfl hcell).imp ?_)
  intro _ s₁ h₁
  have hx₁ := hx.forget hB hxB
  have hbare₁ : (g.forget (Position.Below ((n, lin.toNat) :: p))).Bare ((n, lin.toNat) :: p) :=
    fun y hy hyx => h.sound.not_keyed_of_forget hB hy hyx
  refine Ends.bind ((h₁.wipe ht hx₁ hc hbare₁
    (by rw [Contents.cellStart_forget g hB hxB, hcell])).imp ?_)
  intro _ s₂ h₂
  -- the cell around and the mask are as they were
  have hp₂ : ((g.forget (Position.Below ((n, lin.toNat) :: p))).wipe
      ((n, lin.toNat) :: p)).Active t p :=
    (hp.forget hB hpB).mono fun _ _ _ _ ho => ho
  have hslot₂ : slot.toNat = ((g.forget (Position.Below ((n, lin.toNat) :: p))).wipe
      ((n, lin.toNat) :: p)).cellStart p + n.offset.toNat := by
    unfold Contents.cellStart Contents.start
    rw [Contents.base_wipe]
    change _ = (g.forget _).cellStart p + _
    rw [Contents.cellStart_forget g hB hpB, hslot]
  have hmask (j : Nat) : ((g.forget (Position.Below ((n, lin.toNat) :: p))).wipe
      ((n, lin.toNat) :: p)).mask ((n, j) :: p) = g.mask ((n, j) :: p) :=
    if_neg Position.not_mem_below
  rw [← Contents.forget_forget_of_subset g (Position.below_subset_from _), ← Contents.forget_wipe]
  refine h₂.clearBit ht hp₂ hn hslot₂ hc hk ?_ ?_
  · intro y hy hyx
    rw [Contents.keyed_wipe_iff] at hy
    exact hbare₁ y hy hyx
  · simp only [Contents.value, hmask]
    exact hw

end

end Store.Represents

end SparseLayout
