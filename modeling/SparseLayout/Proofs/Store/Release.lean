import SparseLayout.Proofs.Store.Detach

namespace SparseLayout

open Layout (Node Datum Part)
open Layout.Node (addressSlot)
open StoreM (Ends never)

/-- What is in one of the first sets. -/
def upTo (E : Nat → Set Position) (i : Nat) : Set Position := {y | ∃ k < i, y ∈ E k}

theorem upTo_zero (E : Nat → Set Position) : upTo E 0 = ∅ := by
  ext y
  simp [upTo]

theorem upTo_succ (E : Nat → Set Position) (i : Nat) : upTo E (i + 1) = upTo E i ∪ E i := by
  ext y
  simp only [upTo, Set.mem_ofPred_eq, Set.mem_union]
  constructor
  · rintro ⟨k, hk, hy⟩
    rcases Nat.lt_succ_iff_lt_or_eq.1 hk with hlt | rfl
    · exact Or.inl ⟨k, hlt, hy⟩
    · exact Or.inr hy
  · rintro (⟨k, hk, hy⟩ | hy)
    · exact ⟨k, Nat.lt_succ_of_lt hk, hy⟩
    · exact ⟨i, Nat.lt_succ_self i, hy⟩

theorem closed_upTo {E : Nat → Set Position} (h : ∀ k, Closed (E k)) (i : Nat) :
    Closed (upTo E i) := by
  constructor
  · rintro x y ⟨k, hk, hx⟩ hxy
    exact ⟨k, hk, (h k).below hx hxy⟩
  · rintro n j l p axis c b hc ⟨k, hk, hx⟩
    exact ⟨k, hk, (h k).list hc hx⟩

namespace Layout

variable {t : Layout} {n c : Node} {x r : Position} {k : Nat}

/-- A sparse node below a node is one below every node between them. -/
theorem WellFormed.sparseBelow_of_append (ht : t.WellFormed) (hl : t.Locates (r ++ (c, k) :: x))
    (hs : (t.nodeAt (r ++ (c, k) :: x)).sparseBelow = true) : c.sparseBelow = true := by
  induction r with
  | nil => exact hs
  | cons y r ih =>
    have hhas := hl.1.has ht
    exact ih hl.1 ((ht.sparseBelow_iff hhas).2 (Or.inr ⟨y.1, hl.2.1, hs⟩))

end Layout

namespace Contents

variable {t : Layout} {g : Contents} {D : Set Position} {p x y : Position} {n : Node} {k : Nat}

theorem Sound.sparse_of_keyed (ht : t.WellFormed) (hs : g.Sound t) (hk : g.Keyed ((n, k) :: p)) :
    n.type.isSparse = true := by
  have hn := ht.has_child (hs.active_of_keyed hk).2
  rw [ht.isSparse_iff hn]
  rcases hk with hk | hk | hk
  · exact Or.inr (Or.inl (hs.mask_on hk).2.2.2)
  · exact Or.inl (hs.block_on hk).2.2.2
  · exact Or.inr (Or.inr (hs.chunks_on hk).2.2)

theorem Sound.sparseBelow_of_keyed (ht : t.WellFormed) (hs : g.Sound t) (hk : g.Keyed y)
    (hx : (n, k) :: p <:+ y) : n.sparseBelow = true := by
  have hl := hs.locates_of_keyed hk
  obtain ⟨r, rfl⟩ := hx
  refine ht.sparseBelow_of_append hl ?_
  rw [ht.sparseBelow_iff (hl.has ht)]
  left
  cases r with
  | nil => exact hs.sparse_of_keyed ht hk
  | cons z r => exact hs.sparse_of_keyed ht hk

/-- What is in use at or below a cell puts the cell to use. -/
theorem Sound.on_of_keyed (hs : g.Sound t) (hk : g.Keyed y) (hx : (n, k) :: p <:+ y)
    (hn : ∀ axis c b, n.container ≠ .dynamic axis c b) : g.On n k p := by
  cases y with
  | nil => exact hk.elim
  | cons z q =>
    rcases List.suffix_cons_iff.1 hx with he | hx
    · cases he
      unfold On
      rcases hk with hk | hk | hk
      · obtain ⟨-, -, -, m, hc⟩ := hs.mask_on hk
        simpa [hc] using hk
      · obtain ⟨-, -, -, hc⟩ := hs.block_on hk
        simpa [hc] using hk
      · obtain ⟨-, -, axis, c, b, hc⟩ := hs.chunks_on hk
        exact absurd hc (hn axis c b)
    · exact ((hs.active_of_keyed hk).1.suffix hx).2.2.2

/-- What is in use below a cell puts the cell to use. -/
theorem Sound.active_of_below (hs : g.Sound t) (hk : g.Keyed y) (hx : y ∈ x.Below) :
    g.Active t x := by
  cases y with
  | nil => exact hk.elim
  | cons z q =>
    rcases List.suffix_cons_iff.1 hx.1 with he | hx
    · exact absurd he.symm hx.2
    · exact (hs.active_of_keyed hk).1.suffix hx

/-- Cells above one where something is in use lie side by side or in blocks. -/
theorem Sound.not_isWord_of_keyed (ht : t.WellFormed) (hs : g.Sound t) (hk : g.Keyed y)
    (hx : x <:+ y) : ¬ (t.nodeAt x).isWord := by
  intro hw
  have hl := hs.locates_of_keyed hk
  obtain ⟨r, rfl⟩ := hx
  have hword := ht.isWord_below (r := r) hl hw
  have hsparse : (t.nodeAt (r ++ x)).type.isSparse = true := by
    cases hrx : r ++ x with
    | nil =>
      rw [hrx] at hk
      exact hk.elim
    | cons z y =>
      rw [hrx] at hk
      exact hs.sparse_of_keyed ht hk
  rw [ht.isSparse_iff (hl.has ht)] at hsparse
  unfold Node.isWord at hword
  rcases hsparse with hc | ⟨m, hc⟩ | ⟨axis, c, b, hc⟩ <;> simp [hc] at hword

/-- The cell around a cell with something in use at or below it is active. -/
theorem Sound.active_around (hs : g.Sound t) (hk : g.Keyed y) (hx : (n, k) :: p <:+ y) :
    g.Active t p := by
  cases y with
  | nil => exact hk.elim
  | cons z y =>
    refine (hs.active_of_keyed hk).1.suffix ?_
    rcases List.suffix_cons_iff.1 hx with he | hx
    · cases he
      exact List.suffix_rfl
    · exact (List.suffix_cons _ _).trans hx

theorem Sound.not_keyed_of_forget (hs : g.Sound t) (hD : Closed D) (hk : (g.forget D).Keyed y) :
    y ∉ D := by
  cases y with
  | nil => exact hk.elim
  | cons z q =>
    obtain ⟨n, k⟩ := z
    intro hy
    rcases hk with hk | hk | hk
    · rw [show (g.forget D).mask ((n, k) :: q) = false from if_pos hy] at hk
      cases hk
    · rw [show (g.forget D).block ((n, k) :: q) = none from if_pos hy] at hk
      cases hk
    · by_cases hz : (n, 0) :: q ∈ D
      · exact hk (if_pos hz)
      · rw [show (g.forget D).chunks q n = g.chunks q n from if_neg hz] at hk
        obtain ⟨-, -, axis, c, b, hc⟩ := hs.chunks_on hk
        exact hz (hD.list hc hy)

/-- What was forgotten already makes no difference. -/
theorem forget_forget_of_subset {E : Set Position} (g : Contents) (h : D ⊆ E) :
    (g.forget D).forget E = g.forget E := by
  rw [forget_forget, Set.union_eq_right.2 h]

theorem testBit_mask (g : Contents) (p : Position) (n : Node) (w : Nat) {b : Nat} (hb : b < 64) :
    (g.value (.part p n (.mask w))).testBit b = g.mask ((n, w * 64 + b) :: p) := by
  rw [value, Nat.testBit_ofBits_lt _ _ hb]

end Contents

namespace Position

theorem not_mem_inside (p : Position) (n : Node) : p ∉ p.Inside n := by
  rintro ⟨k, hs⟩
  have := hs.length_le
  simp only [List.length_cons] at this
  omega

theorem not_mem_below {p : Position} {n : Node} {j k : Nat} :
    ((n, j) :: p : Position) ∉ Position.Below ((n, k) :: p) := by
  rintro ⟨hs, hne⟩
  exact hne (hs.eq_of_length rfl).symm

theorem below_subset_from (x : Position) : x.Below ⊆ x.From := fun _ hy => hy.1

variable {p : Position} {n : Node}

theorem closed_upTo_below (f : Nat → Nat) (i : Nat) :
    Closed (upTo (fun k => Position.Below ((n, f k) :: p)) i) :=
  closed_upTo (fun _ => closed_below _) i

/-- A cell of a container is not below one of the cells. -/
theorem not_mem_upTo_below (f : Nat → Nat) (i j : Nat) :
    ((n, j) :: p : Position) ∉ upTo (fun k => Position.Below ((n, f k) :: p)) i := by
  rintro ⟨k, -, hy⟩
  exact not_mem_below hy

/-- The cell around a container is not below one of its cells. -/
theorem around_not_mem_upTo_below (f : Nat → Nat) (i : Nat) :
    p ∉ upTo (fun k => Position.Below ((n, f k) :: p)) i :=
  fun hp => not_mem_upTo_below f i 0 ((closed_upTo_below f i).below hp (List.suffix_cons _ _))

end Position

namespace StoreM

variable {s : Store} {t : Layout} {g : Contents} {n : Node}

/-- The operation on a cell of `n` takes all cells below it out of use. -/
def Releases (t : Layout) (inner : Address → StoreM Unit) (n : Node) : Prop :=
  ∀ ⦃s : Store⦄ ⦃g : Contents⦄ ⦃x : Position⦄ ⦃cell : Address⦄, s.Represents t g →
    g.Active t x → t.nodeAt x = n → cell.toNat = g.cellStart x →
      Ends (inner cell) s (fun _ s => s.Represents t (g.forget x.Below)) never

/-- The operation on the container of `n` takes its cells and all cells below them out of use. -/
def Clears (t : Layout) (release : Address → StoreM Unit) (n : Node) : Prop :=
  ∀ ⦃s : Store⦄ ⦃g : Contents⦄ ⦃p : Position⦄ ⦃slot : Address⦄, s.Represents t g →
    g.Active t p → n ∈ t.childNodes (t.nodeAt p) →
      slot.toNat = g.cellStart p + n.offset.toNat →
        Ends (release slot) s (fun _ s => s.Represents t (g.forget (p.Inside n))) never

/-- A loop takes one set of cells out of use after the other. -/
theorem ends_forgets {f : Nat → StoreM PUnit} (h : s.Represents t g) (E : Nat → Set Position)
    (hstep : ∀ i < k, ∀ s, s.Represents t (g.forget (upTo E i)) →
      Ends (f i) s (fun _ s => s.Represents t ((g.forget (upTo E i)).forget (E i))) never) :
    Ends ((List.range k).forM f) s (fun _ s => s.Represents t (g.forget (upTo E k))) never := by
  refine ends_range (fun i s => s.Represents t (g.forget (upTo E i))) ?_ ?_
  · rwa [upTo_zero, Contents.forget_empty]
  · intro i hi s hs
    refine (hstep i hi s hs).imp ?_
    intro _ s hs
    rwa [upTo_succ, ← Contents.forget_forget]

/-- A cell is released by releasing the containers of its sparse children. -/
theorem releaseCell_releases (ht : t.WellFormed)
    {release : Node → Address → StoreM Unit}
    (hrel : ∀ c ∈ t.childNodes n, Clears t (release c) c) :
    Releases t (releaseCell t release n) n := by
  intro s g x cell h hx hnx hcell
  -- the containers of the children that are done
  let D (done : List Node) : Set Position :=
    {y | ∃ c ∈ done, c.sparseBelow = true ∧ y ∈ x.Inside c}
  have hD (done : List Node) : Closed (D done) := by
    constructor
    · rintro y z ⟨c, hc, hb, hy⟩ hyz
      exact ⟨c, hc, hb, (closed_inside x c).below hy hyz⟩
    · rintro m i j q axis cap b hd ⟨c, hc, hb, hy⟩
      exact ⟨c, hc, hb, (closed_inside x c).list hd hy⟩
  have hxD (done : List Node) : x ∉ D done := by
    rintro ⟨c, -, -, hy⟩
    exact x.not_mem_inside c hy
  unfold releaseCell
  refine (ends_forM (fun done s => s.Represents t (g.forget (D done))) ?_ ?_).imp ?_
  · have : D [] = ∅ := by
      ext y
      simp [D]
    rwa [this, Contents.forget_empty]
  · intro done c rest s hl hs
    have hc : c ∈ t.childNodes n := by simp [hl]
    by_cases hb : c.sparseBelow = true
    · rw [if_pos hb]
      have hact := hx.forget (hD done) (hxD done)
      have hslot : (cell.add c.offset).toNat =
          (g.forget (D done)).cellStart x + c.offset.toNat := by
        rw [Contents.cellStart_forget g (hD done) (hxD done)]
        exact h.toNat_slot ht hx (hnx.symm ▸ hc) hcell
      refine (hrel c hc hs hact (hnx.symm ▸ hc) hslot).imp ?_
      intro _ s hs
      have : D (done ++ [c]) = D done ∪ x.Inside c := by
        ext y
        simp [D, hb, or_and_right, exists_or]
      rwa [this, ← Contents.forget_forget]
    · rw [if_neg hb]
      have : D (done ++ [c]) = D done := by
        ext y
        simp [D, hb, or_and_right, exists_or]
      exact ends_pure (this.symm ▸ hs)
  · intro _ s hs
    -- all that is in use below the cell is in such a container
    rwa [Contents.forget_congr h.sound (E := x.Below)] at hs
    intro y hy
    constructor
    · rintro ⟨c, -, -, k, hs⟩
      refine ⟨(List.suffix_cons _ _).trans hs, ?_⟩
      rintro rfl
      exact y.not_mem_inside c ⟨k, hs⟩
    · rintro ⟨⟨r, rfl⟩, hne⟩
      rcases List.eq_nil_or_concat r with rfl | ⟨r, ⟨c, k⟩, rfl⟩
      · exact absurd rfl hne
      · rw [List.concat_append] at hy ⊢
        have hsuf : (c, k) :: x <:+ r ++ (c, k) :: x := List.suffix_append _ _
        have hl := (h.sound.locates_of_keyed hy).suffix hsuf
        exact ⟨c, hnx ▸ hl.2.1, h.sound.sparseBelow_of_keyed ht hy hsuf, k, hsuf⟩

section

variable {p : Position} {slot : Address} {inner : Address → StoreM Unit}
  (ht : t.WellFormed) (hinner : Releases t inner n) (h : s.Represents t g) (hp : g.Active t p)
  (hn : n ∈ t.childNodes (t.nodeAt p)) (hslot : slot.toNat = g.cellStart p + n.offset.toNat)

include ht hinner h hp hn hslot

/-- A cell of a mask word is released if its bit is set; what was forgotten before is not in the
way. -/
theorem ends_releaseMasked {m : UInt64} (hc : n.container = .bitmasked m) {w b : Nat}
    (hw : w < n.maskWords) (hb : b < 64) {word : UInt64}
    (hword : word.toNat = g.value (.part p n (.mask w))) {D : Set Position} (hD : Closed D)
    (hxD : ((n, w * 64 + b) :: p : Position) ∉ D) {s : Store}
    (hs : s.Represents t (g.forget D)) :
    Ends (if word &&& maskBit (.ofNat w * 64 + .ofNat b) = 0 then pure ()
        else inner (n.cellAt slot (.ofNat w * 64 + .ofNat b))) s
      (fun _ s => s.Represents t ((g.forget D).forget (Position.Below ((n, w * 64 + b) :: p))))
      never := by
  have hcells := n.cells.toNat_lt
  have hw64 := n.toNat_maskCell hw
  unfold Node.maskWords at hw
  have hlin : (UInt64.ofNat w * 64 + UInt64.ofNat b).toNat = w * 64 + b := by
    rw [UInt64.toNat_add, hw64, UInt64.toNat_ofNat_of_lt' (by unfold UInt64.size; omega)]
    exact Nat.mod_eq_of_lt (by omega)
  have hmod : (w * 64 + b) % 64 = b := by omega
  have hiff := and_maskBit_eq_zero_iff word (UInt64.ofNat w * 64 + UInt64.ofNat b)
  rw [hlin, hmod, hword, g.testBit_mask p n w hb] at hiff
  -- where the bit is clear, nothing below the cell is in use
  by_cases hoff : word &&& maskBit (UInt64.ofNat w * 64 + UInt64.ofNat b) = 0
  · rw [if_pos hoff, Contents.forget_eq_self hs.sound]
    · exact ends_pure hs
    · intro y hy hyx
      have hon := (hs.sound.active_of_below hy hyx).2.2.2.of_forget
      simp only [Contents.On, hc, hiff.1 hoff] at hon
      cases hon
  · rw [if_neg hoff]
    have hmask : g.mask ((n, w * 64 + b) :: p) = true := by
      rw [← Bool.not_eq_false]
      exact fun hf => hoff (hiff.2 hf)
    obtain ⟨-, -, hk, -⟩ := h.sound.mask_on hmask
    have hnum : n.Numbers (w * 64 + b) := by simpa [Node.Numbers, hc] using hk
    have hx : g.Active t ((n, w * 64 + b) :: p) :=
      ⟨hp, hn, hnum, by simpa only [Contents.On, hc] using hmask⟩
    refine hinner hs (hx.forget hD hxD) rfl ?_
    rw [Contents.cellStart_forget g hD hxD,
      h.toNat_cellAt ht hp hn hslot (by simp [Node.isInline, hc]) (hlin ▸ hnum), hlin]

/-- The 64 cells of a mask word are released, and their bits are cleared. -/
theorem ends_clearMaskWord {m : UInt64} (hc : n.container = .bitmasked m) {w : Nat}
    (hw : w < n.maskWords) :
    Ends (clearMaskWord inner n slot m (.ofNat w)) s (fun _ s =>
      s.Represents t (g.forget {y | ∃ k ∈ {k | k / 64 = w}, (n, k) :: p <:+ y})) never := by
  have hcells := n.cells.toNat_lt
  have hw64 := n.toNat_maskCell hw
  have hdiv : (UInt64.ofNat w * 64).toNat / 64 = w := by omega
  have hlt : (UInt64.ofNat w * 64).toNat < n.cells.toNat := by
    unfold Node.maskWords at hw
    omega
  have hsplit {k : Nat} (hk : k / 64 = w) : w * 64 + k % 64 = k := by omega
  obtain ⟨word, hword, hv, -⟩ := h.loadMask ht hp hn hslot hc hlt
  rw [hdiv] at hv
  unfold StoreM.clearMaskWord
  refine Ends.bind (ends_look hword ?_)
  by_cases hzero : word = 0
  · -- no cell of the word is in use
    rw [if_neg (by simpa using hzero), Contents.forget_eq_self h.sound]
    · exact ends_pure h
    · rintro y hy ⟨k, hk, hs⟩
      have hon := h.sound.on_of_keyed hy hs (by simp [hc])
      simp only [Contents.On, hc] at hon
      have hbit := g.testBit_mask p n w (Nat.mod_lt k (by decide))
      rw [← hv, hsplit hk, hon, hzero] at hbit
      simp at hbit
  · rw [if_pos hzero]
    -- first what is below the cells, then the cells themselves
    refine Ends.bind ((ends_forgets h (fun b => Position.Below ((n, w * 64 + b) :: p)) ?_).imp ?_)
    · intro b hb s hs
      exact ends_releaseMasked ht hinner h hp hn hslot hc hw hb hv
        (Position.closed_upTo_below (w * 64 + ·) b) (Position.not_mem_upTo_below (w * 64 + ·) b _) hs
    · intro _ s hs
      have hD := Position.closed_upTo_below (n := n) (p := p) (w * 64 + ·) 64
      have hpD := Position.around_not_mem_upTo_below (n := n) (p := p) (w * 64 + ·) 64
      have hsub : upTo (fun b => Position.Below ((n, w * 64 + b) :: p)) 64 ⊆
          {y | ∃ k ∈ {k | k / 64 = w}, (n, k) :: p <:+ y} := by
        rintro y ⟨b, hb, hy⟩
        exact ⟨w * 64 + b, by simp only [Set.mem_ofPred_eq]; omega, hy.1⟩
      rw [← Contents.forget_forget_of_subset g hsub]
      refine hs.clearBits ht (hp.forget hD hpD) hn
        (by rw [Contents.cellStart_forget g hD hpD, hslot]) hc (by rwa [hdiv]) ?_ ?_ ?_
      · intro k hk
        rw [hdiv]
        exact hk
      · intro k hk y hy hyx
        refine h.sound.not_keyed_of_forget hD hy ⟨k % 64, Nat.mod_lt _ (by decide), ?_⟩
        dsimp only
        rwa [hsplit hk]
      · intro i
        rw [hdiv]
        have : (w * 64 + i.val) / 64 = w := by omega
        simp [this]

/-- A pointer cell is released with what is below it; nothing happens where it is not active. -/
theorem ends_releaseEntry (hc : n.container = .pointer) {lin : UInt64}
    (hk : lin.toNat < n.cells.toNat) :
    Ends (do
      let block ← look (·.link (addressSlot slot lin))
      if ! block.isNull then
        inner block
        dropBlock n.id block
        put (addressSlot slot lin) 8 0) s
      (fun _ s => s.Represents t (g.forget (Position.From ((n, lin.toNat) :: p)))) never := by
  have hnd : ∀ axis c b, n.container ≠ .dynamic axis c b := by simp [hc]
  have hnum : n.Numbers lin.toNat := by simpa [Node.Numbers, hc] using hk
  obtain ⟨b, hb, hv⟩ := h.loadEntry ht hp hn hslot hc hk
  have hnull := h.isNull_iff (r := .block ((n, lin.toNat) :: p)) hv
  refine Ends.bind (ends_look hb ?_)
  by_cases hend : b.isNull = true
  · have hoff : ¬ g.On n lin.toNat p := by
      simp only [Contents.On, hc]
      exact hnull.1 hend
    rw [if_neg (by simpa using hend), Contents.forget_eq_self h.sound]
    · exact ends_pure h
    · intro y hy hyx
      exact hoff (h.sound.on_of_keyed hy hyx hnd)
  · rw [if_pos (by simpa using hend)]
    have hsome : (g.block ((n, lin.toNat) :: p)).isSome := by
      by_contra hnot
      exact hend (hnull.2 hnot)
    obtain ⟨b', hb'⟩ := Option.isSome_iff_exists.1 hsome
    have hbb : b = b' := Address.ext_toNat (by rw [hv, hb']; rfl)
    subst hbb
    have hx : g.Active t ((n, lin.toNat) :: p) :=
      ⟨hp, hn, hnum, by simpa only [Contents.On, hc] using hsome⟩
    have hcell : b.toNat = g.cellStart ((n, lin.toNat) :: p) := by
      unfold Contents.cellStart
      rw [Layout.region_pointer hc, Contents.start_of_base (r := .block ((n, lin.toNat) :: p)) hb']
      simp only [Position.offset, hc, Nat.add_zero]
    -- first what is below the cell, then its block: together, all from the cell on
    refine Ends.bind ((hinner h hx rfl hcell).imp ?_)
    intro _ s hs'
    have hB := closed_below ((n, lin.toNat) :: p)
    have hpB : p ∉ Position.Below ((n, lin.toNat) :: p) :=
      fun hpb => p.not_mem_inside n ⟨lin.toNat, hpb.1⟩
    have hxB : ((n, lin.toNat) :: p : Position) ∉ Position.Below ((n, lin.toNat) :: p) :=
      Position.not_mem_below
    rw [← Contents.forget_forget_of_subset g (Position.below_subset_from ((n, lin.toNat) :: p))]
    exact hs'.detachBlock ht (hp.forget hB hpB) hn
      (by rw [Contents.cellStart_forget g hB hpB, hslot]) hc hk
      ((if_neg hxB).trans hb') fun y hy hyx => h.sound.not_keyed_of_forget hB hy hyx

/-- The cells of a dense container are always in use: only what is below them is released, and
where no level below is sparse, there is nothing to release. -/
theorem ends_clearDense (hc : n.container = .dense) :
    Ends (clearContainer inner n slot) s
      (fun _ s => s.Represents t (g.forget (p.Inside n))) never := by
  have hhas := ht.has_child hn
  simp only [StoreM.clearContainer, hc]
  by_cases hsb : n.sparseBelow = true
  · rw [if_pos hsb]
    -- the loop over the cells forgets what is below each of them
    refine (ends_forgets h (fun k => Position.Below ((n, k) :: p)) ?_).imp ?_
    · intro k hk s hs
      have hk64 : (UInt64.ofNat k).toNat = k :=
        UInt64.toNat_ofNat_of_lt' (Nat.lt_trans hk n.cells.toNat_lt)
      have hnum : n.Numbers k := by simpa [Node.Numbers, hc] using hk
      have hx : g.Active t ((n, k) :: p) := ⟨hp, hn, hnum, by simp [Contents.On, hc]⟩
      have hD := Position.closed_upTo_below (n := n) (p := p) (fun k => k) k
      have hxD := Position.not_mem_upTo_below (n := n) (p := p) (fun k => k) k k
      refine hinner hs (hx.forget hD hxD) rfl ?_
      rw [Contents.cellStart_forget g hD hxD,
        h.toNat_cellAt ht hp hn hslot (by simp [Node.isInline, hc]) (by rwa [hk64]), hk64]
    · intro _ s hs
      -- no key is at a dense cell itself, so below the cells is as much as inside the container
      rwa [Contents.forget_congr h.sound (E := p.Inside n)] at hs
      intro y hy
      constructor
      · rintro ⟨k, -, hb⟩
        exact ⟨k, hb.1⟩
      · rintro ⟨k, hs⟩
        have hk := ((h.sound.locates_of_keyed hy).suffix hs).2.2
        simp only [Node.Numbers, hc] at hk
        refine ⟨k, hk, hs, ?_⟩
        rintro rfl
        have hsp := h.sound.sparse_of_keyed ht hy
        rw [ht.isSparse_iff hhas] at hsp
        simp [hc] at hsp
  · rw [if_neg hsb, Contents.forget_eq_self h.sound]
    · exact ends_pure h
    · rintro y hy ⟨k, hs⟩
      exact hsb (h.sound.sparseBelow_of_keyed ht hy hs)

/-- The cells of a bitmasked container are released word by word of the mask. -/
theorem ends_clearBitmasked {m : UInt64} (hc : n.container = .bitmasked m) :
    Ends (clearContainer inner n slot) s
      (fun _ s => s.Represents t (g.forget (p.Inside n))) never := by
  have hE (w : Nat) : Closed {y : Position | ∃ k ∈ {k | k / 64 = w}, (n, k) :: p <:+ y} :=
    closed_cells (by simp [hc]) _
  simp only [StoreM.clearContainer, hc]
  refine (ends_forgets h (fun w => {y | ∃ k ∈ {k | k / 64 = w}, (n, k) :: p <:+ y}) ?_).imp ?_
  · intro w hw s hs
    have hpE : p ∉ upTo (fun w => {y | ∃ k ∈ {k | k / 64 = w}, (n, k) :: p <:+ y}) w := by
      rintro ⟨-, -, k, -, hs⟩
      exact p.not_mem_inside n ⟨k, hs⟩
    refine ends_clearMaskWord ht hinner hs (hp.forget (closed_upTo hE w) hpE) hn ?_ hc hw
    rw [Contents.cellStart_forget g (closed_upTo hE w) hpE, hslot]
  · intro _ s hs
    rwa [Contents.forget_congr h.sound (E := p.Inside n)] at hs
    intro y hy
    constructor
    · rintro ⟨-, -, k, -, hs⟩
      exact ⟨k, hs⟩
    · rintro ⟨k, hs⟩
      have hk := ((h.sound.locates_of_keyed hy).suffix hs).2.2
      simp only [Node.Numbers, hc] at hk
      exact ⟨k / 64, by omega, k, rfl, hs⟩

/-- The cells of a pointer container are released one by one. -/
theorem ends_clearPointer (hc : n.container = .pointer) :
    Ends (clearContainer inner n slot) s
      (fun _ s => s.Represents t (g.forget (p.Inside n))) never := by
  have hE (k : Nat) : Closed (Position.From ((n, k) :: p)) := closed_from (by simp [hc])
  simp only [StoreM.clearContainer, hc]
  refine (ends_forgets h (fun k => Position.From ((n, k) :: p)) ?_).imp ?_
  · intro k hk s hs
    have hk64 : (UInt64.ofNat k).toNat = k :=
      UInt64.toNat_ofNat_of_lt' (Nat.lt_trans hk n.cells.toNat_lt)
    have hpE : p ∉ upTo (fun k => Position.From ((n, k) :: p)) k := by
      rintro ⟨k', -, hs⟩
      exact p.not_mem_inside n ⟨k', hs⟩
    have hslot' : slot.toNat =
        (g.forget (upTo (fun k => Position.From ((n, k) :: p)) k)).cellStart p +
          n.offset.toNat := by
      rw [Contents.cellStart_forget g (closed_upTo hE k) hpE, hslot]
    have hentry := ends_releaseEntry ht hinner hs (hp.forget (closed_upTo hE k) hpE) hn hslot' hc
      (show (UInt64.ofNat k).toNat < n.cells.toNat by rwa [hk64])
    rwa [hk64] at hentry
  · intro _ s hs
    rwa [Contents.forget_congr h.sound (E := p.Inside n)] at hs
    intro y hy
    constructor
    · rintro ⟨k, -, hs⟩
      exact ⟨k, hs⟩
    · rintro ⟨k, hs⟩
      have hk := ((h.sound.locates_of_keyed hy).suffix hs).2.2
      simp only [Node.Numbers, hc] at hk
      exact ⟨k, hk, hs⟩

/-- What is below the elements of a list is released first, and then the list with its chunks. -/
theorem ends_clearDynamic {axis : Axis} {cap : UInt32} {bytes : UInt64}
    (hc : n.container = .dynamic axis cap bytes) :
    Ends (clearContainer inner n slot) s
      (fun _ s => s.Represents t (g.forget (p.Inside n))) never := by
  have hD (i : Nat) := Position.closed_upTo_below (n := n) (p := p) (fun k => k) i
  have hxD (i k : Nat) := Position.not_mem_upTo_below (n := n) (p := p) (fun k => k) i k
  have hpD (i : Nat) := Position.around_not_mem_upTo_below (n := n) (p := p) (fun k => k) i
  have hslot' (i : Nat) : slot.toNat =
      (g.forget (upTo (fun k => Position.Below ((n, k) :: p)) i)).cellStart p +
        n.offset.toNat := by
    rw [Contents.cellStart_forget g (hD i) (hpD i), hslot]
  obtain ⟨len, hlen, hl⟩ := h.listLength ht hp hn hslot hc
  simp only [StoreM.clearContainer, hc]
  refine Ends.bind (ends_look hlen (Ends.bind ?_))
  refine (ends_forgets h (fun k => Position.Below ((n, k) :: p)) ?_).imp ?_
  · intro k hk s hs
    have hkl : k < g.length p n := hl ▸ hk
    have hx : g.Active t ((n, k) :: p) :=
      ⟨hp, hn, by simp [Node.Numbers, hc], by simpa only [Contents.On, hc] using hkl⟩
    have hx' := hx.forget (hD k) (hxD k k)
    have hk64 : (UInt64.ofNat k).toNat = k := UInt64.toNat_ofNat_of_lt' (by
      have := len.toNat_lt
      unfold UInt64.size
      omega)
    have hon := hx'.2.2.2
    simp only [Contents.On, hc] at hon
    have hle := hs.sound.length_le p n
    obtain ⟨b, hb, hbn⟩ := hs.element ht (hp.forget (hD k) (hpD k)) hn (hslot' k) hc
      (e := .ofNat k) (by rw [hk64]; exact Nat.lt_of_lt_of_le hon hle)
    rw [hk64] at hbn
    exact Ends.bind (ends_look hb (hinner hs hx' rfl hbn))
  · intro _ s hs
    have hsub : upTo (fun k => Position.Below ((n, k) :: p)) len.toNat ⊆ p.Inside n := by
      rintro y ⟨k, -, hy⟩
      exact ⟨k, hy.1⟩
    rw [← Contents.forget_forget_of_subset g hsub]
    refine hs.detachList ht (hp.forget (hD _) (hpD _)) hn (hslot' _) hc ?_
    -- below elements past the end of the list nothing was in use
    intro k y hy hyx
    have hk := (hs.sound.active_of_below hy hyx).2.2.2.of_forget
    simp only [Contents.On, hc] at hk
    exact h.sound.not_keyed_of_forget (hD _) hy ⟨k, by omega, hyx⟩

/-- A container is cleared by releasing its cells one by one. -/
theorem ends_clearContainer :
    Ends (clearContainer inner n slot) s
      (fun _ s => s.Represents t (g.forget (p.Inside n))) never := by
  have hhas := ht.has_child hn
  -- in a word there are no cells to release
  have word (hw : n.isWord) : g.forget (p.Inside n) = g := by
    apply Contents.forget_eq_self h.sound
    rintro y hy ⟨k, hs⟩
    exact h.sound.not_isWord_of_keyed ht hy hs hw
  cases hc : n.container with
  | root =>
    have hroot := ht.kind_ne_root (hp.locates.has ht) hn
    exact absurd hc (ht.container_ne_root hhas hroot)
  | bitStruct | bitArray | place =>
    rw [word (by simp [Node.isWord, hc])]
    simp only [StoreM.clearContainer, hc]
    exact ends_pure h
  | dense => exact ends_clearDense ht hinner h hp hn hslot hc
  | bitmasked m => exact ends_clearBitmasked ht hinner h hp hn hslot hc
  | pointer => exact ends_clearPointer ht hinner h hp hn hslot hc
  | dynamic axis cap bytes => exact ends_clearDynamic ht hinner h hp hn hslot hc

end

/-- Enough levels down, a container is cleared with all that is in its cells. -/
theorem releaseLevels_clears (ht : t.WellFormed) {height : Nat} (hn : t.Has n)
    (hheight : t.nodes.size ≤ n.id + height) : Clears t (releaseLevels t height n) n := by
  induction height generalizing n with
  | zero => exact absurd hn.id_lt (Nat.not_lt.2 hheight)
  | succ height ih =>
    intro s g p slot h hp hnp hslot
    refine ends_clearContainer ht (releaseCell_releases ht ?_) h hp hnp hslot
    intro c hc
    have hlt := ht.id_lt hn hc
    refine ih (ht.has_child hc) (Nat.le_trans hheight ?_)
    have := Nat.add_le_add_right (Nat.succ_le_of_lt hlt) height
    omega

theorem releaseContainer_clears (ht : t.WellFormed) (hn : t.Has n) :
    Clears t (releaseContainer t n) n := releaseLevels_clears ht hn (Nat.le_add_left _ _)

theorem releaseBelow_releases (ht : t.WellFormed) (n : Node) :
    Releases t (releaseBelow t n) n :=
  releaseCell_releases ht fun _ hc => releaseContainer_clears ht (ht.has_child hc)

end StoreM

end SparseLayout
