import SparseLayout.Proofs.Store.Locate

namespace SparseLayout

open Layout (Node Datum Part)
open Layout.Node (addressSlot)
open StoreM (Ends never)

/-- The data that tell of a cell: the entry of a pointer cell, the mask word of a bitmasked cell, and
the length and the links of a list. -/
theorem Layout.Datum.reads_cases {t : Layout} {n : Node} {k : Nat} {p : Position} {f : Datum}
    (hf : t.HasDatum f) (hr : f.Reads ((n, k) :: p)) :
    (n.container = .pointer ∧ f = .part p n (.entry k)) ∨
      ((∃ c, n.container = .bitmasked c) ∧ f = .part p n (.mask (k / 64))) ∨
      (∃ axis c b, n.container = .dynamic axis c b) ∧
        (f = .part p n .length ∨ f = .part p n .head ∨ ∃ i, f = .link p n i) := by
  cases f with
  | link q m i =>
    cases hr
    exact Or.inr (Or.inr ⟨hf.2.2, Or.inr (Or.inr ⟨i, rfl⟩)⟩)
  | part q m f =>
    have hpart : m.HasPart f := hf.2.2
    cases f with
    | entry l =>
      cases hr
      exact Or.inl ⟨hpart.1, rfl⟩
    | mask w =>
      obtain ⟨b, hb, he⟩ := hr
      simp only [List.cons.injEq, Prod.mk.injEq] at he
      obtain ⟨⟨rfl, hk⟩, rfl⟩ := he
      have hw : w = k / 64 := by omega
      exact Or.inr (Or.inl ⟨hpart.1, hw ▸ rfl⟩)
    | length =>
      cases hr
      exact Or.inr (Or.inr ⟨hpart, Or.inl rfl⟩)
    | head =>
      cases hr
      exact Or.inr (Or.inr ⟨hpart, Or.inr (Or.inl rfl)⟩)
    | word => exact hr.elim

namespace Contents

variable {t : Layout} {g : Contents} {D : Set Position} {p x y : Position} {n m : Node} {k : Nat}

/-- Nothing is in use below the cell. -/
def Bare (g : Contents) (x : Position) : Prop := ∀ y, g.Keyed y → y ∉ x.Below

/-- A position in use has a node of a sparse kind, and follows the tree. -/
theorem Sound.locates_of_keyed (hs : g.Sound t) (hk : g.Keyed y) : t.Locates y := by
  cases y with
  | nil => exact hk.elim
  | cons z q =>
    obtain ⟨m, j⟩ := z
    obtain ⟨ha, hm⟩ := hs.active_of_keyed hk
    refine ⟨ha.locates, hm, ?_⟩
    rcases hk with hk | hk | hk
    · obtain ⟨-, -, hj, c, hc⟩ := hs.mask_on hk
      simpa [Node.Numbers, hc] using hj
    · obtain ⟨-, -, hj, hc⟩ := hs.block_on hk
      simpa [Node.Numbers, hc] using hj
    · obtain ⟨-, -, axis, c, b, hc⟩ := hs.chunks_on hk
      simp [Node.Numbers, hc]

/-- The position in which the region of a node is in use. -/
theorem keyed_of_base (hs : g.Sound t) {r : Region} (hr : (g.base r).isSome) :
    r = .root ∨ (∃ y, r = .block y ∧ g.Keyed y) ∨
      ∃ q m i, r = .chunk q m i ∧ ∀ j, g.Keyed ((m, j) :: q) := by
  cases r with
  | root => exact Or.inl rfl
  | block y =>
    refine Or.inr (Or.inl ⟨y, rfl, ?_⟩)
    cases y with
    | nil => simp [base, hs.block_nil] at hr
    | cons z q => exact Or.inr (Or.inl hr)
  | chunk q m i =>
    refine Or.inr (Or.inr ⟨q, m, i, rfl, fun j => Or.inr (Or.inr ?_)⟩)
    intro hc
    simp [base, hc] at hr

/-- A key in or below a bare cell is the cell itself. -/
theorem Bare.eq_of_keyed (hb : g.Bare x) (hk : g.Keyed y) (hs : x <:+ y) : y = x := by
  by_contra hne
  exact hb y hk ⟨hs, hne⟩

theorem Sound.dynamic_of_chunk (hs : g.Sound t) {q : Position} {i : Nat}
    (hr : (g.base (.chunk q m i)).isSome) : ∃ axis c b, m.container = .dynamic axis c b := by
  have hne : g.chunks q m ≠ [] := by
    intro hc
    simp [base, hc] at hr
  exact (hs.chunks_on hne).2.2

theorem base_forget_eq {r : Region} (h : (g.base r).isSome → ¬ r.In D) :
    (g.forget D).base r = g.base r := by
  by_cases hr : (g.base r).isSome
  · exact base_forget_of_notIn g (h hr)
  · rw [base_forget, Option.not_isSome_iff_eq_none.1 hr, ite_self]

/-- Where all that is forgotten are cells of one container, the memory that is given up is a block
of a pointer cell, or a chunk of a list. -/
theorem region_cases_of_forget (hs : g.Sound t)
    (hD : ∀ y, g.Keyed y → y ∈ D → ∃ k, y = (n, k) :: p) {r : Region} (hr : (g.base r).isSome)
    (hin : r.In D) :
    (n.container = .pointer ∧ ∃ k, r = .block ((n, k) :: p)) ∨
      (∃ axis c b, n.container = .dynamic axis c b) ∧ ∃ i, r = .chunk p n i := by
  rcases keyed_of_base hs hr with rfl | ⟨y, rfl, hy⟩ | ⟨q, m, i, rfl, hq⟩
  · exact hin.elim
  · obtain ⟨k, rfl⟩ := hD y hy hin
    obtain ⟨-, -, -, hc⟩ := hs.block_on hr
    exact Or.inl ⟨hc, k, rfl⟩
  · obtain ⟨k, he⟩ := hD _ (hq 0) hin
    cases he
    exact Or.inr ⟨hs.dynamic_of_chunk hr, i, rfl⟩

/-- Forgetting a bare pointer cell, its block is what is forgotten. -/
theorem base_forget_block (hs : g.Sound t) (hc : n.container = .pointer)
    (hbare : g.Bare ((n, k) :: p)) : (g.forget (Position.From ((n, k) :: p))).base =
      Function.update g.base (.block ((n, k) :: p)) none := by
  have hD (y : Position) (hy : g.Keyed y) (hs : y ∈ Position.From ((n, k) :: p)) :
      ∃ j, y = (n, j) :: p := ⟨k, hbare.eq_of_keyed hy hs⟩
  ext1 r
  by_cases hr : r = .block ((n, k) :: p)
  · rw [hr, Function.update_self, base_forget]
    exact if_pos List.suffix_rfl
  · rw [Function.update_of_ne hr]
    refine base_forget_eq fun hsome hin => ?_
    rcases region_cases_of_forget hs hD hsome hin with ⟨-, j, rfl⟩ | ⟨⟨axis, c, b, hd⟩, -⟩
    · exact hr (congrArg Region.block (List.IsSuffix.eq_of_length hin rfl).symm)
    · simp [hc] at hd

/-- Forgetting bare bitmasked cells takes no memory out of use. -/
theorem base_forget_bits (hs : g.Sound t) {c : UInt64} (hc : n.container = .bitmasked c)
    {K : Set Nat} (hbare : ∀ k ∈ K, g.Bare ((n, k) :: p)) :
    (g.forget {y | ∃ k ∈ K, (n, k) :: p <:+ y}).base = g.base := by
  have hD (y : Position) (hy : g.Keyed y) (hs : ∃ k ∈ K, (n, k) :: p <:+ y) :
      ∃ j, y = (n, j) :: p := by
    obtain ⟨k, hk, hs⟩ := hs
    exact ⟨k, (hbare k hk).eq_of_keyed hy hs⟩
  ext1 r
  refine base_forget_eq fun hsome hin => ?_
  rcases region_cases_of_forget hs hD hsome hin with ⟨hd, -⟩ | ⟨⟨axis, c, b, hd⟩, -⟩ <;>
    simp [hc] at hd

end Contents

namespace Store.Owns

variable {s : Store} {t : Layout} {base : Region → Option Address} {n : Node} {p : Position}

/-- A list has no more chunks than its node has blocks in use. -/
theorem chunks_le_live (h : s.Owns t base) (hn : t.Has n) (hb : n.blockBytes?.isSome) {len : Nat}
    (hlen : ∀ i < len, (base (.chunk p n i)).isSome) : len ≤ s.liveBlocks n.id := by
  obtain ⟨b, hblocks, -, hlive, -⟩ := h.blocks hn hb
  have hsub : (Region.chunk p n) '' (Finset.range len : Set Nat) ⊆ regionsOf base n := by
    rintro r ⟨i, hi, rfl⟩
    exact ⟨hlen i (by simpa using hi), rfl⟩
  have hcard := Set.encard_le_encard hsub
  rw [Function.Injective.encard_image (fun i j hij => by simpa using hij), hlive,
    Set.encard_coe_eq_coe_finsetCard, Finset.card_range] at hcard
  rw [liveBlocks, hblocks]
  exact_mod_cast hcard

open Classical in
/-- Regions without the chunks of a list from number `j` on. -/
noncomputable def withoutChunks (base : Region → Option Address) (p : Position) (n : Node)
    (j : Nat) : Region → Option Address :=
  fun r => if ∃ i, r = .chunk p n (j + i) then none else base r

variable {j : Nat}

theorem withoutChunks_of_none (h : ∀ i, base (.chunk p n (j + i)) = none) :
    withoutChunks base p n j = base := by
  ext1 r
  unfold withoutChunks
  split
  · rename_i he
    obtain ⟨i, rfl⟩ := he
    exact (h i).symm
  · rfl

/-- The chunks from number `j` on are chunk `j` and those after it. -/
theorem withoutChunks_eq (base : Region → Option Address) (p : Position) (n : Node) (j : Nat) :
    withoutChunks base p n j =
      withoutChunks (Function.update base (.chunk p n j) none) p n (j + 1) := by
  classical
  ext1 r
  unfold withoutChunks
  by_cases hj : r = .chunk p n j
  · subst hj
    rw [Function.update_self, ite_self]
    exact if_pos ⟨0, rfl⟩
  · rw [Function.update_of_ne hj]
    refine if_congr ?_ rfl rfl
    constructor
    · rintro ⟨i, rfl⟩
      cases i with
      | zero => exact absurd rfl hj
      | succ i => exact ⟨i, by rw [Nat.add_assoc, Nat.add_comm 1]⟩
    · rintro ⟨i, rfl⟩
      exact ⟨i + 1, by rw [Nat.add_assoc, Nat.add_comm 1]⟩

/-- Forgetting a list of bare elements, its chunks are what is forgotten. -/
theorem base_forget_list {g : Contents} (hs : g.Sound t) {axis : Axis} {cap : UInt32}
    {bytes : UInt64} (hc : n.container = .dynamic axis cap bytes)
    (hbare : ∀ k, g.Bare ((n, k) :: p)) :
    (g.forget (p.Inside n)).base = withoutChunks g.base p n 0 := by
  have hD (y : Position) (hy : g.Keyed y) (hs : y ∈ p.Inside n) : ∃ k, y = (n, k) :: p := by
    obtain ⟨k, hs⟩ := hs
    exact ⟨k, (hbare k).eq_of_keyed hy hs⟩
  ext1 r
  unfold withoutChunks
  by_cases hchunk : ∃ i, r = .chunk p n (0 + i)
  · obtain ⟨i, rfl⟩ := hchunk
    rw [if_pos ⟨i, rfl⟩, Contents.base_forget]
    exact if_pos ⟨0, List.suffix_rfl⟩
  · rw [if_neg hchunk]
    refine Contents.base_forget_eq fun hsome hin => ?_
    rcases Contents.region_cases_of_forget hs hD hsome hin with ⟨hd, -⟩ | ⟨-, i, rfl⟩
    · simp [hc] at hd
    · exact hchunk ⟨i, by rw [Nat.zero_add]⟩

/-- The chunks of a list are given back one after the other, along their links. -/
theorem dropChunks (h : s.Owns t base) (hn : t.Has n) (hb : n.blockBytes?.isSome)
    {l : List Address} (hbase : ∀ i, base (.chunk p n (j + i)) = l[i]?)
    (hlink : ∀ (i : Nat) (hi : i < l.length), s.pool.wordAt l[i].toNat 8 = addressNumber l[i + 1]?)
    {first : Address} (hfirst : first.toNat = addressNumber l[0]?) {fuel : Nat}
    (hfuel : l.length < fuel) :
    Ends (StoreM.dropChunks n.id fuel first) s
      (fun _ s' => s'.pool = s.pool ∧ s'.root = s.root ∧
        s'.Owns t (withoutChunks base p n j)) never := by
  -- by induction on the chunks that are left
  induction l generalizing s base j first fuel with
  | nil =>
    obtain ⟨fuel, rfl⟩ : ∃ k, fuel = k + 1 := ⟨fuel - 1, by omega⟩
    have hnull : first.isNull = true := (Address.isNull_iff first).2 hfirst
    rw [StoreM.dropChunks, if_pos hnull, withoutChunks_of_none hbase]
    exact StoreM.ends_pure ⟨rfl, rfl, h⟩
  | cons c l ih =>
    obtain ⟨fuel, rfl⟩ : ∃ k, fuel = k + 1 := ⟨fuel - 1, by omega⟩
    obtain rfl : first = c := Address.ext_toNat hfirst
    have hr : base (.chunk p n j) = some first := hbase 0
    have hnull := h.not_null hr
    -- the link is read before the chunk is given back
    have hcov : s.pool.Covers first.toNat 8 := by
      have hpos := t.regionSize_pos (.chunk p n j)
      exact (h.covers (P := .region (.chunk p n j)) hr).part (Nat.le_refl _)
        (Nat.add_le_add_left hpos _) (by simp only [Piece.size]; omega) h.valid
    have hload : s.link first = .ok ⟨s.pool.load first 8⟩ := by
      rw [Store.link, Store.load, if_pos (Pool.holds_of_covers hcov h.valid)]
      rfl
    have hnext : (Address.mk (s.pool.load first 8)).toNat = addressNumber l[0]? := by
      have := hlink 0 (by simp)
      simp only [List.getElem_cons_zero, Nat.zero_add, List.getElem?_cons_succ] at this
      rw [← this]
      exact Pool.toNat_load hcov h.valid (by decide)
    rw [StoreM.dropChunks, hnull, if_neg (by decide)]
    refine Ends.bind (StoreM.ends_look hload (Ends.bind (StoreM.ends_modify ?_)))
    have howns := h.dropBlock hn hb hr rfl
    rw [withoutChunks_eq]
    refine (ih howns (j := j + 1) ?_ ?_ hnext ?_).imp ?_
    · intro i
      have hne : Region.chunk p n (j + 1 + i) ≠ .chunk p n j := by
        simp only [ne_eq, Region.chunk.injEq, true_and]
        omega
      rw [Function.update_of_ne hne, Nat.add_assoc, hbase, Nat.add_comm 1]
      rfl
    · intro i hi
      exact hlink (i + 1) (by simpa using hi)
    · simpa using hfuel
    · rintro _ s' ⟨hpool, hroot, howns'⟩
      exact ⟨hpool, hroot, howns'⟩

end Store.Owns

namespace Store.Represents

variable {s s' : Store} {t : Layout} {g : Contents} {D : Set Position} {p : Position} {n : Node}
  {k : Nat} {a b slot : Address} {axis : Axis} {cap : UInt32} {bytes : UInt64}

/-- The contents after cells were taken out of use. -/
theorem forget (h : s.Represents t g) (hD : Closed D) (howns : s'.Owns t (g.forget D).base)
    (hval : ∀ {f}, g.HasDatum t f → ¬ f.region.In D →
      s'.pool.wordAt (g.datumStart f) f.size = (g.forget D).value f) :
    s'.Represents t (g.forget D) := by
  refine ⟨howns, h.sound.forget hD, ?_⟩
  intro f hf
  obtain ⟨hr, hb⟩ := Contents.isSome_base_forget hf.2
  have hstart : (g.forget D).datumStart f = g.datumStart f := by
    unfold Contents.datumStart
    rw [Contents.start_forget g hr]
  rw [hstart]
  exact hval ⟨hf.1, hb⟩ hr

section

variable (ht : t.WellFormed) (h : s.Represents t g) (hp : g.Active t p)
  (hn : n ∈ t.childNodes (t.nodeAt p)) (hslot : slot.toNat = g.cellStart p + n.offset.toNat)

include ht h hp hn hslot

/-- The block of a bare pointer cell is given back. -/
theorem detachBlock (hc : n.container = .pointer) {lin : UInt64}
    (hk : lin.toNat < n.cells.toNat) (hb : g.block ((n, lin.toNat) :: p) = some b)
    (hbare : g.Bare ((n, lin.toNat) :: p)) :
    Ends (do StoreM.dropBlock n.id b; StoreM.put (addressSlot slot lin) 8 0) s
      (fun _ s => s.Represents t (g.forget (Position.From ((n, lin.toNat) :: p)))) never := by
  have hD : Closed (Position.From ((n, lin.toNat) :: p)) := closed_from (by simp [hc])
  have hf : g.HasDatum t (.part p n (.entry lin.toNat)) := hp.hasDatum h.sound hn ⟨hc, hk⟩
  have howns := h.owns.dropBlock (ht.has_child hn) (by simp [Layout.Node.blockBytes?, hc])
    (r := .block ((n, lin.toNat) :: p)) hb rfl
  have ha := h.toNat_addressSlot ht hp hn hslot hc hk
  have hcov : s.pool.Covers (addressSlot slot lin).toNat 8 := ha ▸ h.covers ht hf
  refine Ends.bind (StoreM.ends_modify (StoreM.ends_put
    (Pool.holds_of_covers hcov h.owns.valid) ?_))
  refine h.forget hD ?_ ?_
  · rw [Contents.base_forget_block h.sound hc hbare]
    exact howns.withPool (s.pool.sameBounds_store _ 8 0)
  · intro f hf' hr
    dsimp only
    by_cases he : f = .part p n (.entry lin.toNat)
    · subst he
      have hz : (0 : UInt64).toNat = 0 := rfl
      rw [← ha, Contents.value_forget_eq_zero (by simp)]
      · exact (Pool.wordAt_store hcov h.owns.valid (by decide) 0).trans (by rw [hz, Nat.zero_mod])
      · rintro y rfl
        exact List.suffix_rfl
    · have hap := h.apart ht hf hf' (Ne.symm he)
      rw [Pool.wordAt_store_of_apart hcov h.owns.valid 0 (ha ▸ hap), h.value hf',
        Contents.value_forget h.sound hr]
      intro y hy hkey hs
      obtain rfl := hbare.eq_of_keyed hkey hs
      rcases Datum.reads_cases hf'.1 hy with ⟨-, rfl⟩ | ⟨⟨c, hd⟩, -⟩ | ⟨⟨axis, c, b, hd⟩, -⟩
      · exact he rfl
      · simp [hc] at hd
      · simp [hc] at hd

/-- Bits of a mask word are cleared, each of a bare cell. -/
theorem clearBits {m : UInt64} (hc : n.container = .bitmasked m) {lin w : UInt64}
    (hk : lin.toNat / 64 < n.maskWords) {K : Set Nat} (hK : ∀ k ∈ K, k / 64 = lin.toNat / 64)
    (hbare : ∀ k ∈ K, g.Bare ((n, k) :: p))
    (hw : ∀ i : Fin 64, w.toNat.testBit i = true ↔
      lin.toNat / 64 * 64 + i ∉ K ∧ g.mask ((n, lin.toNat / 64 * 64 + i) :: p) = true) :
    Ends (StoreM.put (maskWord slot m lin) 8 w) s
      (fun _ s => s.Represents t (g.forget {y | ∃ k ∈ K, (n, k) :: p <:+ y})) never := by
  have hD : Closed {y : Position | ∃ k ∈ K, (n, k) :: p <:+ y} := closed_cells (by simp [hc]) K
  have hbase := Contents.base_forget_bits h.sound hc hbare
  have hf : g.HasDatum t (.part p n (.mask (lin.toNat / 64))) :=
    hp.hasDatum h.sound hn ⟨⟨m, hc⟩, hk⟩
  have ha := h.toNat_maskWord ht hp hn hslot hc hk
  refine h.put ht hf ha rfl hbase (h.sound.forget hD) ?_ ?_
  · -- another datum tells of a bare cell only if it is the word of the mask with its bit
    intro f' hf' hne
    apply Contents.value_forget h.sound
    · intro hin
      have hb := hf'.2
      rw [← hbase, Contents.base_forget, if_pos hin] at hb
      cases hb
    · rintro y hy hkey ⟨k, hk, hs⟩
      obtain rfl := (hbare k hk).eq_of_keyed hkey hs
      rcases Datum.reads_cases hf'.1 hy with ⟨hd, -⟩ | ⟨-, rfl⟩ | ⟨⟨axis, c, b, hd⟩, -⟩
      · simp [hc] at hd
      · exact hne (by rw [hK k hk])
      · simp [hc] at hd
  · change w.toNat % 2 ^ 64 = _
    rw [Nat.mod_eq_of_lt w.toNat_lt]
    refine eq_ofBits w.toNat_lt ?_
    intro i
    rw [Bool.eq_iff_iff, hw i]
    have hmem : ((n, lin.toNat / 64 * 64 + i.val) :: p) ∈
        {y : Position | ∃ k ∈ K, (n, k) :: p <:+ y} ↔ lin.toNat / 64 * 64 + i.val ∈ K := by
      constructor
      · rintro ⟨k, hk, hs⟩
        have he := hs.eq_of_length rfl
        simp only [List.cons.injEq, Prod.mk.injEq] at he
        exact he.1.2 ▸ hk
      · exact fun hi => ⟨_, hi, List.suffix_rfl⟩
    simp only [Contents.forget]
    by_cases hi : lin.toNat / 64 * 64 + i.val ∈ K
    · rw [if_pos (hmem.2 hi)]
      simp [hi]
    · rw [if_neg fun hm => hi (hmem.1 hm)]
      simp [hi]

/-- A list or a pointer container lies apart from every datum that is not its own. -/
theorem apart_container (hi : ¬ n.isInline) (hb : 0 < n.bytes.toNat) {f : Datum}
    (hf : g.HasDatum t f) (hne : ∀ x, f ≠ .part p n x) :
    Apart slot.toNat n.bytes.toNat (g.datumStart f) f.size := by
  obtain ⟨a, ha⟩ := Option.isSome_iff_exists.1 (hp.base_isSome h.sound)
  obtain ⟨b, hb', hfb⟩ := hf.start
  have hhas := hp.locates.has ht
  have hle := ht.slot_le hhas hn
  have hcell := ht.offset_le_regionSize hp.locates
  have hfle := ht.datum_le_regionSize hf.1
  rw [hslot, hfb, Contents.cellStart, Contents.start_of_base ha]
  by_cases hr : p.region = f.region
  · rw [hr, hb', Option.some.injEq] at ha
    subst ha
    cases f with
    | link q m i =>
      have := Layout.link_le_offset hr
      simp only [Datum.offset, Datum.size, Apart]
      omega
    | part q m x =>
      have hpq : (p, n) ≠ (q, m) := by
        intro he
        cases he
        exact hne x rfl
      have hap := ht.clear_apart hp.locates hn hf.1.1 hf.1.2.1 hpq (Node.clear_of_not_inline hi)
        (ht.part_clear (ht.has_child hf.1.2.1) hf.1.2.2) (ht.not_isWord_of_bytes hp.locates hn hb)
        (ht.not_isWord_of_datum hf.1) hr
      simp only [Datum.offset, Datum.size, Apart] at hap ⊢
      omega
  · have hap := h.owns.apart (P := .region p.region) (Q := .region f.region) ha hb'
      (by simpa using hr)
    simp only [Piece.size, Apart] at hap ⊢
    omega

/-- The header of a list whose elements are bare is cleared, once its chunks were given back. -/
theorem clearHeader (hc : n.container = .dynamic axis cap bytes)
    (hbare : ∀ k, g.Bare ((n, k) :: p)) (hpool : s'.pool = s.pool)
    (howns : s'.Owns t (Owns.withoutChunks g.base p n 0)) :
    Ends (StoreM.zero slot 16) s'
      (fun _ s => s.Represents t (g.forget (p.Inside n))) never := by
  have hhas := ht.has_child hn
  have hs := ht.sized hhas
  simp only [Node.Sized, hc] at hs
  have hni : ¬ n.isInline := by simp [Node.isInline, hc]
  have hv : s'.pool.Valid := hpool ▸ h.owns.valid
  have hcov : s'.pool.Covers slot.toNat 16 := by
    have hle := ht.slot_le (hp.locates.has ht) hn
    have hcell := ht.offset_le_regionSize hp.locates
    have hregion := h.covers_region (hp.base_isSome h.sound)
    rw [hpool, hslot]
    unfold Contents.cellStart
    exact hregion.part (by omega) (by omega) (by omega) h.owns.valid
  refine StoreM.ends_zero (Pool.holds_of_covers hcov hv) ?_
  refine h.forget (closed_inside p n) ?_ ?_
  · rw [Owns.base_forget_list h.sound hc hbare]
    exact howns.withPool (s'.pool.sameBounds_zero slot 16)
  · intro f hf hr
    dsimp only
    by_cases he : ∃ x, f = .part p n x
    · -- the length and the first chunk are zero
      obtain ⟨x, rfl⟩ := he
      have hle := ht.part_le hhas hf.1.2.2
      have hstart : g.datumStart (.part p n x) = slot.toNat + n.partOffset x := by
        rw [hslot, Contents.cellStart, Contents.datumStart]
        simp only [Datum.offset, Datum.region]
        omega
      have hx : x = .length ∨ x = .head := by
        have hpart := hf.1.2.2
        cases x <;> simp_all [Node.HasPart, Node.isWord]
      rw [Contents.value_forget_eq_zero]
      · apply Pool.wordAt_eq_zero
        intro i h1 h2
        simp only [Datum.size] at h2
        rw [Pool.byteAt_zero hcov hv, if_pos (by omega)]
      · intro q m he
        cases he
        simp at hx
      · intro y hy
        rcases hx with rfl | rfl <;> cases hy <;> exact ⟨0, List.suffix_rfl⟩
    · -- any other datum lies apart from the header, and tells of cells that stay
      have hap := h.apart_container ht hp hn hslot hni (by omega) hf fun x hx => he ⟨x, hx⟩
      rw [hs.1] at hap
      rw [Pool.wordAt_zero_of_apart hcov hv hap, hpool, h.value hf,
        Contents.value_forget h.sound hr]
      rintro y hy hkey ⟨k, hs⟩
      obtain rfl := (hbare k).eq_of_keyed hkey hs
      rcases Datum.reads_cases hf.1 hy with ⟨-, rfl⟩ | ⟨-, rfl⟩ | ⟨-, rfl | rfl | ⟨i, rfl⟩⟩
      · exact he ⟨_, rfl⟩
      · exact he ⟨_, rfl⟩
      · exact he ⟨_, rfl⟩
      · exact he ⟨_, rfl⟩
      · exact hr ⟨0, List.suffix_rfl⟩

/-- The chunks of a list whose elements are bare are given back, and its header is cleared. -/
theorem detachList (hc : n.container = .dynamic axis cap bytes)
    (hbare : ∀ k, g.Bare ((n, k) :: p)) :
    Ends (do
      let first ← StoreM.look (·.link (headSlot slot))
      StoreM.dropChunks n.id ((← get).liveBlocks n.id + 1) first
      StoreM.zero slot 16) s
      (fun _ s => s.Represents t (g.forget (p.Inside n))) never := by
  have hhas := ht.has_child hn
  have hblocks : n.blockBytes?.isSome := by simp [Layout.Node.blockBytes?, hc]
  obtain ⟨first, hfirst, hv⟩ := h.link ht (h.hasDatum_linkTo hp hn hc (j := 0) (Nat.zero_le _))
    (h.toNat_headSlot ht hp hn hslot hc) rfl (g.value_linkTo p n 0)
  have hbase (i : Nat) : g.base (.chunk p n (0 + i)) = (g.chunks p n)[i]? := by
    rw [Nat.zero_add]
    rfl
  have hlink (i : Nat) (hi : i < (g.chunks p n).length) :
      s.pool.wordAt (g.chunks p n)[i].toNat 8 = addressNumber (g.chunks p n)[i + 1]? := by
    have hf := h.hasDatum_linkTo hp hn hc (j := i + 1) hi
    have hstart : g.datumStart (Datum.linkTo p n (i + 1)) = (g.chunks p n)[i].toNat :=
      Contents.start_of_base (List.getElem?_eq_getElem hi)
    have hval := h.value hf
    rwa [hstart, Datum.size_linkTo, Contents.value_linkTo] at hval
  have hlive : (g.chunks p n).length ≤ s.liveBlocks n.id :=
    h.owns.chunks_le_live (p := p) hhas hblocks fun i hi => by simpa [Contents.base] using hi
  refine Ends.bind (StoreM.ends_look hfirst (Ends.bind (StoreM.ends_get (Ends.bind ?_))))
  refine (h.owns.dropChunks hhas hblocks hbase hlink hv (Nat.lt_succ_of_le hlive)).imp ?_
  rintro _ s' ⟨hpool, -, howns⟩
  exact h.clearHeader ht hp hn hslot hc hbare hpool howns

end

end Store.Represents

end SparseLayout
