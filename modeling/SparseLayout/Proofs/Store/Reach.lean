import SparseLayout.Proofs.Contents.View
import SparseLayout.Proofs.Store.Locate

namespace SparseLayout

open Layout (Node Datum Part)
open Layout.Node (addressSlot number)
open StoreM (Ends never)

/-- The cause is that the pool is exhausted. -/
def AccessError.IsShortage (e : AccessError) : Prop := ∃ shortage, e = .outOfMemory shortage

namespace Contents

variable {t : Layout} {g g' g'' : Contents} {p : Position} {n : Node} {k : Nat}

/-- Only the chunks of one list change, and only by new ones. -/
structure Chained (g g' : Contents) (p : Position) (n : Node) : Prop where
  le : g.Le g'
  view : g'.view = g.view
  chunks : ∀ q m, ¬ (q = p ∧ m = n) → g'.chunks q m = g.chunks q m

theorem Chained.refl (g : Contents) (p : Position) (n : Node) : g.Chained g p n :=
  ⟨.refl g, rfl, fun _ _ _ => rfl⟩

theorem Chained.trans (h : g.Chained g' p n) (h' : g'.Chained g'' p n) : g.Chained g'' p n :=
  ⟨h.le.trans h'.le, h'.view.trans h.view, fun q m hne => (h'.chunks q m hne).trans (h.chunks q m hne)⟩

theorem chained_addChunk (g : Contents) (p : Position) (n : Node) (a : Address) :
    g.Chained (g.addChunk p n a) p n :=
  ⟨le_addChunk g p n a, rfl, fun _ _ hne => if_neg hne⟩

/-- Chunks for the new length were added, and no others. -/
theorem Chained.thrifty_setLength (h : g.Chained g' p n) {len : Nat}
    (hlen : (g'.chunks p n).length =
      max (g.chunks p n).length ((len + n.capacity - 1) / n.capacity)) :
    g.Thrifty (g'.setLength p n (max (g.length p n) len)) := by
  intro had htight q m
  have hqm := htight q m
  by_cases he : q = p ∧ m = n
  · obtain ⟨rfl, rfl⟩ := he
    simp only [setLength, and_self, if_true]
    rw [hlen, ceilDiv_max, ← Nat.max_assoc, ← hqm]
  · have hl : g'.length = g.length := congrArg View.length h.view
    simp only [setLength, if_neg he]
    rw [h.chunks q m he, hl]
    exact hqm

/-- A cell was put to use. -/
structure Reached (g g' : Contents) (t : Layout) (n : Node) (k : Nat) (p : Position) : Prop where
  le : g.Le g'
  active : g'.Active t ((n, k) :: p)
  view : g'.view = g.view.raise n k p
  thrifty : g.Thrifty g'

/-- Nothing was put to use, but chunks may have been added. -/
structure Stuck (g g' : Contents) : Prop where
  le : g.Le g'
  view : g'.view = g.view

/-- The computation puts a cell to use and gives its address, or the pool is exhausted. -/
def Reaches (g : Contents) (t : Layout) (n : Node) (k : Nat) (p : Position) (m : StoreM Address)
    (s : Store) : Prop :=
  Ends m s
    (fun a s => ∃ g', s.Represents t g' ∧ g.Reached g' t n k p ∧
      a.toNat = g'.cellStart ((n, k) :: p))
    (fun e s => e.IsShortage ∧ ∃ g', s.Represents t g' ∧ g.Stuck g')

theorem On.reached (hp : g.Active t p) (hn : n ∈ t.childNodes (t.nodeAt p)) (hk : n.Numbers k)
    (hon : g.On n k p) : g.Reached g t n k p :=
  ⟨.refl g, ⟨hp, hn, hk, hon⟩, (raise_eq_self hon).symm, .refl g⟩

end Contents

namespace Store.Represents

variable {s : Store} {t : Layout} {g : Contents} {p : Position} {n : Node} {k : Nat}
  {a slot : Address} {axis : Axis} {cap : UInt32} {bytes : UInt64}

/-- A new chunk changes one link. -/
theorem value_addChunk {f : Datum} (b : Address)
    (hf : f ≠ Datum.linkTo p n (g.chunks p n).length) : (g.addChunk p n b).value f = g.value f := by
  have entry {i : Nat} (hi : i ≠ (g.chunks p n).length) :
      (g.chunks p n ++ [b])[i]? = (g.chunks p n)[i]? := by
    rcases Nat.lt_or_gt_of_ne hi with hlt | hgt
    · exact List.getElem?_append_left hlt
    · rw [List.getElem?_eq_none (by simp; omega), List.getElem?_eq_none (by omega)]
  cases f with
  | link q m i =>
    simp only [Contents.value, Contents.addChunk]
    split
    · rename_i he
      obtain ⟨rfl, rfl⟩ := he
      rw [entry]
      intro hi
      exact hf (by rw [← hi]; rfl)
    · rfl
  | part q m f =>
    cases f with
    | head =>
      simp only [Contents.value, Contents.addChunk]
      split
      · rename_i he
        obtain ⟨rfl, rfl⟩ := he
        rw [entry]
        intro hi
        exact hf (by rw [← hi]; rfl)
      · rfl
    | _ => rfl

/-- A new length changes one number. -/
theorem value_setLength {f : Datum} (len : Nat) (hf : f ≠ .part p n .length) :
    (g.setLength p n len).value f = g.value f := by
  cases f with
  | link q m i => rfl
  | part q m f =>
    cases f with
    | length =>
      refine if_neg ?_
      rintro ⟨rfl, rfl⟩
      exact hf rfl
    | _ => rfl

section

variable (ht : t.WellFormed) (hn : n ∈ t.childNodes (t.nodeAt p))
  (hc : n.container = .dynamic axis cap bytes)

include ht hn hc

/-- Chunks are linked one after the other, until there are as many as asked for. -/
theorem linkChunks {j : Nat} (h : s.Represents t g) (hp : g.Active t p)
    (hj : j ≤ (g.chunks p n).length) (ha : a.toNat = g.datumStart (Datum.linkTo p n j)) (k : Nat) :
    Ends (StoreM.linkChunks n k a) s
      (fun _ s => ∃ g', s.Represents t g' ∧ g.Chained g' p n ∧
        (g'.chunks p n).length = max (g.chunks p n).length (j + k))
      (fun e s => e.IsShortage ∧ ∃ g', s.Represents t g' ∧ g.Chained g' p n) := by
  induction k generalizing s g j a with
  | zero =>
    refine StoreM.ends_pure ⟨g, h, .refl g p n, ?_⟩
    rw [Nat.add_zero, Nat.max_eq_left hj]
  | succ k ih =>
    have hf := h.hasDatum_linkTo hp hn hc hj
    obtain ⟨next, hnext, hv⟩ := h.link ht hf ha (Datum.size_linkTo p n j) (g.value_linkTo p n j)
    have hnull := h.isNull_iff (r := .chunk p n j) hv
    rw [StoreM.linkChunks]
    refine Ends.bind (StoreM.ends_look hnext ?_)
    by_cases hend : next.isNull = true
    · -- a new chunk behind the last one
      rw [if_pos hend]
      have hlen : j = (g.chunks p n).length := by
        have := hnull.1 hend
        simp only [Contents.base, Option.isSome_iff_ne_none, ne_eq, not_not,
          List.getElem?_eq_none_iff] at this
        omega
      have hblocks : n.blockBytes?.isSome := by simp [Layout.Node.blockBytes?, hc]
      have hr : g.base (.chunk p n (g.chunks p n).length) = none := by simp [Contents.base]
      refine Ends.bind ((h.attach ht (ht.has_child hn) hblocks hr rfl hf (Datum.size_linkTo p n j) ha
        (u := g.addChunk p n) (g.base_addChunk p n) (h.sound.addChunk hp hn hc) ?_ ?_).mono ?_ ?_)
      · intro b f' _ hne
        exact value_addChunk b (hlen ▸ hne)
      · intro b
        rw [Contents.value_linkTo, hlen]
        simp [Contents.addChunk, addressNumber]
      · rintro b s ⟨-, hput⟩
        refine Ends.bind (hput.total.imp ?_)
        intro _ s hs
        have hchain := g.chained_addChunk p n b
        have hchunks : ((g.addChunk p n b).chunks p n).length = (g.chunks p n).length + 1 := by
          simp [Contents.addChunk]
        have hb : b.toNat = (g.addChunk p n b).datumStart (Datum.linkTo p n (j + 1)) := by
          have hbase : (g.addChunk p n b).base (.chunk p n j) = some b := by
            rw [Contents.base_addChunk, hlen, Function.update_self]
          exact (Contents.start_of_base hbase).symm
        refine (ih hs (hchain.le.active hp) (by omega) hb).mono ?_ ?_
        · rintro _ s ⟨g', hg', hch, hl⟩
          exact ⟨g', hg', hchain.trans hch, by omega⟩
        · rintro e s ⟨he, g', hg', hch⟩
          exact ⟨he, g', hg', hchain.trans hch⟩
      · rintro e s' ⟨rfl, he⟩
        exact ⟨he, g, h, .refl g p n⟩
    · rw [if_neg hend]
      have hlt : j < (g.chunks p n).length := by
        have hsome : (g.base (.chunk p n j)).isSome := by
          by_contra hnot
          exact hend (hnull.2 hnot)
        simpa [Contents.base] using hsome
      refine (ih h hp (j := j + 1) hlt hv).imp ?_
      rintro _ s ⟨g', hg', hch, hl⟩
      exact ⟨g', hg', hch, by omega⟩

/-- A length for which the list has chunks is stored. -/
theorem putLength (h : s.Represents t g) (hp : g.Active t p)
    (hslot : slot.toNat = g.cellStart p + n.offset.toNat) (len : UInt32)
    (hgrow : g.length p n ≤ len.toNat)
    (hroom : len.toNat ≤ n.capacity * (g.chunks p n).length) :
    Ends (StoreM.put slot 4 len.toUInt64) s
      (fun _ s => s.Represents t (g.setLength p n len.toNat)) never := by
  have hf : g.HasDatum t (.part p n .length) := hp.hasDatum h.sound hn ⟨axis, cap, bytes, hc⟩
  refine h.put ht hf (h.toNat_slot_part ht hp hn hslot hf.1.2.2 rfl) rfl
    (g.base_setLength p n _) (h.sound.setLength hgrow hroom len.toNat_lt)
    (fun _ hne => value_setLength _ hne) ?_
  simp only [Contents.value, Contents.setLength, and_self, if_true, UInt32.toNat_toUInt64]
  exact Nat.mod_eq_of_lt len.toNat_lt

/-- A list grows to a length, and has chunks for all its elements. -/
theorem growList (h : s.Represents t g) (hp : g.Active t p)
    (hslot : slot.toNat = g.cellStart p + n.offset.toNat) (len : UInt32) :
    Ends (StoreM.growList n slot len) s
      (fun _ s => ∃ g', s.Represents t g' ∧ g.Le g' ∧ g.Thrifty g' ∧
        g'.view = g.view.setLength p n (max (g.length p n) len.toNat))
      (fun e s => e.IsShortage ∧ ∃ g', s.Represents t g' ∧ g.Stuck g') := by
  have hhead := h.toNat_headSlot ht hp hn hslot hc
  have hcap := ht.capacity_pos (ht.has_child hn)
  unfold StoreM.growList
  -- chunks are linked before the length is raised, so that no element is ever without one
  refine Ends.bind ((h.linkChunks ht hn hc hp (Nat.zero_le _) hhead _).mono ?_ ?_)
  · rintro _ s ⟨g₁, h₁, hch, hlen⟩
    have hlen : (g₁.chunks p n).length =
        max (g.chunks p n).length ((len.toNat + n.capacity - 1) / n.capacity) :=
      hlen.trans (congrArg _ (Nat.zero_add _))
    have hp₁ := hch.le.active hp
    have hslot₁ : slot.toNat = g₁.cellStart p + n.offset.toNat := by
      rw [hch.le.cellStart_eq h.sound hp, hslot]
    have hl : g₁.length = g.length := congrArg View.length hch.view
    obtain ⟨old, hold, hv⟩ := h₁.listLength ht hp₁ hn hslot₁ hc
    refine Ends.bind (StoreM.ends_look hold ?_)
    have hmax : (max old len).toNat = max (g.length p n) len.toNat := by
      rw [Layout.toNat_max, hv, hl]
    have hgrow : g₁.length p n ≤ (max old len).toNat := by
      rw [hmax, hl]
      exact Nat.le_max_left _ _
    have hroom : (max old len).toNat ≤ n.capacity * (g₁.chunks p n).length := by
      rw [hmax, hlen]
      refine max_le ?_ ?_
      · exact (h.sound.length_le p n).trans (Nat.mul_le_mul_left _ (Nat.le_max_left _ _))
      · exact (le_mul_ceilDiv _ hcap).trans (Nat.mul_le_mul_left _ (Nat.le_max_right _ _))
    refine (h₁.putLength ht hn hc hp₁ hslot₁ _ hgrow hroom).total.imp ?_
    intro _ s hs
    rw [hmax] at hs
    refine ⟨_, hs, hch.le.trans (Contents.le_setLength (hl ▸ Nat.le_max_left _ _)),
      hch.thrifty_setLength hlen, ?_⟩
    rw [Contents.view_setLength, hch.view]
  · rintro e s ⟨he, g', hg', hch⟩
    exact ⟨he, g', hg', hch.le, hch.view⟩

end

/-- A bit of a mask is in one word. -/
theorem value_setMask {f : Datum} (b : Bool) (hf : f ≠ .part p n (.mask (k / 64))) :
    (g.setMask ((n, k) :: p) b).value f = g.value f := by
  cases f with
  | link q m i => rfl
  | part q m f =>
    cases f with
    | mask w =>
      simp only [Contents.value, Contents.setMask]
      congr 1
      ext1 i
      apply Function.update_of_ne
      intro he
      simp only [List.cons.injEq, Prod.mk.injEq] at he
      obtain ⟨⟨rfl, hk⟩, rfl⟩ := he
      have : w = k / 64 := by omega
      exact hf (this ▸ rfl)
    | _ => rfl

theorem value_setMask_self {w : Nat} (hw : w < 2 ^ 64) {b : Bool}
    (hbits : ∀ i : Fin 64, w.testBit i =
      if k % 64 = i then b else g.mask ((n, k / 64 * 64 + i) :: p)) :
    w = (g.setMask ((n, k) :: p) b).value (.part p n (.mask (k / 64))) := by
  refine eq_ofBits hw ?_
  intro i
  rw [hbits i]
  simp only [Contents.setMask]
  by_cases hi : k % 64 = i
  · rw [if_pos hi]
    have : k / 64 * 64 + i = k := by omega
    rw [this, Function.update_self]
  · rw [if_neg hi, Function.update_of_ne]
    intro he
    simp only [List.cons.injEq, Prod.mk.injEq] at he
    omega

/-- A new block changes one entry. -/
theorem value_setBlock {f : Datum} (b : Address) (hf : f ≠ .part p n (.entry k)) :
    (g.setBlock ((n, k) :: p) b).value f = g.value f := by
  cases f with
  | link q m i => rfl
  | part q m f =>
    cases f with
    | entry l =>
      simp only [Contents.value, Contents.setBlock]
      rw [Function.update_of_ne]
      intro he
      simp only [List.cons.injEq, Prod.mk.injEq] at he
      obtain ⟨⟨rfl, rfl⟩, rfl⟩ := he
      exact hf rfl
    | _ => rfl

/-- A cell in use is where it was found. -/
theorem reaches_of_on (h : s.Represents t g) (hp : g.Active t p)
    (hn : n ∈ t.childNodes (t.nodeAt p)) (hk : n.Numbers k) (hon : g.On n k p)
    (ha : a.toNat = g.cellStart ((n, k) :: p)) : g.Reaches t n k p (pure a) s :=
  StoreM.ends_pure ⟨g, h, hon.reached hp hn hk, ha⟩

section

variable (ht : t.WellFormed) (h : s.Represents t g) (hp : g.Active t p)
  (hn : n ∈ t.childNodes (t.nodeAt p)) (hslot : slot.toNat = g.cellStart p + n.offset.toNat)

include ht h hp hn hslot

/-- Setting the bit of a bitmasked cell. -/
theorem setMask {m : UInt64} (hc : n.container = .bitmasked m) {lin w : UInt64}
    (hk : lin.toNat < n.cells.toNat)
    (hw : w.toNat = g.value (.part p n (.mask (lin.toNat / 64)))) :
    Ends (StoreM.put (maskWord slot m lin) 8 (w ||| maskBit lin)) s
      (fun _ s => s.Represents t (g.setMask ((n, lin.toNat) :: p) true)) never := by
  have hf := h.hasDatum_mask hp hn hc hk
  refine h.put ht hf (h.toNat_maskWord ht hp hn hslot hc hf.1.2.2.2) rfl (g.base_setMask _ _)
    (h.sound.setMask hp hn hk hc) ?_ ?_
  · intro f' _ hne
    exact value_setMask true hne
  · change (w ||| maskBit lin).toNat % 2 ^ 64 = _
    rw [Nat.mod_eq_of_lt (UInt64.toNat_lt _)]
    refine value_setMask_self (UInt64.toNat_lt _) ?_
    intro i
    rw [testBit_or_maskBit, hw, Contents.value, Nat.testBit_ofBits_lt _ _ i.isLt]
    by_cases hi : lin.toNat % 64 = i <;> simp [hi]

/-- The mask bit of the cell is set, if it is not yet. -/
theorem reachBitmasked {m : UInt64} (hc : n.container = .bitmasked m) (target : Node) (c : Coords) :
    g.Reaches t n (number target n c) p (StoreM.reachCell target c n slot) s := by
  have hnum : number target n c = (Node.linear target n c).toNat := by simp only [number, hc]
  have hi : n.isInline := by simp [Node.isInline, hc]
  have hk := ht.numbers_number (ht.has_child hn) target c
  rw [hnum] at hk ⊢
  have hlin : (Node.linear target n c).toNat < n.cells.toNat := by
    simpa [Node.Numbers, hc] using hk
  obtain ⟨w, hw, hv, hbit⟩ := h.loadMask ht hp hn hslot hc hlin
  have hcell := h.toNat_cellAt ht hp hn hslot hi hk
  simp only [StoreM.reachCell, hc]
  refine Ends.bind (StoreM.ends_look hw ?_)
  by_cases hoff : w &&& maskBit (Node.linear target n c) = 0
  · rw [if_pos hoff]
    refine Ends.bind ((h.setMask ht hp hn hslot hc hlin hv).total.imp ?_)
    intro _ s hs
    have hle := g.le_setMask ((n, (Node.linear target n c).toNat) :: p)
    have hon : (g.setMask ((n, (Node.linear target n c).toNat) :: p) true).On n
        (Node.linear target n c).toNat p := by
      simp [Contents.On, hc, Contents.setMask]
    refine StoreM.ends_pure ⟨_, hs, ⟨hle, ⟨hle.active hp, hn, hk, hon⟩, ?_, fun _ => id⟩, ?_⟩
    · rw [Contents.view_setMask, View.raise, hc]
    · rw [hcell]
      unfold Contents.cellStart Contents.start
      rw [Contents.base_setMask]
  · rw [if_neg hoff]
    have hon : g.On n (Node.linear target n c).toNat p := by
      simp only [Contents.On, hc]
      exact not_not.1 fun hm => hoff (hbit.2 hm)
    exact Ends.bind (StoreM.ends_pure (h.reaches_of_on hp hn hk hon hcell))

/-- A block is taken for the cell and its address put into the empty entry. -/
theorem linkBlock (hc : n.container = .pointer) {lin : UInt64} (hlin : lin.toNat < n.cells.toNat)
    (hr : g.block ((n, lin.toNat) :: p) = none) :
    g.Reaches t n lin.toNat p (do
      let b ← StoreM.takeBlock n
      StoreM.put (addressSlot slot lin) 8 b.raw
      return b) s := by
  have hhas := ht.has_child hn
  have hk : n.Numbers lin.toNat := by simpa [Node.Numbers, hc] using hlin
  have hblocks : n.blockBytes?.isSome := by simp [Layout.Node.blockBytes?, hc]
  have hf : g.HasDatum t (.part p n (.entry lin.toNat)) := hp.hasDatum h.sound hn ⟨hc, hlin⟩
  refine Ends.bind ((h.attach ht hhas hblocks (r := .block ((n, lin.toNat) :: p)) hr rfl hf rfl
    (h.toNat_addressSlot ht hp hn hslot hc hlin) (u := g.setBlock ((n, lin.toNat) :: p))
    (g.base_setBlock _) (h.sound.setBlock hp hn hlin hc hr) ?_ ?_).mono ?_ ?_)
  · intro b f' _ hne
    exact value_setBlock b hne
  · intro b
    simp [Contents.value, Contents.setBlock, addressNumber]
  · rintro b s ⟨-, hput⟩
    refine Ends.bind (hput.total.imp ?_)
    intro _ s hs
    have hle := Contents.le_setBlock (a := b) hr
    have hon : (g.setBlock ((n, lin.toNat) :: p) b).On n lin.toNat p := by
      simp [Contents.On, hc, Contents.setBlock]
    have hbase : (g.setBlock ((n, lin.toNat) :: p) b).base (.block ((n, lin.toNat) :: p)) =
        some b := by
      rw [Contents.base_setBlock, Function.update_self]
    refine StoreM.ends_pure ⟨_, hs, ⟨hle, ⟨hle.active hp, hn, hk, hon⟩, ?_, fun _ => id⟩, ?_⟩
    · rw [Contents.view_setBlock, View.raise, hc]
    · unfold Contents.cellStart
      rw [Layout.region_pointer hc, Contents.start_of_base hbase]
      simp only [Position.offset, hc, Nat.add_zero]
  · rintro e s' ⟨rfl, he⟩
    exact ⟨he, g, h, .refl g, rfl⟩

/-- The cell is in the block its entry points to, or gets a block. -/
theorem reachPointer (hc : n.container = .pointer) (target : Node) (c : Coords) :
    g.Reaches t n (number target n c) p (StoreM.reachCell target c n slot) s := by
  have hnum : number target n c = (Node.linear target n c).toNat := by simp only [number, hc]
  have hk := ht.numbers_number (ht.has_child hn) target c
  rw [hnum] at hk ⊢
  have hlin : (Node.linear target n c).toNat < n.cells.toNat := by
    simpa [Node.Numbers, hc] using hk
  obtain ⟨b, hb, hv⟩ := h.loadEntry ht hp hn hslot hc hlin
  have hnull := h.isNull_iff (r := .block ((n, (Node.linear target n c).toNat) :: p)) hv
  simp only [StoreM.reachCell, hc]
  refine Ends.bind (StoreM.ends_look hb ?_)
  by_cases hend : b.isNull = true
  · rw [if_pos hend]
    refine h.linkBlock ht hp hn hslot hc hlin ?_
    simpa [Contents.base] using hnull.1 hend
  · rw [if_neg hend]
    have hsome : (g.block ((n, (Node.linear target n c).toNat) :: p)).isSome := by
      by_contra hnot
      exact hend (hnull.2 hnot)
    have hon : g.On n (Node.linear target n c).toNat p := by
      simpa only [Contents.On, hc] using hsome
    refine h.reaches_of_on hp hn hk hon ?_
    unfold Contents.cellStart
    rw [Layout.region_pointer hc, hv]
    simp only [Position.offset, hc, Nat.add_zero]
    rfl

/-- The list grows until it has the element, and the element is then found in its chunks. -/
theorem reachDynamic (hc : n.container = .dynamic axis cap bytes) (target : Node) (c : Coords) :
    g.Reaches t n (number target n c) p (StoreM.reachCell target c n slot) s := by
  have hhas := ht.has_child hn
  have hnum : number target n c = (Node.digit target n axis c).toNat := by simp only [number, hc]
  have hk := ht.numbers_number hhas target c
  have hlt : (Node.digit target n axis c).toNat + 1 < 2 ^ 32 := by
    obtain ⟨dim, chunk, -, hdim⟩ := ht.digit_lt_of_dynamic hhas hc target c
    have := dim.toNat_lt
    omega
  rw [hnum] at hk ⊢
  simp only [StoreM.reachCell, hc]
  generalize Node.digit target n axis c = e at *
  obtain ⟨len, hlen, hl⟩ := h.listLength ht hp hn hslot hc
  refine Ends.bind (StoreM.ends_look hlen ?_)
  by_cases hle : len.toUInt64 ≤ e
  · rw [if_pos hle]
    have h1 : (1 : UInt64).toNat = 1 := rfl
    have hsucc : (e + 1).toUInt32.toNat = e.toNat + 1 := by
      rw [UInt64.toNat_toUInt32, UInt64.toNat_add, h1]
      omega
    refine Ends.bind ((growList ht hn hc h hp hslot (e + 1).toUInt32).mono ?_ ?_)
    · rintro _ s ⟨g', hg', hgle, hthrifty, hview⟩
      have hp' := hgle.active hp
      rw [hsucc] at hview
      have hlen' : g'.length p n = max (g.length p n) (e.toNat + 1) :=
        (congrArg (fun v => v.length p n) hview).trans (if_pos ⟨rfl, rfl⟩)
      have hon : g'.On n e.toNat p := by
        simp only [Contents.On, hc]
        omega
      have hlle := hg'.sound.length_le p n
      -- growing a list moves no cell that was in use before
      have hslot' : slot.toNat = g'.cellStart p + n.offset.toNat := by
        rw [hgle.cellStart_eq h.sound hp, hslot]
      obtain ⟨b, hb, hbn⟩ := hg'.element ht hp' hn hslot' hc (e := e) (by omega)
      refine StoreM.ends_look hb ⟨g', hg', ⟨hgle, ⟨hp', hn, hk, hon⟩, ?_, hthrifty⟩, hbn⟩
      exact hview.trans (View.raise_dynamic _ hc _ _).symm
    · rintro x s ⟨hx, g', hg', hstuck⟩
      exact ⟨hx, g', hg', hstuck⟩
  · rw [if_neg hle]
    have hlt : e.toNat < g.length p n := by
      have : ¬ len.toNat ≤ e.toNat := fun hn => hle (by
        rw [UInt64.le_iff_toNat_le, UInt32.toNat_toUInt64]
        exact hn)
      omega
    have hon : g.On n e.toNat p := by
      simp only [Contents.On, hc]
      exact hlt
    have hlle := h.sound.length_le p n
    obtain ⟨b, hb, hbn⟩ := h.element ht hp hn hslot hc (e := e) (by omega)
    exact Ends.bind (StoreM.ends_pure (StoreM.ends_look hb ⟨g, h, hon.reached hp hn hk, hbn⟩))

/-- The cell of a level is reached, or the pool is exhausted. -/
theorem reachCell (target : Node) (c : Coords) :
    g.Reaches t n (number target n c) p (StoreM.reachCell target c n slot) s := by
  have hk := ht.numbers_number (ht.has_child hn) target c
  cases hc : n.container with
  | dense =>
    have hnum : number target n c = (Node.linear target n c).toNat := by simp only [number, hc]
    simp only [StoreM.reachCell, hc]
    refine h.reaches_of_on hp hn hk (by simp [Contents.On, hc]) ?_
    rw [hnum] at hk ⊢
    exact h.toNat_cellAt ht hp hn hslot (by simp [Node.isInline, hc]) hk
  | root | bitStruct | bitArray | place =>
    -- the only cell of the container is the container
    have hnum : number target n c = 0 := by simp only [number, hc]
    have hi : n.isInline := by simp [Node.isInline, hc]
    simp only [StoreM.reachCell, hc]
    refine h.reaches_of_on hp hn hk (by simp [Contents.On, hc]) ?_
    rw [hnum]
    unfold Contents.cellStart
    rw [Layout.region_inline hi, Layout.offset_inline hi, hslot]
    unfold Contents.cellStart
    omega
  | bitmasked m => exact h.reachBitmasked ht hp hn hslot hc target c
  | pointer => exact h.reachPointer ht hp hn hslot hc target c
  | dynamic axis cap bytes => exact h.reachDynamic ht hp hn hslot hc target c

end

end Store.Represents

theorem StoreM.reach_append (target : Node) (c : Coords) (ns : List Node) (n : Node)
    (cell : Address) :
    reach target c (ns ++ [n]) cell = (do
      let cell ← reach target c ns cell
      reachCell target c n (cell.add n.offset)) := by
  induction ns generalizing cell with
  | nil => simp [reach]
  | cons m ns ih => simp [reach, ih]

variable {s : Store} {t : Layout} {g : Contents} {n : Node}

/-- A cell of a level that is in use is reached without a change. -/
theorem StoreM.reachCell_of_cell? {target : Node} {c : Coords} {slot a : Address}
    (h : s.cell? target c n slot = .ok (some a)) : reachCell target c n slot s = .ok a s := by
  apply Ends.eq_ok
  unfold Store.cell? at h
  unfold reachCell
  -- both look at the same entry, and where the cell is in use nothing is written
  cases hc : n.container with
  | dense | root | bitStruct | bitArray | place =>
    simp only [hc, Except.ok.injEq, Option.some.injEq] at h
    exact ends_pure ⟨h, rfl⟩
  | bitmasked m =>
    simp only [hc, bind, Except.bind] at h
    split at h
    · cases h
    · rename_i word hword
      split at h
      · cases h
      · rename_i hset
        refine Ends.bind (ends_look hword ?_)
        rw [if_neg hset]
        exact ends_pure ⟨Option.some.inj (Except.ok.inj h), rfl⟩
  | pointer =>
    simp only [hc, bind, Except.bind] at h
    split at h
    · cases h
    · rename_i block hblock
      split at h
      · cases h
      · rename_i hnull
        refine Ends.bind (ends_look hblock ?_)
        rw [if_neg hnull]
        exact ends_pure ⟨Option.some.inj (Except.ok.inj h), rfl⟩
  | dynamic axis cap bytes =>
    simp only [hc, bind, Except.bind] at h
    split at h
    · cases h
    · rename_i len hlen
      split at h
      · cases h
      · rename_i hlong
        split at h
        · cases h
        · rename_i element helement
          refine Ends.bind (ends_look hlen ?_)
          rw [if_neg hlong]
          exact ends_look helement ⟨Option.some.inj (Except.ok.inj h), rfl⟩

/-- A cell that is in use is reached without a change. -/
theorem StoreM.reach_of_lookup {target : Node} {c : Coords} {ns : List Node} {cell a : Address}
    (h : s.lookup target c ns cell = .ok (some a)) : reach target c ns cell s = .ok a s := by
  induction ns generalizing cell with
  | nil =>
    obtain rfl : cell = a := Option.some.inj (Except.ok.inj h)
    rfl
  | cons m ns ih =>
    rw [Store.lookup] at h
    cases hcell : s.cell? target c m (cell.add m.offset) with
    | error e =>
      rw [hcell] at h
      cases h
    | ok o =>
      cases o with
      | none =>
        rw [hcell] at h
        cases h
      | some b =>
        rw [hcell] at h
        change EStateM.bind (reachCell target c m (cell.add m.offset)) (reach target c ns) s = _
        rw [EStateM.bind, reachCell_of_cell? hcell]
        exact ih h

/-- The pool was exhausted on the way to a cell: some of the levels above may have been put to use,
and nothing else changed. -/
def Store.FallsShort (s : Store) (t : Layout) (g : Contents) (x : Position) : Prop :=
  ∃ g', s.Represents t g' ∧ g.Le g' ∧ ∃ q, q <:+ x ∧ g'.view = g.view.activate q

/-- A cell is reached with all levels on the way put to use, or the pool is exhausted with the
first of them put to use. -/
theorem Store.Represents.reach (ht : t.WellFormed) (h : s.Represents t g) (target : Node)
    (c : Coords) (hn : t.Has n) :
    Ends (StoreM.reach target c (t.branch n.id) s.root) s
      (fun a s => ∃ g', s.Represents t g' ∧ g.Le g' ∧ g.Thrifty g' ∧
        g'.Active t (t.place target c n) ∧ a.toNat = g'.cellStart (t.place target c n) ∧
          g'.view = g.view.activate (t.place target c n))
      (fun e s => e.IsShortage ∧ s.FallsShort t g (t.place target c n)) := by
  -- along the branch: what was reached so far is in use when the next level is entered
  refine ht.induction (motive := fun n => Ends (StoreM.reach target c (t.branch n.id) s.root) s
    (fun a s => ∃ g', s.Represents t g' ∧ g.Le g' ∧ g.Thrifty g' ∧
      g'.Active t (t.place target c n) ∧ a.toNat = g'.cellStart (t.place target c n) ∧
        g'.view = g.view.activate (t.place target c n))
    (fun e s => e.IsShortage ∧ s.FallsShort t g (t.place target c n))) ?_ ?_ hn
  · rw [ht.branch_root, ht.place_root]
    exact StoreM.ends_pure ⟨g, h, .refl g, .refl g, trivial, by rw [← h.root_eq]; rfl, rfl⟩
  · intro p n hp hnp ih
    rw [ht.branch_child hp hnp, ht.place_child target c hp hnp, StoreM.reach_append]
    refine Ends.bind (ih.mono ?_ ?_)
    · rintro cell s ⟨g₁, h₁, hle, hthrifty, hact, hcell, hview⟩
      have hnp' : n ∈ t.childNodes (t.nodeAt (t.place target c p)) := by
        rwa [ht.nodeAt_place target c hp]
      refine (h₁.reachCell ht hact hnp' (h₁.toNat_slot ht hact hnp' hcell) target c).mono ?_ ?_
      · rintro a s ⟨g₂, h₂, hr, ha⟩
        refine ⟨g₂, h₂, hle.trans hr.le, hthrifty.trans hr.thrifty, hr.active, ha, ?_⟩
        rw [hr.view, hview]
        rfl
      · rintro e s ⟨he, g₂, h₂, hst⟩
        exact ⟨he, g₂, h₂, hle.trans hst.le, _, List.suffix_cons _ _, hst.view.trans hview⟩
    · rintro e s ⟨he, g', h', hle, q, hq, hview⟩
      exact ⟨he, g', h', hle, q, hq.trans (List.suffix_cons _ _), hview⟩

end SparseLayout
