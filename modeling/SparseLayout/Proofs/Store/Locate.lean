import SparseLayout.Proofs.Bits
import SparseLayout.Proofs.Layout.Branch
import SparseLayout.Proofs.Store.Represents
import SparseLayout.Store.Cells

namespace SparseLayout

open Layout (Node Datum Part)
open Layout.Node (addressSlot number)

namespace Store

/-- Cell number `k` of the container at `slot`, if it is active. -/
def cellNumbered (s : Store) (n : Node) (slot : Address) (k : Nat) :
    Except Fault (Option Address) :=
  match n.container with
  | .dense => .ok (some (n.cellAt slot (.ofNat k)))
  | .bitmasked maskOffset => do
    let word ← s.load (maskWord slot maskOffset (.ofNat k)) 8
    return if word &&& maskBit (.ofNat k) = 0 then none else some (n.cellAt slot (.ofNat k))
  | .pointer => do
    let block ← s.link (addressSlot slot (.ofNat k))
    return if block.isNull then none else some block
  | .dynamic .. => do
    let len ← s.listLength slot
    if len.toNat ≤ k then return none
    else return some (← s.element n slot (.ofNat k))
  | .root | .bitStruct | .bitArray | .place => .ok (some slot)

/-- The cell at a position, if it is active, found by what the storage holds on the way. -/
def locate (s : Store) : Position → Except Fault (Option Address)
  | [] => .ok (some s.root)
  | (n, k) :: p => do
    match ← s.locate p with
    | none => return none
    | some cell => s.cellNumbered n (cell.add n.offset) k

/-- The cell of a level for coordinates is the one with the number that they give it. -/
theorem cell?_eq (s : Store) (target : Node) (c : Coords) (n : Node) (slot : Address) :
    s.cell? target c n slot = s.cellNumbered n slot (number target n c) := by
  unfold cell? cellNumbered number
  cases n.container <;> simp only [UInt64.ofNat_toNat]
  simp only [UInt64.le_iff_toNat_le, UInt32.toNat_toUInt64]

/-- A lookup goes on from a cell as the way from the root does. -/
theorem lookup_eq_locate (s : Store) (target : Node) (c : Coords) (ns : List Node) (p : Position) :
    (do match ← s.locate p with
      | none => return none
      | some cell => s.lookup target c ns cell) = s.locate (Layout.way target c ns p) := by
  induction ns generalizing p with
  | nil =>
    simp only [lookup, Layout.way]
    cases s.locate p with
    | error e => rfl
    | ok o => cases o <;> rfl
  | cons n ns ih =>
    rw [Layout.way, ← ih, locate]
    cases s.locate p with
    | error e => rfl
    | ok o =>
      cases o with
      | none => rfl
      | some cell =>
        change s.lookup target c (n :: ns) cell = _
        rw [lookup, cell?_eq]
        change _ = (do match ← s.cellNumbered n (cell.add n.offset) (number target n c) with
          | none => return none
          | some cell => s.lookup target c ns cell)
        cases s.cellNumbered n (cell.add n.offset) (number target n c) with
        | error e => rfl
        | ok o => cases o <;> rfl

theorem lookup_branch (s : Store) (t : Layout) (target n : Node) (c : Coords) :
    s.lookup target c (t.branch n.id) s.root = s.locate (t.place target c n) :=
  s.lookup_eq_locate target c (t.branch n.id) []

namespace Represents

variable {s : Store} {t : Layout} {g : Contents} {p : Position} {n : Node} {k : Nat}
  {a cell slot : Address} {axis : Axis} {cap : UInt32} {bytes : UInt64}

/-- A cell in use ends where words can still count its bytes. -/
theorem cell_end_le (ht : t.WellFormed) (h : s.Represents t g) (hp : g.Active t p) :
    g.cellStart p + (t.nodeAt p).cellSize.toNat ≤ 2 ^ 48 := by
  have hle := ht.offset_le_regionSize hp.locates
  have hlt := (h.covers_region (hp.base_isSome h.sound)).lt h.owns.valid
  unfold Contents.cellStart
  omega

theorem toNat_slot (ht : t.WellFormed) (h : s.Represents t g) (hp : g.Active t p)
    (hn : n ∈ t.childNodes (t.nodeAt p)) (hcell : cell.toNat = g.cellStart p) :
    (cell.add n.offset).toNat = g.cellStart p + n.offset.toNat := by
  have hend := h.cell_end_le ht hp
  have hslot := ht.slot_le (hp.locates.has ht) hn
  rw [Address.toNat_add (by omega), hcell]

variable (ht : t.WellFormed) (h : s.Represents t g) (hp : g.Active t p)
  (hn : n ∈ t.childNodes (t.nodeAt p)) (hslot : slot.toNat = g.cellStart p + n.offset.toNat)

include ht h hp hn hslot

theorem toNat_part {f : Part} (hf : n.HasPart f) {d : UInt64} (hd : d.toNat = n.partOffset f) :
    (slot.add d).toNat = g.datumStart (.part p n f) := by
  have hend := h.cell_end_le ht hp
  have hle := ht.slot_le (hp.locates.has ht) hn
  have hpart := ht.part_le (ht.has_child hn) hf
  rw [Address.toNat_add (by omega), hslot, hd]
  change _ = g.start p.region + (p.offset + n.offset.toNat + n.partOffset f)
  unfold Contents.cellStart
  omega

theorem toNat_slot_part {f : Part} (hf : n.HasPart f) (hd : n.partOffset f = 0) :
    slot.toNat = g.datumStart (.part p n f) := by
  have hadd := h.toNat_part ht hp hn hslot hf (d := 0) hd.symm
  rw [← hadd, Address.toNat_add]
  · rfl
  · exact slot.toNat_lt

theorem toNat_maskWord {m : UInt64} (hc : n.container = .bitmasked m) {lin : UInt64}
    (hlin : lin.toNat / 64 < n.maskWords) :
    (maskWord slot m lin).toNat = g.datumStart (.part p n (.mask (lin.toNat / 64))) := by
  have hf : n.HasPart (.mask (lin.toNat / 64)) := ⟨⟨m, hc⟩, hlin⟩
  have hpart := ht.part_le (ht.has_child hn) hf
  have hbytes := n.bytes.toNat_lt
  refine h.toNat_part ht hp hn hslot hf ?_
  simp only [Node.partOffset, Node.partSize, Node.maskStart, hc] at hpart ⊢
  have h64 : (64 : UInt64).toNat = 64 := rfl
  have h8 : (8 : UInt64).toNat = 8 := rfl
  rw [UInt64.toNat_add, UInt64.toNat_mul, UInt64.toNat_div, h64, h8]
  omega

theorem toNat_addressSlot (hc : n.container = .pointer) {lin : UInt64}
    (hlin : lin.toNat < n.cells.toNat) :
    (addressSlot slot lin).toNat = g.datumStart (.part p n (.entry lin.toNat)) := by
  have hf : n.HasPart (.entry lin.toNat) := ⟨hc, hlin⟩
  have hpart := ht.part_le (ht.has_child hn) hf
  have hbytes := n.bytes.toNat_lt
  refine h.toNat_part ht hp hn hslot hf ?_
  simp only [Node.partOffset, Node.partSize] at hpart ⊢
  have h8 : (8 : UInt64).toNat = 8 := rfl
  rw [UInt64.toNat_mul, h8]
  omega

theorem toNat_headSlot (hc : n.container = .dynamic axis cap bytes) :
    (headSlot slot).toNat = g.datumStart (.part p n .head) :=
  h.toNat_part ht hp hn hslot (f := .head) ⟨axis, cap, bytes, hc⟩ rfl

theorem toNat_cellAt (hi : n.isInline) {lin : UInt64} (hk : n.Numbers lin.toNat) :
    (n.cellAt slot lin).toNat = g.cellStart ((n, lin.toNat) :: p) := by
  have hend := h.cell_end_le ht hp
  have hhas := hp.locates.has ht
  have hle := ht.slot_le hhas hn
  have hcell := ht.cell_le (ht.has_child hn) hi hk (ht.kind_ne_root hhas hn)
  have hmul : (lin * n.cellSize).toNat = lin.toNat * n.cellSize.toNat := by
    rw [UInt64.toNat_mul]
    exact Nat.mod_eq_of_lt (by omega)
  unfold Node.cellAt
  rw [Address.toNat_add (by omega), hslot, hmul]
  unfold Contents.cellStart
  rw [Layout.region_inline hi, Layout.offset_inline hi]
  omega

omit ht hslot in
/-- The datum with the link to a chunk that a list has, or to the next one. -/
theorem hasDatum_linkTo (hc : n.container = .dynamic axis cap bytes) {j : Nat}
    (hj : j ≤ (g.chunks p n).length) : g.HasDatum t (Datum.linkTo p n j) := by
  cases j with
  | zero => exact hp.hasDatum h.sound hn ⟨axis, cap, bytes, hc⟩
  | succ j =>
    refine ⟨⟨hp.locates, hn, axis, cap, bytes, hc⟩, ?_⟩
    simpa [Datum.linkTo, Datum.region, Contents.base] using hj

omit hslot in
/-- The links of a list lead to its chunks in order. -/
theorem follow (hc : n.container = .dynamic axis cap bytes) {i j : Nat}
    (hij : j + i < (g.chunks p n).length) (ha : a.toNat = g.datumStart (Datum.linkTo p n j)) :
    ∃ b, s.follow a i = .ok b ∧ b.toNat = g.start (.chunk p n (j + i)) := by
  induction i generalizing j a with
  | zero =>
    obtain ⟨b, hb, hbn⟩ := h.link ht (h.hasDatum_linkTo hp hn hc (j := j) (by omega)) ha
      (Datum.size_linkTo p n j) (g.value_linkTo p n j)
    exact ⟨b, hb, hbn⟩
  | succ i ih =>
    obtain ⟨b, hb, hbn⟩ := h.link ht (h.hasDatum_linkTo hp hn hc (j := j) (by omega)) ha
      (Datum.size_linkTo p n j) (g.value_linkTo p n j)
    obtain ⟨b', hb', hbn'⟩ := ih (j := j + 1) (a := b) (by omega) hbn
    refine ⟨b', ?_, ?_⟩
    · rw [Store.follow, hb]
      exact hb'
    · rw [hbn', Nat.add_assoc, Nat.add_comm 1]

/-- The element of a list whose chunks cover it. -/
theorem element (hc : n.container = .dynamic axis cap bytes) {e : UInt64}
    (he : e.toNat < n.capacity * (g.chunks p n).length) :
    ∃ b, s.element n slot e = .ok b ∧ b.toNat = g.cellStart ((n, e.toNat) :: p) := by
  have hhas := ht.has_child hn
  obtain ⟨hcap, hpos⟩ := ht.capacity_eq hhas hc
  have hdiv : e.toNat / n.capacity < (g.chunks p n).length := Nat.div_lt_of_lt_mul he
  have hnum : (e / n.chunkCapacity).toNat = e.toNat / n.capacity := UInt64.toNat_div ..
  obtain ⟨b, hb, hbn⟩ := h.follow ht hp hn hc (j := 0) (i := e.toNat / n.capacity)
    (by omega) (h.toNat_headSlot ht hp hn hslot hc)
  rw [Nat.zero_add] at hbn
  refine ⟨n.elementAt b e, ?_, ?_⟩
  · rw [Store.element, hnum, hb]
    rfl
  · -- the element lies in its chunk
    have hbase : (g.base (.chunk p n (e.toNat / n.capacity))).isSome := by
      simpa [Contents.base] using hdiv
    have hlt := (h.covers_region hbase).lt h.owns.valid
    have hs := ht.sized hhas
    simp only [Node.Sized, hc] at hs
    have hmod : e.toNat % n.capacity < cap.toNat := by
      rw [hcap]
      exact Nat.mod_lt _ hpos
    have hcell : e.toNat % n.capacity * n.cellSize.toNat + n.cellSize.toNat ≤
        cap.toNat * n.cellSize.toNat := by
      rw [← Nat.succ_mul]
      exact Nat.mul_le_mul_right _ hmod
    have hsize : 8 + cap.toNat * n.cellSize.toNat ≤ t.regionSize (.chunk p n (e.toNat / n.capacity)) := by
      simp only [Layout.regionSize, Node.blockSize, Layout.Node.blockBytes?, hc, Option.getD_some]
      omega
    have hoff : (8 + e % n.chunkCapacity * n.cellSize).toNat =
        8 + e.toNat % n.capacity * n.cellSize.toNat := by
      have h8 : (8 : UInt64).toNat = 8 := rfl
      have hm : (e % n.chunkCapacity).toNat = e.toNat % n.capacity := UInt64.toNat_mod ..
      rw [UInt64.toNat_add, UInt64.toNat_mul, h8, hm]
      omega
    unfold Node.elementAt
    rw [Address.toNat_add (by omega), hbn, hoff]
    unfold Contents.cellStart
    rw [Layout.region_dynamic hc, Layout.offset_dynamic hc]

theorem listLength (hc : n.container = .dynamic axis cap bytes) :
    ∃ len, s.listLength slot = .ok len ∧ len.toNat = g.length p n := by
  have hf : g.HasDatum t (.part p n .length) := hp.hasDatum h.sound hn ⟨axis, cap, bytes, hc⟩
  obtain ⟨w, hw, hv⟩ := h.load ht hf (h.toNat_slot_part ht hp hn hslot hf.1.2.2 rfl) rfl
  refine ⟨w.toUInt32, ?_, ?_⟩
  · rw [Store.listLength]
    change (do return (← s.load slot 4).toUInt32) = _
    have hw : s.load slot 4 = .ok w := hw
    rw [hw]
    rfl
  · have hlt := h.sound.length_lt p n
    rw [UInt64.toNat_toUInt32, hv]
    exact Nat.mod_eq_of_lt hlt

omit ht hslot in
theorem hasDatum_mask {m : UInt64} (hc : n.container = .bitmasked m) (hk : k < n.cells.toNat) :
    g.HasDatum t (.part p n (.mask (k / 64))) := by
  refine hp.hasDatum h.sound hn ⟨⟨m, hc⟩, ?_⟩
  unfold Node.maskWords
  omega

/-- The mask word of a cell, and the bit of the cell in it. -/
theorem loadMask {m : UInt64} (hc : n.container = .bitmasked m) {lin : UInt64}
    (hk : lin.toNat < n.cells.toNat) :
    ∃ w, s.load (maskWord slot m lin) 8 = .ok w ∧
      w.toNat = g.value (.part p n (.mask (lin.toNat / 64))) ∧
        (w &&& maskBit lin = 0 ↔ ¬ g.mask ((n, lin.toNat) :: p) = true) := by
  have hf := h.hasDatum_mask hp hn hc hk
  obtain ⟨w, hw, hv⟩ := h.load ht hf (h.toNat_maskWord ht hp hn hslot hc hf.1.2.2.2) rfl
  refine ⟨w, hw, hv, ?_⟩
  rw [and_maskBit_eq_zero_iff, hv, Contents.value,
    Nat.testBit_ofBits_lt _ _ (Nat.mod_lt _ (by decide)), Bool.not_eq_true]
  dsimp only
  rw [Nat.div_add_mod']

theorem loadEntry (hc : n.container = .pointer) {lin : UInt64} (hk : lin.toNat < n.cells.toNat) :
    ∃ b, s.link (addressSlot slot lin) = .ok b ∧
      b.toNat = addressNumber (g.block ((n, lin.toNat) :: p)) :=
  h.link ht (hp.hasDatum h.sound hn (f := .entry lin.toNat) ⟨hc, hk⟩) (h.toNat_addressSlot ht hp hn hslot hc hk) rfl rfl

omit ht hp hn hslot in
/-- The address of a region that is in use is not null, and null stands for none. -/
theorem isNull_iff {r : Region} (ha : a.toNat = g.start r) : a.isNull ↔ ¬ (g.base r).isSome := by
  cases hr : g.base r with
  | none =>
    rw [Address.isNull_iff, ha, Contents.start, hr]
    simp [addressNumber]
  | some b =>
    have hab : a = b := Address.ext_toNat (ha.trans (Contents.start_of_base hr))
    have := h.owns.not_null hr
    simp [hab, this]

/-- A cell in use is found where it is. -/
theorem cellNumbered_of_on (hk : n.Numbers k) (hon : g.On n k p) :
    ∃ a, s.cellNumbered n slot k = .ok (some a) ∧ a.toNat = g.cellStart ((n, k) :: p) := by
  have hcells {c : Nat} (hc : c < n.cells.toNat) : (UInt64.ofNat c).toNat = c :=
    UInt64.toNat_ofNat_of_lt' (Nat.lt_trans hc n.cells.toNat_lt)
  unfold Store.cellNumbered
  unfold Contents.On at hon
  cases hc : n.container with
  | dense =>
    -- dense cells lie one behind the other
    simp only [Node.Numbers, hc] at hk
    refine ⟨_, rfl, ?_⟩
    rw [h.toNat_cellAt ht hp hn hslot (by simp [Node.isInline, hc])
      (by simpa [Node.Numbers, hc, hcells hk] using hk), hcells hk]
  | bitmasked m =>
    simp only [Node.Numbers, hc] at hk
    simp only [hc] at hon
    have hk' := (hcells hk).symm ▸ hk
    obtain ⟨w, hw, -, hbit⟩ := h.loadMask ht hp hn hslot hc hk'
    rw [hcells hk] at hbit
    -- the bit that is read is set, as the cell is on
    have hset : ¬ (w &&& maskBit (.ofNat k) = 0) := fun h0 => hbit.1 h0 hon
    refine ⟨n.cellAt slot (.ofNat k), ?_, ?_⟩
    · simp only
      rw [hw]
      simp only [bind, Except.bind, pure, Except.pure, if_neg hset]
    · rw [h.toNat_cellAt ht hp hn hslot (by simp [Node.isInline, hc])
        (by simpa [Node.Numbers, hc] using hk'), hcells hk]
  | pointer =>
    simp only [Node.Numbers, hc] at hk
    simp only [hc] at hon
    obtain ⟨b, hb, hv⟩ := h.loadEntry ht hp hn hslot hc ((hcells hk).symm ▸ hk)
    rw [hcells hk] at hv
    -- a cell that is on has a block, which is not null
    have hnull := h.isNull_iff (r := .block ((n, k) :: p)) hv
    refine ⟨b, ?_, ?_⟩
    · simp only
      rw [hb]
      have : b.isNull = false := by
        rw [Bool.eq_false_iff]
        exact fun hn => hnull.1 hn hon
      simp [bind, Except.bind, pure, Except.pure, this]
    · unfold Contents.cellStart
      rw [Layout.region_pointer hc, hv]
      simp only [Position.offset, hc, Nat.add_zero]
      rfl
  | dynamic axis cap bytes =>
    simp only [hc] at hon
    obtain ⟨len, hlen, hl⟩ := h.listLength ht hp hn hslot hc
    have hlt := h.sound.length_lt p n
    have hle := h.sound.length_le p n
    have hk64 : (UInt64.ofNat k).toNat = k := UInt64.toNat_ofNat_of_lt' (by
      unfold UInt64.size
      omega)
    -- the element is below the length, so the walk along the chunks ends at it
    obtain ⟨b, hb, hbn⟩ := h.element ht hp hn hslot hc (e := .ofNat k) (by omega)
    rw [hk64] at hbn
    refine ⟨b, ?_, hbn⟩
    simp only
    rw [hlen]
    simp only [bind, Except.bind]
    rw [if_neg (by omega), hb]
    rfl
  | root | bitStruct | bitArray | place =>
    refine ⟨slot, rfl, ?_⟩
    simp only [Node.Numbers, hc] at hk
    unfold Contents.cellStart
    rw [Layout.region_inline (by simp [Node.isInline, hc]),
      Layout.offset_inline (by simp [Node.isInline, hc]), hslot, hk]
    unfold Contents.cellStart
    omega

/-- A cell that is not in use is not found. -/
theorem cellNumbered_of_off (hk : n.Numbers k) (hoff : ¬ g.On n k p) :
    s.cellNumbered n slot k = .ok none := by
  have hcells {c : Nat} (hc : c < n.cells.toNat) : (UInt64.ofNat c).toNat = c :=
    UInt64.toNat_ofNat_of_lt' (Nat.lt_trans hc n.cells.toNat_lt)
  unfold Store.cellNumbered
  unfold Contents.On at hoff
  cases hc : n.container with
  | bitmasked m =>
    simp only [Node.Numbers, hc] at hk
    simp only [hc] at hoff
    obtain ⟨w, hw, -, hbit⟩ := h.loadMask ht hp hn hslot hc ((hcells hk).symm ▸ hk)
    rw [hcells hk] at hbit
    simp only
    rw [hw]
    simp only [bind, Except.bind, pure, Except.pure, if_pos (hbit.2 hoff)]
  | pointer =>
    simp only [Node.Numbers, hc] at hk
    simp only [hc] at hoff
    obtain ⟨b, hb, hv⟩ := h.loadEntry ht hp hn hslot hc ((hcells hk).symm ▸ hk)
    rw [hcells hk] at hv
    have hnull := (h.isNull_iff (r := .block ((n, k) :: p)) hv).2 hoff
    simp only
    rw [hb]
    simp [bind, Except.bind, pure, Except.pure, hnull]
  | dynamic axis cap bytes =>
    simp only [hc] at hoff
    obtain ⟨len, hlen, hl⟩ := h.listLength ht hp hn hslot hc
    simp only
    rw [hlen]
    simp only [bind, Except.bind]
    rw [if_pos (by omega)]
    rfl
  | dense | root | bitStruct | bitArray | place => simp [hc] at hoff

omit hp hn hslot in
/-- A cell is in use when it is found, and is found where it is. -/
theorem locate_of_active {p : Position} (hp : g.Active t p) :
    ∃ a, s.locate p = .ok (some a) ∧ a.toNat = g.cellStart p := by
  induction p with
  | nil => exact ⟨s.root, rfl, by rw [← h.root_eq]; rfl⟩
  | cons x p ih =>
    obtain ⟨n, k⟩ := x
    obtain ⟨hp, hn, hk, hon⟩ := hp
    obtain ⟨cell, hcell, hstart⟩ := ih hp
    obtain ⟨a, ha, hastart⟩ :=
      h.cellNumbered_of_on ht hp hn (h.toNat_slot ht hp hn hstart) hk hon
    refine ⟨a, ?_, hastart⟩
    rw [locate, hcell]
    exact ha

omit hp hn hslot in
theorem locate_of_not_active {p : Position} (hl : t.Locates p) (hp : ¬ g.Active t p) :
    s.locate p = .ok none := by
  induction p with
  | nil => exact absurd trivial hp
  | cons x p ih =>
    obtain ⟨n, k⟩ := x
    obtain ⟨hl, hn, hk⟩ := hl
    rw [locate]
    by_cases hq : g.Active t p
    · obtain ⟨cell, hcell, hstart⟩ := h.locate_of_active ht hq
      rw [hcell]
      exact h.cellNumbered_of_off ht hq hn (h.toNat_slot ht hq hn hstart) hk fun hon =>
        hp ⟨hq, hn, hk, hon⟩
    · rw [ih hl hq]
      rfl

end Represents

end Store

end SparseLayout
