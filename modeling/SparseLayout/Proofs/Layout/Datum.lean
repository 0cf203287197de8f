import SparseLayout.Proofs.Layout.Region

namespace SparseLayout

namespace Layout

variable {t : Layout} {p q r : Position} {m n : Node} {k l : Nat}

/-- What a container keeps besides its cells. -/
inductive Part
  /-- A word of the mask. -/
  | mask (w : Nat)
  /-- The address of a block. -/
  | entry (k : Nat)
  /-- The length of a list. -/
  | length
  /-- The first chunk of a list. -/
  | head
  /-- The word of a bit container, or the scalar of a place. -/
  | word
  deriving DecidableEq

namespace Node

/-- The words of the mask. -/
def maskWords (n : Node) : Nat := (n.cells.toNat + 63) / 64

/-- The number of the first cell of a mask word. -/
theorem toNat_maskCell (n : Node) {w : Nat} (hw : w < n.maskWords) :
    (UInt64.ofNat w * 64).toNat = w * 64 := by
  have hcells := n.cells.toNat_lt
  unfold maskWords at hw
  rw [UInt64.toNat_mul, UInt64.toNat_ofNat_of_lt' (by unfold UInt64.size; omega)]
  exact Nat.mod_eq_of_lt (show w * 64 < 2 ^ 64 by omega)

def maskStart (n : Node) : Nat :=
  match n.container with
  | .bitmasked maskOffset => maskOffset.toNat
  | _ => 0

def HasPart (n : Node) : Part → Prop
  | .mask w => (∃ m, n.container = .bitmasked m) ∧ w < n.maskWords
  | .entry k => n.container = .pointer ∧ k < n.cells.toNat
  | .length | .head => ∃ axis c b, n.container = .dynamic axis c b
  | .word => n.isWord ∧ 0 < n.bytes.toNat

def partOffset (n : Node) : Part → Nat
  | .mask w => n.maskStart + 8 * w
  | .entry k => 8 * k
  | .length | .word => 0
  | .head => 8

def partSize (n : Node) : Part → Nat
  | .mask _ | .entry _ | .head => 8
  | .length => 4
  | .word => n.bytes.toNat

end Node

/-- A part of the container of `n` in a cell, or the link at the start of a chunk. -/
inductive Datum
  | part (p : Position) (n : Node) (f : Part)
  | link (p : Position) (n : Node) (i : Nat)
  deriving DecidableEq

namespace Datum

def region : Datum → Region
  | part p _ _ => Position.region p
  | link p n i => .chunk p n i

def offset : Datum → Nat
  | part p n f => Position.offset p + n.offset.toNat + n.partOffset f
  | link .. => 0

def size : Datum → Nat
  | part _ n f => n.partSize f
  | link .. => 8

end Datum

/-- The datum belongs to the tree. -/
def HasDatum (t : Layout) : Datum → Prop
  | .part p n f => t.Locates p ∧ n ∈ t.childNodes (t.nodeAt p) ∧ n.HasPart f
  | .link p n _ => t.Locates p ∧ n ∈ t.childNodes (t.nodeAt p) ∧
    ∃ axis c b, n.container = .dynamic axis c b

theorem WellFormed.part_le (ht : t.WellFormed) (hn : t.Has n) {f : Part} (h : n.HasPart f) :
    n.partOffset f + n.partSize f ≤ n.bytes.toNat := by
  have hs := ht.sized hn
  unfold Node.Sized at hs
  cases f with
  | mask w =>
    obtain ⟨⟨m, hm⟩, hw⟩ := h
    simp only [hm] at hs
    simp only [Node.partOffset, Node.partSize, Node.maskStart, hm, Node.maskWords] at hw ⊢
    omega
  | entry k =>
    obtain ⟨hc, hk⟩ := h
    simp only [hc] at hs
    simp only [Node.partOffset, Node.partSize]
    omega
  | length | head =>
    obtain ⟨axis, c, b, hc⟩ := h
    simp only [hc] at hs
    simp only [Node.partOffset, Node.partSize]
    omega
  | word => simp only [Node.partOffset, Node.partSize]; omega

/-- Different parts of one container lie apart. -/
theorem part_apart {f g : Part} (hf : n.HasPart f) (hg : n.HasPart g) (hne : f ≠ g) :
    Apart (n.partOffset f) (n.partSize f) (n.partOffset g) (n.partSize g) := by
  unfold Apart
  -- containers of different kinds have no kind of part in common
  cases f with
  | mask w =>
    obtain ⟨⟨m, hm⟩, -⟩ := hf
    cases g with
    | mask v =>
      have : w ≠ v := fun h => hne (h ▸ rfl)
      simp only [Node.partOffset, Node.partSize]
      omega
    | _ => simp [Node.HasPart, Node.isWord, hm] at hg
  | entry k =>
    cases g with
    | entry l =>
      have : k ≠ l := fun h => hne (h ▸ rfl)
      simp only [Node.partOffset, Node.partSize]
      omega
    | _ => simp [Node.HasPart, Node.isWord, hf.1] at hg
  | length | head =>
    obtain ⟨axis, c, b, hc⟩ := hf
    cases g with
    | length | head => simp_all [Node.partOffset, Node.partSize]
    | _ => simp [Node.HasPart, Node.isWord, hc] at hg
  | word =>
    obtain ⟨hw, -⟩ := hf
    cases g with
    | word => exact absurd rfl hne
    | mask v =>
      obtain ⟨⟨m, hm⟩, -⟩ := hg
      simp [Node.isWord, hm] at hw
    | entry l => simp [Node.isWord, hg.1] at hw
    | length | head =>
      obtain ⟨axis, c, b, hc⟩ := hg
      simp [Node.isWord, hc] at hw

/-- A range of bytes of a container in which no cell lies. -/
def Node.Clear (n : Node) (start size : Nat) : Prop :=
  start + size ≤ n.bytes.toNat ∧ ∀ k, n.isInline → n.Numbers k → ¬ n.isWord →
    Apart start size (k * n.cellSize.toNat) n.cellSize.toNat

/-- Parts of a container lie apart from the cells in it. -/
theorem WellFormed.part_clear (ht : t.WellFormed) (hn : t.Has n) {f : Part} (hf : n.HasPart f) :
    n.Clear (n.partOffset f) (n.partSize f) := by
  refine ⟨ht.part_le hn hf, ?_⟩
  intro k hi hk hw
  have hs := ht.sized hn
  unfold Node.Sized at hs
  unfold Node.Numbers at hk
  unfold Node.isInline at hi
  cases f with
  | mask w =>
    obtain ⟨⟨m, hm⟩, -⟩ := hf
    simp only [hm] at hs hk
    simp only [Node.partOffset, Node.partSize, Node.maskStart, hm]
    have : k * n.cellSize.toNat + n.cellSize.toNat ≤ n.cells.toNat * n.cellSize.toNat := by
      rw [← Nat.succ_mul]
      exact Nat.mul_le_mul_right _ hk
    exact Or.inr (by omega)
  | entry l => simp [hf.1] at hi
  | length | head =>
    obtain ⟨axis, c, b, hc⟩ := hf
    simp [hc] at hi
  | word => exact absurd hf.1 hw

/-- The bytes of a list or of a pointer container hold no cell. -/
theorem Node.clear_of_not_inline (hi : ¬ n.isInline) : n.Clear 0 n.bytes.toNat :=
  ⟨by omega, fun _ h => absurd h hi⟩

/-- Below a bit container or a place there is nothing but places without bytes. -/
theorem WellFormed.isWord_below (ht : t.WellFormed) (hp : t.Locates (r ++ p))
    (hw : (t.nodeAt p).isWord) : (t.nodeAt (r ++ p)).isWord := by
  induction r with
  | nil => exact hw
  | cons x r ih => exact Or.inr (Or.inr (ht.below_word (hp.1.has ht) hp.2.1 (ih hp.1)).2.1)

theorem WellFormed.not_isWord_of_bytes (ht : t.WellFormed) (hp : t.Locates p)
    (hn : n ∈ t.childNodes (t.nodeAt p)) (hb : 0 < n.bytes.toNat) : ¬ (t.nodeAt p).isWord := by
  intro hw
  rw [(ht.below_word (hp.has ht) hn hw).2.2.1] at hb
  exact absurd hb (by decide)

theorem Node.HasPart.size_pos {f : Part} (hf : n.HasPart f) : 0 < n.partSize f := by
  cases f with
  | word => exact hf.2
  | _ => exact Nat.succ_pos _

theorem WellFormed.not_isWord_of_datum (ht : t.WellFormed) {f : Part}
    (h : t.HasDatum (.part p n f)) : ¬ (t.nodeAt p).isWord := by
  have hle := ht.part_le (ht.has_child h.2.1) h.2.2
  have hpos := h.2.2.size_pos
  exact ht.not_isWord_of_bytes h.1 h.2.1 (by omega)

/-- A part of a container lies in the cell around the container. -/
theorem WellFormed.part_within (ht : t.WellFormed) {f : Part} (h : t.HasDatum (.part p n f)) :
    p.offset ≤ (Datum.part p n f).offset ∧
      (Datum.part p n f).offset + (Datum.part p n f).size ≤
        p.offset + (t.nodeAt p).cellSize.toNat := by
  obtain ⟨hp, hn, hf⟩ := h
  have h1 := ht.slot_le (hp.has ht) hn
  have h2 := ht.part_le (ht.has_child hn) hf
  simp only [Datum.offset, Datum.size]
  omega

/-- A clear range of a container lies apart from a cell below the cell around the container. -/
theorem WellFormed.clear_apart_nested (ht : t.WellFormed) (hq : t.Locates q)
    (hm : m ∈ t.childNodes (t.nodeAt q)) {u len : Nat} (hc : m.Clear u len) (hp : t.Locates p)
    (hw : ¬ (t.nodeAt p).isWord) (hn : t.Nested p q) :
    Apart (q.offset + m.offset.toNat + u) len p.offset (t.nodeAt p).cellSize.toNat := by
  obtain ⟨r, ⟨n, l⟩, rfl, hi, hwi⟩ := hn
  have hi : n.isInline := hi
  have hx : t.Locates ((n, l) :: q) := hp.suffix (List.suffix_append _ _)
  have hle := hc.1
  refine Apart.mono ?_ (Nat.le_refl _) (Nat.le_refl _) hwi.1 hwi.2
  change Apart _ _ _ n.cellSize.toNat
  by_cases hmn : m = n
  · subst hmn
    have ha := hc.2 l hi hx.2.2 fun hm => hw (ht.isWord_below hp hm)
    rw [offset_inline hi]
    unfold Apart at *
    omega
  · have hs := ht.slot_apart (hq.has ht) hm hx.2.1 hmn
    have hc := ht.within_slot hx hi
    unfold Apart
    omega

/-- Clear ranges of two containers of one region lie apart. -/
theorem WellFormed.clear_apart (ht : t.WellFormed) (hp : t.Locates p)
    (hn : n ∈ t.childNodes (t.nodeAt p)) (hq : t.Locates q) (hm : m ∈ t.childNodes (t.nodeAt q))
    (hne : (p, n) ≠ (q, m)) {u len v len' : Nat} (hu : n.Clear u len) (hv : m.Clear v len')
    (hwp : ¬ (t.nodeAt p).isWord) (hwq : ¬ (t.nodeAt q).isWord) (h : p.region = q.region) :
    Apart (p.offset + n.offset.toNat + u) len (q.offset + m.offset.toNat + v) len' := by
  have hun := hu.1
  have hvm := hv.1
  have hnp := ht.slot_le (hp.has ht) hn
  have hmq := ht.slot_le (hq.has ht) hm
  rcases ht.apart_or_nested hp hq h with rfl | ha | hn' | hn'
  · have hs := ht.slot_apart (hp.has ht) hn hm fun hnm => hne (hnm ▸ rfl)
    unfold Apart
    omega
  · exact Apart.mono ha (by omega) (by omega) (by omega) (by omega)
  · have ha := ht.clear_apart_nested hq hm hv hp hwp hn'
    exact (Apart.mono ha (Nat.le_refl _) (Nat.le_refl _) (by omega) (by omega)).symm
  · have ha := ht.clear_apart_nested hp hn hu hq hwq hn'
    exact Apart.mono ha (Nat.le_refl _) (Nat.le_refl _) (by omega) (by omega)

/-- Two data of one region lie apart. -/
theorem WellFormed.datum_apart (ht : t.WellFormed) {f g : Datum} (hf : t.HasDatum f)
    (hg : t.HasDatum g) (hne : f ≠ g) (h : f.region = g.region) :
    Apart f.offset f.size g.offset g.size := by
  -- the link of a chunk is in front of all parts in the chunk
  have link {p q : Position} {n m : Node} {i : Nat} {g : Part} (hg : t.HasDatum (.part q m g))
      (h : Region.chunk p n i = Position.region q) :
      Apart 0 8 (Datum.part q m g).offset (Datum.part q m g).size := by
    have h1 := link_le_offset h.symm
    have h2 := (ht.part_within hg).1
    exact Or.inl (by omega)
  cases f with
  | link p n i =>
    cases g with
    | link q m j =>
      exact absurd (by simpa [Datum.region] using h) hne
    | part q m g => exact link hg h
  | part p n f =>
    cases g with
    | link q m j => exact (link hf h.symm).symm
    | part q m g =>
      by_cases hpn : (p, n) = (q, m)
      · cases hpn
        have ha := part_apart hf.2.2 hg.2.2 fun he => hne (he ▸ rfl)
        unfold Apart Datum.offset Datum.size at *
        dsimp only at *
        omega
      · exact ht.clear_apart hf.1 hf.2.1 hg.1 hg.2.1 hpn (ht.part_clear (ht.has_child hf.2.1) hf.2.2)
          (ht.part_clear (ht.has_child hg.2.1) hg.2.2) (ht.not_isWord_of_datum hf)
          (ht.not_isWord_of_datum hg) h

/-- A datum is in a cell or lies apart from it. -/
theorem WellFormed.datum_apart_cell (ht : t.WellFormed) (hp : t.Locates p)
    (hw : ¬ (t.nodeAt p).isWord) {f : Datum} (hf : t.HasDatum f) (h : p.region = f.region)
    (hout : ∀ q n g, f = .part q n g → ¬ p <:+ q) :
    Apart p.offset (t.nodeAt p).cellSize.toNat f.offset f.size := by
  cases f with
  | link q n i => exact Or.inr (link_le_offset h)
  | part q n g =>
    have hqg := ht.part_within hf
    have hs := hout q n g rfl
    rcases ht.apart_or_nested hp hf.1 h with rfl | ha | hn | ⟨r, x, rfl, -⟩
    · exact absurd List.suffix_rfl hs
    · exact Apart.mono ha (Nat.le_refl _) (Nat.le_refl _) hqg.1 hqg.2
    · exact (ht.clear_apart_nested hf.1 hf.2.1 (ht.part_clear (ht.has_child hf.2.1) hf.2.2) hp hw hn).symm
    · exact absurd ((List.suffix_cons _ _).trans (List.suffix_append _ _)) hs

theorem WellFormed.datum_le_regionSize (ht : t.WellFormed) {f : Datum} (hf : t.HasDatum f) :
    f.offset + f.size ≤ t.regionSize f.region := by
  cases f with
  | link p n i => exact Nat.le_max_right _ _
  | part p n f =>
    exact Nat.le_trans (ht.part_within hf).2 (ht.offset_le_regionSize hf.1)

theorem HasDatum.size_pos {f : Datum} (hf : t.HasDatum f) : 0 < f.size := by
  cases f with
  | link p n i => exact Nat.succ_pos _
  | part p n f => exact hf.2.2.size_pos

theorem byteSize_le {d : DataType} {b : UInt32} (h : d.byteSize = some b) : b.toNat ≤ 8 := by
  cases d with
  | int w | uint w =>
    cases w <;> cases h <;> decide
  | half | single | double =>
    cases h
    decide
  | quantInt | quantFloat => cases h

/-- A word of memory is a scalar or bit container of at most eight bytes. -/
theorem WellFormed.bytes_le_of_isWord (ht : t.WellFormed) {p n : Node} (hp : t.Has p)
    (hn : n ∈ t.childNodes p) (hw : n.isWord) : n.bytes.toNat ≤ 8 := by
  have hn' := ht.has_child hn
  have hs := ht.sized hn'
  have width {w : UInt32} (h : n.kind.wordBits? = some w) : n.cellSize.toNat ≤ 8 := by
    obtain ⟨hmem, hsize⟩ := ht.word hn' h
    rw [hsize]
    simp only [List.mem_cons, List.not_mem_nil, or_false] at hmem
    rcases hmem with rfl | rfl | rfl | rfl <;> decide
  unfold Node.Sized at hs
  cases ht.level hn' with
  | bitStruct hk hc | bitArray hk hc =>
    simp only [hc] at hs
    rw [hs]
    exact width (by rw [hk]; rfl)
  | place hk hc =>
    by_cases hpw : p.isWord
    · rw [(ht.below_word hp hn hpw).2.2.1]
      decide
    · simp only [hc] at hs
      obtain ⟨bytes, hb, hsize⟩ := ht.scalar hp hn hpw hk
      rw [hs, hsize]
      exact byteSize_le hb
  | pointer _ hc | bitmasked _ hc | dynamic _ hc | root _ hc | dense _ hc =>
    simp [Node.isWord, hc] at hw

theorem WellFormed.size_le (ht : t.WellFormed) {f : Datum} (hf : t.HasDatum f) : f.size ≤ 8 := by
  cases f with
  | link p n i => exact Nat.le_refl _
  | part p n f =>
    cases f with
    | word => exact ht.bytes_le_of_isWord (hf.1.has ht) hf.2.1 hf.2.2.1
    | length => exact (by decide : 4 ≤ 8)
    | _ => exact Nat.le_refl _

end Layout

end SparseLayout
