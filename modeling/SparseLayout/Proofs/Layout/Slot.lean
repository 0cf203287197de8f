import SparseLayout.Proofs.Contents
import SparseLayout.Proofs.Layout.Branch
import SparseLayout.Store.Cells

namespace SparseLayout

open Layout (Node Datum Part)

/-- The position of the cell that `n` has in the cells of its parent, and the node, that hold the
word of a place. The places in a bit container share its word. -/
def wordKey (n : Node) : Position → Position × Node
  | (p, k) :: q => if p.type.isBitLevel then (q, p) else ((p, k) :: q, n)
  | [] => ([], n)

namespace DataType

/-- The value of a member in a word of memory. -/
def inSlot (d : DataType) (slot : ValueSlot) (w : Nat) : Scalar :=
  match slot.bitOffset with
  | some offset => d.extract (.ofNat w) offset
  | none => d.decode (.ofNat w)

/-- A word of memory with the value of a member in it. -/
def intoSlot (d : DataType) (slot : ValueSlot) (w : Nat) (v : Scalar) : Nat :=
  (match slot.bitOffset with
  | some offset => d.insert (.ofNat w) offset v
  | none => d.encode v).toNat % 256 ^ slot.bytes

end DataType

namespace Layout

variable {t : Layout} {p n : Node} {q : Position} {info : PlaceInfo}

theorem Branching.parentNode_eq (ht : t.Branching) (hp : t.Has p) (hn : n ∈ t.childNodes p) :
    t.parentNode n = .ok p := by
  have hhas : t.nodes[p.id]? = some p := hp
  unfold parentNode
  rw [ht.parent_eq hp hn, Option.bind_some, hhas]

theorem WellFormed.place_container (ht : t.WellFormed) (hn : t.Has n) (hk : n.kind = .place info) :
    n.container = .place := (ht.typed hn).container_of_place hk

/-- The cell of a place is the only one of its container. -/
theorem WellFormed.place_of_place (ht : t.WellFormed) (hp : t.Has p) (hn : n ∈ t.childNodes p)
    (hk : n.kind = .place info) (target : Node) (c : Coords) :
    t.place target c n = (n, 0) :: t.place target c p := by
  rw [ht.place_child target c hp hn, Node.number, ht.place_container (ht.has_child hn) hk]

/-- The only child of a list, if it is a place, is one outside bit containers. -/
theorem onlyPlace {axis : Axis} {dim chunk : UInt32}
    (hk : n.kind = .dynamic axis dim chunk) {m : Node} (hm : t.onlyPlace? n = some m) :
    m ∈ t.childNodes n ∧ n.type.isBitLevel = false := by
  constructor
  · unfold onlyPlace? at hm
    cases hch : t.childNodes n with
    | nil => simp [hch] at hm
    | cons a l =>
      cases l with
      | nil => simp_all
      | cons b l => simp [hch] at hm
  · unfold Node.type
    rw [hk]
    rfl

theorem byteSize_pos {d : DataType} {b : UInt32} (h : d.byteSize = some b) : 0 < b.toNat := by
  cases d with
  | int w | uint w =>
    cases w <;> cases h <;> decide
  | half | single | double =>
    cases h
    decide
  | quantInt | quantFloat => cases h

/-- The bytes of a bit container's word. -/
theorem WellFormed.word_bytes (ht : t.WellFormed) (hn : t.Has n) {width : UInt32}
    (hw : n.kind.wordBits? = some width) (hc : n.container = .bitStruct ∨ n.container = .bitArray) :
    (width / 8).toNat = n.bytes.toNat ∧ 0 < n.bytes.toNat := by
  obtain ⟨hmem, hsize⟩ := ht.word hn hw
  have hs := ht.sized hn
  have hb : n.bytes = n.cellSize := by
    unfold Node.Sized at hs
    rcases hc with hc | hc <;> simpa only [hc] using hs
  rw [hb, hsize, UInt32.toNat_div]
  have h8 : (8 : UInt32).toNat = 8 := rfl
  simp only [List.mem_cons, List.not_mem_nil, or_false] at hmem
  rcases hmem with rfl | rfl | rfl | rfl <;> decide

theorem WellFormed.type_ne_place (ht : t.WellFormed) (hp : t.Has p) (hn : n ∈ t.childNodes p) :
    p.type ≠ .place := by
  intro h
  have hw : p.isWord := by
    rw [ht.type_eq hp] at h
    unfold Node.isWord
    cases hc : p.container <;> simp_all [Container.type]
  have hb := (ht.below_word hp hn hw).1
  rw [h] at hb
  cases hb

/-- A place outside bit containers has the bytes of its type. -/
theorem WellFormed.scalar_bytes (ht : t.WellFormed) (hp : t.Has p) (hn : n ∈ t.childNodes p)
    (hk : n.kind = .place info) (hb : p.type.isBitLevel = false) :
    n.cellSize.toNat = n.bytes.toNat ∧ 0 < n.bytes.toNat ∧
      info.member.dtype.byteSize.map (·.toNat) = some n.bytes.toNat := by
  have hhas := ht.has_child hn
  have hs := ht.sized hhas
  have hc := ht.place_container hhas hk
  simp only [Node.Sized, hc] at hs
  have hw : ¬ p.isWord := by
    intro hw
    rw [(ht.below_word hp hn hw).1] at hb
    cases hb
  obtain ⟨b, hd, hsize⟩ := ht.scalar hp hn hw hk
  rw [hs, hd, Option.map_some, hsize]
  exact ⟨rfl, byteSize_pos hd, rfl⟩

theorem wordKey_of_bits {k : Nat} (n : Node) (hb : p.type.isBitLevel = true) :
    wordKey n ((p, k) :: q) = (q, p) := if_pos hb

theorem wordKey_of_bytes (n : Node) (hq : (t.nodeAt q).type.isBitLevel = false) :
    wordKey n q = (q, n) := by
  cases q with
  | nil => rfl
  | cons x q =>
    obtain ⟨p, k⟩ := x
    change p.type.isBitLevel = false at hq
    rw [wordKey, hq]
    rfl

theorem WellFormed.isBitLevel_root (ht : t.WellFormed) : t.rootNode.type.isBitLevel = false := by
  unfold Node.type
  rw [ht.root_kind]
  rfl

/-- The word of a place lies where the cell of the place is, and is not empty. -/
theorem WellFormed.word_datum (ht : t.WellFormed) (hl : t.Locates ((n, 0) :: q))
    (hk : n.kind = .place info) :
    t.HasDatum (.part (wordKey n q).1 (wordKey n q).2 .word) ∧
      (Datum.part (wordKey n q).1 (wordKey n q).2 .word).region = Position.region ((n, 0) :: q) ∧
      (Datum.part (wordKey n q).1 (wordKey n q).2 .word).offset = Position.offset ((n, 0) :: q) := by
  obtain ⟨hq, hn, -⟩ := hl
  have hp := hq.has ht
  have hc := ht.place_container (ht.has_child hn) hk
  have hi : n.isInline := by simp [Node.isInline, hc]
  rw [region_inline hi, offset_inline hi, Nat.zero_mul, Nat.add_zero]
  cases hb : (t.nodeAt q).type.isBitLevel with
  | false =>
    rw [wordKey_of_bytes n hb]
    have hpos := (ht.scalar_bytes hp hn hk hb).2.1
    exact ⟨⟨hq, hn, Or.inr (Or.inr hc), hpos⟩, rfl, rfl⟩
  | true =>
    cases q with
    | nil =>
      change t.rootNode.type.isBitLevel = true at hb
      rw [ht.isBitLevel_root] at hb
      cases hb
    | cons x q =>
      -- a bit container has one cell at offset zero, so its places lie where it does
      obtain ⟨p, k⟩ := x
      change p.type.isBitLevel = true at hb
      change t.Has p at hp
      obtain ⟨hq, hpq, hk0⟩ := hq
      have hcp := (ht.typed hp).isBitLevel_iff.1 hb
      have hw : p.isWord := hcp.imp_right Or.inl
      have hip : p.isInline := by
        unfold Node.isInline
        rcases hcp with hc | hc <;> simp [hc]
      have hk0 : k = 0 := by
        unfold Node.Numbers at hk0
        rcases hcp with hc | hc <;> simpa [hc] using hk0
      have hoff := (ht.below_word hp hn hw).2.2.2
      obtain ⟨width, hwidth⟩ : ∃ width, p.kind.wordBits? = some width := by
        cases ht.level hp with
        | bitStruct hk _ | bitArray hk _ => exact ⟨_, by rw [hk]; rfl⟩
        | pointer _ hc | bitmasked _ hc | dynamic _ hc | root _ hc | dense _ hc | place _ hc =>
          simp [hc] at hcp
      have hpos := (ht.word_bytes hp hwidth hcp).2
      rw [wordKey_of_bits n hb]
      refine ⟨⟨hq, hpq, hw, hpos⟩, (region_inline hip).symm, ?_⟩
      rw [offset_inline hip, hoff, hk0]
      simp [Datum.offset, Node.partOffset]

/-- The slot of a place has the size of its word. -/
theorem WellFormed.valueSlot_eq (ht : t.WellFormed) (hl : t.Locates ((n, 0) :: q))
    (hk : n.kind = .place info) (c : Coords) :
    ∃ slot, t.valueSlot n c = .ok slot ∧ slot.bytes = (wordKey n q).2.bytes.toNat := by
  obtain ⟨hq, hn, -⟩ := hl
  have hp := hq.has ht
  have hparent := ht.parentNode_eq hp hn
  unfold valueSlot
  rw [hparent]
  simp only [hk, bind, Except.bind, pure, Except.pure]
  have bits {width : UInt32} (hw : (t.nodeAt q).kind.wordBits? = some width)
      (hb : (t.nodeAt q).type.isBitLevel = true) :
      (width / 8).toNat = (wordKey n q).2.bytes.toNat := by
    rw [(ht.word_bytes hp hw ((ht.typed hp).isBitLevel_iff.1 hb)).1]
    cases q with
    | nil =>
      change t.rootNode.type.isBitLevel = true at hb
      rw [ht.isBitLevel_root] at hb
      cases hb
    | cons x q =>
      obtain ⟨p, k⟩ := x
      exact (congrArg (·.2.bytes.toNat) (wordKey_of_bits n hb)).symm
  have bytes (hb : (t.nodeAt q).type.isBitLevel = false) :
      n.cellSize.toNat = (wordKey n q).2.bytes.toNat := by
    rw [wordKey_of_bytes n hb]
    exact (ht.scalar_bytes hp hn hk hb).1
  unfold Node.type at bits bytes
  generalize (t.nodeAt q).kind = kind at bits bytes ⊢
  cases kind with
  | bitStruct width => exact ⟨_, rfl, bits rfl rfl⟩
  | bitArray ds width => exact ⟨_, rfl, bits rfl rfl⟩
  | _ => exact ⟨_, rfl, bytes rfl⟩

/-- The word of a place is in the cell of the place or of its bit container. -/
theorem WellFormed.wordKey_cases (ht : t.WellFormed) (hl : t.Locates ((n, 0) :: q)) :
    (wordKey n q).1 = q ∨ ∃ p, q = (p, 0) :: (wordKey n q).1 ∧ p.type.isBitLevel = true := by
  cases hb : (t.nodeAt q).type.isBitLevel with
  | false => exact Or.inl (by rw [wordKey_of_bytes n hb])
  | true =>
    right
    cases q with
    | nil =>
      change t.rootNode.type.isBitLevel = true at hb
      rw [ht.isBitLevel_root] at hb
      cases hb
    | cons y q =>
      obtain ⟨p, i⟩ := y
      change p.type.isBitLevel = true at hb
      have hnum := hl.1.2.2
      unfold Node.Numbers at hnum
      obtain rfl : i = 0 := by
        rcases (ht.typed (ht.has_child hl.1.2.1)).isBitLevel_iff.1 hb with hc | hc <;>
          simpa only [hc] using hnum
      exact ⟨p, by rw [wordKey_of_bits n hb], hb⟩

theorem Node.not_sparse_of_place (hk : n.kind = .place info) : n.type.isSparse = false := by
  rw [Node.type, hk]
  rfl

/-- A sparse node that is not bitmasked holds its cells in blocks. -/
theorem WellFormed.isInline_of_sparse (ht : t.WellFormed) (hn : t.Has n)
    (hs : n.type.isSparse = true) : n.isInline ↔ n.type = .bitmasked := by
  rw [ht.type_eq hn] at hs ⊢
  unfold Node.isInline
  cases hc : n.container <;> simp_all [Container.type, NodeType.isSparse]

theorem WellFormed.sparse_of_not_isInline (ht : t.WellFormed) (hn : t.Has n)
    (hi : ¬ n.isInline) : n.type.isSparse = true := by
  rw [ht.isSparse_iff hn]
  rcases n.kinds with hc | hc | hc
  · exact Or.inl hc
  · exact Or.inr (Or.inr hc)
  · exact absurd hc hi

/-- A cell of a sparse node around a place is around the word of the place. -/
theorem WellFormed.suffix_wordKey (ht : t.WellFormed) (hl : t.Locates ((n, 0) :: q))
    (hk : n.kind = .place info) {l : Node} {j : Nat} {x : Position}
    (hs : (l, j) :: x <:+ (n, 0) :: q) (hsp : l.type.isSparse = true) :
    (l, j) :: x <:+ (wordKey n q).1 := by
  have htail : (l, j) :: x <:+ q := by
    rcases List.suffix_cons_iff.1 hs with he | hs
    · cases he
      rw [Node.not_sparse_of_place hk] at hsp
      cases hsp
    · exact hs
  rcases ht.wordKey_cases hl with he | ⟨b, he, hb⟩
  · rwa [he]
  · rw [he] at htail
    rcases List.suffix_cons_iff.1 htail with he | hs
    · cases he
      cases hty : l.type <;> rw [hty] at hb hsp <;> simp [NodeType.isBitLevel, NodeType.isSparse] at hb hsp
    · exact hs

end Layout

namespace Contents

variable {t : Layout} {g : Contents} {n : Node} {q : Position} {info : PlaceInfo}

/-- The word of a place in an active cell is in memory, where the cell of the place is. -/
theorem Active.word (ht : t.WellFormed) (hs : g.Sound t) (ha : g.Active t ((n, 0) :: q))
    (hk : n.kind = .place info) :
    g.HasDatum t (.part (wordKey n q).1 (wordKey n q).2 .word) ∧
      g.datumStart (.part (wordKey n q).1 (wordKey n q).2 .word) = g.cellStart ((n, 0) :: q) := by
  obtain ⟨hf, hr, ho⟩ := ht.word_datum ha.locates hk
  refine ⟨⟨hf, ?_⟩, ?_⟩
  · rw [hr]
    exact ha.base_isSome hs
  · rw [datumStart, hr, ho, cellStart]

end Contents

end SparseLayout
