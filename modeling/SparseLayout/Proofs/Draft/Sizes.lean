import SparseLayout.Layout.Compile
import SparseLayout.Proofs.Draft.Grown
import SparseLayout.Proofs.Layout.WellFormed
import Mathlib.Algebra.Order.BigOperators.GroupWithZero.List
import Mathlib.Algebra.Order.Ring.Nat

/-!
The sizes of a tree in exact numbers, by the rules of the layout: scalars and words lie at multiples
of their own size, the containers of a cell one after the other at their alignments, and a cell ends
at a multiple of the largest of these.
-/

namespace SparseLayout

open Draft (Node)

/-- The least multiple of the alignment that is at least `v`. -/
def ceilTo (align v : Nat) : Nat := v + (align - v % align) % align

/-- The product of the memory extents of a level. -/
def IndexSpace.exactCells (s : IndexSpace) : Nat := (s.extents.toList.map (·.padded.toNat)).prod

/-- An exact size that is a word stays one when it is rounded up. -/
def Rounds (align v : Nat) : Prop := v < UInt64.size → ceilTo align v < UInt64.size

/-- The sizes of a node in exact numbers; `chunkBytes` is 0 unless the node is a list. -/
structure ExactSize where
  cells : Nat
  cellSize : Nat
  bytes : Nat
  chunkBytes : Nat
  align : Nat

namespace ExactSize

/-- Every size is a word. -/
def IsWords (e : ExactSize) : Prop :=
  e.cells < UInt64.size ∧ e.cellSize < UInt64.size ∧ e.bytes < UInt64.size ∧
    e.chunkBytes < UInt64.size

instance (e : ExactSize) : Decidable e.IsWords := inferInstanceAs (Decidable (_ ∧ _ ∧ _ ∧ _))

/-- Where containers put one after the other end, and their largest alignment. -/
def slots : Nat → Nat → List ExactSize → Nat × Nat
  | cursor, align, [] => (cursor, align)
  | cursor, align, e :: rest => slots (ceilTo e.align cursor + e.bytes) (max align e.align) rest

/-- Size and alignment of a cell. -/
def cell (underBits : Bool) (kind : Kind) (children : List ExactSize) : Nat × Nat :=
  match kind with
  | .place info =>
    let bytes := if underBits then 0 else (info.member.dtype.byteSize.getD 0).toNat
    (bytes, max bytes 1)
  | .bitStruct width | .bitArray _ width => (width.toNat / 8, width.toNat / 8)
  | _ =>
    let end_ := slots 0 1 children
    (ceilTo end_.2 end_.1, end_.2)

/-- Bytes of a container and of a chunk, and the alignment of the container. -/
def container (packing : Packing) (kind : Kind) (cells : Nat) (cell : Nat × Nat) :
    Nat × Nat × Nat :=
  match kind with
  | .root | .place _ => (cell.1, 0, cell.2)
  | .dense _ => (cells * cell.1, 0, cell.2)
  | .bitmasked _ => (ceilTo 8 (cells * cell.1) + 8 * ((cells + 63) / 64), 0, max cell.2 8)
  | .pointer _ => (cells * 8, 0, 8)
  | .dynamic _ _ chunk => (16, 8 + (packing.extent chunk).toNat * cell.1, 8)
  | .bitStruct width | .bitArray _ width => (width.toNat / 8, 0, width.toNat / 8)

/-- The sizes of a node, from those of its children. -/
def ofNode (packing : Packing) (underBits : Bool) (node : Node) (children : List ExactSize) :
    ExactSize :=
  let cell := cell underBits node.kind children
  let container := container packing node.kind node.index.exactCells cell
  ⟨node.index.exactCells, cell.1, container.1, container.2.1, container.2.2⟩

end ExactSize

/-- The exact sizes of the nodes numbered from `id` on. -/
def Draft.exactSizes (d : Draft) : NodeId → List Node → List ExactSize
  | _, [] => []
  | id, n :: rest =>
    let later := d.exactSizes (id + 1) rest
    let children := n.children.filterMap fun c => if id < c then later[c - (id + 1)]? else none
    .ofNode d.packing (d.underBits n) n children :: later

/-- In exact numbers every size is a word, and the members of a bit container fit its word. -/
structure Draft.WellSized (d : Draft) : Prop where
  sizes : ∀ e ∈ d.exactSizes 0 d.nodes.toList, e.IsWords
  struct : ∀ {id : NodeId} {n : Node} {width : UInt32}, d.nodes[id]? = some n →
    n.kind = .bitStruct width → PlaceInfo.totalBits (d.placed id) ≤ width.toNat
  array : ∀ {id : NodeId} {n : Node} {ds : List Division} {width : UInt32},
    d.nodes[id]? = some n → n.kind = .bitArray ds width →
      ∀ i ∈ d.placed id, n.index.exactCells * i.member.dtype.bits.toNat ≤ width.toNat

/-- Whether the members of a node, if it is a bit container, fit its word. -/
def Draft.fitsWord (d : Draft) (id : NodeId) (n : Draft.Node) : Bool :=
  match n.kind with
  | .bitStruct width => PlaceInfo.totalBits (d.placed id) ≤ width.toNat
  | .bitArray _ width => (d.placed id).all fun i =>
    n.index.exactCells * i.member.dtype.bits.toNat ≤ width.toNat
  | _ => true

theorem Draft.wellSized_iff (d : Draft) :
    d.WellSized ↔ (∀ e ∈ d.exactSizes 0 d.nodes.toList, e.IsWords) ∧
      ∀ id : Fin d.nodes.size, d.fitsWord id d.nodes[id] = true := by
  constructor
  · refine fun h => ⟨h.sizes, fun id => ?_⟩
    have hn : d.nodes[id.val]? = some d.nodes[id] := Array.getElem?_eq_getElem id.isLt
    unfold fitsWord
    split <;> rename_i hk
    · exact decide_eq_true (h.struct hn hk)
    · exact List.all_eq_true.2 fun i hi => decide_eq_true (h.array hn hk i hi)
    · rfl
  · rintro ⟨hsizes, hfits⟩
    have fits {id : NodeId} {n : Draft.Node} (hn : d.nodes[id]? = some n) :
        d.fitsWord id n = true := by
      obtain ⟨hid, rfl⟩ := Array.getElem?_eq_some_iff.1 hn
      exact hfits ⟨id, hid⟩
    refine ⟨hsizes, fun hn hk => ?_, fun hn hk i hi => ?_⟩
    · have h := fits hn
      simp only [fitsWord, hk] at h
      exact of_decide_eq_true h
    · have h := fits hn
      simp only [fitsWord, hk] at h
      exact of_decide_eq_true (List.all_eq_true.1 h i hi)

instance (d : Draft) : Decidable d.WellSized := decidable_of_iff _ d.wellSized_iff.symm

theorem le_ceilTo (align v : Nat) : v ≤ ceilTo align v := Nat.le_add_right _ _

/-- Extents are multiplied up to their exact product. -/
theorem IndexSpace.foldlM_checkedMul {l : List AxisExtent} {n c : UInt64}
    (h : l.foldlM (fun n e => checkedMul n e.padded.toUInt64) n = some c) :
    c.toNat = n.toNat * (l.map (·.padded.toNat)).prod := by
  induction l generalizing n with
  | nil =>
    cases h
    exact (Nat.mul_one _).symm
  | cons e l ih =>
    rw [List.foldlM_cons] at h
    obtain ⟨next, hnext, h⟩ := Option.bind_eq_some_iff.1 h
    rw [ih h, checkedMul_eq_some_iff.1 hnext, UInt32.toNat_toUInt64, List.map_cons,
      List.prod_cons, Nat.mul_assoc]

/-- No extent is 0, so a product that is too large stays too large. -/
theorem IndexSpace.foldlM_checkedMul_none {l : List AxisExtent} {n : UInt64}
    (hpos : ∀ e ∈ l, 0 < e.padded.toNat)
    (h : l.foldlM (fun n e => checkedMul n e.padded.toUInt64) n = none) :
    UInt64.size ≤ n.toNat * (l.map (·.padded.toNat)).prod := by
  induction l generalizing n with
  | nil => cases h
  | cons e l ih =>
    obtain ⟨-, hpos⟩ := List.forall_mem_cons.1 hpos
    have hprod : 0 < (l.map (·.padded.toNat)).prod := by
      apply List.prod_pos
      intro k hk
      obtain ⟨e', he', rfl⟩ := List.mem_map.1 hk
      exact hpos e' he'
    rw [List.map_cons, List.prod_cons, ← Nat.mul_assoc, ← UInt32.toNat_toUInt64]
    rw [List.foldlM_cons] at h
    cases hnext : checkedMul n e.padded.toUInt64 with
    | none => exact Nat.le_trans (checkedMul_eq_none_iff.1 hnext) (Nat.le_mul_of_pos_right _ hprod)
    | some next =>
      rw [hnext] at h
      rw [← checkedMul_eq_some_iff.1 hnext]
      exact ih hpos h

/-- The cells of a level are counted exactly. -/
theorem IndexSpace.toNat_of_paddedCells {s : IndexSpace} {c : UInt64}
    (h : s.paddedCells = some c) : c.toNat = s.exactCells := by
  rw [foldlM_checkedMul h, UInt64.toNat_one, Nat.one_mul]
  rfl

/-- Every axis has at least one memory cell. -/
def IndexSpace.Peopled (s : IndexSpace) : Prop := ∀ a, 0 < (s.extent a).padded.toNat

/-- A level with more cells than words count has no number of cells. -/
theorem IndexSpace.Peopled.paddedCells_eq_none_iff {s : IndexSpace} (h : s.Peopled) :
    s.paddedCells = none ↔ UInt64.size ≤ s.exactCells := by
  constructor
  · intro hnone
    have hpos : ∀ e ∈ s.extents.toList, 0 < e.padded.toNat := by
      intro e he
      obtain ⟨i, hi, rfl⟩ := Vector.mem_iff_getElem.1 (Vector.mem_toList_iff.1 he)
      exact h ⟨i, hi⟩
    have hle := foldlM_checkedMul_none hpos hnone
    rwa [UInt64.toNat_one, Nat.one_mul] at hle
  · intro hle
    cases hc : s.paddedCells with
    | none => rfl
    | some c =>
      have hlt := c.toNat_lt
      rw [toNat_of_paddedCells hc] at hlt
      exact absurd hlt (Nat.not_lt.2 hle)

namespace ExactSize

/-- Cells of these kinds hold the containers of the children. -/
def Holds (kind : Kind) : Prop := kind.type.isBitLevel = false ∧ kind.type ≠ .place

instance (kind : Kind) : Decidable (Holds kind) := inferInstanceAs (Decidable (_ ∧ _))

/-- Where containers put one after the other start. -/
def slotOffsets : Nat → List ExactSize → List Nat
  | _, [] => []
  | cursor, e :: rest => ceilTo e.align cursor :: slotOffsets (ceilTo e.align cursor + e.bytes) rest

/-- Where the containers of the children start in a cell. -/
def childOffsets (kind : Kind) (children : List ExactSize) : List Nat :=
  if Holds kind then slotOffsets 0 children else []

theorem length_slotOffsets (cursor : Nat) (es : List ExactSize) :
    (slotOffsets cursor es).length = es.length := by
  induction es generalizing cursor with
  | nil => rfl
  | cons e es ih => exact congrArg (· + 1) (ih _)

theorem le_slots (cursor align : Nat) (es : List ExactSize) :
    cursor ≤ (slots cursor align es).1 := by
  induction es generalizing cursor align with
  | nil => exact Nat.le_refl _
  | cons e es ih =>
    calc cursor ≤ ceilTo e.align cursor := le_ceilTo _ _
      _ ≤ ceilTo e.align cursor + e.bytes := Nat.le_add_right _ _
      _ ≤ _ := ih _ _

theorem cell_of_holds {kind : Kind} (h : Holds kind) (underBits : Bool) (es : List ExactSize) :
    cell underBits kind es = (ceilTo (slots 0 1 es).2 (slots 0 1 es).1, (slots 0 1 es).2) := by
  cases kind with
  | root | dense ds | pointer ds | bitmasked ds | dynamic a dim chunk => rfl
  | bitStruct width | bitArray ds width => cases h.1
  | place info => exact absurd rfl h.2

/-- Of the exact sizes that are rounded up where containers are put one after the other, each that
is a word stays one. -/
def SlotsRound : Nat → Nat → List ExactSize → Prop
  | cursor, align, [] => Rounds align cursor
  | cursor, align, e :: rest =>
    Rounds e.align cursor ∧ SlotsRound (ceilTo e.align cursor + e.bytes) (max align e.align) rest

/-- A node has a word of cells, and of the exact sizes that are rounded up for it, each that is a
word stays one. -/
structure Roomy (kind : Kind) (cells : Nat) (children : List ExactSize) : Prop where
  count : cells < UInt64.size
  slots : Holds kind → SlotsRound 0 1 children
  mask : kind.type = .bitmasked → Rounds 8 (cells * (cell false kind children).1)

/-- The end of the last container is rounded up last. -/
theorem SlotsRound.last {cursor align : Nat} {es : List ExactSize} (h : SlotsRound cursor align es) :
    Rounds (slots cursor align es).2 (slots cursor align es).1 := by
  induction es generalizing cursor align with
  | nil => exact h
  | cons e es ih => exact ih h.2

end ExactSize

namespace Draft

variable {d : Draft}

/-- The exact sizes of the node with this number. -/
def exactSize (d : Draft) (id : NodeId) : ExactSize :=
  (d.exactSizes 0 d.nodes.toList)[id]?.getD ⟨0, 0, 0, 0, 1⟩

theorem length_exactSizes (i : NodeId) (l : List Node) : (d.exactSizes i l).length = l.length := by
  induction l generalizing i with
  | nil => rfl
  | cons n l ih => exact congrArg (· + 1) (ih _)

theorem drop_exactSizes (i k : Nat) (l : List Node) :
    (d.exactSizes i l).drop k = d.exactSizes (i + k) (l.drop k) := by
  induction k generalizing i l with
  | zero => rfl
  | succ k ih =>
    cases l with
    | nil => rfl
    | cons n l =>
      have hl := ih (i + 1) l
      rw [Nat.add_right_comm] at hl
      exact hl

/-- The sizes of the nodes from a number on are the last ones. -/
theorem getElem?_exactSizes_drop {i j : Nat} (hij : i ≤ j) (hj : j < d.nodes.size) :
    (d.exactSizes i (d.nodes.toList.drop i))[j - i]? = some (d.exactSize j) := by
  have hdrop := drop_exactSizes (d := d) 0 i d.nodes.toList
  rw [Nat.zero_add] at hdrop
  unfold exactSize
  rw [← hdrop, List.getElem?_drop, Nat.add_sub_cancel' hij,
    List.getElem?_eq_getElem (by rwa [length_exactSizes, Array.length_toList])]
  rfl

theorem drop_nodes {i : Nat} {n : Node} (hn : d.nodes[i]? = some n) :
    d.nodes.toList.drop i = n :: d.nodes.toList.drop (i + 1) := by
  obtain ⟨hi, rfl⟩ := Array.getElem?_eq_some_iff.1 hn
  rw [← Array.getElem_toList hi]
  exact (List.getElem_cons_drop (h := by rwa [Array.length_toList])).symm

/-- The sizes picked for the children of a node are those of the nodes with their numbers. -/
theorem Grown.filterMap_children {α : Type} (h : d.Grown) {i : Nat} {n : Node}
    (hn : d.nodes[i]? = some n) (later : List α) (size : Nat → α)
    (hl : ∀ j, i < j → j < d.nodes.size → later[j - (i + 1)]? = some (size j)) :
    (n.children.filterMap fun c => if i < c then later[c - (i + 1)]? else none) =
      n.children.map size := by
  rw [← List.filterMap_eq_map]
  apply List.filterMap_congr
  intro c hc
  obtain ⟨hlt, -⟩ := h.child hn hc
  rw [if_pos hlt]
  exact hl c hlt (h.lt_next hn hc)

/-- The exact sizes of a node come from those of its children. -/
theorem Grown.exactSize_eq (h : d.Grown) {i : Nat} {n : Node} (hn : d.nodes[i]? = some n) :
    d.exactSize i = .ofNode d.packing (d.underBits n) n (n.children.map d.exactSize) := by
  have hat := getElem?_exactSizes_drop (d := d) (Nat.le_refl i) (Array.getElem?_eq_some_iff.1 hn).1
  rw [drop_nodes hn, Nat.sub_self, exactSizes, List.getElem?_cons_zero, Option.some.injEq] at hat
  rw [← hat, h.filterMap_children hn _ d.exactSize]
  intro j hij hj
  exact getElem?_exactSizes_drop hij hj

end Draft

end SparseLayout
