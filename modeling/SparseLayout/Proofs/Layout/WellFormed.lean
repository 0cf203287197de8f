import SparseLayout.Coordinates
import Mathlib.Algebra.BigOperators.Group.List.Basic

/-!
Well-formed compiled trees: what the storage of a tree relies on, in exact numbers. The nodes form
one tree, the containers in a cell lie apart from each other and inside the cell, every level has
as many cells as its memory extents say, and members of a bit container have bits of their own.
-/

namespace SparseLayout

/-- The type of the nodes with this container. -/
def Container.type : Container → NodeType
  | .root => .root
  | .dense => .dense
  | .bitmasked _ => .bitmasked
  | .pointer => .pointer
  | .dynamic .. => .dynamic
  | .bitStruct => .bitStruct
  | .bitArray => .bitArray
  | .place => .place

namespace Layout

/-- A node of the tree. -/
def Has (t : Layout) (n : Node) : Prop := t.nodes[n.id]? = some n

instance (t : Layout) (n : Node) : Decidable (t.Has n) := inferInstanceAs (Decidable (_ = _))

namespace Node

/-- The container is the one for the kind. -/
def Typed (n : Node) : Prop :=
  match n.kind, n.container with
  | .root, .root => True
  | .dense _, .dense => True
  | .bitmasked _, .bitmasked _ => True
  | .pointer _, .pointer => True
  | .dynamic axis _ _, .dynamic axis' _ _ => axis' = axis
  | .bitStruct _, .bitStruct => True
  | .bitArray _ _, .bitArray => True
  | .place _, .place => True
  | _, _ => False

/-- How the container of each kind of node is encoded. -/
inductive Level (n : Node) : Prop
  | pointer {ds : List Division} (hk : n.kind = .pointer ds) (hc : n.container = .pointer)
  | bitmasked {ds : List Division} {maskOffset : UInt64} (hk : n.kind = .bitmasked ds)
    (hc : n.container = .bitmasked maskOffset)
  | dynamic {axis : Axis} {dim chunk cap : UInt32} {bytes : UInt64}
    (hk : n.kind = .dynamic axis dim chunk) (hc : n.container = .dynamic axis cap bytes)
  | root (hk : n.kind = .root) (hc : n.container = .root)
  | dense {ds : List Division} (hk : n.kind = .dense ds) (hc : n.container = .dense)
  | bitStruct {width : UInt32} (hk : n.kind = .bitStruct width) (hc : n.container = .bitStruct)
  | bitArray {ds : List Division} {width : UInt32} (hk : n.kind = .bitArray ds width)
    (hc : n.container = .bitArray)
  | place {info : PlaceInfo} (hk : n.kind = .place info) (hc : n.container = .place)

namespace Typed

variable {n : Node} (h : n.Typed)

include h

theorem level : n.Level := by
  unfold Typed at h
  cases hk : n.kind <;> cases hc : n.container <;> simp only [hk, hc] at h
  · exact .root hk hc
  · exact .dense hk hc
  · exact .pointer hk hc
  · exact .bitmasked hk hc
  · exact .dynamic hk (h ▸ hc)
  · exact .bitStruct hk hc
  · exact .bitArray hk hc
  · exact .place hk hc

theorem type_eq : n.type = n.container.type := by
  cases h.level with
  | pointer hk hc | bitmasked hk hc | dynamic hk hc | root hk hc | dense hk hc | bitStruct hk hc
  | bitArray hk hc | place hk hc =>
    rw [type, hk, hc]
    rfl

theorem isBitLevel_iff :
    n.type.isBitLevel = true ↔ n.container = .bitStruct ∨ n.container = .bitArray := by
  rw [h.type_eq]
  cases n.container <;> simp [Container.type, NodeType.isBitLevel]

theorem container_of_place {info : PlaceInfo} (hk : n.kind = .place info) :
    n.container = .place := by
  cases h.level with
  | place _ hc => exact hc
  | pointer hk' _ | bitmasked hk' _ | dynamic hk' _ | root hk' _ | dense hk' _ | bitStruct hk' _
  | bitArray hk' _ =>
    rw [hk] at hk'
    cases hk'

end Typed

/-- Bytes of a container, from the number and the size of its cells. -/
def Sized (n : Node) : Prop :=
  match n.container with
  | .root => True
  | .dense => n.bytes.toNat = n.cells.toNat * n.cellSize.toNat
  | .bitmasked maskOffset =>
    n.cells.toNat * n.cellSize.toNat ≤ maskOffset.toNat ∧
      n.bytes.toNat = maskOffset.toNat + 8 * ((n.cells.toNat + 63) / 64)
  | .pointer => n.bytes.toNat = n.cells.toNat * 8
  | .dynamic _ capacity chunkBytes =>
    n.bytes.toNat = 16 ∧ 0 < capacity.toNat ∧
      chunkBytes.toNat = 8 + capacity.toNat * n.cellSize.toNat
  | .bitStruct | .bitArray | .place => n.bytes = n.cellSize

/-- A bit container, or a place. -/
def isWord (n : Node) : Prop :=
  n.container = .bitStruct ∨ n.container = .bitArray ∨ n.container = .place

end Node

/-- The nodes form a tree in which children have larger numbers than their parents. -/
structure Branching (t : Layout) : Prop where
  id_eq : ∀ {i : Nat} {n : Node}, t.nodes[i]? = some n → n.id = i
  root_kind : t.rootNode.kind = .root
  root_parent : t.rootNode.parent = none
  kind_ne_root : ∀ {p n : Node}, t.Has p → n ∈ t.childNodes p → n.kind ≠ .root
  id_lt : ∀ {p n : Node}, t.Has p → n ∈ t.childNodes p → p.id < n.id
  parent_eq : ∀ {p n : Node}, t.Has p → n ∈ t.childNodes p → n.parent = some p.id
  exists_parent : ∀ {n : Node}, t.Has n → n.id ≠ 0 → ∃ p, t.Has p ∧ n ∈ t.childNodes p
  nodup : ∀ {p : Node}, t.Has p → (t.childNodes p).Nodup

/-- Containers have the sizes that their cells need, and those in one cell lie side by side. -/
structure Packed (t : Layout) : Prop where
  typed : ∀ {n : Node}, t.Has n → n.Typed
  sized : ∀ {n : Node}, t.Has n → n.Sized
  slot_le : ∀ {p n : Node}, t.Has p → n ∈ t.childNodes p →
    n.offset.toNat + n.bytes.toNat ≤ p.cellSize.toNat
  slot_apart : ∀ {p m n : Node}, t.Has p → m ∈ t.childNodes p → n ∈ t.childNodes p → m ≠ n →
    m.offset.toNat + m.bytes.toNat ≤ n.offset.toNat ∨
      n.offset.toNat + n.bytes.toNat ≤ m.offset.toNat
  below_word : ∀ {p n : Node}, t.Has p → n ∈ t.childNodes p → p.isWord →
    p.type.isBitLevel = true ∧ n.container = .place ∧ n.bytes = 0 ∧ n.offset = 0
  sparseBelow_iff : ∀ {n : Node}, t.Has n →
    (n.sparseBelow ↔ n.type.isSparse ∨ ∃ c ∈ t.childNodes n, c.sparseBelow)

/-- Every level divides distinct axes, and an axis has the product of its extents so far. -/
structure Indexed (t : Layout) : Prop where
  axes_nodup : ∀ {n : Node}, t.Has n → n.kind.axes.Nodup
  division : ∀ {n : Node} {d : Division}, t.Has n → d ∈ n.kind.divisions →
    (n.index.extent d.axis).declared = d.extent ∧ 0 < d.extent.toNat ∧
      d.extent.toNat ≤ (n.index.extent d.axis).padded.toNat
  undivided : ∀ {n : Node} {a : Axis}, t.Has n → a ∉ n.kind.axes →
    (n.index.extent a).declared = 1
  unpadded : ∀ {n : Node} {a : Axis}, t.Has n → a ∉ n.kind.axes →
    (n.index.extent a).padded = 1
  fromRoot_root : ∀ a : Axis, (t.rootNode.index.extent a).fromRoot = 1
  fromRoot_child : ∀ {p n : Node} (a : Axis), t.Has p → n ∈ t.childNodes p →
    (n.index.extent a).fromRoot =
      saturatingMul (p.index.extent a).fromRoot (n.index.extent a).declared.toUInt64
  positions_nodup : ∀ {n : Node}, t.Has n → n.index.positions.Nodup
  fromRoot_inactive : ∀ {n : Node} {a : Axis}, t.Has n → a ∉ n.index.positions →
    (n.index.extent a).fromRoot = 1

/-- The tree and its index spaces, which do not depend on sizes. -/
structure Charted (t : Layout) : Prop extends Branching t, Indexed t

/-- Every container has as many cells as its memory extents say. -/
structure Counted (t : Layout) : Prop where
  cells_eq : ∀ {n : Node}, t.Has n →
    n.cells.toNat = (n.kind.axes.map fun a => (n.index.extent a).padded.toNat).prod

/-- The bits of a quantized integer in the word of its container. -/
def Node.bitRange (n : Node) : Nat × Nat :=
  match n.kind with
  | .place info => ((info.bitOffset.getD 0).toNat, info.member.dtype.bits.toNat)
  | _ => (0, 0)

/-- A place of a quantized integer. -/
def Node.isQuantInt (n : Node) : Prop :=
  ∃ info bits signed, n.kind = .place info ∧ info.member.dtype = .quantInt bits signed

/-- Scalars have the size of their type, and quantized integers bits of their own. -/
structure Valued (t : Layout) : Prop where
  scalar : ∀ {p n : Node} {info : PlaceInfo}, t.Has p → n ∈ t.childNodes p → ¬ p.isWord →
    n.kind = .place info → ∃ bytes, info.member.dtype.byteSize = some bytes ∧
      n.cellSize.toNat = bytes.toNat
  word : ∀ {n : Node} {width : UInt32}, t.Has n → n.kind.wordBits? = some width →
    width ∈ [8, 16, 32, 64] ∧ n.cellSize.toNat = width.toNat / 8
  quant_below : ∀ {p n : Node} {info : PlaceInfo}, t.Has p → n ∈ t.childNodes p →
    p.type.isBitLevel = true → n.kind = .place info → info.member.dtype.isQuant = true
  quant : ∀ {n : Node} {info : PlaceInfo} {bits : UInt8} {signed : Bool}, t.Has n →
    n.kind = .place info → info.member.dtype = .quantInt bits signed →
      1 ≤ bits.toNat ∧ bits.toNat ≤ 32
  struct_le : ∀ {p n : Node} {width : UInt32}, t.Has p → n ∈ t.childNodes p →
    p.kind = .bitStruct width → n.isQuantInt → n.bitRange.1 + n.bitRange.2 ≤ width.toNat
  struct_apart : ∀ {p m n : Node} {width : UInt32}, t.Has p → m ∈ t.childNodes p →
    n ∈ t.childNodes p → p.kind = .bitStruct width → m ≠ n → m.isQuantInt → n.isQuantInt →
      m.bitRange.1 + m.bitRange.2 ≤ n.bitRange.1 ∨ n.bitRange.1 + n.bitRange.2 ≤ m.bitRange.1
  array : ∀ {p n : Node} {ds : List Division} {width : UInt32}, t.Has p →
    n ∈ t.childNodes p → p.kind = .bitArray ds width →
      n.bitRange.1 = 0 ∧ p.cells.toNat * n.bitRange.2 ≤ width.toNat ∧ t.childNodes p = [n]

structure WellFormed (t : Layout) : Prop extends
  Charted t, Packed t, Counted t, Valued t

variable {t : Layout}

theorem Branching.has (h : t.Branching) {i : Nat} {n : Node} (hn : t.nodes[i]? = some n) :
    t.Has n := by
  rw [Has, h.id_eq hn]
  exact hn

theorem Branching.has_root (h : t.Branching) : t.Has t.rootNode :=
  h.has (Array.getElem?_eq_getElem t.nodes_ne)

theorem Branching.root_id (h : t.Branching) : t.rootNode.id = 0 :=
  h.id_eq (Array.getElem?_eq_getElem t.nodes_ne)

theorem Branching.has_child (h : t.Branching) {p n : Node} (hn : n ∈ t.childNodes p) :
    t.Has n := by
  obtain ⟨id, -, hid⟩ := List.mem_filterMap.1 hn
  exact h.has hid

theorem Has.id_lt {n : Node} (h : t.Has n) : n.id < t.nodes.size :=
  (Array.getElem?_eq_some_iff.1 h).1

/-- Nodes of one tree with one number are the same. -/
theorem Has.eq_of_id {m n : Node} (hm : t.Has m) (hn : t.Has n) (h : m.id = n.id) : m = n := by
  unfold Has at hm hn
  rw [h, hn] at hm
  exact (Option.some.inj hm).symm

theorem Branching.ne_root_of_kind (h : t.Branching) {n : Node} (hn : t.Has n)
    (hk : n.kind ≠ .root) : ∃ p, t.Has p ∧ n ∈ t.childNodes p := by
  apply h.exists_parent hn
  intro h0
  rw [hn.eq_of_id h.has_root (h0.trans h.root_id.symm), h.root_kind] at hk
  exact hk rfl

section

variable (h : t.WellFormed) {n : Node} (hn : t.Has n)

include h hn

theorem WellFormed.level : n.Level := (h.typed hn).level

theorem WellFormed.type_eq : n.type = n.container.type := (h.typed hn).type_eq

theorem WellFormed.isSparse_iff : n.type.isSparse ↔
    n.container = .pointer ∨ (∃ m, n.container = .bitmasked m) ∨
      ∃ axis cap bytes, n.container = .dynamic axis cap bytes := by
  rw [h.type_eq hn]
  cases n.container <;> simp [Container.type, NodeType.isSparse]

theorem WellFormed.container_ne_root (hk : n.kind ≠ .root) : n.container ≠ .root := by
  cases h.level hn with
  | root hk' _ => exact absurd hk' hk
  | pointer _ hc | bitmasked _ hc | dynamic _ hc | dense _ hc | bitStruct _ hc | bitArray _ hc
  | place _ hc => simp [hc]

/-- A list is divided along the axis of its container. -/
theorem WellFormed.kind_of_dynamic {axis : Axis} {cap : UInt32} {bytes : UInt64}
    (hc : n.container = .dynamic axis cap bytes) : ∃ dim chunk, n.kind = .dynamic axis dim chunk := by
  cases h.level hn with
  | dynamic hk hc' =>
    rw [hc] at hc'
    cases hc'
    exact ⟨_, _, hk⟩
  | pointer _ hc' | bitmasked _ hc' | root _ hc' | dense _ hc' | bitStruct _ hc' | bitArray _ hc'
  | place _ hc' =>
    rw [hc] at hc'
    cases hc'

theorem WellFormed.container_of_dynamic {axis : Axis} {dim chunk : UInt32}
    (hk : n.kind = .dynamic axis dim chunk) :
    ∃ cap bytes, n.container = .dynamic axis cap bytes := by
  cases h.level hn with
  | dynamic hk' hc =>
    rw [hk] at hk'
    cases hk'
    exact ⟨_, _, hc⟩
  | pointer hk' _ | bitmasked hk' _ | root hk' _ | dense hk' _ | bitStruct hk' _ | bitArray hk' _
  | place hk' _ =>
    rw [hk] at hk'
    cases hk'

end

theorem Branching.parent_unique (h : t.Branching) {p q n : Node} (hp : t.Has p) (hq : t.Has q)
    (hnp : n ∈ t.childNodes p) (hnq : n ∈ t.childNodes q) : p = q := by
  have h1 := h.parent_eq hp hnp
  rw [h.parent_eq hq hnq] at h1
  exact hp.eq_of_id hq (Option.some.inj h1).symm

end Layout

end SparseLayout
