import SparseLayout.Layout

/-!
Compiling a draft. A cell of a node holds the containers of its children in declaration order,
each at its alignment, and is rounded up to the largest of these alignments. Products and sums of
sizes are checked; cells are counted and sizes rounded up in arithmetic that panics.
-/

namespace SparseLayout

/-- Bytes of an address slot. -/
def addressBytes : UInt64 := 8

/-- Bytes of a list header: length, padding and the address of the first chunk. -/
def listHeaderBytes : UInt64 := 16

/-- Bytes of the link at the start of a chunk. -/
def chunkLinkBytes : UInt64 := 8

/-- A product of sizes; one that is no word is refused. -/
def mulSize (a b : UInt64) : Except BuildError UInt64 :=
  match checkedMul a b with
  | some c => .ok c
  | none => .error (.invalid (.productOverflow a b))

/-- A sum of sizes; one that is no word is refused. -/
def addSize (a b : UInt64) : Except BuildError UInt64 :=
  if a.toNat + b.toNat < UInt64.size then .ok (a + b) else .error (.invalid (.sumOverflow a b))

/-- Words that hold one bit per cell. -/
def maskWords (cells : UInt64) : UInt64 :=
  if cells % 64 = 0 then cells / 64 else cells / 64 + 1

/-- Containers put one after the other. -/
structure Slots where
  offsets : List UInt64
  finish : UInt64
  align : Alignment

/-- Puts containers one after the other from `cursor` on; `align` is the largest alignment so
far. -/
def packSlots : UInt64 → Alignment → List Measure → Except BuildError Slots
  | cursor, align, [] => .ok ⟨[], cursor, align⟩
  | cursor, align, m :: rest => do
    let offset ← unchecked (m.align.roundUp cursor)
    let finish ← addSize offset m.bytes
    let slots ← packSlots finish (align.max m.align) rest
    return { slots with offsets := offset :: slots.offsets }

/-- Size, alignment and child offsets of a cell. -/
structure CellShape where
  size : UInt64
  align : Alignment
  childOffsets : List UInt64

/-- The cell of a place is its scalar, or nothing under a bit container; that of a bit container
is its word; any other holds the containers of the children. -/
def cellShape (underBits : Bool) (kind : Kind) (children : List Measure) :
    Except BuildError CellShape :=
  match kind with
  | .place info =>
    if underBits then .ok ⟨0, .one, []⟩
    else
      let bytes := info.member.dtype.byteSize.getD 0
      .ok ⟨bytes.toUInt64, .ofSize bytes, []⟩
  | .bitStruct width | .bitArray _ width =>
    .ok ⟨(width / 8).toUInt64, .ofSize (width / 8), []⟩
  | _ => do
    let slots ← packSlots 0 .one children
    return ⟨← unchecked (slots.align.roundUp slots.finish), slots.align, slots.offsets⟩

/-- Encoding, size and alignment of a container with that many cells. -/
def containerShape (packing : Packing) (kind : Kind) (cells : UInt64) (cell : CellShape) :
    Except BuildError (Container × UInt64 × Alignment) :=
  match kind with
  | .root => .ok (.root, cell.size, cell.align)
  | .dense _ => do return (.dense, ← mulSize cells cell.size, cell.align)
  | .bitmasked _ => do
    let maskOffset ← unchecked (Alignment.eight.roundUp (← mulSize cells cell.size))
    return (.bitmasked maskOffset, ← addSize maskOffset (maskWords cells * 8),
      cell.align.max .eight)
  | .pointer _ => do return (.pointer, ← mulSize cells addressBytes, .eight)
  | .dynamic axis _ chunk => do
    let capacity := packing.extent chunk
    let chunkBytes ← addSize chunkLinkBytes (← mulSize capacity.toUInt64 cell.size)
    return (.dynamic axis capacity chunkBytes, listHeaderBytes, .eight)
  | .bitStruct width => .ok (.bitStruct, (width / 8).toUInt64, .ofSize (width / 8))
  | .bitArray _ width => .ok (.bitArray, (width / 8).toUInt64, .ofSize (width / 8))
  | .place _ => .ok (.place, cell.size, cell.align)

/-- The sizes of a node, from those of its children. -/
def measure (packing : Packing) (underBits : Bool) (node : Draft.Node) (children : List Measure) :
    Except BuildError Measure := do
  let cells ← unchecked node.index.paddedCells
  let cell ← cellShape underBits node.kind children
  let (container, bytes, align) ← containerShape packing node.kind cells cell
  return {
    container, cells, bytes, align
    cellSize := cell.size
    cellAlign := cell.align
    childOffsets := cell.childOffsets
    sparseBelow := node.kind.type.isSparse || children.any (·.sparseBelow) }

namespace Draft

/-- Whether a node lies in a bit container. -/
def underBits (d : Draft) (n : Node) : Bool :=
  (n.parent.bind (d.nodes[·]?)).any (·.kind.type.isBitLevel)

/-- The sizes of the nodes numbered from `id` on. The last node is measured first, so that every
node comes after its children. -/
def measures (d : Draft) : NodeId → List Node → Except BuildError (List Measure)
  | _, [] => .ok []
  | id, n :: rest => do
    let later ← d.measures (id + 1) rest
    let children := n.children.filterMap fun c => if id < c then later[c - (id + 1)]? else none
    return (← measure d.packing (d.underBits n) n children) :: later

/-- Where the container of a node starts in a cell of its parent. -/
def slotOffset (d : Draft) (measures : Array Measure) (id : NodeId) (n : Node) : UInt64 :=
  let offset : Option UInt64 := do
    let p ← n.parent
    let k ← (d.children p).idxOf? id
    (← measures[p]?).childOffsets[k]?
  offset.getD 0

/-- The compiled tree of a draft. The cells of all nodes are counted before any is measured. -/
def compile (d : Draft) (tree : TreeId) (compileOnly : Bool) : Except BuildError Layout := do
  let _ ← d.nodes.toList.mapM fun n => unchecked n.index.paddedCells
  let measures := (← d.measures 0 d.nodes.toList).toArray
  return {
    tree, compileOnly
    root := d.root
    packing := d.packing
    nodes := d.nodes.mapIdx fun id n =>
      { n with
        toMeasure := measures[id]?.getD default
        id
        offset := d.slotOffset measures id n }
    nodes_ne := by simpa using d.nodes_ne }

end Draft

end SparseLayout
