import SparseLayout.Encoding
import SparseLayout.Store.Release

namespace SparseLayout

namespace Layout

/-- The nodes on the way to the cell that holds a node's container. -/
def parentBranch (t : Layout) (n : Node) : List Node := (t.branch n.id).dropLast

namespace Node

def wrongKind (n : Node) (op : Operation) : AccessError := .wrongKind op n.type

/-- The element type of a place node whose values can be read and written. -/
def accessType (n : Node) (op : Operation) : Except AccessError DataType :=
  match n.kind with
  | .place info => do
    info.member.dtype.checkAccess
    return info.member.dtype
  | _ => .error (n.wrongKind op)

/-- The most elements of a list; other nodes are refused. -/
def listCapacity (n : Node) (op : Operation) : Except AccessError UInt32 :=
  match n.kind with
  | .dynamic _ dim _ => .ok dim
  | _ => .error (n.wrongKind op)

end Node

/-- The place node that is the only child of a list. -/
def onlyPlace? (t : Layout) (list : Node) : Option Node :=
  match t.childNodes list with
  | [n] => if n.type = .place then some n else none
  | _ => none

def parentNode (t : Layout) (n : Node) : Except AccessError Node :=
  match n.parent.bind (t.nodes[·]?) with
  | some p => .ok p
  | none => .error (n.wrongKind .parent)

end Layout

/-- Where a member lies in memory: bytes to load and store, and for a quantized member the offset
of its bits in them. -/
structure ValueSlot where
  bytes : Nat
  bitOffset : Option UInt32
  deriving DecidableEq

/-- The slot of a place. The elements of a bit array follow one another in its word. -/
def Layout.valueSlot (t : Layout) (place : Layout.Node) (c : Coords) :
    Except AccessError ValueSlot := do
  let parent ← t.parentNode place
  match place.kind, parent.kind with
  | .place info, .bitStruct width => return ⟨(width / 8).toNat, some (info.bitOffset.getD 0)⟩
  | .place info, .bitArray _ width =>
    let element := (Layout.Node.linear place parent c).toUInt32
    let offset := info.bitOffset.getD 0 + element * info.member.dtype.bits
    return ⟨(width / 8).toNat, some offset⟩
  | _, _ => return ⟨place.cellSize.toNat, none⟩

/-- Turns a refusal into the end of an operation. -/
def refuse (r : Except AccessError α) : Except Fault α := r.mapError .refused

namespace Store

/-- Whether every level on the way to a cell is active. -/
def isActive (s : Store) (t : Layout) (target : Layout.Node) (c : Coords) : Except Fault Bool := do
  return (← s.lookup target c (t.branch target.id) s.root).isSome

/-- The address of an active cell. -/
def address (s : Store) (t : Layout) (target : Layout.Node) (c : Coords) :
    Except Fault Address := do
  match ← s.lookup target c (t.branch target.id) s.root with
  | some a => return a
  | none => .error (.refused .inactive)

/-- Elements of the list of `n` in a cell of its parent; none where the cell is not active. -/
def length (s : Store) (t : Layout) (n : Layout.Node) (c : Coords) : Except Fault UInt32 := do
  let _ ← refuse (n.listCapacity .length)
  let parent ← refuse (t.parentNode n)
  match ← s.lookup parent c (t.branch parent.id) s.root with
  | some cell => s.listLength (cell.add n.offset)
  | none => return 0

/-- The value of a member; the zero of its type where its cell is not active. -/
def read (s : Store) (t : Layout) (place : Layout.Node) (c : Coords) : Except Fault Scalar := do
  let dtype ← refuse (place.accessType .read)
  match ← s.lookup place c (t.branch place.id) s.root with
  | none => return dtype.zero
  | some cell =>
    let slot ← refuse (t.valueSlot place c)
    let word ← s.load cell slot.bytes
    match slot.bitOffset with
    | some offset => return dtype.extract word offset
    | none => return dtype.decode word

end Store

namespace StoreM

/-- Activates every level on the way to a cell. -/
def activate (t : Layout) (target : Layout.Node) (c : Coords) : StoreM Unit := do
  let _ ← reach target c (t.branch target.id) (← get).root

/-- Stores a value of a type in a slot at a cell. -/
def putValue (dtype : DataType) (slot : ValueSlot) (cell : Address) (v : Scalar) :
    StoreM Unit := do
  match slot.bitOffset with
  | some offset =>
    let word ← look (·.load cell slot.bytes)
    put cell slot.bytes (dtype.insert word offset v)
  | none => put cell slot.bytes (dtype.encode v)

/-- Writes the value of a member, having activated its cell. -/
def write (t : Layout) (place : Layout.Node) (c : Coords) (v : Scalar) : StoreM Unit := do
  let dtype ← look fun _ => refuse (place.accessType .write)
  let cell ← reach place c (t.branch place.id) (← get).root
  let slot ← look fun _ => refuse (t.valueSlot place c)
  putValue dtype slot cell v

/-- Adds a value at the end of the list of `n` in a cell of its parent; the result is its number
in the list. -/
def append (t : Layout) (n : Layout.Node) (c : Coords) (v : Scalar) : StoreM UInt32 := do
  let dim ← look fun _ => refuse (n.listCapacity .append)
  match t.onlyPlace? n with
  | none => throw (.refused (n.wrongKind .append))
  | some place =>
    let dtype ← look fun _ => refuse (place.accessType .append)
    let parent ← look fun _ => refuse (t.parentNode n)
    let cell ← reach parent c (t.branch parent.id) (← get).root
    let slot := cell.add n.offset
    let len ← look (·.listLength slot)
    if dim ≤ len then throw (.refused (.listFull dim))
    growList n slot (len + 1)
    let element ← look (·.element n slot len.toUInt64)
    put (element.add place.offset) place.cellSize.toNat (dtype.encode v)
    return len

/-- Deactivates the addressed cell of the container at `slot`; of a list, every element. -/
def releaseOne (t : Layout) (n : Layout.Node) (c : Coords) (slot : Address) : StoreM Unit :=
  let lin := Layout.Node.linear n n c
  match n.container with
  | .pointer => do
    let entry := Layout.Node.addressSlot slot lin
    let block ← look (·.link entry)
    if ! block.isNull then
      releaseBelow t n block
      dropBlock n.id block
      put entry 8 0
  | .bitmasked maskOffset => do
    let word ← look (·.load (maskWord slot maskOffset lin) 8)
    if word &&& maskBit lin ≠ 0 then
      releaseBelow t n (n.cellAt slot lin)
      zero (n.cellAt slot lin) n.cellSize.toNat
      put (maskWord slot maskOffset lin) 8 (word &&& ~~~maskBit lin)
  | .dynamic .. => releaseContainer t n slot
  | _ => pure ()

/-- Deactivates a cell of a sparse node and everything below it. Nothing happens where the way to
the cell is not active. -/
def deactivate (t : Layout) (n : Layout.Node) (c : Coords) : StoreM Unit := do
  if ! n.type.isSparse then throw (.refused (n.wrongKind .deactivate))
  match ← look fun s => s.lookup n c (t.parentBranch n) s.root with
  | none => pure ()
  | some cell => releaseOne t n c (cell.add n.offset)

/-- Deactivates every cell of a node and of the nodes below it. -/
def deactivateAll (t : Layout) (n : Layout.Node) : StoreM Unit := do
  let root := (← get).root
  if n.id = 0 then releaseBelow t t.rootNode root
  else
    let slots ← look fun s => s.slots (t.branch n.id) root
    slots.forM (releaseContainer t n)

end StoreM

end SparseLayout
