import SparseLayout.Coordinates
import SparseLayout.Store

namespace SparseLayout

namespace Layout.Node

/-- Cell number `lin` of the cells side by side from `slot` on. -/
def cellAt (n : Node) (slot : Address) (lin : UInt64) : Address := slot.add (lin * n.cellSize)

/-- Elements of one chunk of a list. -/
def chunkCapacity (n : Node) : UInt64 :=
  match n.container with
  | .dynamic _ capacity _ => (max capacity 1).toUInt64
  | _ => 1

/-- Element number `e` of a list, in the chunk that holds it. -/
def elementAt (n : Node) (chunk : Address) (e : UInt64) : Address :=
  chunk.add (8 + e % n.chunkCapacity * n.cellSize)

/-- The slot of the address of a block. -/
def addressSlot (slot : Address) (lin : UInt64) : Address := slot.add (lin * 8)

end Layout.Node

/-- The mask word with the bit of a cell. -/
def maskWord (slot : Address) (maskOffset lin : UInt64) : Address :=
  slot.add (maskOffset + lin / 64 * 8)

/-- The bit of a cell in its mask word. -/
def maskBit (lin : UInt64) : UInt64 := 1 <<< (lin % 64)

/-- The slot of the first chunk in the header of a list. -/
def headSlot (slot : Address) : Address := slot.add 8

open Layout.Node (linear digit addressSlot)

namespace Store

/-- The address reached over that many links, from the one stored at `a` on. -/
def follow (s : Store) (a : Address) : Nat → Except Fault Address
  | 0 => s.link a
  | k + 1 => do s.follow (← s.link a) k

/-- The address of an element of a list whose chunks cover it. -/
def element (s : Store) (n : Layout.Node) (slot : Address) (e : UInt64) : Except Fault Address :=
  do return n.elementAt (← s.follow (headSlot slot) (e / n.chunkCapacity).toNat) e

/-- The cell of a level for coordinates of `target`, if it is active. -/
def cell? (s : Store) (target : Layout.Node) (c : Coords) (n : Layout.Node) (slot : Address) :
    Except Fault (Option Address) :=
  match n.container with
  | .dense => .ok (some (n.cellAt slot (linear target n c)))
  | .bitmasked maskOffset => do
    let lin := linear target n c
    let word ← s.load (maskWord slot maskOffset lin) 8
    return if word &&& maskBit lin = 0 then none else some (n.cellAt slot lin)
  | .pointer => do
    let block ← s.link (addressSlot slot (linear target n c))
    return if block.isNull then none else some block
  | .dynamic axis .. => do
    let e := digit target n axis c
    let len ← s.listLength slot
    if len.toUInt64 ≤ e then return none
    else return some (← s.element n slot e)
  | .root | .bitStruct | .bitArray | .place => .ok (some slot)

/-- The cell at the end of a way down from `cell`, if all its levels are active. -/
def lookup (s : Store) (target : Layout.Node) (c : Coords) :
    List Layout.Node → Address → Except Fault (Option Address)
  | [], cell => .ok (some cell)
  | n :: rest, cell => do
    match ← s.cell? target c n (cell.add n.offset) with
    | some cell => s.lookup target c rest cell
    | none => return none

end Store

namespace StoreM

/-- Links blocks to a list until that many chunks follow the link at `a`. -/
def linkChunks (n : Layout.Node) : Nat → Address → StoreM Unit
  | 0, _ => pure ()
  | k + 1, a => do
    let next ← look (·.link a)
    if next.isNull then
      let block ← takeBlock n
      put a 8 block.raw
      linkChunks n k block
    else linkChunks n k next

/-- Makes a list at least that long. -/
def growList (n : Layout.Node) (slot : Address) (len : UInt32) : StoreM Unit := do
  let capacity := n.chunkCapacity.toNat
  linkChunks n ((len.toNat + capacity - 1) / capacity) (headSlot slot)
  let old ← look (·.listLength slot)
  put slot 4 (max old len).toUInt64

/-- The cell of a level for coordinates of `target`, activated if need be. -/
def reachCell (target : Layout.Node) (c : Coords) (n : Layout.Node) (slot : Address) :
    StoreM Address :=
  match n.container with
  | .dense => pure (n.cellAt slot (linear target n c))
  | .bitmasked maskOffset => do
    let lin := linear target n c
    let word ← look (·.load (maskWord slot maskOffset lin) 8)
    if word &&& maskBit lin = 0 then
      put (maskWord slot maskOffset lin) 8 (word ||| maskBit lin)
    return n.cellAt slot lin
  | .pointer => do
    let entry := addressSlot slot (linear target n c)
    let block ← look (·.link entry)
    if block.isNull then
      let block ← takeBlock n
      put entry 8 block.raw
      return block
    else return block
  | .dynamic axis .. => do
    let e := digit target n axis c
    let len ← look (·.listLength slot)
    if len.toUInt64 ≤ e then growList n slot (e + 1).toUInt32
    look (·.element n slot e)
  | .root | .bitStruct | .bitArray | .place => pure slot

/-- The cell at the end of a way down from `cell`, all its levels activated. -/
def reach (target : Layout.Node) (c : Coords) : List Layout.Node → Address → StoreM Address
  | [], cell => pure cell
  | n :: rest, cell => do reach target c rest (← reachCell target c n (cell.add n.offset))

end StoreM

end SparseLayout
