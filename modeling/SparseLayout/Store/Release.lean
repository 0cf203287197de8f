import SparseLayout.Store.Reach

namespace SparseLayout

open Layout.Node (addressSlot)

/-- The numbers of all cells of a container, as they are counted in words. -/
def Layout.Node.cellNumbers (n : Layout.Node) : List UInt64 :=
  (List.range n.cells.toNat).map .ofNat

/-- The longest list of addresses: eight bytes each, and no more bytes than a signed word counts. -/
def maxAddresses : Nat := (1 <<< 60) - 1

namespace Store

/-- The cells of a container that are active. Those of a dense container are listed at once, so
that a list of too many is not begun. -/
def activeCells (s : Store) (n : Layout.Node) (slot : Address) : Except Fault (List Address) :=
  match n.container with
  | .dense =>
    if n.cells.toNat ≤ maxAddresses then .ok (n.cellNumbers.map (n.cellAt slot))
    else .error (.refused (.panic .capacity))
  | .bitmasked maskOffset => do
    let cells ← n.cellNumbers.mapM fun lin => do
      let word ← s.load (maskWord slot maskOffset lin) 8
      return if word &&& maskBit lin = 0 then none else some (n.cellAt slot lin)
    return cells.filterMap id
  | .pointer => do
    let blocks ← n.cellNumbers.mapM fun lin => s.link (addressSlot slot lin)
    return blocks.filter (! ·.isNull)
  | .dynamic .. => do
    let len ← s.listLength slot
    (List.range len.toNat).mapM fun e => s.element n slot (.ofNat e)
  | .root => .ok [slot]
  | .bitStruct | .bitArray | .place => .ok []

/-- The slots of the last node of a way in the active cells below `cell`. -/
def slots (s : Store) : List Layout.Node → Address → Except Fault (List Address)
  | [], _ => .ok []
  | [n], cell => .ok [cell.add n.offset]
  | n :: rest, cell => do
    let cells ← s.activeCells n (cell.add n.offset)
    return (← cells.mapM (s.slots rest)).flatten

end Store

namespace StoreM

/-- Gives back the chunks of a list from `chunk` on, at most that many. -/
def dropChunks (id : NodeId) : Nat → Address → StoreM Unit
  | 0, _ => pure ()
  | k + 1, chunk =>
    if chunk.isNull then pure ()
    else do
      let next ← look (·.link chunk)
      dropBlock id chunk
      dropChunks id k next

/-- Releases the containers of the sparse children in a cell, each by `release`. -/
def releaseCell (t : Layout) (release : Layout.Node → Address → StoreM Unit) (n : Layout.Node)
    (cell : Address) : StoreM Unit :=
  (t.childNodes n).forM fun child =>
    if child.sparseBelow then release child (cell.add child.offset) else pure ()

/-- Deactivates the 64 cells of one mask word. -/
def clearMaskWord (inner : Address → StoreM Unit) (n : Layout.Node) (slot : Address)
    (maskOffset w : UInt64) : StoreM Unit := do
  let word ← look (·.load (maskWord slot maskOffset (w * 64)) 8)
  if word ≠ 0 then
    (List.range 64).forM fun b =>
      let lin := w * 64 + .ofNat b
      if word &&& maskBit lin = 0 then pure () else inner (n.cellAt slot lin)
    put (maskWord slot maskOffset (w * 64)) 8 0

/-- Deactivates every cell of a container, having released what a cell holds by `inner`. -/
def clearContainer (inner : Address → StoreM Unit) (n : Layout.Node) (slot : Address) :
    StoreM Unit :=
  match n.container with
  | .dense =>
    if n.sparseBelow then
      (List.range n.cells.toNat).forM fun lin => inner (n.cellAt slot (.ofNat lin))
    else pure ()
  | .bitmasked maskOffset =>
    (List.range ((n.cells.toNat + 63) / 64)).forM fun w =>
      clearMaskWord inner n slot maskOffset (.ofNat w)
  | .pointer =>
    (List.range n.cells.toNat).forM fun lin => do
      let entry := addressSlot slot (.ofNat lin)
      let block ← look (·.link entry)
      if ! block.isNull then
        inner block
        dropBlock n.id block
        put entry 8 0
  | .dynamic .. => do
    let len ← look (·.listLength slot)
    (List.range len.toNat).forM fun e => do
      inner (← look (·.element n slot (.ofNat e)))
    let first ← look (·.link (headSlot slot))
    dropChunks n.id ((← get).liveBlocks n.id + 1) first
    zero slot 16
  | .root | .bitStruct | .bitArray | .place => pure ()

/-- Deactivates every cell of a container and of the containers in its cells, at most that many
levels down. -/
def releaseLevels (t : Layout) : Nat → Layout.Node → Address → StoreM Unit
  | 0, _, _ => pure ()
  | height + 1, n, slot => clearContainer (releaseCell t (releaseLevels t height) n) n slot

/-- Deactivates every cell of a container; a tree has no more levels than nodes. -/
def releaseContainer (t : Layout) (n : Layout.Node) (slot : Address) : StoreM Unit :=
  releaseLevels t t.nodes.size n slot

/-- Releases what one cell of a node holds. -/
def releaseBelow (t : Layout) (n : Layout.Node) (cell : Address) : StoreM Unit :=
  releaseCell t (releaseContainer t) n cell

end StoreM

end SparseLayout
