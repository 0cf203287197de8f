import SparseLayout.Layout.Compile
import SparseLayout.Layout.Handle
import SparseLayout.Store.Cells

namespace SparseLayout

/-- A finished tree. A destroyed tree keeps its layout but not its storage. -/
structure Forest.Tree where
  layout : Layout
  store : Option Store
  destroyed : Bool

structure Forest where
  config : Config
  /-- Roots given out and not finished, oldest first. -/
  pending : List RootId
  trees : Array Forest.Tree

/-- Operations on a forest keep what they changed when they end early. -/
abbrev ForestM := EStateM Fault Forest

namespace Forest

/-- A forest without trees. -/
def new (c : Config) : Except SizingError Forest := do
  c.check
  return ⟨c, [], #[]⟩

def standard : Forest := ⟨.standard, [], #[]⟩

/-- A draft with a fresh root, which is pending. -/
def createRoot (packing : Packing) (f : Forest) (c : Catalog) : Draft × Forest × Catalog :=
  let (root, c) := c.newRoot
  (.new root packing, { f with pending := f.pending ++ [root] }, c)

def isPending (f : Forest) (root : RootId) : Bool := root ∈ f.pending

/-- Forgets a pending root. -/
def discard (f : Forest) (root : RootId) : Forest := { f with pending := f.pending.erase root }

/-- Ends the construction of a draft: its root is pending no longer. -/
def closeRoot (d : Draft) : EStateM BuildError Forest Unit := fun f =>
  if f.isPending d.root then .ok () (f.discard d.root)
  else .error (.invalid (.notPending d.root)) f

/-- The storage of a new tree, unless it is only compiled. -/
def newStore (f : Forest) (t : Layout) : Except Shortage (Option Store) :=
  if t.compileOnly then .ok none else (Store.new t f.config).map some

/-- Finishes a draft: the tree is compiled, gets its storage, and joins the forest. -/
def finish (d : Draft) (compileOnly : Bool) : EStateM BuildError Forest Handle := do
  closeRoot d
  let f ← get
  match d.compile f.trees.size compileOnly with
  | .error e => throw e
  | .ok layout =>
    match f.newStore layout with
    | .error shortage => throw (.outOfMemory shortage)
    | .ok store =>
      set { f with trees := f.trees.push ⟨layout, store, false⟩ }
      return layout.rootHandle

/-- The root of a tree that is not destroyed. -/
def root? (f : Forest) (id : TreeId) : Option Handle := do
  let tree ← f.trees[id]?
  if tree.destroyed then none else some tree.layout.rootHandle

/-- The roots of the trees that are not destroyed, in the order the trees were finished. -/
def roots (f : Forest) : List Handle := (List.range f.trees.size).filterMap f.root?

/-- The layout of a tree, destroyed or not. -/
def layout? (f : Forest) (id : TreeId) : Option Layout := f.trees[id]?.map (·.layout)

/-- The place node of a member that was placed in a tree of the forest. -/
def nodeOf (f : Forest) (c : Catalog) (m : Member) : Option Handle := do
  let placement ← c.placement? m.id
  let tree ← f.trees.find? (·.layout.root = placement.root)
  tree.layout.handle? (← tree.layout.placeOf m.id)

/-- Releases the storage of a tree. -/
def destroy (id : TreeId) : ForestM Unit := fun f =>
  match f.trees[id]? with
  | none => .error (.refused (.unknownTree id)) f
  | some tree =>
    if tree.destroyed then .error (.refused (.treeDestroyed id)) f
    else
      .ok () { f with trees := f.trees.set! id { tree with store := none, destroyed := true } }

def setStore (f : Forest) (id : TreeId) (tree : Tree) (s : Store) : Forest :=
  { f with trees := f.trees.set! id { tree with store := some s } }

/-- Works on the storage of a handle's tree. -/
def withStore (h : Handle) (op : StoreM α) : ForestM α := fun f =>
  let id := h.layout.tree
  match f.trees[id]? with
  | none => .error (.refused (.unknownTree id)) f
  | some tree =>
    if tree.layout.root ≠ h.layout.root then .error (.refused .foreignNode) f
    else if tree.destroyed then .error (.refused (.treeDestroyed id)) f
    else
      match tree.store with
      | none => .error (.refused (.notMaterialized id)) f
      | some store =>
        match op store with
        | .ok a store => .ok a (f.setStore id tree store)
        | .error e store => .error e (f.setStore id tree store)

/-- Works on the storage at the coordinates of an index expression of a node. -/
def withCell (h : Handle) (space : Except AccessError Layout.Node) (idx : List Int32)
    (op : Coords → StoreM α) : ForestM α :=
  withStore h do
    let space ← StoreM.look fun _ => refuse space
    let c ← StoreM.look fun _ => refuse (space.resolve idx)
    op c

/-- Activates the cell of a node at an index and every level on its path. -/
def activate (h : Handle) (idx : List Int32) : ForestM Unit :=
  withCell h (.ok h.node) idx fun c => StoreM.activate h.layout h.node c

/-- Deactivates the cell of a sparse node at an index. -/
def deactivate (h : Handle) (idx : List Int32) : ForestM Unit :=
  withCell h (.ok h.node) idx fun c => StoreM.deactivate h.layout h.node c

def isActive (h : Handle) (idx : List Int32) : ForestM Bool :=
  withCell h (.ok h.node) idx fun c => StoreM.look fun s => s.isActive h.layout h.node c

/-- Appends to the list in the parent's cell at an index. -/
def append (h : Handle) (idx : List Int32) (v : Scalar) : ForestM UInt32 :=
  withCell h (h.layout.parentNode h.node) idx fun c => StoreM.append h.layout h.node c v

/-- The length of the list in the parent's cell at an index. -/
def length (h : Handle) (idx : List Int32) : ForestM UInt32 :=
  withCell h (h.layout.parentNode h.node) idx fun c =>
    StoreM.look fun s => s.length h.layout h.node c

/-- The address of an active cell among those of all trees. -/
def address (h : Handle) (idx : List Int32) : ForestM UInt64 :=
  withCell h (.ok h.node) idx fun c => do
    return (← StoreM.look fun s => s.address h.layout h.node c).global h.layout.tree

def read (h : Handle) (idx : List Int32) : ForestM Scalar :=
  withCell h (.ok h.node) idx fun c => StoreM.look fun s => s.read h.layout h.node c

def write (h : Handle) (idx : List Int32) (v : Scalar) : ForestM Unit :=
  withCell h (.ok h.node) idx fun c => StoreM.write h.layout h.node c v

/-- Blocks in use for a pointer node, chunks in use for a dynamic one. -/
def liveBlocks (h : Handle) : ForestM Nat :=
  withStore h (StoreM.look fun s => .ok (s.liveBlocks h.id))

/-- Deactivates every cell of a node and of the nodes below it. -/
def deactivateAll (h : Handle) : ForestM Unit := withStore h (StoreM.deactivateAll h.layout h.node)

/-- Bytes that the tree's pool has handed out. -/
def usedBytes (h : Handle) : ForestM Nat := withStore h (StoreM.look fun s => .ok s.pool.used)

end Forest

end SparseLayout
