import SparseLayout.Builder

namespace SparseLayout

namespace Profile

inductive Error
  | build (e : BuildError)
  /-- No grid has blocks of width 0. -/
  | zeroBlock
  deriving DecidableEq

abbrev ProfileM := EStateM Error (Forest × Catalog)

/-- A scalar field of single-precision values. -/
def declareField (name : String) : ProfileM Field := fun (f, c) =>
  match Catalog.declare ⟨name, .single, .scalar, false⟩ c with
  | .ok field c => .ok field (f, c)
  | .error e c => .error (.build e) (f, c)

/-- Carries out declarations, each on the node that the one before it returned. -/
def declareChain : Option NodeId → List Declaration →
    EStateM BuildError (Builder × Catalog) (List NodeId)
  | _, [] => pure []
  | node, d :: rest => do
    let id ← Builder.declare node d
    return id :: (← declareChain (some id) rest)

/-- Builds a tree by a chain of declarations from its root down; the numbers of the nodes come with
the root. A builder that fails is dropped. -/
def buildChain (ds : List Declaration) : ProfileM (Handle × List NodeId) := fun (f, c) =>
  let (b, f, c) := Builder.new f c
  match declareChain none ds (b, c) with
  | .error e (b, c) => .error (.build e) (b.drop f, c)
  | .ok ids (b, c) =>
    match Builder.finalize true false (b, f) with
    | .ok root (_, f) => .ok (root, ids) (f, c)
    | .error e (_, f) => .error (.build e) (f, c)

/-- The handle of a node of the tree of `root`. -/
def nodeOf (root : Handle) (id : Option NodeId) : ProfileM Handle :=
  match id.bind root.layout.handle? with
  | some h => pure h
  | none => throw (.build (.invalid (.noNode (id.getD 0))))

structure Grid where
  root : Handle
  blocks : Handle
  value : Handle
  /-- Cells per axis. -/
  side : UInt32

/-- A square grid with one value per cell, in pointer blocks of `block` cells per axis. -/
def grid (side block : UInt32) : ProfileM Grid := do
  let field ← declareField "value"
  if block = 0 then throw .zeroBlock
  let (root, ids) ← buildChain [
    .node (.pointer [0, 1] (.uniform (side / block))),
    .node (.dense [0, 1] (.uniform block)),
    .place [.one field] ⟨none, false⟩]
  let dense ← nodeOf root ids[1]?
  return ⟨root, ← nodeOf root ids[0]?, ← nodeOf root dense.node.children.head?, side⟩

structure Particles where
  root : Handle
  lists : Handle
  /-- The most elements of a list. -/
  capacity : UInt32

/-- Lists of at most `capacity` masses, one list per coarse cell. -/
def particles (cells capacity : UInt32) : ProfileM Particles := do
  let field ← declareField "mass"
  let (root, ids) ← buildChain [
    .node (.dense [0] (.uniform cells)),
    .node (.dynamic [1] capacity (some (min capacity 32))),
    .place [.one field] ⟨none, false⟩]
  return ⟨root, ← nodeOf root ids[1]?, capacity⟩

end Profile

end SparseLayout
