import SparseLayout.Draft

namespace SparseLayout

/-- Extents of a declaration: one for every axis, or one per axis. -/
inductive Dims
  | uniform (extent : UInt32)
  | perAxis (extents : List UInt32)
  deriving DecidableEq

/-- The extents of that many axes. -/
def Dims.broadcast (axes : Nat) : Dims → Except InvalidArgument (List UInt32)
  | uniform extent => .ok (.replicate axes extent)
  | perAxis extents =>
    if extents.length = axes then .ok extents else .error (.extentCount extents.length axes)

/-- Reads axis numbers in order; each is an axis, and none is repeated or was seen before. -/
def readAxes : List Axis → List Nat → Except InvalidArgument (List Axis)
  | _, [] => .ok []
  | seen, n :: rest =>
    if h : n < axisCount then
      if ⟨n, h⟩ ∈ seen then .error (.axisRepeated ⟨n, h⟩)
      else do
        let axes ← readAxes (⟨n, h⟩ :: seen) rest
        return ⟨n, h⟩ :: axes
    else .error (.axisTooLarge n)

/-- Axes with positive extents. -/
def readDivisions (axes : List Nat) (dims : Dims) : Except InvalidArgument (List Division) := do
  let extents ← dims.broadcast axes.length
  let axes ← readAxes [] axes
  let divisions := axes.zipWith Division.mk extents
  match divisions.find? (·.extent = 0) with
  | some d => .error (.extentZero d.axis)
  | none => return divisions

/-- Bit containers are one word of a machine width. -/
def checkWordBits (width : UInt32) : Except InvalidArgument Unit :=
  if width ∈ [8, 16, 32, 64] then .ok () else .error (.wordWidth width)

def NodeType.checkChild (parent child : NodeType) : Except InvalidArgument Unit :=
  if parent.acceptsChildren then .ok () else .error (.parentType child parent)

/-- A declaration of one node. -/
inductive Structural
  | dense (axes : List Nat) (dims : Dims)
  | pointer (axes : List Nat) (dims : Dims)
  | bitmasked (axes : List Nat) (dims : Dims)
  /-- A chunk holds as many elements as the list unless a size is given. -/
  | dynamic (axes : List Nat) (dim : UInt32) (chunk : Option UInt32)
  | bitStruct (width : UInt32)
  | bitArray (axes : List Nat) (dims : Dims) (width : UInt32)
  /-- Hashed nodes are refused. -/
  | hash (axes : List Nat) (dims : Dims)
  deriving DecidableEq

/-- The kind of the node that a declaration under a parent of this type adds. -/
def Structural.kind (parent : NodeType) : Structural → Except BuildError Kind
  | dense axes dims => divided .dense axes dims .dense
  | pointer axes dims => divided .pointer axes dims .pointer
  | bitmasked axes dims => divided .bitmasked axes dims .bitmasked
  | dynamic axes dim chunk =>
    if axes.length ≠ 1 then .error (.invalid (.listAxes axes.length))
    else checked do
      parent.checkChild .dynamic
      match ← readDivisions axes (.uniform dim) with
      | [d] =>
        if chunk = some 0 then .error .chunkZero
        else return .dynamic d.axis d.extent (chunk.getD d.extent)
      | _ => .error (.listAxes axes.length)
  | bitStruct width => checked do
    parent.checkChild .bitStruct
    checkWordBits width
    return .bitStruct width
  | bitArray axes dims width => checked do
    parent.checkChild .bitArray
    let divisions ← readDivisions axes dims
    checkWordBits width
    return .bitArray divisions width
  | hash .. => .error .hashedNode
where
  divided (child : NodeType) (axes : List Nat) (dims : Dims) (kind : List Division → Kind) :
      Except BuildError Kind := checked do
    parent.checkChild child
    return kind (← readDivisions axes dims)

/-- A draft together with the catalog that its members are bound in. -/
structure Drafting where
  draft : Draft
  catalog : Catalog

/-- Declarations change a draft and the catalog, and keep what they changed when they fail. -/
abbrev DraftM := EStateM BuildError Drafting

namespace DraftM

/-- Ends when a check does. -/
def check (r : Except BuildError α) : DraftM α :=
  match r with
  | .ok a => pure a
  | .error e => throw e

def node (id : NodeId) : DraftM Draft.Node := do
  match (← get).draft.nodes[id]? with
  | some n => return n
  | none => throw (.invalid (.noNode id))

/-- Adds a node of this kind and returns its number. -/
def push (parent : NodeId) (kind : Kind) : DraftM NodeId := do
  let node ← node parent
  modifyGet fun s => (s.draft.next, { s with draft := s.draft.push parent node kind })

/-- Carries out a structural declaration under a node and returns the number of the new one. -/
def extend (parent : NodeId) (s : Structural) : DraftM NodeId := do
  let node ← node parent
  match s.kind node.kind.type with
  | .ok kind => push parent kind
  | .error e => throw e

end DraftM

end SparseLayout
