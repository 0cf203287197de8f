import SparseLayout.Axis
import SparseLayout.DataType
import SparseLayout.NodeType

namespace SparseLayout

/-- Why an argument of a declaration is refused. -/
inductive InvalidArgument
  | quantIntWidth (bits : UInt8)
  | quantFloatWidths (digitBits exponentBits : UInt8)
  | noMembers (field : String)
  | adjointType (field : String) (dtype : DataType)
  | extentCount (given axes : Nat)
  | axisTooLarge (axis : Nat)
  | axisRepeated (axis : Axis)
  | extentZero (axis : Axis)
  | listAxes (given : Nat)
  | chunkZero
  | wordWidth (bits : UInt32)
  | parentType (child parent : NodeType)
  | sharedEmpty
  | memberTwice (member : String)
  | memberPlaced (member : String)
  | offsetCount (given indices : Nat)
  | underPlace
  | structFull (width needed used : UInt32)
  | arrayMembers
  | arrayFull (width : UInt32) (cells bits : UInt64)
  | sharedParent
  | sharedType (member : String) (dtype : DataType)
  | sharedWidth
  | quantOnly (container : NodeType) (member : String) (dtype : DataType)
  | quantParent (member : String) (dtype : DataType)
  | productOverflow (a b : UInt64)
  | sumOverflow (a b : UInt64)
  | noNode (node : Nat)
  | notPending (root : Nat)
  deriving DecidableEq

def InvalidArgument.reason : InvalidArgument → String
  | quantIntWidth bits => s!"quantized int width {bits} must be in 1..=32"
  | quantFloatWidths digits exponent =>
    "quantized float needs 1..=32 digit bits and 1..=8 exponent bits, " ++
      s!"got {digits}/{exponent}"
  | noMembers field => s!"field '{field}' must have at least one member"
  | adjointType field dtype => s!"field '{field}' of type {dtype.text} cannot have gradients"
  | extentCount given axes => s!"{given} extents given for {axes} axes"
  | axisTooLarge axis => s!"axis {axis} exceeds the maximum number of indices"
  | axisRepeated axis => s!"axis {axisText axis} appears more than once"
  | extentZero axis => s!"extent of axis {axisText axis} must be positive"
  | listAxes given => s!"dynamic nodes take exactly one axis, got {given}"
  | chunkZero => "dynamic chunk size must be positive"
  | wordWidth bits => s!"bit container width must be 8, 16, 32 or 64 bits, got {bits}"
  | parentType child parent => s!"cannot add a {child.text} node under a {parent.text} node"
  | sharedEmpty => "shared exponent placement needs members"
  | memberTwice member => s!"member '{member}' appears twice in one placement"
  | memberPlaced member => s!"member '{member}' has already been placed"
  | offsetCount given indices =>
    s!"offset has {given} entries but the placed node has {indices} indices"
  | underPlace => "cannot place under a place node"
  | structFull width needed used =>
    s!"bit_struct of {width} bits cannot hold {needed} more bits ({used} in use)"
  | arrayMembers => "a bit_array holds exactly one member"
  | arrayFull width cells bits =>
    s!"bit_array of {width} bits cannot hold {cells} elements of {bits} bits"
  | sharedParent => "shared exponent placement requires a bit_struct parent"
  | sharedType member dtype =>
    s!"shared exponent members must be quantized floats, '{member}' is {dtype.text}"
  | sharedWidth => "shared exponent members must have the same exponent width"
  | quantOnly container member dtype =>
    s!"only quantized types can be placed under a {container.text}, '{member}' is {dtype.text}"
  | quantParent member dtype =>
    s!"quantized member '{member}' ({dtype.text}) must be placed under a bit_struct or bit_array"
  | productOverflow a b => s!"layout size {a} * {b} overflows"
  | sumOverflow a b => s!"layout size {a} + {b} overflows"
  | noNode node => s!"no node {node} in this tree"
  | notPending root => s!"root#{root} is not a pending root of this registry"

/-- Why a call panics. -/
inductive Panic
  /-- A sum or product is no number of its type. -/
  | overflow
  /-- A list would take more bytes than a signed word counts. -/
  | capacity
  deriving DecidableEq

def Panic.message : Panic → String
  | overflow => "arithmetic overflow"
  | capacity => "capacity overflow"

/-- Why a pool cannot serve a request: more bytes than one segment or the whole pool holds. -/
structure Shortage where
  requested : Nat
  capacity : Nat
  deriving DecidableEq

def Shortage.message (s : Shortage) : String :=
  s!"allocation failed: requested {s.requested} bytes, capacity {s.capacity} bytes"

/-- Why a declaration, a placement or the end of a declaration fails. -/
inductive BuildError
  | finalized
  | invalid (cause : InvalidArgument)
  /-- Hashed nodes are not offered. -/
  | hashedNode
  | outOfMemory (shortage : Shortage)
  | panic (p : Panic)
  deriving DecidableEq

def BuildError.message : BuildError → String
  | finalized => "fields builder finalized"
  | invalid cause => s!"invalid argument: {cause.reason}"
  | hashedNode => "unsupported: hash nodes are not supported"
  | outOfMemory shortage => shortage.message
  | panic p => p.message

/-- A check that refuses an argument. -/
def checked (r : Except InvalidArgument α) : Except BuildError α := r.mapError .invalid

/-- The result of arithmetic that panics where there is none. -/
def unchecked (r : Option α) : Except BuildError α :=
  match r with
  | some a => .ok a
  | none => .error (.panic .overflow)

@[simp] theorem checked_eq_ok_iff {r : Except InvalidArgument α} {a : α} :
    checked r = .ok a ↔ r = .ok a := by
  cases r with
  | error cause => exact ⟨nofun, nofun⟩
  | ok b => exact ⟨fun h => congrArg _ (Except.ok.inj h), fun h => congrArg _ (Except.ok.inj h)⟩

@[simp] theorem unchecked_eq_ok_iff {r : Option α} {a : α} :
    unchecked r = .ok a ↔ r = some a := by
  cases r <;> simp [unchecked]

/-- Operations that apply to some types of nodes only. -/
inductive Operation
  | deactivate | append | length | read | write
  /-- Stepping to the parent. -/
  | parent
  /-- Taking a block for a node. -/
  | allocate
  deriving DecidableEq

def Operation.text : Operation → String
  | deactivate => "deactivate"
  | append => "append"
  | length => "length"
  | read => "read"
  | write => "write"
  | parent => "parent"
  | allocate => "allocate"

/-- Why a cell of a tree cannot be reached or used. -/
inductive AccessError
  | unknownTree (tree : Nat)
  | foreignNode
  | treeDestroyed (tree : Nat)
  | notMaterialized (tree : Nat)
  | wrongKind (op : Operation) (type : NodeType)
  | indexArity (expected got : Nat)
  /-- The entry at `position` is not in `[lower, upper)`. -/
  | indexOutOfBounds (position : Nat) (index lower upper : Int64)
  | inactive
  | listFull (capacity : UInt32)
  | unsupportedType (dtype : DataType)
  | outOfMemory (shortage : Shortage)
  | panic (p : Panic)
  deriving DecidableEq

def AccessError.message : AccessError → String
  | unknownTree tree => s!"unknown snode tree {tree}"
  | foreignNode => "node belongs to a different runtime"
  | treeDestroyed tree => s!"snode tree {tree} was destroyed"
  | notMaterialized tree => s!"snode tree {tree} was compiled without storage"
  | wrongKind op type => s!"{op.text} is not supported on {type.text} nodes"
  | indexArity expected got => s!"expected {expected} indices, got {got}"
  | indexOutOfBounds position index lower upper =>
    s!"index {index} at position {position} out of range [{lower}, {upper})"
  | inactive => "addressed cell is not active"
  | listFull capacity => s!"dynamic list is full ({capacity} elements)"
  | unsupportedType dtype => s!"accessors do not support values of type {dtype.text}"
  | outOfMemory shortage => shortage.message
  | panic p => p.message

/-- How an operation on stored cells ends early: it is refused, or it meets an address whose bytes
lie outside every segment. -/
inductive Fault
  | refused (e : AccessError)
  | outside
  deriving DecidableEq

/-- Why the sizes of a pool are refused. -/
inductive SizingError
  | segmentSize (bytes : Nat)
  | segmentTooLarge (bytes greatest : Nat)
  | noSegments
  | tooManySegments (count greatest : Nat)
  deriving DecidableEq

def SizingError.message : SizingError → String
  | segmentSize bytes => s!"segment size {bytes} must be a non-zero multiple of 8 bytes"
  | segmentTooLarge bytes greatest =>
    s!"segment size {bytes} exceeds the addressable {greatest} bytes"
  | noSegments => "max_segments must be at least 1"
  | tooManySegments count greatest => s!"max_segments {count} exceeds the supported {greatest}"

/-- Two steps that succeed one after the other succeed each on its own. -/
theorem exists_of_bind {α β ε : Type} {x : Except ε α} {f : α → Except ε β} {b : β}
    (h : x >>= f = .ok b) : ∃ a, x = .ok a ∧ f a = .ok b := by
  cases x with
  | error _ => cases h
  | ok a => exact ⟨a, rfl, h⟩

end SparseLayout
