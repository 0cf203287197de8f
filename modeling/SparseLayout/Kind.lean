import SparseLayout.Axis
import SparseLayout.Member
import SparseLayout.NodeType

namespace SparseLayout

/-- The exponent that a quantized float shares with the members placed together with it. -/
structure SharedExponent where
  /-- Number of the group within its bit struct. -/
  group : UInt32
  /-- Where the exponent field of the group starts in the word. -/
  bitOffset : UInt32
  bits : UInt32
  /-- Whether this member is the first of its group. -/
  owner : Bool
  deriving DecidableEq

/-- What a place node holds. -/
structure PlaceInfo where
  member : Member
  /-- Subtracted from an index expression entry by entry; empty or one per active axis. -/
  indexOffsets : List Int32
  /-- Where the member's bits start inside a bit container. -/
  bitOffset : Option UInt32
  sharedExponent : Option SharedExponent
  deriving DecidableEq

inductive Kind
  | root
  /-- All cells side by side. -/
  | dense (divisions : List Division)
  /-- One block per active cell. -/
  | pointer (divisions : List Division)
  /-- All cells side by side, with one activation bit each. -/
  | bitmasked (divisions : List Division)
  /-- A list of at most `dim` elements, grown in chunks. -/
  | dynamic (axis : Axis) (dim chunk : UInt32)
  /-- A record packed into one word of `width` bits. -/
  | bitStruct (width : UInt32)
  /-- Equal elements packed into one word of `width` bits. -/
  | bitArray (divisions : List Division) (width : UInt32)
  /-- A leaf that stores one member. -/
  | place (info : PlaceInfo)
  deriving DecidableEq

namespace Kind

def type : Kind → NodeType
  | root => .root
  | dense _ => .dense
  | pointer _ => .pointer
  | bitmasked _ => .bitmasked
  | dynamic .. => .dynamic
  | bitStruct _ => .bitStruct
  | bitArray .. => .bitArray
  | place _ => .place

/-- The axes divided at this level with their extents, in declaration order. -/
def divisions : Kind → List Division
  | dense ds | pointer ds | bitmasked ds | bitArray ds _ => ds
  | dynamic axis dim _ => [⟨axis, dim⟩]
  | root | bitStruct _ | place _ => []

def axes (k : Kind) : List Axis := k.divisions.map (·.axis)

def extents (k : Kind) : List UInt32 := k.divisions.map (·.extent)

/-- Declared elements per chunk of a list. -/
def chunk? : Kind → Option UInt32
  | dynamic _ _ chunk => some chunk
  | _ => none

/-- Word width of a bit container. -/
def wordBits? : Kind → Option UInt32
  | bitStruct width | bitArray _ width => some width
  | _ => none

def place? : Kind → Option PlaceInfo
  | place info => some info
  | _ => none

end Kind

end SparseLayout
