namespace SparseLayout

inductive NodeType
  | root | dense | pointer | dynamic | bitmasked | bitStruct | bitArray | place
  deriving DecidableEq

namespace NodeType

/-- Cells of a sparse node can be activated one by one. -/
def isSparse : NodeType → Bool
  | pointer | dynamic | bitmasked => true
  | _ => false

def acceptsChildren : NodeType → Bool
  | place | bitStruct | bitArray => false
  | _ => true

/-- A bit-level node packs its members bit by bit into one word. -/
def isBitLevel : NodeType → Bool
  | bitStruct | bitArray => true
  | _ => false

def text : NodeType → String
  | root => "root"
  | dense => "dense"
  | pointer => "pointer"
  | dynamic => "dynamic"
  | bitmasked => "bitmasked"
  | bitStruct => "bit_struct"
  | bitArray => "bit_array"
  | place => "place"

end NodeType

end SparseLayout
