namespace SparseLayout

/-- Widths of a whole-byte integer. -/
inductive IntWidth
  | w8 | w16 | w32 | w64
  deriving DecidableEq

namespace IntWidth

def bytes : IntWidth → UInt32
  | .w8 => 1 | .w16 => 2 | .w32 => 4 | .w64 => 8

def text : IntWidth → String
  | .w8 => "8" | .w16 => "16" | .w32 => "32" | .w64 => "64"

end IntWidth

inductive DataType
  | int (width : IntWidth)
  | uint (width : IntWidth)
  | half
  | single
  | double
  /-- An integer of 1 to 32 bits. -/
  | quantInt (bits : UInt8) (signed : Bool)
  /-- Digits, sign included, and an exponent. -/
  | quantFloat (digitBits exponentBits : UInt8)
  deriving DecidableEq

namespace DataType

/-- Bytes of a whole-byte type. -/
def byteSize : DataType → Option UInt32
  | int w | uint w => some w.bytes
  | half => some 2
  | single => some 4
  | double => some 8
  | quantInt .. | quantFloat .. => none

/-- Storage width in bits. -/
def bits : DataType → UInt32
  | quantInt bits _ => bits.toUInt32
  | quantFloat digits exponent => digits.toUInt32 + exponent.toUInt32
  | t => t.byteSize.getD 0 * 8

/-- Bits of the type without its exponent field. -/
def digitBits : DataType → UInt32
  | quantFloat digits _ => digits.toUInt32
  | t => t.bits

def isQuant : DataType → Bool
  | quantInt .. | quantFloat .. => true
  | _ => false

def isReal : DataType → Bool
  | half | single | double => true
  | _ => false

def isSigned : DataType → Bool
  | uint _ => false
  | quantInt _ signed => signed
  | _ => true

def text : DataType → String
  | int w => "i" ++ w.text
  | uint w => "u" ++ w.text
  | half => "f16"
  | single => "f32"
  | double => "f64"
  | quantInt bits true => s!"qi{bits}"
  | quantInt bits false => s!"qu{bits}"
  | quantFloat digits exponent => s!"qf(d{digits},e{exponent})"

end DataType

end SparseLayout
