import SparseLayout.Error
import SparseLayout.Scalar

namespace SparseLayout

namespace DataType

/-- Half-precision and quantized floats are stored but not read or written. -/
def checkAccess (t : DataType) : Except AccessError Unit :=
  match t with
  | half | quantFloat .. => .error (.unsupportedType t)
  | _ => .ok ()

/-- The value of a cell that was never written. -/
def zero (t : DataType) : Scalar :=
  if t.isReal then .float ⟨0⟩ else if t.isSigned then .int 0 else .uint 0

end DataType

/-- The lowest bits of a word. -/
def lowMask (bits : UInt32) : UInt64 := if 64 ≤ bits then -1 else (1 <<< bits.toUInt64) - 1

/-- The number whose two's complement is in the low bits of a word. -/
def signExtend (bits : UInt32) (w : UInt64) : Int64 :=
  let shift := (64 - bits).toUInt64
  (w <<< shift).toInt64 >>> shift.toInt64

namespace DataType

/-- The scalar in the low bits of a word. -/
def decode (t : DataType) (w : UInt64) : Scalar :=
  match t with
  | int width => .int (signExtend (width.bytes * 8) w)
  | uint width => .uint (w &&& lowMask (width.bytes * 8))
  | single => .float (.ofSingle w.toUInt32)
  | double => .float ⟨w⟩
  | quantInt bits true => .int (signExtend bits.toUInt32 (w &&& lowMask bits.toUInt32))
  | quantInt bits false => .uint (w &&& lowMask bits.toUInt32)
  | half | quantFloat .. => t.zero

/-- A word with the scalar, converted to the type, in its low bits. -/
def encode (t : DataType) (v : Scalar) : UInt64 :=
  match t with
  | int _ | quantInt .. => v.toInt64.toUInt64
  | uint _ => v.toUInt64
  | single => v.toDouble.toSingle.toUInt64
  | double => v.toDouble.word
  | half | quantFloat .. => 0

/-- The scalar at a bit offset of a word. -/
def extract (t : DataType) (w : UInt64) (offset : UInt32) : Scalar :=
  t.decode (w >>> offset.toUInt64)

/-- The word with the bits at an offset replaced by those of a scalar. -/
def insert (t : DataType) (w : UInt64) (offset : UInt32) (v : Scalar) : UInt64 :=
  let mask := lowMask t.bits <<< offset.toUInt64
  (w &&& ~~~mask) ||| ((t.encode v <<< offset.toUInt64) &&& mask)

end DataType

end SparseLayout
