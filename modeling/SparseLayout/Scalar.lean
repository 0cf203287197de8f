import SparseLayout.FloatFormat

namespace SparseLayout

inductive Scalar
  | int (v : Int64)
  | uint (v : UInt64)
  | float (v : Double)
  deriving DecidableEq

namespace Scalar

def toDouble : Scalar → Double
  | int v => .ofInt v.toInt
  | uint v => .ofInt v.toNat
  | float v => v

def toInt64 : Scalar → Int64
  | int v => v
  | uint v => v.toInt64
  | float v => v.toInt64

def toUInt64 : Scalar → UInt64
  | int v => v.toUInt64
  | uint v => v
  | float v => v.toUInt64

end Scalar

end SparseLayout
