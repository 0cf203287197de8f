namespace SparseLayout

/-- What a floating-point word stands for; a finite one is `significand * 2 ^ exponent`, signed. -/
inductive FloatValue
  | finite (negative : Bool) (significand : Nat) (exponent : Int)
  | infinite (negative : Bool)
  | nan
  deriving DecidableEq

/-- A binary format with `precision` significant bits, the leading one included. -/
structure FloatFormat where
  precision : Nat
  exponentBits : Nat
  deriving DecidableEq

/-- The number `m / 2 ^ s`, rounded to the nearest integer; a half goes to the even neighbour. -/
def roundHalfEven (m s : Nat) : Nat :=
  let unit := 1 <<< s
  let below := m / unit
  let twice := 2 * (m % unit)
  if twice > unit ∨ (twice = unit ∧ below % 2 = 1) then below + 1 else below

namespace FloatFormat

def single : FloatFormat := ⟨24, 8⟩
def double : FloatFormat := ⟨53, 11⟩

/-- Exponent of the last place of the smallest numbers. -/
def minExponent (f : FloatFormat) : Int := 3 - (1 <<< (f.exponentBits - 1) : Nat) - f.precision

/-- Weight of the sign bit. -/
def signWeight (f : FloatFormat) : Nat := 1 <<< (f.precision - 1 + f.exponentBits)

/-- Weight of the leading bit of a significand. -/
def leading (f : FloatFormat) : Nat := 1 <<< (f.precision - 1)

/-- The word of positive infinity; larger magnitudes are not numbers. -/
def infinity (f : FloatFormat) : Nat := ((1 <<< f.exponentBits) - 1) * f.leading

/-- The value of a word, read as sign, biased exponent and fraction. -/
def decode (f : FloatFormat) (word : Nat) : FloatValue :=
  let negative := word / f.signWeight % 2 = 1
  let magnitude := word % f.signWeight
  let fraction := magnitude % f.leading
  let exponent := magnitude / f.leading
  if magnitude > f.infinity then .nan
  else if magnitude = f.infinity then .infinite negative
  else if exponent = 0 then .finite negative fraction f.minExponent
  else .finite negative (f.leading + fraction) (f.minExponent + exponent - 1)

/-- The magnitude word nearest to `m * 2 ^ e`, infinity where the format's numbers end. -/
def nearestMagnitude (f : FloatFormat) (m : Nat) (e : Int) : Nat :=
  if m = 0 then 0
  else
    let last := max (e + (m.log2 + 1) - f.precision) f.minExponent
    let places := if last ≤ e then m <<< (e - last).toNat else roundHalfEven m (last - e).toNat
    min f.infinity ((last - f.minExponent).toNat * f.leading + places)

/-- The word nearest to a value; there is one word for "not a number". -/
def encode (f : FloatFormat) : FloatValue → Nat
  | .finite negative m e => f.nearestMagnitude m e + if negative then f.signWeight else 0
  | .infinite negative => f.infinity + if negative then f.signWeight else 0
  | .nan => f.infinity + f.leading / 2

end FloatFormat

namespace FloatValue

def ofInt (i : Int) : FloatValue := .finite (i < 0) i.natAbs 0

/-- The integer part, the fraction dropped; the ends of the range stand in for what lies beyond
them, and zero for "not a number". -/
def truncate (least greatest : Int) : FloatValue → Int
  | .finite negative m e =>
    let magnitude : Nat := if 0 ≤ e then m <<< e.toNat else m >>> (-e).toNat
    max least (min greatest (if negative then -magnitude else magnitude))
  | .infinite negative => if negative then least else greatest
  | .nan => 0

end FloatValue

/-- A double-precision word. -/
structure Double where
  word : UInt64
  deriving DecidableEq

namespace Double

def value (d : Double) : FloatValue := FloatFormat.double.decode d.word.toNat

def ofValue (v : FloatValue) : Double := ⟨.ofNat (FloatFormat.double.encode v)⟩

def ofInt (i : Int) : Double := ofValue (.ofInt i)

def isNaN (d : Double) : Bool := d.value = .nan

/-- The double that a single-precision word stands for; every such number is a double. -/
def ofSingle (word : UInt32) : Double := ofValue (FloatFormat.single.decode word.toNat)

/-- The nearest single-precision word. -/
def toSingle (d : Double) : UInt32 := .ofNat (FloatFormat.single.encode d.value)

def toInt64 (d : Double) : Int64 :=
  .ofInt (d.value.truncate Int64.minValue.toInt Int64.maxValue.toInt)

def toUInt64 (d : Double) : UInt64 := .ofNat (d.value.truncate 0 (UInt64.size - 1 : Nat)).toNat

end Double

end SparseLayout
