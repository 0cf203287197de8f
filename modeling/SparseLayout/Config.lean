import SparseLayout.Address
import SparseLayout.Axis
import SparseLayout.Error

namespace SparseLayout

structure Config where
  packing : Packing
  segmentBytes : Nat
  /-- Segments per tree. -/
  maxSegments : Nat
  deriving DecidableEq

namespace Config

/-- 64 segments of 16 MiB, padded. -/
def standard : Config := ⟨.padded, 16 * 1024 * 1024, 64⟩

/-- Segments hold whole words and have addresses for all their bytes. -/
def check (c : Config) : Except SizingError Unit :=
  if c.segmentBytes = 0 ∨ c.segmentBytes % 8 ≠ 0 then .error (.segmentSize c.segmentBytes)
  else if c.segmentBytes > maxSegmentBytes then
    .error (.segmentTooLarge c.segmentBytes maxSegmentBytes)
  else if c.maxSegments = 0 then .error .noSegments
  else if c.maxSegments > SparseLayout.maxSegments then
    .error (.tooManySegments c.maxSegments SparseLayout.maxSegments)
  else .ok ()

/-- The most bytes that one tree can use, stopping at the largest word. -/
def capacity (c : Config) : Nat := min (c.segmentBytes * c.maxSegments) (UInt64.size - 1)

end Config

end SparseLayout
