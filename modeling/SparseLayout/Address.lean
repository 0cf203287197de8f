namespace SparseLayout

/-- Bytes that the offsets of one segment can tell apart. -/
def maxSegmentBytes : Nat := 0x10000000000

/-- Segments that an address can name. -/
def maxSegments : Nat := 255

structure Address where
  raw : UInt64
  deriving DecidableEq

namespace Address

def null : Address := ⟨0⟩

def isNull (a : Address) : Bool := a.raw = 0

/-- The address of a byte of a segment. -/
def ofByte (segment offset : Nat) : Address :=
  ⟨.ofNat ((segment + 1) * maxSegmentBytes + offset % maxSegmentBytes)⟩

/-- The segment; that of the null address means nothing. -/
def segment (a : Address) : Nat := a.raw.toNat / maxSegmentBytes % (maxSegments + 1) - 1

def offset (a : Address) : Nat := a.raw.toNat % maxSegmentBytes

/-- The address that many bytes further on. -/
def add (a : Address) (bytes : UInt64) : Address := ⟨a.raw + bytes⟩

/-- The same for any word that is taken for an address: none where the sum is no word. -/
def add? (a : Address) (bytes : UInt64) : Option Address :=
  if a.raw.toNat + bytes.toNat < UInt64.size then some (a.add bytes) else none

/-- The address with the number of its tree above it, counted from 1. Bits past the word are
lost. -/
def global (a : Address) (tree : Nat) : UInt64 := (UInt64.ofNat (tree + 1) <<< 48) ||| a.raw

def text (a : Address) : String :=
  if a.isNull then "null"
  else s!"{a.segment}:0x" ++ String.ofList (Nat.toDigits 16 a.offset)

theorem toNat_raw_ofByte {segment : Nat} (h : segment < maxSegments) (offset : Nat) :
    (ofByte segment offset).raw.toNat =
      (segment + 1) * maxSegmentBytes + offset % maxSegmentBytes := by
  unfold maxSegments at h
  unfold ofByte maxSegmentBytes
  rw [UInt64.toNat_ofNat']
  exact Nat.mod_eq_of_lt (by omega)

/-- An address names the byte it was made for. -/
theorem segment_ofByte {segment : Nat} (h : segment < maxSegments) (offset : Nat) :
    (ofByte segment offset).segment = segment := by
  unfold Address.segment
  rw [toNat_raw_ofByte h]
  unfold maxSegments maxSegmentBytes at *
  omega

theorem offset_ofByte {segment offset : Nat} (h : segment < maxSegments)
    (ho : offset < maxSegmentBytes) : (ofByte segment offset).offset = offset := by
  unfold Address.offset
  rw [toNat_raw_ofByte h]
  unfold maxSegmentBytes at *
  omega

theorem toNat_raw_add {a : Address} {k : UInt64} (h : a.offset + k.toNat < maxSegmentBytes) :
    (a.add k).raw.toNat = a.raw.toNat + k.toNat := by
  have hr := a.raw.toNat_lt
  unfold offset maxSegmentBytes at h
  unfold add
  rw [UInt64.toNat_add]
  exact Nat.mod_eq_of_lt (by omega)

/-- The sum is a word wherever it stays within a segment. -/
theorem add?_eq_some {a : Address} {k : UInt64} (h : a.offset + k.toNat < maxSegmentBytes) :
    a.add? k = some (a.add k) := by
  have hr := a.raw.toNat_lt
  unfold offset maxSegmentBytes at h
  unfold add? UInt64.size
  exact if_pos (by omega)

/-- Going on within a segment changes the offset alone. -/
theorem offset_add {a : Address} {k : UInt64} (h : a.offset + k.toNat < maxSegmentBytes) :
    (a.add k).offset = a.offset + k.toNat := by
  have hr := toNat_raw_add h
  unfold offset maxSegmentBytes at *
  omega

theorem segment_add {a : Address} {k : UInt64} (h : a.offset + k.toNat < maxSegmentBytes) :
    (a.add k).segment = a.segment := by
  have hr := toNat_raw_add h
  unfold segment
  rw [hr]
  unfold offset maxSegmentBytes at *
  congr 2
  omega

end Address

end SparseLayout
