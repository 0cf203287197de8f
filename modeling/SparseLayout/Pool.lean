import SparseLayout.Address
import SparseLayout.Error
import SparseLayout.Segment

/-!
The storage pool of a tree: segments of one size, with a new one added when the last is full. A word
is loaded as it was stored, and a store changes no word apart from it.
-/

namespace SparseLayout

structure Pool where
  segments : Array Segment
  segmentBytes : Nat
  maxSegments : Nat

namespace Pool

/-- A pool of one segment. -/
def new (segmentBytes maxSegments : Nat) : Pool :=
  ⟨#[.new segmentBytes], segmentBytes, maxSegments⟩

/-- Whether the `len` bytes from `a` on lie in a segment. -/
def holds (p : Pool) (a : Address) (len : Nat) : Bool :=
  match p.segments[a.segment]? with
  | some s => a.offset + len ≤ s.capacity
  | none => false

def load (p : Pool) (a : Address) (n : Nat) : UInt64 :=
  match p.segments[a.segment]? with
  | some s => s.load a.offset n
  | none => 0

def store (p : Pool) (a : Address) (n : Nat) (w : UInt64) : Pool :=
  { p with segments := p.segments.modify a.segment (·.store a.offset n w) }

def zero (p : Pool) (a : Address) (len : Nat) : Pool :=
  { p with segments := p.segments.modify a.segment (·.zero a.offset len) }

def bytes (p : Pool) (a : Address) (len : Nat) : List UInt8 :=
  match p.segments[a.segment]? with
  | some s => (List.range len).map fun i => s.byte (a.offset + i)
  | none => []

/-- The last segment, to which bytes are added. -/
def last (p : Pool) : Nat := p.segments.size - 1

/-- The bytes used in the last segment, if it has room for `len` more. -/
def room? (p : Pool) (len : Nat) : Option Nat :=
  match p.segments[p.last]? with
  | some s => if s.fits len then some s.used else none
  | none => none

/-- Hands out zeroed bytes of one segment, of a new one if need be. -/
def alloc (len : Nat) : EStateM Shortage Pool Address := fun p =>
  if len > p.segmentBytes then .error ⟨len, p.segmentBytes⟩ p
  else
    match p.room? len with
    | some offset =>
      .ok (.ofByte p.last offset)
        { p with segments := p.segments.modify p.last (·.reserve len) }
    | none =>
      if p.segments.size ≥ p.maxSegments then .error ⟨len, p.maxSegments * p.segmentBytes⟩ p
      else if (Segment.new p.segmentBytes).fits len then
        .ok (.ofByte p.segments.size 0)
          { p with segments := p.segments.push ((Segment.new p.segmentBytes).reserve len) }
      else .error ⟨len, p.segmentBytes⟩ p

/-- Bytes handed out. -/
def used (p : Pool) : Nat := p.segments.toList.foldr (·.used + ·) 0

/-- Bytes of all segments. -/
def memory (p : Pool) : Nat := p.segments.toList.foldr (·.capacity + ·) 0

theorem holds_iff (p : Pool) (a : Address) (len : Nat) :
    p.holds a len ↔ ∃ s, p.segments[a.segment]? = some s ∧ a.offset + len ≤ s.capacity := by
  unfold holds
  split <;> simp_all

@[simp] theorem size_store (p : Pool) (a : Address) (n : Nat) (w : UInt64) :
    (p.store a n w).segments.size = p.segments.size := by
  simp [store]

@[simp] theorem size_zero (p : Pool) (a : Address) (len : Nat) :
    (p.zero a len).segments.size = p.segments.size := by
  simp [zero]

/-- Storing moves no segment's end. -/
@[simp] theorem holds_store (p : Pool) (a : Address) (n : Nat) (w : UInt64) (b : Address)
    (len : Nat) : (p.store a n w).holds b len = p.holds b len := by
  unfold holds store
  simp only [Array.getElem?_modify]
  by_cases hs : a.segment = b.segment
  · rw [if_pos hs]
    cases p.segments[b.segment]? with
    | none => rfl
    | some s => simp only [Option.map_some, Segment.capacity_store]
  · rw [if_neg hs]

/-- A word is loaded as it was stored. -/
theorem load_store_same {p : Pool} {a : Address} {n : Nat} (hn : n ≤ 8) (h : p.holds a n)
    (w : UInt64) : ((p.store a n w).load a n).toNat = w.toNat % (1 <<< (8 * n)) := by
  obtain ⟨s, hs, -⟩ := (holds_iff p a n).1 h
  have hm : (p.store a n w).segments[a.segment]? = some (s.store a.offset n w) := by
    unfold store
    rw [Array.getElem?_modify, if_pos rfl, hs, Option.map_some]
  simp only [load, hm]
  exact s.toNat_load_store a.offset hn w

/-- Words apart in a segment, or in another one, stay. -/
theorem load_store_of_disjoint {p : Pool} {a b : Address} {n m : Nat} (w : UInt64)
    (h : a.segment = b.segment → b.offset + m ≤ a.offset ∨ a.offset + n ≤ b.offset) :
    (p.store a n w).load b m = p.load b m := by
  unfold load store
  simp only [Array.getElem?_modify]
  by_cases hs : a.segment = b.segment
  · rw [if_pos hs]
    cases p.segments[b.segment]? with
    | none => rfl
    | some s => exact s.load_store_of_disjoint a.offset n w b.offset m (h hs)
  · rw [if_neg hs]

end Pool

end SparseLayout
