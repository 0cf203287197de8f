namespace SparseLayout.Scatter

/-- Where the search for the `i`-th cell starts. -/
def start (cells : Nat) (seed : UInt64) (i : Nat) : Nat :=
  ((seed * 6364136223846793005 + .ofNat i * 1442695040888963407) % .ofNat cells).toNat

/-- The first free position from `pos` on, cyclically, after at most that many steps. -/
def firstFree (taken : Array Bool) : Nat → Nat → Nat
  | 0, pos => pos
  | steps + 1, pos =>
    if taken[pos]?.getD false then firstFree taken steps ((pos + 1) % taken.size) else pos

/-- The next `n` choices, from the `i`-th on. -/
def pickFrom (seed : UInt64) : Array Bool → Nat → Nat → List Nat
  | _, _, 0 => []
  | taken, i, n + 1 =>
    let pos := firstFree taken taken.size (start taken.size seed i)
    pos :: pickFrom seed (taken.set! pos true) (i + 1) n

/-- As many distinct cells as asked for, or all of them. -/
def pick (cells n : Nat) (seed : UInt64) : List Nat :=
  pickFrom seed (.replicate cells false) 0 (min n cells)

/-- The most bytes that one table may have. -/
def maxTableBytes : Nat := 0x7fffffffffffffff

/-- The choice with its two tables, a byte for each cell and eight for each choice; none where one
of them would be too large. -/
def pick? (cells n : Nat) (seed : UInt64) : Option (List Nat) :=
  if maxTableBytes < cells ∨ maxTableBytes < 8 * min n cells then none
  else some (pick cells n seed)

end SparseLayout.Scatter
