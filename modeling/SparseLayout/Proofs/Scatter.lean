import SparseLayout.Scatter
import Mathlib.Algebra.Group.Nat.Defs
import Mathlib.Data.List.Perm.Subperm

namespace SparseLayout.Scatter

/-- The search for a free position with no bound on its steps. It reads no position outside the
table. -/
inductive Search (taken : Array Bool) : Nat → Nat → Prop
  | free {pos : Nat} : taken[pos]? = some false → Search taken pos pos
  | next {pos r : Nat} : taken[pos]? = some true → Search taken ((pos + 1) % taken.size) r →
    Search taken pos r

/-- The choices from the `i`-th on, each one searched for and then taken. -/
inductive Picks (seed : UInt64) : Array Bool → Nat → List Nat → Prop
  | done {taken : Array Bool} {i : Nat} : Picks seed taken i []
  | pick {taken : Array Bool} {i pos : Nat} {rest : List Nat} :
    Search taken (start taken.size seed i) pos → Picks seed (taken.set! pos true) (i + 1) rest →
      Picks seed taken i (pos :: rest)

variable {taken : Array Bool} {seed : UInt64} {i n m cells pos r steps : Nat}

namespace Search

theorem free_of (h : Search taken pos r) : taken[r]? = some false := by
  induction h with
  | free hf => exact hf
  | next _ _ ih => exact ih

theorem unique (h : Search taken pos r) {r' : Nat} (h' : Search taken pos r') : r = r' := by
  induction h with
  | free hf =>
    cases h' with
    | free => rfl
    | next ht => exact absurd (hf.symm.trans ht) (by decide)
  | next ht _ ih =>
    cases h' with
    | free hf => exact absurd (hf.symm.trans ht) (by decide)
    | next _ h' => exact ih h'

end Search

/-- With enough steps to reach a free position, the bound on them plays no part. -/
theorem search_firstFree {d : Nat} (hd : d ≤ steps) (hpos : pos < taken.size)
    (hfree : taken[(pos + d) % taken.size]? = some false) :
    Search taken pos (firstFree taken steps pos) := by
  induction steps generalizing pos d with
  | zero =>
    obtain rfl : d = 0 := Nat.le_zero.1 hd
    rw [Nat.add_zero, Nat.mod_eq_of_lt hpos] at hfree
    exact .free hfree
  | succ steps ih =>
    obtain ⟨b, hb⟩ : ∃ b, taken[pos]? = some b := ⟨_, Array.getElem?_eq_getElem hpos⟩
    rw [firstFree, hb]
    cases b with
    | false => exact .free hb
    | true =>
      cases d with
      | zero =>
        -- the free position is not this one
        rw [Nat.add_zero, Nat.mod_eq_of_lt hpos, hb] at hfree
        cases hfree
      | succ d =>
        refine .next hb (ih (Nat.le_of_succ_le_succ hd) (Nat.mod_lt _ (by omega)) ?_)
        rwa [Nat.mod_add_mod, Nat.add_assoc, Nat.add_comm 1]

/-- Going round once leads from any position to any other. -/
theorem exists_distance (hpos : pos < m) (hr : r < m) : ∃ d ≤ m, (pos + d) % m = r := by
  rcases Nat.le_total pos r with hle | hle
  · exact ⟨r - pos, by omega, by rw [Nat.add_sub_cancel' hle, Nat.mod_eq_of_lt hr]⟩
  · refine ⟨m - (pos - r), by omega, ?_⟩
    rw [show pos + (m - (pos - r)) = r + m by omega, Nat.add_mod_right, Nat.mod_eq_of_lt hr]

/-- A table with a free position somewhere is searched in one round. -/
theorem search_of_free (hpos : pos < taken.size) (hfree : taken[r]? = some false) :
    Search taken pos (firstFree taken taken.size pos) := by
  have hr : r < taken.size := (Array.getElem?_eq_some_iff.1 hfree).1
  obtain ⟨d, hd, hround⟩ := exists_distance hpos hr
  exact search_firstFree hd hpos (hround ▸ hfree)

theorem start_lt (seed : UInt64) (i : Nat) (hcells : cells < UInt64.size) (hpos : 0 < cells) :
    start cells seed i < cells := by
  have hof : (UInt64.ofNat cells).toNat = cells := UInt64.toNat_ofNat_of_lt' hcells
  rw [start, UInt64.toNat_mod, hof]
  exact Nat.mod_lt _ hpos

/-- Taking a free position leaves one less of them. -/
theorem count_take (h : taken[pos]? = some false) :
    (taken.set! pos true).count false + 1 = taken.count false := by
  obtain ⟨hpos, hfree⟩ := Array.getElem?_eq_some_iff.1 h
  have hsome : 0 < taken.count false := Array.count_pos_iff.2 (hfree ▸ Array.getElem_mem hpos)
  rw [Array.set!_eq_setIfInBounds, Array.setIfInBounds_def, dif_pos hpos, Array.count_set, hfree]
  simp only [beq_self_eq_true, if_true, Bool.true_beq, Bool.false_eq_true, if_false]
  omega

theorem free_of_take {q : Nat} (h : (taken.set! pos true)[q]? = some false) :
    q ≠ pos ∧ taken[q]? = some false := by
  rw [Array.set!_eq_setIfInBounds, Array.getElem?_setIfInBounds] at h
  by_cases hq : pos = q
  · rw [if_pos hq] at h
    split at h <;> cases h
  · rw [if_neg hq] at h
    exact ⟨Ne.symm hq, h⟩

/-- Where a table has room for all choices, every search for one ends. -/
theorem picks_pickFrom (hsize : taken.size < UInt64.size) (hn : n ≤ taken.count false) :
    Picks seed taken i (pickFrom seed taken i n) := by
  induction n generalizing taken i with
  | zero => exact .done
  | succ n ih =>
    obtain ⟨r, hr⟩ := Array.mem_iff_getElem?.1 (Array.count_pos_iff.1 (Nat.zero_lt_of_lt hn))
    have hlt := (Array.getElem?_eq_some_iff.1 hr).1
    have hs := search_of_free (start_lt seed i hsize (by omega)) hr
    have hcount := count_take hs.free_of
    refine .pick hs (ih ?_ (by omega))
    rwa [Array.set!_eq_setIfInBounds, Array.size_setIfInBounds]

/-- Positions that were chosen had been free, and are not chosen again. -/
theorem Picks.nodup {ps : List Nat} (h : Picks seed taken i ps) :
    ps.Nodup ∧ ∀ p ∈ ps, taken[p]? = some false := by
  induction h with
  | done => exact ⟨List.nodup_nil, fun p hp => nomatch hp⟩
  | pick hs _ ih =>
    obtain ⟨hnodup, hfree⟩ := ih
    refine ⟨List.nodup_cons.2 ⟨fun hmem => (free_of_take (hfree _ hmem)).1 rfl, hnodup⟩, ?_⟩
    intro p hp
    rcases List.mem_cons.1 hp with rfl | hp
    · exact hs.free_of
    · exact (free_of_take (hfree p hp)).2

theorem Picks.unique {ps qs : List Nat} (h : Picks seed taken i ps) (h' : Picks seed taken i qs)
    (hlen : ps.length = qs.length) : ps = qs := by
  induction h generalizing qs with
  | done => exact (List.length_eq_zero_iff.1 hlen.symm).symm
  | pick hs _ ih =>
    cases h' with
    | done => cases hlen
    | pick hs' h' =>
      obtain rfl := hs.unique hs'
      rw [ih h' (Nat.succ.inj hlen)]

theorem length_pickFrom (n : Nat) : (pickFrom seed taken i n).length = n := by
  induction n generalizing taken i with
  | zero => rfl
  | succ n ih => rw [pickFrom, List.length_cons, ih]

/-- Asking for more cells leaves the first choices as they are. -/
theorem take_pickFrom (h : n ≤ m) : (pickFrom seed taken i m).take n = pickFrom seed taken i n := by
  induction n generalizing taken i m with
  | zero => rfl
  | succ n ih =>
    cases m with
    | zero => exact absurd h (by omega)
    | succ m =>
      rw [pickFrom, pickFrom, List.take_succ_cons, ih (Nat.le_of_succ_le_succ h)]

/-- What the choice of `n` cells promises. -/
structure Scattered (cells n : Nat) (seed : UInt64) (ps : List Nat) : Prop where
  /-- The loops run to their end, past positions of the table only, and come to these choices. -/
  runs : ∀ qs : List Nat, qs.length = min n cells →
    (Picks seed (.replicate cells false) 0 qs ↔ qs = ps)
  length : ps.length = min n cells
  nodup : ps.Nodup
  lt : ∀ p ∈ ps, p < cells
  all : cells ≤ n → ps.Perm (List.range cells)

theorem scattered_pick (hcells : cells < UInt64.size) :
    Scattered cells n seed (pick cells n seed) := by
  have hruns : Picks seed (.replicate cells false) 0 (pick cells n seed) := by
    refine picks_pickFrom ?_ ?_
    · rwa [Array.size_replicate]
    · rw [Array.count_replicate_self]
      exact Nat.min_le_right n cells
  have hlen : (pick cells n seed).length = min n cells := length_pickFrom _
  obtain ⟨hnodup, hfree⟩ := hruns.nodup
  have hlt (p : Nat) (hp : p ∈ pick cells n seed) : p < cells := by
    have := (Array.getElem?_eq_some_iff.1 (hfree p hp)).1
    rwa [Array.size_replicate] at this
  refine ⟨fun qs hqs => ⟨fun h => h.unique hruns (hqs.trans hlen.symm), fun h => h ▸ hruns⟩, hlen,
    hnodup, hlt, fun hall => ?_⟩
  have hsub := List.subperm_of_subset hnodup fun p hp => List.mem_range.2 (hlt p hp)
  refine hsub.perm_of_length_le ?_
  rw [List.length_range, hlen]
  exact Nat.le_min.2 ⟨hall, Nat.le_refl _⟩

theorem pick_prefix (cells : Nat) (seed : UInt64) (h : n ≤ m) :
    pick cells n seed <+: pick cells m seed := by
  have hle : min n cells ≤ min m cells := by omega
  rw [pick, pick, ← take_pickFrom hle]
  exact List.take_prefix _ _

/-- Cells and choices that a table can hold are chosen as asked for, and asking for more adds
further choices. -/
theorem pick?_scattered (hcells : cells < 2 ^ 63) (hn : min n cells < 2 ^ 60) (seed : UInt64) :
    ∃ ps, pick? cells n seed = some ps ∧ Scattered cells n seed ps ∧
      ∀ m qs, n ≤ m → pick? cells m seed = some qs → ps <+: qs := by
  have hsize : UInt64.size = 2 ^ 64 := rfl
  refine ⟨pick cells n seed, ?_, scattered_pick (by omega), ?_⟩
  · rw [pick?, maxTableBytes, if_neg (by omega)]
  · intro m qs hm hqs
    rw [pick?] at hqs
    split at hqs
    · cases hqs
    · cases hqs
      exact pick_prefix cells seed hm

/-- All searches among seven cells start at one of two of them; the last goes past six taken cells
and round the end of the table. -/
theorem scattered_seven : 7 < 2 ^ 63 ∧ ∃ ps, pick? 7 9 2 = some ps ∧ Scattered 7 9 2 ps ∧
    ps = [3, 4, 5, 6, 1, 2, 0] := by
  obtain ⟨ps, hps, hs, -⟩ := pick?_scattered (n := 9) (show 7 < 2 ^ 63 by decide) (by decide) 2
  refine ⟨by decide, ps, hps, hs, ?_⟩
  have hval : pick? 7 9 2 = some [3, 4, 5, 6, 1, 2, 0] := by decide
  exact Option.some.inj (hps.symm.trans hval)

/-- A table for so many cells, or for so many choices, cannot be made. -/
theorem pick?_too_many : pick? (2 ^ 63) 1 0 = none ∧ pick? (2 ^ 60) (2 ^ 60) 0 = none :=
  ⟨if_pos (by decide), if_pos (by decide)⟩

end SparseLayout.Scatter
