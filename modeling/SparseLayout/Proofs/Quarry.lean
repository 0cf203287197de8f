import SparseLayout.Proofs.Reservations
import Mathlib.Algebra.BigOperators.Group.Finset.Basic
import Mathlib.Algebra.BigOperators.Group.Finset.Piecewise
import Mathlib.Data.Fintype.BigOperators
import Mathlib.Order.Bounds.Basic

/-!
Several stocks of blocks that share one pool. A block belongs to one stock for good, in use or
spare: taking a spare block and giving one back only move it, and the pool is asked for a new one
just when a stock has more blocks in use than ever before.
-/

namespace SparseLayout

/-- Stocks of blocks over one pool, with the blocks that were taken from each and not given back,
the last one first. -/
structure Quarry (ι : Type) where
  pool : Pool
  blocks : ι → Blocks
  held : ι → List Address

namespace Quarry

variable {ι : Type}

/-- Stocks of blocks of these sizes, before any block is taken. -/
def new (pool : Pool) (size : ι → Nat) : Quarry ι := ⟨pool, fun i => .new (size i), fun _ => []⟩

/-- All blocks of a stock, those in use first. -/
def all (q : Quarry ι) (i : ι) : List Address := q.held i ++ (q.blocks i).free

/-- Every block belongs to one stock and shares no byte with another block. -/
structure Sound (q : Quarry ι) (size : ι → Nat) : Prop where
  valid : q.pool.Valid
  words : ∀ k, q.pool.usedIn k % 8 = 0
  bytes : ∀ i, (q.blocks i).blockBytes = max (size i) 8
  live : ∀ i, (q.blocks i).live = (q.held i).length
  total : ∀ i, (q.blocks i).total = (q.all i).length
  nodup : ∀ i, (q.all i).Nodup
  covers : ∀ {i a}, a ∈ q.all i → q.pool.Covers a.toNat (q.blocks i).blockBytes
  aligned : ∀ {i a}, a ∈ q.all i → a.toNat % 8 = 0
  used : ∀ {i a r}, a ∈ q.all i → a.toNat ≤ r → r < a.toNat + (q.blocks i).blockBytes →
    q.pool.Used r
  apart : ∀ {i j a b}, a ∈ q.all i → b ∈ q.all j → (i, a) ≠ (j, b) →
    Apart a.toNat (q.blocks i).blockBytes b.toNat (q.blocks j).blockBytes

namespace Sound

variable {q : Quarry ι} {size : ι → Nat} {i : ι} {a : Address}

theorem bytes_pos (h : q.Sound size) (i : ι) : 8 ≤ (q.blocks i).blockBytes := by
  rw [h.bytes]
  exact Nat.le_max_right _ _

theorem live_le (h : q.Sound size) (i : ι) :
    (q.blocks i).live + (q.blocks i).free.length = (q.blocks i).total := by
  rw [h.total, h.live, all, List.length_append]

theorem holds (h : q.Sound size) (ha : a ∈ q.all i) :
    q.pool.holds a (q.blocks i).blockBytes = true :=
  Pool.holds_of_covers (h.covers ha) h.valid

end Sound

theorem sound_new {c : Config} {rs : List Reservation} {pool : Pool} (hc : c.check = .ok ())
    (hp : pool.Serves c rs) (size : ι → Nat) : (new pool size).Sound size := by
  have ho := hp.ordered hc
  have none {i : ι} {x : Address} (hx : x ∈ (new pool size).all i) : False := List.not_mem_nil hx
  exact ⟨ho.valid, ho.words, fun _ => rfl, fun _ => rfl, fun _ => rfl, fun _ => List.nodup_nil,
    fun hx => (none hx).elim, fun hx => (none hx).elim, fun hx => (none hx).elim,
    fun hx => (none hx).elim⟩

variable [DecidableEq ι]

/-- The quarry after a stock changed. -/
def set (q : Quarry ι) (i : ι) (pool : Pool) (b : Blocks) (held : List Address) : Quarry ι :=
  ⟨pool, Function.update q.blocks i b, Function.update q.held i held⟩

/-- A stock took its last spare block. -/
def reuse (q : Quarry ι) (i : ι) (a : Address) (rest : List Address) : Quarry ι :=
  q.set i (q.pool.zero a (q.blocks i).blockBytes)
    { q.blocks i with free := rest, live := (q.blocks i).live + 1 } (a :: q.held i)

/-- A stock took a new block from the pool. -/
def carve (q : Quarry ι) (i : ι) (a : Address) (pool : Pool) : Quarry ι :=
  q.set i pool { q.blocks i with live := (q.blocks i).live + 1, total := (q.blocks i).total + 1 }
    (a :: q.held i)

/-- Takes a zeroed block from a stock. -/
def take (i : ι) : EStateM Fault (Quarry ι) Address := fun q =>
  match Blocks.alloc (q.blocks i, q.pool) with
  | .ok a (b, pool) => .ok a (q.set i pool b (a :: q.held i))
  | .error e (b, pool) => .error e (q.set i pool b (q.held i))

/-- Gives a block back to its stock. -/
def giveBack (q : Quarry ι) (i : ι) (a : Address) : Quarry ι :=
  q.set i q.pool ((q.blocks i).release a) ((q.held i).erase a)

/-- One call. Only blocks in use are given back or written to. -/
inductive Step (q : Quarry ι) : Quarry ι → Prop
  | take {i : ι} {a : Address} {q' : Quarry ι} : take i q = .ok a q' → Step q q'
  | refuse {i : ι} {e : Fault} {q' : Quarry ι} : Quarry.take i q = .error e q' → Step q q'
  | giveBack {i : ι} {a : Address} : a ∈ q.held i → Step q (q.giveBack i a)
  | write {i : ι} {a : Address} {k : UInt64} {n : Nat} (w : UInt64) : a ∈ q.held i →
    k.toNat + n ≤ (q.blocks i).blockBytes → Step q { q with pool := q.pool.store (a.add k) n w }

/-- A run of calls from new stocks on, with the states that it has passed through. -/
inductive Run (pool : Pool) (size : ι → Nat) : List (Quarry ι) → Quarry ι → Prop
  | start : Run pool size [] (new pool size)
  | step {past : List (Quarry ι)} {q q' : Quarry ι} :
    Run pool size past q → Step q q' → Run pool size (past ++ [q]) q'

variable {q q' : Quarry ι} {pool : Pool} {size : ι → Nat} {i j : ι} {a : Address} {b : Blocks}
  {held : List Address} {past : List (Quarry ι)}

/-- A stock moves its blocks between those in use and the spare ones; only bytes of the pool
change. -/
structure Moves (q : Quarry ι) (i : ι) (pool : Pool) (b : Blocks) (held : List Address) : Prop where
  bounds : q.pool.SameBounds pool
  bytes : b.blockBytes = (q.blocks i).blockBytes
  total : b.total = (q.blocks i).total
  live : b.live = held.length
  perm : (held ++ b.free).Perm (q.all i)

theorem blocks_set (q : Quarry ι) (i : ι) (pool : Pool) (b : Blocks) (held : List Address) (j : ι) :
    (q.set i pool b held).blocks j = if j = i then b else q.blocks j := Function.update_apply ..

theorem held_set (q : Quarry ι) (i : ι) (pool : Pool) (b : Blocks) (held : List Address) (j : ι) :
    (q.set i pool b held).held j = if j = i then held else q.held j := Function.update_apply ..

theorem all_set (q : Quarry ι) (i : ι) (pool : Pool) (b : Blocks) (held : List Address) (j : ι) :
    (q.set i pool b held).all j = if j = i then held ++ b.free else q.all j := by
  rw [all, blocks_set, held_set]
  split <;> rfl

theorem set_self (q : Quarry ι) (i : ι) : q.set i q.pool (q.blocks i) (q.held i) = q := by
  rw [set, Function.update_eq_self, Function.update_eq_self]

theorem all_carve (q : Quarry ι) (i : ι) (a : Address) (pool : Pool) (j : ι) :
    (q.carve i a pool).all j = if j = i then a :: q.all i else q.all j := by
  rw [carve, all_set]
  rfl

theorem blockBytes_carve (q : Quarry ι) (i : ι) (a : Address) (pool : Pool) (j : ι) :
    ((q.carve i a pool).blocks j).blockBytes = (q.blocks j).blockBytes := by
  rw [carve, blocks_set]
  split
  · rename_i hj
    rw [hj]
  · rfl

/-- A block is the new one, or one that was there. -/
theorem mem_all_carve {x : Address} (hx : x ∈ (q.carve i a pool).all j) :
    j = i ∧ x = a ∨ x ∈ q.all j := by
  rw [all_carve] at hx
  split at hx
  · rename_i hj
    subst hj
    exact (List.mem_cons.1 hx).imp_left fun hx => ⟨rfl, hx⟩
  · exact .inr hx

theorem take_of_spare {rest : List Address} (hfree : (q.blocks i).free = a :: rest)
    (hh : q.pool.holds a (q.blocks i).blockBytes = true) : take i q = .ok a (q.reuse i a rest) := by
  simp only [take, Blocks.alloc, hfree, if_pos hh, reuse]

theorem take_of_alloc (hfree : (q.blocks i).free = [])
    (ha : Pool.alloc (q.blocks i).blockBytes q.pool = .ok a pool) :
    take i q = .ok a (q.carve i a pool) := by
  simp only [take, Blocks.alloc, hfree, ha, carve]

theorem take_of_error (hfree : (q.blocks i).free = []) {e : Shortage}
    (he : Pool.alloc (q.blocks i).blockBytes q.pool = .error e q.pool) :
    take i q = .error (.refused (.outOfMemory e)) q := by
  simp only [take, Blocks.alloc, hfree, he, set_self]

namespace Sound

/-- All that taking a block can do. -/
theorem take_cases (h : q.Sound size) (i : ι) :
    (∃ a rest, (q.blocks i).free = a :: rest ∧ take i q = .ok a (q.reuse i a rest)) ∨
    ((q.blocks i).free = [] ∧ ∃ a pool, Pool.alloc (q.blocks i).blockBytes q.pool = .ok a pool ∧
      take i q = .ok a (q.carve i a pool)) ∨
    ((q.blocks i).free = [] ∧ q.pool.Refuses (q.blocks i).blockBytes ∧
      take i q = .error (.refused (.outOfMemory (q.pool.shortage (q.blocks i).blockBytes))) q) := by
  cases hfree : (q.blocks i).free with
  | cons a rest =>
    have hmem : a ∈ q.all i := by
      rw [all, hfree]
      exact List.mem_append_right _ List.mem_cons_self
    exact .inl ⟨a, rest, rfl, take_of_spare hfree (h.holds hmem)⟩
  | nil =>
    cases ha : Pool.alloc (q.blocks i).blockBytes q.pool with
    | ok a pool => exact .inr (.inl ⟨rfl, a, pool, rfl, take_of_alloc hfree ha⟩)
    | error e pool =>
      obtain ⟨hr, rfl, rfl⟩ := (Pool.alloc_eq_error_iff h.valid).1 ha
      exact .inr (.inr ⟨rfl, hr, take_of_error hfree ha⟩)

/-- Every call moves blocks of one stock, or brings it a new one. -/
theorem step_cases (h : q.Sound size) (hs : Step q q') :
    (∃ i pool b held, q.Moves i pool b held ∧ q' = q.set i pool b held) ∨
      ∃ i a pool, (q.blocks i).free = [] ∧
        Pool.alloc (q.blocks i).blockBytes q.pool = .ok a pool ∧ q' = q.carve i a pool := by
  cases hs with
  | @take i a q' ht =>
    rcases h.take_cases i with ⟨b, rest, hfree, he⟩ | ⟨hfree, b, pool, hb, he⟩ | ⟨-, -, he⟩
    · -- the block moves from the spare ones to those in use
      rw [ht] at he
      cases he
      refine .inl ⟨i, _, _, _, ?_, show q.reuse i a rest = _ from rfl⟩
      refine ⟨q.pool.sameBounds_zero .., rfl, rfl, ?_, ?_⟩
      · exact congrArg (· + 1) (h.live i)
      · rw [all, hfree]
        exact List.perm_middle.symm
    · rw [ht] at he
      cases he
      exact .inr ⟨i, a, pool, hfree, hb, rfl⟩
    · rw [ht] at he
      cases he
  | @refuse i e q' ht =>
    rcases h.take_cases i with ⟨b, rest, hfree, he⟩ | ⟨hfree, b, pool, hb, he⟩ | ⟨-, -, he⟩
    · rw [ht] at he
      cases he
    · rw [ht] at he
      cases he
    · rw [ht] at he
      cases he
      exact .inl ⟨i, q.pool, _, _, ⟨.refl _, rfl, rfl, h.live i, .refl _⟩, (q.set_self i).symm⟩
  | @giveBack i a ha =>
    refine .inl ⟨i, _, _, _, ?_, show q.giveBack i a = _ from rfl⟩
    refine ⟨.refl _, rfl, rfl, ?_, ?_⟩
    · rw [List.length_erase_of_mem ha, ← h.live]
      rfl
    · exact List.perm_middle.trans ((List.perm_cons_erase ha).symm.append_right _)
  | @write i a k n w ha hk =>
    refine .inl ⟨i, q.pool.store (a.add k) n w, q.blocks i, q.held i,
      ⟨q.pool.sameBounds_store .., rfl, rfl, h.live i, .refl _⟩, ?_⟩
    rw [set, Function.update_eq_self, Function.update_eq_self]

/-- Blocks that move stay those of their stock. -/
theorem move (h : q.Sound size) (hm : q.Moves i pool b held) :
    (q.set i pool b held).Sound size := by
  obtain ⟨hp, hbytes, htotal, hlive, hperm⟩ := hm
  -- the blocks of every stock are only rearranged, so that what is known of each of them stays
  have hall (j : ι) : ((q.set i pool b held).all j).Perm (q.all j) := by
    rw [all_set]
    split
    · rename_i hj
      exact hj ▸ hperm
    · exact .refl _
  have hsize (j : ι) : ((q.set i pool b held).blocks j).blockBytes = (q.blocks j).blockBytes := by
    rw [blocks_set]
    split
    · rename_i hj
      rw [hj, hbytes]
    · rfl
  have hmem {j : ι} {x : Address} (hx : x ∈ (q.set i pool b held).all j) : x ∈ q.all j :=
    (hall j).mem_iff.1 hx
  constructor
  case valid => exact hp.valid h.valid
  case words =>
    intro k
    rw [show (q.set i pool b held).pool = pool from rfl, hp.usedIn_eq]
    exact h.words k
  case bytes =>
    intro j
    rw [hsize, h.bytes]
  case live =>
    intro j
    rw [blocks_set, held_set]
    split
    · exact hlive
    · exact h.live j
  case total =>
    intro j
    rw [(hall j).length_eq, ← h.total, blocks_set]
    split
    · rename_i hj
      rw [hj, htotal]
    · rfl
  case nodup => exact fun j => (hall j).nodup_iff.2 (h.nodup j)
  case covers =>
    intro j x hx
    rw [hsize]
    exact hp.covers (h.covers (hmem hx))
  case aligned => exact fun hx => h.aligned (hmem hx)
  case used =>
    intro j x r hx h1 h2
    rw [hsize] at h2
    exact hp.used (h.used (hmem hx) h1 h2)
  case apart =>
    intro j k x y hx hy hne
    rw [hsize, hsize]
    exact h.apart (hmem hx) (hmem hy) hne

omit [DecidableEq ι] in
/-- Bytes that the pool hands out are not those of a block. -/
theorem fresh (h : q.Sound size) {n : Nat} (hn : 0 < n) (ha : q.pool.Allocated pool a n)
    {x : Address} (hx : x ∈ q.all j) :
    Apart a.toNat n x.toNat (q.blocks j).blockBytes := by
  have hpos := h.bytes_pos j
  refine apart_of_disjoint hn (by omega) ?_
  rintro r h1 h2 ⟨h3, h4⟩
  exact ha.fresh r h1 h2 (h.used hx h3 h4)

/-- A stock gets a new block from the pool. -/
theorem carved (h : q.Sound size)
    (ha : Pool.alloc (q.blocks i).blockBytes q.pool = .ok a pool) :
    (q.carve i a pool).Sound size := by
  have hpos := h.bytes_pos i
  have hnew := Pool.allocated_of_alloc h.valid (by omega) ha
  have hres := Pool.reserves_of_alloc h.valid (by omega) ha
  have hfresh {j : ι} {x : Address} (hx : x ∈ q.all j) :=
    h.fresh (Nat.lt_of_lt_of_le (by decide) hpos) hnew hx
  have hnot : a ∉ q.all i := by
    intro hmem
    have := hfresh hmem
    unfold Apart at this
    omega
  constructor
  case valid => exact hnew.valid
  case words =>
    intro k
    change pool.usedIn k % 8 = 0
    rw [hres.usedIn_eq]
    split
    · rw [hres.start, Nat.add_mod, h.words, roundUp8_mod]
    · exact h.words k
  case bytes =>
    intro j
    rw [blockBytes_carve, h.bytes]
  case live =>
    intro j
    rw [carve, blocks_set, held_set]
    split
    · exact congrArg (· + 1) (h.live i)
    · exact h.live j
  case total =>
    intro j
    rw [all_carve, carve, blocks_set]
    split
    · exact congrArg (· + 1) (h.total i)
    · exact h.total j
  case nodup =>
    intro j
    rw [all_carve]
    split
    · exact List.nodup_cons.2 ⟨hnot, h.nodup i⟩
    · exact h.nodup j
  case covers =>
    intro j x hx
    rw [blockBytes_carve]
    rcases mem_all_carve hx with ⟨rfl, rfl⟩ | hx
    · exact hnew.covers
    · exact hnew.covers_of _ _ (h.covers hx)
  case aligned =>
    intro j x hx
    rcases mem_all_carve hx with ⟨rfl, rfl⟩ | hx
    · -- the bytes used of a segment are whole words
      rw [hnew.covers.toNat_eq hnew.valid, hres.start]
      have := h.words x.segment
      unfold maxSegmentBytes
      omega
    · exact h.aligned hx
  case used =>
    intro j x r hx h1 h2
    rw [blockBytes_carve] at h2
    rcases mem_all_carve hx with ⟨rfl, rfl⟩ | hx
    · exact hnew.used r h1 h2
    · exact hnew.used_of r (h.used hx h1 h2)
  case apart =>
    intro j k x y hx hy hne
    rw [blockBytes_carve, blockBytes_carve]
    rcases mem_all_carve hx with ⟨rfl, rfl⟩ | hx' <;>
      rcases mem_all_carve hy with ⟨rfl, rfl⟩ | hy'
    · exact absurd rfl hne
    · exact hfresh hy'
    · exact (hfresh hx').symm
    · exact h.apart hx' hy' hne

/-- A block is refused just where none is spare and the pool has no room for a new one. -/
theorem take_eq_error_iff (h : q.Sound size) {e : Fault} : take i q = .error e q' ↔
    ((q.blocks i).free = [] ∧ q.pool.Refuses (q.blocks i).blockBytes) ∧
      e = .refused (.outOfMemory (q.pool.shortage (q.blocks i).blockBytes)) ∧ q' = q := by
  constructor
  · intro he
    rcases h.take_cases i with ⟨a, rest, -, ht⟩ | ⟨-, a, pool, -, ht⟩ | ⟨hfree, hr, ht⟩
    · rw [he] at ht
      cases ht
    · rw [he] at ht
      cases ht
    · rw [he] at ht
      cases ht
      exact ⟨⟨hfree, hr⟩, rfl, rfl⟩
  · rintro ⟨⟨hfree, hr⟩, rfl, rfl⟩
    exact take_of_error hfree ((Pool.alloc_eq_error_iff h.valid).2 ⟨hr, rfl, rfl⟩)

/-- A block is zeroed when it is taken. -/
theorem bytes_taken (h : q.Sound size) (ht : take i q = .ok a q') : q'.held i = a :: q.held i ∧
    q'.pool.bytes a (q.blocks i).blockBytes = List.replicate (q.blocks i).blockBytes 0 := by
  rcases h.take_cases i with ⟨b, rest, hfree, he⟩ | ⟨hfree, b, pool, hb, he⟩ | ⟨-, -, he⟩
  · rw [ht] at he
    cases he
    refine ⟨(held_set ..).trans (if_pos rfl), ?_⟩
    have hcov := h.covers (List.mem_append_right (q.held i) (hfree ▸ List.mem_cons_self))
    have hsame := q.pool.sameBounds_zero a (q.blocks i).blockBytes
    refine Pool.bytes_eq_replicate (hsame.valid h.valid) (hsame.covers hcov) fun r h1 h2 => ?_
    change (q.pool.zero a (q.blocks i).blockBytes).byteAt r = 0
    rw [Pool.byteAt_zero hcov h.valid, if_pos ⟨h1, h2⟩]
  · rw [ht] at he
    cases he
    have hpos := h.bytes_pos i
    exact ⟨(held_set ..).trans (if_pos rfl), (Pool.reserves_of_alloc h.valid (by omega) hb).zeroed⟩
  · rw [ht] at he
    cases he

theorem step (h : q.Sound size) (hs : Step q q') : q'.Sound size := by
  rcases h.step_cases hs with ⟨i, pool, b, held, hm, rfl⟩ | ⟨i, a, pool, hfree, ha, rfl⟩
  · exact h.move hm
  · exact h.carved ha

/-- The number of blocks of a stock follows the number of those in use. -/
theorem total_step (h : q.Sound size) (hs : Step q q') (j : ι) :
    (q'.blocks j).total = max (q.blocks j).total (q'.blocks j).live := by
  have hle := h.live_le j
  rcases h.step_cases hs with ⟨i, pool, b, held, hm, rfl⟩ | ⟨i, a, pool, hfree, ha, rfl⟩
  · rw [blocks_set]
    split
    · rename_i hj
      subst hj
      have hlen := hm.perm.length_eq
      rw [← h.total, List.length_append, ← hm.live, ← hm.total] at hlen
      rw [← hm.total]
      omega
    · omega
  · rw [carve, blocks_set]
    split
    · rename_i hj
      subst hj
      -- no block is spare, so all of them are in use
      rw [hfree] at hle
      simp only [List.length_nil] at hle
      dsimp only
      omega
    · omega

/-- The pool hands out the bytes of new blocks only. -/
theorem used_step [Fintype ι] (h : q.Sound size) (hs : Step q q') :
    q'.pool.used + ∑ i, (q.blocks i).pooled = q.pool.used + ∑ i, (q'.blocks i).pooled := by
  rcases h.step_cases hs with ⟨i, pool, b, held, hm, rfl⟩ | ⟨i, a, pool, hfree, ha, rfl⟩
  · have hpooled (j : ι) : ((q.set i pool b held).blocks j).pooled = (q.blocks j).pooled := by
      rw [blocks_set]
      split
      · rename_i hj
        rw [hj, Blocks.pooled, Blocks.pooled, hm.bytes, hm.total]
      · rfl
    simp only [hpooled]
    exact congrArg (· + _) hm.bounds.used_eq
  · have hpooled (j : ι) : ((q.carve i a pool).blocks j).pooled =
        (q.blocks j).pooled + if j = i then roundUp8 (q.blocks i).blockBytes else 0 := by
      rw [carve, blocks_set]
      split
      · rename_i hj
        rw [hj, Blocks.pooled, Blocks.pooled, Nat.succ_mul]
      · rfl
    simp only [hpooled, Finset.sum_add_distrib, Finset.sum_ite_eq', Finset.mem_univ, if_true]
    have hused := Pool.used_of_alloc ha
    change pool.used + _ = _
    omega

end Sound

theorem Run.sound (h₀ : (new pool size).Sound size) (h : Run pool size past q) :
    q.Sound size := by
  induction h with
  | start => exact h₀
  | step _ hs ih => exact ih.step hs

/-- The number of blocks of a stock is the largest number of blocks that it ever had in use. -/
theorem Run.isGreatest (h₀ : (new pool size).Sound size) (h : Run pool size past q) (i : ι) :
    IsGreatest {n | ∃ s ∈ past ++ [q], n = (s.blocks i).live} (q.blocks i).total := by
  induction h with
  | start =>
    refine ⟨⟨_, List.mem_singleton_self _, rfl⟩, ?_⟩
    rintro n ⟨s, hs, rfl⟩
    rw [List.mem_singleton.1 hs]
    exact Nat.le_refl _
  | @step past q q' hrun hs ih =>
    obtain ⟨⟨s, hmem, hpeak⟩, hbound⟩ := ih
    have htotal := (hrun.sound h₀).total_step hs i
    constructor
    · -- the old peak, or the number in use now
      rcases Nat.le_total (q'.blocks i).live (q.blocks i).total with hle | hle
      · refine ⟨s, List.mem_append_left _ hmem, ?_⟩
        rw [htotal, Nat.max_eq_left hle, hpeak]
      · refine ⟨q', List.mem_append_right _ (List.mem_singleton_self _), ?_⟩
        rw [htotal, Nat.max_eq_right hle]
    · rintro n ⟨s, hs, rfl⟩
      rw [htotal]
      rcases List.mem_append.1 hs with hs | hs
      · exact Nat.le_trans (hbound ⟨s, hs, rfl⟩) (Nat.le_max_left _ _)
      · rw [List.mem_singleton.1 hs]
        exact Nat.le_max_right _ _

/-- Only a stock that has more blocks in use than ever before gets bytes from the pool. -/
theorem Run.grows (h₀ : (new pool size).Sound size) (h : Run pool size past q) (hs : Step q q')
    (hnot : ¬ q.pool.SameBounds q'.pool) :
    ∃ i, ∀ s ∈ past ++ [q], (s.blocks i).live < (q'.blocks i).live := by
  have hsound := h.sound h₀
  rcases hsound.step_cases hs with ⟨i, pool, b, held, hm, rfl⟩ | ⟨i, a, pool, hfree, ha, rfl⟩
  · exact absurd hm.bounds hnot
  · -- without a spare block, as many are in use as ever were
    refine ⟨i, fun s hmem => ?_⟩
    have hbound := (h.isGreatest h₀ i).2 ⟨s, hmem, rfl⟩
    have hall := hsound.live_le i
    rw [hfree] at hall
    simp only [List.length_nil] at hall
    rw [carve, blocks_set, if_pos rfl]
    dsimp only
    omega

theorem Run.used [Fintype ι] (h₀ : (new pool size).Sound size) (h : Run pool size past q) :
    q.pool.used = pool.used + ∑ i, (q.blocks i).pooled := by
  induction h with
  | start =>
    have hnone (i : ι) : ((new pool size).blocks i).pooled = 0 := Nat.zero_mul _
    simp only [hnone, Finset.sum_const_zero]
    rfl
  | step hrun hs ih =>
    have := (hrun.sound h₀).used_step hs
    omega

/-- What the stocks promise after a run, and about the next call. -/
structure Stocked [Fintype ι] (pool : Pool) (size : ι → Nat) (past : List (Quarry ι))
    (q : Quarry ι) : Prop where
  bytes : ∀ i, (q.blocks i).blockBytes = max (size i) 8
  /-- A block in use starts at a word of a segment and ends in the same segment. -/
  placed : ∀ {i a}, a ∈ q.held i → a.isNull = false ∧ a.offset % 8 = 0 ∧
    q.pool.holds a (q.blocks i).blockBytes = true
  nodup : ∀ i, (q.held i).Nodup
  /-- No two blocks in use share a byte. -/
  apart : ∀ {i j a b}, a ∈ q.held i → b ∈ q.held j → (i, a) ≠ (j, b) →
    Apart a.toNat (q.blocks i).blockBytes b.toNat (q.blocks j).blockBytes
  live : ∀ i, (q.blocks i).live = (q.held i).length
  total : ∀ i, (q.blocks i).live + (q.blocks i).free.length = (q.blocks i).total
  /-- There are as many blocks as there ever were in use at once. -/
  peak : ∀ i, IsGreatest {n | ∃ s ∈ past ++ [q], n = (s.blocks i).live} (q.blocks i).total
  /-- The pool has handed out those blocks and nothing else. -/
  used : q.pool.used = pool.used + ∑ i, (q.blocks i).total * roundUp8 (q.blocks i).blockBytes
  /-- It hands out more just when a stock has more blocks in use than ever before. -/
  grows : ∀ {q'}, Step q q' → ¬ q.pool.SameBounds q'.pool →
    ∃ i, ∀ s ∈ past ++ [q], (s.blocks i).live < (q'.blocks i).live
  taken : ∀ {i a q'}, take i q = .ok a q' → q'.held i = a :: q.held i ∧
    q'.pool.bytes a (q.blocks i).blockBytes = List.replicate (q.blocks i).blockBytes 0
  /-- A block is refused just where none is spare and the pool has no room for a new one. -/
  refused : ∀ {i e q'}, take i q = .error e q' ↔
    ((q.blocks i).free = [] ∧ q.pool.Refuses (q.blocks i).blockBytes) ∧
      e = .refused (.outOfMemory (q.pool.shortage (q.blocks i).blockBytes)) ∧ q' = q

/-- Whatever calls are made of stocks over a pool that has served before, no block is used twice,
and none is made before all blocks of its stock are in use. -/
theorem Run.stocked [Fintype ι] {c : Config} {rs : List Reservation} (hc : c.check = .ok ())
    (hp : pool.Serves c rs) (h : Run pool size past q) : Stocked pool size past q := by
  have h₀ := sound_new hc hp size
  have hs := h.sound h₀
  -- blocks in use are blocks of their stock
  have hmem {i : ι} {a : Address} (ha : a ∈ q.held i) : a ∈ q.all i := List.mem_append_left _ ha
  constructor
  case bytes => exact hs.bytes
  case placed =>
    intro i a ha
    have hcov := hs.covers (hmem ha)
    have hnum := hcov.toNat_eq hs.valid
    have haligned := hs.aligned (hmem ha)
    refine ⟨?_, ?_, hs.holds (hmem ha)⟩
    · rw [Bool.eq_false_iff]
      intro hnull
      have := a.isNull_iff.1 hnull
      have := hcov.1
      unfold maxSegmentBytes at this
      omega
    · unfold maxSegmentBytes at hnum
      omega
  case nodup => exact fun i => (hs.nodup i).sublist (List.sublist_append_left _ _)
  case apart => exact fun ha hb hne => hs.apart (hmem ha) (hmem hb) hne
  case live => exact hs.live
  case total => exact hs.live_le
  case peak => exact h.isGreatest h₀
  case used => exact h.used h₀
  case grows => exact fun hstep => h.grows h₀ hstep
  case taken => exact hs.bytes_taken
  case refused => exact hs.take_eq_error_iff

end Quarry

namespace Sample

open Quarry

/-- Two stocks, of blocks of 5 and of 12 bytes. -/
def stall : Bool → Nat := fun i => if i then 12 else 5

/-- A block of each stock fills both segments of the pool. The first is written to, given back and
taken again, zeroed; a second one of that stock is refused. -/
theorem stocked_stall : shelf.check = .ok () ∧ ∃ past q, Run (.new 16 2) stall past q ∧
    Stocked (.new 16 2) stall past q ∧ past.length = 5 ∧ q.held false = [.ofByte 0 0] ∧
    q.held true = [.ofByte 1 0] ∧ (q.blocks false).total = 1 ∧ q.pool.used = 24 ∧
    take false q = .error (.refused (.outOfMemory ⟨8, 32⟩)) q := by
  have h₁ := Run.start.step (.take (show take false (new (.new 16 2) stall) = .ok _ _ from rfl))
  have h₂ := h₁.step (.take (show take true _ = .ok _ _ from rfl))
  have h₃ := h₂.step (.write 7 (i := false) (a := .ofByte 0 0) (k := 3) (n := 1) (by decide)
    (by decide))
  have h₄ := h₃.step (.giveBack (i := false) (a := .ofByte 0 0) (by decide))
  have h₅ := h₄.step (.take (show take false _ = .ok _ _ from rfl))
  have hs := h₅.stocked (c := shelf) (by decide) .new
  exact ⟨by decide, _, _, h₅, hs, rfl, by decide, by decide, by decide, by decide,
    hs.refused.2 ⟨⟨by decide, .inr ⟨by decide, by decide⟩⟩, rfl, rfl⟩⟩

end Sample

end SparseLayout
