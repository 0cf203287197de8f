import SparseLayout.Proofs.Store.Charges
import SparseLayout.Proofs.Store.New

namespace SparseLayout

/-- Bytes that were handed out: where they start, and how many were asked for. -/
structure Reservation where
  address : Address
  len : Nat
  deriving DecidableEq

theorem roundUp8_le {n m : Nat} (h : n ≤ m) (hm : m % 8 = 0) : roundUp8 n ≤ m := by
  unfold roundUp8
  omega

namespace Pool

/-- Bytes used of a segment; none of one that is still to come. -/
def usedIn (p : Pool) (i : Nat) : Nat := (p.segments[i]?.map (·.used)).getD 0

/-- Bytes left in the last segment. -/
def rest (p : Pool) : Nat := (p.segments[p.last]?.map (·.remaining)).getD 0

/-- The bytes fit no segment, or only one that may not be added. -/
def Refuses (p : Pool) (len : Nat) : Prop :=
  p.segmentBytes < len ∨ p.rest < roundUp8 len ∧ p.segments.size = p.maxSegments

/-- The bytes from `a` on were reserved: they follow those used in the last segment, which may be
new. They are zeroed, and no other segment has changed. -/
structure Reserves (p q : Pool) (a : Address) (len : Nat) : Prop where
  last : a.segment = q.last
  size : q.segments.size = p.segments.size ∨
    p.rest < roundUp8 len ∧ q.segments.size = p.segments.size + 1
  start : a.offset = p.usedIn a.segment
  stop : q.usedIn a.segment = a.offset + roundUp8 len
  others : ∀ i, i ≠ a.segment → q.segments[i]? = p.segments[i]?
  zeroed : q.bytes a len = List.replicate len 0

/-- The number that names the first byte behind all that was handed out. -/
def frontier (p : Pool) : Nat := (p.last + 1) * maxSegmentBytes + p.usedIn p.last

variable {p q : Pool} {a : Address} {len : Nat}

theorem usedIn_of_getElem? {i : Nat} {s : Segment} (h : p.segments[i]? = some s) :
    p.usedIn i = s.used := by
  rw [usedIn, h]
  rfl

theorem usedIn_of_size_le {i : Nat} (h : p.segments.size ≤ i) : p.usedIn i = 0 := by
  rw [usedIn, Array.getElem?_eq_none h]
  rfl

theorem Valid.usedIn_le (hv : p.Valid) (i : Nat) : p.usedIn i ≤ p.segmentBytes := by
  cases hs : p.segments[i]? with
  | none =>
    rw [usedIn, hs]
    exact Nat.zero_le _
  | some s =>
    rw [usedIn_of_getElem? hs]
    exact hv.used_le i s hs

theorem Valid.exists_last (hv : p.Valid) : ∃ s, p.segments[p.last]? = some s :=
  ⟨_, Array.getElem?_eq_getElem (Nat.sub_lt hv.size_pos Nat.one_pos)⟩

theorem SameBounds.refl (p : Pool) : p.SameBounds p :=
  ⟨rfl, rfl, rfl, fun _ s hs => ⟨s, hs, rfl, rfl⟩⟩

theorem SameBounds.usedIn_eq (h : p.SameBounds q) (i : Nat) : q.usedIn i = p.usedIn i := by
  cases hs : q.segments[i]? with
  | some s =>
    obtain ⟨s', hs', -, hu⟩ := h.segment_eq i s hs
    rw [usedIn_of_getElem? hs, usedIn_of_getElem? hs', hu]
  | none =>
    have hi : p.segments.size ≤ i := by
      rw [← h.size_eq]
      exact Array.getElem?_eq_none_iff.1 hs
    rw [usedIn_of_size_le hi, usedIn, hs]
    rfl

theorem SameBounds.frontier_eq (h : p.SameBounds q) : q.frontier = p.frontier := by
  rw [frontier, frontier, h.usedIn_eq, last, last, h.size_eq]

theorem Valid.memory_eq (hv : p.Valid) : p.memory = p.segments.size * p.segmentBytes := by
  have hcap : ∀ s ∈ p.segments.toList, s.capacity = p.segmentBytes := by
    intro s hs
    obtain ⟨i, hi⟩ := List.mem_iff_getElem?.1 hs
    exact hv.capacity_eq i s (by rwa [Array.getElem?_toList] at hi)
  unfold memory
  rw [← Array.length_toList]
  generalize p.segments.toList = l at hcap
  induction l with
  | nil => exact (Nat.zero_mul _).symm
  | cons s l ih =>
    rw [List.foldr_cons, ih fun s hs => hcap s (List.mem_cons_of_mem _ hs),
      hcap s List.mem_cons_self, List.length_cons, Nat.succ_mul, Nat.add_comm]

/-- An address in a segment is known by its segment and its offset there. -/
theorem Covers.toNat_eq (h : p.Covers a.toNat len) (hv : p.Valid) :
    a.toNat = (a.segment + 1) * maxSegmentBytes + a.offset := by
  obtain ⟨s, -, hseg, ho, -⟩ := h.segment hv
  rw [← hseg, ho, Nat.mul_comm]
  exact (Nat.div_add_mod _ _).symm

/-- The bytes of a range that is zero. -/
theorem bytes_eq_replicate (hv : p.Valid) (hc : p.Covers a.toNat len)
    (hz : ∀ r, a.toNat ≤ r → r < a.toNat + len → p.byteAt r = 0) :
    p.bytes a len = List.replicate len 0 := by
  obtain ⟨s, hs, hseg, ho, -⟩ := hc.segment hv
  have hb := hv.bytes_le
  have h3 := hc.2.2
  have hbyte (i : Nat) (hi : i < len) : s.byte (a.offset + i) = 0 := by
    have hdiv : (a.toNat + i) / maxSegmentBytes = a.segment + 1 := by
      unfold maxSegmentBytes at *
      omega
    have hmod : (a.toNat + i) % maxSegmentBytes = a.offset + i := by
      unfold maxSegmentBytes at *
      omega
    rw [← hmod, ← byteAt_segment hs hdiv]
    exact hz _ (Nat.le_add_right _ _) (by omega)
  rw [bytes, hs]
  refine List.eq_replicate_iff.2 ⟨by simp, ?_⟩
  intro b hmem
  obtain ⟨i, hi, rfl⟩ := List.mem_map.1 hmem
  exact hbyte i (List.mem_range.1 hi)

/-- What a refused request is told. -/
def shortage (p : Pool) (len : Nat) : Shortage :=
  ⟨len, if p.segmentBytes < len then p.segmentBytes else p.maxSegments * p.segmentBytes⟩

/-- All that an allocation can do. -/
theorem alloc_cases (hv : p.Valid) (len : Nat) :
    (p.Refuses len ∧ alloc len p = .error (p.shortage len) p) ∨
    (¬ p.Refuses len ∧ ∃ s, p.segments[p.last]? = some s ∧ s.fits len = true ∧
      alloc len p = .ok (.ofByte p.last s.used)
        { p with segments := p.segments.modify p.last (·.reserve len) }) ∨
    (¬ p.Refuses len ∧ p.rest < roundUp8 len ∧ p.segments.size < p.maxSegments ∧
      (Segment.new p.segmentBytes).fits len = true ∧ alloc len p = .ok (.ofByte p.segments.size 0)
        { p with segments := p.segments.push ((Segment.new p.segmentBytes).reserve len) }) := by
  obtain ⟨s, hs⟩ := hv.exists_last
  have hcap := hv.capacity_eq _ s hs
  have hused := hv.used_le _ s hs
  have hrest : p.rest = s.capacity - s.used := by
    rw [rest, hs]
    rfl
  have hsize := hv.size_le
  unfold Refuses shortage
  by_cases hlen : p.segmentBytes < len
  · -- no segment is long enough
    refine .inl ⟨.inl hlen, ?_⟩
    rw [if_pos hlen]
    exact if_pos hlen
  have hround := roundUp8_le (Nat.le_of_not_lt hlen) hv.bytes_mod
  have hnew : (Segment.new p.segmentBytes).fits len = true :=
    decide_eq_true (by simpa [Segment.new] using hround)
  by_cases hfit : s.used + roundUp8 len ≤ s.capacity
  · -- the last segment has room
    have hfits : s.fits len = true := decide_eq_true hfit
    have hroom : p.room? len = some s.used := by
      rw [room?, hs]
      exact if_pos hfits
    refine .inr (.inl ⟨by omega, s, hs, hfits, ?_⟩)
    rw [alloc, if_neg hlen, hroom]
  · have hroom : p.room? len = none := by
      rw [room?, hs]
      exact if_neg (by simpa [Segment.fits] using hfit)
    -- the size of a segment is a multiple of 8, so a new one has room for what was rounded up
    by_cases hmax : p.segments.size < p.maxSegments
    · refine .inr (.inr ⟨by omega, by omega, hmax, hnew, ?_⟩)
      rw [alloc, if_neg hlen, hroom]
      simp only [if_neg (Nat.not_le_of_lt hmax), hnew, if_true]
    · refine .inl ⟨.inr ⟨by omega, by omega⟩, ?_⟩
      rw [alloc, if_neg hlen, if_neg hlen, hroom]
      exact if_pos (Nat.le_of_not_lt hmax)

/-- A request is refused just where there is no room for it, and then nothing changes. -/
theorem alloc_eq_error_iff (hv : p.Valid) {e : Shortage} :
    alloc len p = .error e q ↔ p.Refuses len ∧ e = p.shortage len ∧ q = p := by
  rcases alloc_cases hv len with ⟨hr, h⟩ | ⟨hr, s, -, -, h⟩ | ⟨hr, -, -, -, h⟩
  · rw [h, EStateM.Result.error.injEq]
    constructor
    · rintro ⟨rfl, rfl⟩
      exact ⟨hr, rfl, rfl⟩
    · rintro ⟨-, rfl, rfl⟩
      exact ⟨rfl, rfl⟩
  · refine iff_of_false (fun he => ?_) fun he => hr he.1
    rw [h] at he
    cases he
  · refine iff_of_false (fun he => ?_) fun he => hr he.1
    rw [h] at he
    cases he

/-- What the last segment hands out lies where it was reserved. -/
theorem HandsOut.reserves {k : Nat} {s : Segment} (h : p.HandsOut q k s len) (hv : p.Valid)
    (hlen : 0 < len) (hlast : k = q.last)
    (hsize : q.segments.size = p.segments.size ∨
      p.rest < roundUp8 len ∧ q.segments.size = p.segments.size + 1)
    (hused : p.usedIn k = s.used) : p.Reserves q (.ofByte k s.used) len := by
  have hall := h.allocated hv hlen
  have hseg := Address.segment_ofByte (h.lt_max hv) s.used
  have hoff := Address.offset_ofByte (h.lt_max hv) (h.used_lt hv hlen)
  refine ⟨hseg.trans hlast, hsize, ?start, ?stop, ?others, ?zeroed⟩
  case start => rw [hseg, hoff, hused]
  case stop => rw [hseg, hoff, usedIn_of_getElem? h.after, used_reserve]
  case others =>
    intro i hi
    exact h.other i (hseg ▸ hi)
  case zeroed => exact bytes_eq_replicate hall.valid hall.covers hall.zeroed

/-- What is handed out lies where it was reserved. -/
theorem reserves_of_alloc (hv : p.Valid) (hlen : 0 < len) (h : alloc len p = .ok a q) :
    p.Reserves q a len := by
  rcases alloc_cases hv len with ⟨-, he⟩ | ⟨-, s, hs, hfit, he⟩ | ⟨-, hrest, hsize, hfit, he⟩
  · rw [h] at he
    cases he
  · rw [h] at he
    cases he
    refine (handsOut_last hv hs hfit).reserves hv hlen ?_ (.inl (Array.size_modify ..))
      (usedIn_of_getElem? hs)
    rw [last, last, Array.size_modify]
  · rw [h] at he
    cases he
    refine (handsOut_push hsize hfit).reserves hv hlen ?_ (.inr ⟨hrest, Array.size_push _⟩)
      (usedIn_of_size_le (Nat.le_refl _))
    rw [last, Array.size_push]
    rfl

namespace Reserves

theorem usedIn_eq (h : p.Reserves q a len) (i : Nat) :
    q.usedIn i = if i = a.segment then a.offset + roundUp8 len else p.usedIn i := by
  split
  · rename_i hi
    rw [hi, h.stop]
  · rename_i hi
    rw [usedIn, usedIn, h.others i hi]

/-- The bytes lie behind all that was handed out before, and nothing lies behind them. -/
theorem frontier_le (h : p.Reserves q a len) (hv : p.Valid)
    (ha : a.toNat = (a.segment + 1) * maxSegmentBytes + a.offset) :
    p.frontier ≤ a.toNat ∧ q.frontier = a.toNat + roundUp8 len := by
  have hle := hv.usedIn_le p.last
  have hbytes := hv.bytes_le
  have hpos := hv.size_pos
  have hlast := h.last
  constructor
  · rw [ha, h.start, frontier]
    rcases h.size with hsize | ⟨-, hsize⟩
    · have hseg : a.segment = p.last := by
        rw [hlast, Pool.last, Pool.last, hsize]
      rw [hseg]
    · have hseg : a.segment = p.last + 1 := by
        rw [hlast, Pool.last, Pool.last, hsize]
        omega
      rw [hseg, Nat.succ_mul (p.last + 1)]
      omega
  · rw [frontier, ← hlast, h.stop, ha, Nat.add_assoc]

end Reserves

/-- The pools that can come up under a configuration, with what they have handed out, oldest first.
At any time bytes that they hold may be stored or cleared. -/
inductive Serves (c : Config) : Pool → List Reservation → Prop
  | new : Serves c (.new c.segmentBytes c.maxSegments) []
  | alloc {p q : Pool} {rs : List Reservation} {a : Address} {len : Nat} :
    Serves c p rs → 0 < len → Pool.alloc len p = .ok a q → Serves c q (rs ++ [⟨a, len⟩])
  | refuse {p q : Pool} {rs : List Reservation} {e : Shortage} {len : Nat} :
    Serves c p rs → Pool.alloc len p = .error e q → Serves c q rs
  | store {p : Pool} {rs : List Reservation} {a : Address} {n : Nat} (w : UInt64) :
    Serves c p rs → p.holds a n = true → Serves c (p.store a n w) rs
  | zero {p : Pool} {rs : List Reservation} {a : Address} {n : Nat} :
    Serves c p rs → p.holds a n = true → Serves c (p.zero a n) rs

/-- Reservations as ranges of numbers, each behind the one before it. -/
structure Ordered (c : Config) (p : Pool) (rs : List Reservation) : Prop where
  valid : p.Valid
  segmentBytes_eq : p.segmentBytes = c.segmentBytes
  maxSegments_eq : p.maxSegments = c.maxSegments
  words : ∀ i, p.usedIn i % 8 = 0
  used : p.used = (rs.map fun r => roundUp8 r.len).sum
  placed : ∀ r ∈ rs, 0 < r.len ∧ p.Covers r.address.toNat r.len ∧ r.address.toNat % 8 = 0 ∧
    r.address.toNat + roundUp8 r.len ≤ p.frontier
  increasing : rs.Pairwise fun r r' => r.address.toNat + roundUp8 r.len ≤ r'.address.toNat

variable {c : Config} {rs : List Reservation}

theorem ordered_new (hc : c.check = .ok ()) :
    Ordered c (.new c.segmentBytes c.maxSegments) [] := by
  have husedIn (i : Nat) : (Pool.new c.segmentBytes c.maxSegments).usedIn i = 0 := by
    cases i <;> rfl
  refine ⟨valid_new hc, rfl, rfl, ?_, rfl, ?_, List.Pairwise.nil⟩
  · intro i
    rw [husedIn]
  · exact fun r hr => nomatch hr

namespace Ordered

/-- Only bytes change. -/
theorem withBytes (h : Ordered c p rs) (hb : p.SameBounds q) : Ordered c q rs := by
  refine ⟨hb.valid h.valid, hb.segmentBytes_eq.trans h.segmentBytes_eq,
    hb.maxSegments_eq.trans h.maxSegments_eq, ?_, hb.used_eq.trans h.used, ?_, h.increasing⟩
  · intro i
    rw [hb.usedIn_eq]
    exact h.words i
  · intro r hr
    obtain ⟨hpos, hcov, hal, hend⟩ := h.placed r hr
    refine ⟨hpos, hb.covers hcov, hal, ?_⟩
    rw [hb.frontier_eq]
    exact hend

/-- A further reservation. -/
theorem alloc (h : Ordered c p rs) (hlen : 0 < len) (ha : Pool.alloc len p = .ok a q) :
    Ordered c q (rs ++ [⟨a, len⟩]) := by
  have hall := allocated_of_alloc h.valid hlen ha
  have hres := reserves_of_alloc h.valid hlen ha
  have hnum := hall.covers.toNat_eq hall.valid
  obtain ⟨hle, hend⟩ := hres.frontier_le h.valid hnum
  have hround := le_roundUp8 len
  have haligned : a.offset % 8 = 0 := by
    rw [hres.start]
    exact h.words _
  have hsizes : q.segmentBytes = p.segmentBytes ∧ q.maxSegments = p.maxSegments := by
    rcases alloc_cases h.valid len with ⟨-, he⟩ | ⟨-, s, -, -, he⟩ | ⟨-, -, -, -, he⟩ <;>
      rw [ha] at he <;> cases he <;> exact ⟨rfl, rfl⟩
  refine ⟨hall.valid, hsizes.1.trans h.segmentBytes_eq, hsizes.2.trans h.maxSegments_eq, ?_, ?_, ?_,
    ?_⟩
  · -- all segments are used up to a whole word
    intro i
    rw [hres.usedIn_eq]
    split
    · rw [Nat.add_mod, haligned, roundUp8_mod]
    · exact h.words i
  · rw [used_of_alloc ha, h.used, List.map_append, List.sum_append, List.map_singleton,
      List.sum_singleton]
  · intro r hr
    rcases List.mem_append.1 hr with hr | hr
    · obtain ⟨hpos, hcov, hal, hr⟩ := h.placed r hr
      exact ⟨hpos, hall.covers_of _ _ hcov, hal, by omega⟩
    · obtain rfl := List.mem_singleton.1 hr
      refine ⟨hlen, hall.covers, ?_, Nat.le_of_eq hend.symm⟩
      rw [hnum]
      unfold maxSegmentBytes
      omega
  · -- all that was handed out before ends at the old frontier
    refine List.pairwise_append.2 ⟨h.increasing, List.pairwise_singleton _ _, ?_⟩
    intro r hr r' hr'
    obtain rfl := List.mem_singleton.1 hr'
    obtain ⟨-, -, -, hr⟩ := h.placed r hr
    exact Nat.le_trans hr hle

/-- The two parts of the number of a reservation. -/
theorem toNat_eq (h : Ordered c p rs) {r : Reservation} (hr : r ∈ rs) :
    r.address.toNat = (r.address.segment + 1) * maxSegmentBytes + r.address.offset :=
  (h.placed r hr).2.1.toNat_eq h.valid

theorem offset_add_le (h : Ordered c p rs) {r : Reservation} (hr : r ∈ rs) :
    r.address.offset + r.len ≤ maxSegmentBytes := by
  obtain ⟨s, hs, -, -, hle⟩ := (h.placed r hr).2.1.segment h.valid
  rw [h.valid.capacity_eq _ s hs] at hle
  exact Nat.le_trans hle h.valid.bytes_le

/-- A later reservation lies in a later segment, or behind in the same one. -/
theorem behind (h : Ordered c p rs) {r r' : Reservation} (hr : r ∈ rs) (hr' : r' ∈ rs)
    (hle : r.address.toNat + roundUp8 r.len ≤ r'.address.toNat) :
    r.address.segment < r'.address.segment ∨ r.address.segment = r'.address.segment ∧
      r.address.offset + r.len ≤ r'.address.offset := by
  have hend := h.offset_add_le hr'
  obtain ⟨hpos, -, -, -⟩ := h.placed r' hr'
  have hround := le_roundUp8 r.len
  rw [h.toNat_eq hr, h.toNat_eq hr'] at hle
  unfold maxSegmentBytes at *
  omega

end Ordered

theorem Serves.ordered (hc : c.check = .ok ()) (h : Serves c p rs) : Ordered c p rs := by
  induction h with
  | new => exact ordered_new hc
  | alloc _ hlen ha ih => exact ih.alloc hlen ha
  | refuse _ he ih => exact eq_of_alloc_error he ▸ ih
  | store w _ _ ih => exact ih.withBytes (sameBounds_store ..)
  | zero _ _ ih => exact ih.withBytes (sameBounds_zero ..)

/-- What a pool promises about what it has handed out, and about the next request. -/
structure Orderly (c : Config) (p : Pool) (rs : List Reservation) : Prop where
  /-- Addresses increase, by segment and then by offset. -/
  increasing : rs.Pairwise fun r r' => r.address.segment < r'.address.segment ∨
    r.address.segment = r'.address.segment ∧ r.address.offset < r'.address.offset
  /-- No two reservations share a byte. -/
  apart : rs.Pairwise fun r r' => r.address.segment = r'.address.segment →
    Apart r.address.offset r.len r'.address.offset r'.len
  aligned : ∀ r ∈ rs, r.address.offset % 8 = 0
  inside : ∀ r ∈ rs, p.holds r.address r.len = true
  /-- All bytes of a reservation have addresses that follow its own. -/
  within : ∀ r ∈ rs, ∀ k : UInt64, k.toNat < r.len →
    (r.address.add k).segment = r.address.segment ∧
      (r.address.add k).offset = r.address.offset + k.toNat
  used : p.used = (rs.map fun r => roundUp8 r.len).sum
  memory : p.memory = p.segments.size * c.segmentBytes
  granted : ∀ {len a q}, 0 < len → Pool.alloc len p = .ok a q → p.Reserves q a len
  /-- A refused request changes nothing. -/
  refused : ∀ {len e q}, Pool.alloc len p = .error e q ↔
    (c.segmentBytes < len ∨ p.rest < roundUp8 len ∧ p.segments.size = c.maxSegments) ∧
      e = p.shortage len ∧ q = p

/-- Every run of allocations, with anything written in between, leaves reservations in order. -/
theorem Serves.orderly (hc : c.check = .ok ()) (h : Serves c p rs) : p.Orderly c rs := by
  have ho := h.ordered hc
  have hv := ho.valid
  -- addresses are compared as numbers, in which segments follow each other
  constructor
  case increasing =>
    refine ho.increasing.imp_of_mem fun {r r'} hr hr' hle => ?_
    obtain ⟨hpos, -, -, -⟩ := ho.placed r hr
    have := ho.behind hr hr' hle
    omega
  case apart =>
    refine ho.increasing.imp_of_mem fun {r r'} hr hr' hle hseg => .inl ?_
    have := ho.behind hr hr' hle
    omega
  case aligned =>
    intro r hr
    obtain ⟨-, -, hal, -⟩ := ho.placed r hr
    have hn := ho.toNat_eq hr
    unfold maxSegmentBytes at hn
    omega
  case inside =>
    intro r hr
    exact holds_of_covers (ho.placed r hr).2.1 hv
  case within =>
    intro r hr k hk
    have hlt : r.address.offset + k.toNat < maxSegmentBytes := by
      have := ho.offset_add_le hr
      omega
    exact ⟨Address.segment_add hlt, Address.offset_add hlt⟩
  case used => exact ho.used
  case memory => rw [hv.memory_eq, ho.segmentBytes_eq]
  case granted => exact fun hlen ha => reserves_of_alloc hv hlen ha
  case refused =>
    intro len e q
    rw [alloc_eq_error_iff hv, Refuses, ho.segmentBytes_eq, ho.maxSegments_eq]

end Pool

namespace Sample

open Pool

/-- Pools of two segments of 16 bytes. -/
def shelf : Config := ⟨.padded, 16, 2⟩

def shelved : List Reservation := [⟨.ofByte 0 0, 5⟩, ⟨.ofByte 0 8, 8⟩, ⟨.ofByte 1 0, 9⟩]

/-- Requests for 5, 8 and 9 bytes fill both segments, although the first of the bytes was written
in between; then not even one byte is left. -/
theorem orderly_shelf : shelf.check = .ok () ∧ ∃ p, Serves shelf p shelved ∧
    p.Orderly shelf shelved ∧ p.used = 32 ∧ p.memory = 32 ∧
    Pool.alloc 1 p = .error ⟨1, 32⟩ p := by
  have h₁ := Serves.alloc (c := shelf) .new (show 0 < 5 by decide) rfl
  have h₂ := (h₁.store (a := .ofByte 0 0) (n := 1) 7 (by decide)).alloc (show 0 < 8 by decide) rfl
  have h₃ := h₂.alloc (show 0 < 9 by decide) rfl
  exact ⟨by decide, _, h₃, h₃.orderly (by decide), by decide, by decide, rfl⟩

end Sample

end SparseLayout
