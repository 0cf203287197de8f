import SparseLayout.Proofs.Layout.Region
import SparseLayout.Proofs.Store.Ends
import Mathlib.Data.Set.Card

/-!
Who owns the memory of a storage. Every region that was handed out and every block on a free list
is a piece of the pool, and no two pieces have a byte in common. Taking a block makes a spare piece
or fresh bytes a region, and giving one back makes a region a spare piece.
-/

namespace SparseLayout

open Layout (Node)

/-- The node whose blocks a region is one of. -/
def Region.owner? : Region → Option Node
  | .root => none
  | .block x => x.head?.map (·.1)
  | .chunk _ n _ => some n

/-- A piece of the pool: a region, or a block that was given back. -/
inductive Piece
  | region (r : Region)
  | spare (n : Node) (a : Address)

def Piece.size (t : Layout) : Piece → Nat
  | .region r => t.regionSize r
  | .spare n _ => n.blockSize

/-- What a piece was before the spare block at `a` was taken for the region `r`. -/
def Piece.beforeTaking (r : Region) (n : Node) (a : Address) : Piece → Piece
  | .region r' => if r' = r then .spare n a else .region r'
  | .spare m c => .spare m c

/-- What a piece was before the region `r` at `a` was given back. -/
def Piece.beforeGiving (r : Region) (n : Node) (a : Address) : Piece → Piece
  | .region r' => .region r'
  | .spare m c => if m = n ∧ c = a then .region r else .spare m c

namespace Store

/-- The free list of a node. -/
def spares (s : Store) (id : NodeId) : List Address :=
  match s.blocks[id]? with
  | some (some b) => b.free
  | _ => []

/-- The regions of a node that were handed out. -/
def regionsOf (base : Region → Option Address) (n : Node) : Set Region :=
  {r | (base r).isSome ∧ r.owner? = some n}

/-- The piece starts at an address. -/
def At (s : Store) (t : Layout) (base : Region → Option Address) : Piece → Address → Prop
  | .region r, a => base r = some a
  | .spare n b, a => t.Has n ∧ n.blockBytes?.isSome ∧ b ∈ s.spares n.id ∧ a = b

/-- The regions that were handed out, by where they start, and the spare blocks make up what is
used of the pool. -/
structure Owns (s : Store) (t : Layout) (base : Region → Option Address) : Prop where
  valid : s.pool.Valid
  root : base .root = some s.root
  covers : ∀ {P a}, s.At t base P a → s.pool.Covers a.toNat (P.size t)
  used : ∀ {P a i}, s.At t base P a → a.toNat ≤ i → i < a.toNat + P.size t → s.pool.Used i
  apart : ∀ {P Q a b}, s.At t base P a → s.At t base Q b → P ≠ Q →
    Apart a.toNat (P.size t) b.toNat (Q.size t)
  nodup : ∀ {n}, t.Has n → n.blockBytes?.isSome → (s.spares n.id).Nodup
  blocks : ∀ {n}, t.Has n → n.blockBytes?.isSome → ∃ b, s.blocks[n.id]? = some (some b) ∧
    b.blockBytes = n.blockSize ∧ (regionsOf base n).encard = b.live ∧
      b.total = b.live + b.free.length
  /-- Other nodes hold no blocks. -/
  others : ∀ {n}, t.Has n → n.blockBytes? = none → s.blocks[n.id]? = some none

end Store

variable {s : Store} {t : Layout} {base : Region → Option Address} {n m : Node} {r : Region}
  {a : Address}

theorem regionSize_of_owner (h : r.owner? = some n) : t.regionSize r = n.blockSize := by
  cases r with
  | root => cases h
  | block x =>
    cases x with
    | nil => cases h
    | cons y p =>
      cases h
      rfl
  | chunk p m i =>
    cases h
    rfl

theorem Layout.Node.blockSize_pos (n : Node) : 8 ≤ n.blockSize := Nat.le_max_right _ _

theorem Layout.regionSize_pos (t : Layout) (r : Region) : 8 ≤ t.regionSize r := by
  cases r <;> exact Nat.le_max_right _ _

theorem Piece.size_pos (t : Layout) (P : Piece) : 8 ≤ P.size t := by
  cases P with
  | region r => exact t.regionSize_pos r
  | spare n a => exact n.blockSize_pos

/-- Ranges without a common byte lie apart. -/
theorem apart_of_disjoint {a m b n : Nat} (hm : 0 < m) (hn : 0 < n)
    (h : ∀ i, a ≤ i → i < a + m → ¬ (b ≤ i ∧ i < b + n)) : Apart a m b n := by
  have h1 := h a (Nat.le_refl a) (by omega)
  unfold Apart
  rcases Nat.lt_or_ge a b with hab | hab
  · by_cases hb : b < a + m
    · exact absurd ⟨Nat.le_refl b, by omega⟩ (h b (by omega) hb)
    · omega
  · omega

namespace Store

theorem spares_of_blocks {id : NodeId} {b : Blocks} (h : s.blocks[id]? = some (some b)) :
    s.spares id = b.free := by
  rw [spares, h]

/-- The pieces of a storage are known from those of another one. -/
structure Recasts (s s' : Store) (t : Layout) (base base' : Region → Option Address)
    (φ : Piece → Piece) : Prop where
  size_eq : ∀ {P a}, s'.At t base' P a → (φ P).size t = P.size t
  at_of : ∀ {P a}, s'.At t base' P a → s.At t base (φ P) a
  inj : ∀ {P Q a b}, s'.At t base' P a → s'.At t base' Q b → φ P = φ Q → P = Q

/-- Ownership where pieces change their role, but no byte its owner. -/
theorem Owns.recast (h : s.Owns t base) {s' : Store} {base' : Region → Option Address}
    {φ : Piece → Piece} (hφ : s.Recasts s' t base base' φ) (hp : s.pool.SameBounds s'.pool)
    (hroot : base' .root = some s'.root)
    (hnodup : ∀ {n}, t.Has n → n.blockBytes?.isSome → (s'.spares n.id).Nodup)
    (hblocks : ∀ {n}, t.Has n → n.blockBytes?.isSome → ∃ b, s'.blocks[n.id]? = some (some b) ∧
      b.blockBytes = n.blockSize ∧ (regionsOf base' n).encard = b.live ∧
        b.total = b.live + b.free.length)
    (hothers : ∀ {n}, t.Has n → n.blockBytes? = none → s'.blocks[n.id]? = some none) :
    s'.Owns t base' := by
  refine ⟨hp.valid h.valid, hroot, ?_, ?_, ?_, hnodup, hblocks, hothers⟩
  · intro P a hP
    exact hφ.size_eq hP ▸ hp.covers (h.covers (hφ.at_of hP))
  · intro P a i hP h1 h2
    exact hp.used (h.used (hφ.at_of hP) h1 (hφ.size_eq hP ▸ h2))
  · intro P Q a b hP hQ hne
    rw [← hφ.size_eq hP, ← hφ.size_eq hQ]
    exact h.apart (hφ.at_of hP) (hφ.at_of hQ) fun he => hne (hφ.inj hP hQ he)

/-- Only the bytes of the pool change. -/
theorem Owns.withPool (h : s.Owns t base) {pool : Pool} (hp : s.pool.SameBounds pool) :
    ({ s with pool } : Store).Owns t base :=
  h.recast (φ := id) ⟨fun _ => rfl, fun {P _} hP => by cases P <;> exact hP, fun _ _ he => he⟩ hp
    h.root h.nodup h.blocks h.others

theorem Owns.not_null (h : s.Owns t base) (ha : base r = some a) : a.isNull = false := by
  have hc := (h.covers (P := .region r) ha).1
  rw [Bool.eq_false_iff]
  intro hn
  have := (a.isNull_iff).1 hn
  unfold maxSegmentBytes at hc
  omega

theorem regionsOf_update_none (h : r.owner? = some n) :
    regionsOf (Function.update base r none) n = regionsOf base n \ {r} := by
  ext r'
  by_cases he : r' = r
  · subst he
    simp [regionsOf]
  · simp [regionsOf, he]

theorem regionsOf_update_some (h : r.owner? = some n) :
    regionsOf (Function.update base r (some a)) n = insert r (regionsOf base n) := by
  ext r'
  by_cases he : r' = r
  · subst he
    simp [regionsOf, h]
  · simp [regionsOf, he]

theorem regionsOf_update_of_ne (h : r.owner? = some n) (hne : m ≠ n) (o : Option Address) :
    regionsOf (Function.update base r o) m = regionsOf base m := by
  ext r'
  by_cases he : r' = r
  · subst he
    simp [regionsOf, h, Ne.symm hne]
  · simp [regionsOf, he]

/-- What a node gains when it takes the block at `a` for a region. -/
structure Took (s s' : Store) (t : Layout) (base : Region → Option Address) (r : Region)
    (a : Address) : Prop where
  owns : s'.Owns t (Function.update base r (some a))
  zeroed : ∀ i, a.toNat ≤ i → i < a.toNat + t.regionSize r → s'.pool.byteAt i = 0
  kept : ∀ {r' x i}, base r' = some x → x.toNat ≤ i → i < x.toNat + t.regionSize r' →
    s'.pool.byteAt i = s.pool.byteAt i

/-- The free list and the counts of a node that changed one entry of the storage. -/
theorem blocks_set {b : Blocks} (h : n.id < s.blocks.size) {pool : Pool} {root : Address}
    (hn : t.Has n) (hm : t.Has m) :
    (⟨pool, root, s.blocks.set! n.id (some b)⟩ : Store).blocks[m.id]? =
      if m = n then some (some b) else s.blocks[m.id]? := by
  simp only [Array.set!_eq_setIfInBounds, Array.getElem?_setIfInBounds]
  by_cases he : m = n
  · subst he
    simp [h]
  · rw [if_neg he, if_neg fun hid => he (hm.eq_of_id hn hid.symm)]

theorem spares_set {b : Blocks} (h : n.id < s.blocks.size) {pool : Pool} {root : Address}
    (hn : t.Has n) (hm : t.Has m) :
    (⟨pool, root, s.blocks.set! n.id (some b)⟩ : Store).spares m.id =
      if m = n then b.free else s.spares m.id := by
  rw [spares, blocks_set h hn hm]
  by_cases he : m = n
  · simp [he]
  · simp [he, spares]

/-- A node that holds blocks does not become one of the others. -/
theorem Owns.others_set (h : s.Owns t base) (hn : t.Has n) (hb : n.blockBytes?.isSome)
    (hlt : n.id < s.blocks.size) {pool : Pool} {root : Address} {b : Blocks} {m : Node}
    (hm : t.Has m) (hmb : m.blockBytes? = none) :
    (⟨pool, root, s.blocks.set! n.id (some b)⟩ : Store).blocks[m.id]? = some none := by
  rw [blocks_set hlt hn hm, if_neg (by rintro rfl; simp [hmb] at hb)]
  exact h.others hm hmb

/-- One more region was handed out. -/
theorem encard_regionsOf_some {l : Nat} (hr : base r = none) (ho : r.owner? = some n)
    (h : (regionsOf base n).encard = l) :
    (regionsOf (Function.update base r (some a)) n).encard = (l + 1 : Nat) := by
  rw [regionsOf_update_some ho, Set.encard_insert_of_notMem, h]
  · rfl
  · simp [regionsOf, hr]

/-- One region less is handed out. -/
theorem encard_regionsOf_none {l : Nat} (hr : base r = some a) (ho : r.owner? = some n)
    (h : (regionsOf base n).encard = l) :
    0 < l ∧ (regionsOf (Function.update base r none) n).encard = (l - 1 : Nat) := by
  have hmem : r ∈ regionsOf base n := ⟨by rw [hr]; rfl, ho⟩
  have hcount := Set.encard_sdiff_singleton_add_one hmem
  rw [h] at hcount
  have hfin : (regionsOf base n \ {r}).encard ≠ ⊤ := by
    intro htop
    rw [htop, top_add] at hcount
    exact ENat.natCast_ne_top _ hcount.symm
  obtain ⟨k, hk⟩ := ENat.ne_top_iff_exists.1 hfin
  rw [← hk] at hcount
  have hkl : k + 1 = l := by exact_mod_cast hcount
  rw [regionsOf_update_none ho, ← hk]
  exact ⟨by omega, by exact_mod_cast (by omega : k = l - 1)⟩

/-- The region was the spare block, and every other piece is what it was. -/
theorem Owns.recasts_takeSpare (h : s.Owns t base) (hn : t.Has n) (hb : n.blockBytes?.isSome)
    (ho : r.owner? = some n) {rest : List Address} (hfree : s.spares n.id = a :: rest) {s' : Store}
    (hspares : ∀ {m}, t.Has m → s'.spares m.id = if m = n then rest else s.spares m.id) :
    s.Recasts s' t base (Function.update base r (some a)) (Piece.beforeTaking r n a) := by
  have hnodup := h.nodup hn hb
  rw [hfree, List.nodup_cons] at hnodup
  have hspare : s.At t base (.spare n a) a := ⟨hn, hb, by simp [hfree], rfl⟩
  have old {m : Node} {c x : Address} (hP : s'.At t (Function.update base r (some a))
      (.spare m c) x) : s.At t base (.spare m c) x ∧ ¬ (m = n ∧ c = a) := by
    obtain ⟨hm, hmb, hc, hx⟩ := hP
    rw [hspares hm] at hc
    split at hc
    · rename_i he
      subst he
      refine ⟨⟨hm, hmb, by simp [hfree, hc], hx⟩, ?_⟩
      rintro ⟨-, rfl⟩
      exact hnodup.1 hc
    · rename_i he
      exact ⟨⟨hm, hmb, hc, hx⟩, fun hmn => he hmn.1⟩
  constructor
  · intro P x hP
    cases P with
    | spare m c => rfl
    | region r' =>
      rw [Piece.beforeTaking]
      split
      · rename_i he
        rw [he]
        exact (regionSize_of_owner ho).symm
      · rfl
  · intro P x hP
    cases P with
    | spare m c => exact (old hP).1
    | region r' =>
      rw [Piece.beforeTaking]
      split
      · rename_i he
        subst he
        simp only [At, Function.update_self, Option.some.injEq] at hP
        exact hP ▸ hspare
      · rename_i he
        simpa only [At, Function.update_of_ne he] using hP
  · intro P Q x y hP hQ he
    -- the spare block that became the region is on no free list any more
    cases P <;> cases Q <;> dsimp only [Piece.beforeTaking] at he <;> grind

/-- The counts of a node that took a block for a region. -/
theorem Owns.blocks_take (h : s.Owns t base) (hn : t.Has n) (hr : base r = none)
    (ho : r.owner? = some n) {b : Blocks} (hblocks : s.blocks[n.id]? = some (some b)) (b' : Blocks)
    (hbytes : b'.blockBytes = b.blockBytes) (hlive : b'.live = b.live + 1)
    (htotal : b.total = b.live + b.free.length → b'.total = b'.live + b'.free.length) {pool : Pool}
    {root : Address} (hm : t.Has m) (hmb : m.blockBytes?.isSome) :
    ∃ c, (⟨pool, root, s.blocks.set! n.id (some b')⟩ : Store).blocks[m.id]? = some (some c) ∧
      c.blockBytes = m.blockSize ∧
      (regionsOf (Function.update base r (some a)) m).encard = c.live ∧
        c.total = c.live + c.free.length := by
  have hlt : n.id < s.blocks.size := (Array.getElem?_eq_some_iff.1 hblocks).1
  rw [blocks_set hlt hn hm]
  obtain ⟨c, hc, hsize, hcount, hsum⟩ := h.blocks hm hmb
  split
  · rename_i he
    subst he
    rw [hblocks] at hc
    cases hc
    refine ⟨b', rfl, hbytes.trans hsize, ?_, htotal hsum⟩
    rw [hlive]
    exact encard_regionsOf_some hr ho hcount
  · rename_i he
    rw [regionsOf_update_of_ne ho he]
    exact ⟨c, hc, hsize, hcount, hsum⟩

/-- Taking back the last block that was given back. -/
theorem Owns.takeSpare (h : s.Owns t base) (hn : t.Has n) (hb : n.blockBytes?.isSome)
    (hr : base r = none) (ho : r.owner? = some n) {b : Blocks} {rest : List Address}
    (hblocks : s.blocks[n.id]? = some (some b)) (hfree : b.free = a :: rest) :
    s.pool.holds a b.blockBytes ∧
      s.Took ⟨s.pool.zero a b.blockBytes, s.root,
        s.blocks.set! n.id (some { b with free := rest, live := b.live + 1 })⟩ t base r a := by
  obtain ⟨b', hb', hbytes, -⟩ := h.blocks hn hb
  rw [hblocks] at hb'
  cases hb'
  have hlt : n.id < s.blocks.size := (Array.getElem?_eq_some_iff.1 hblocks).1
  have hlist : s.spares n.id = a :: rest := (spares_of_blocks hblocks).trans hfree
  -- the block is a spare piece so far, so it is apart from all others
  have hspare : s.At t base (.spare n a) a := ⟨hn, hb, by simp [hlist], rfl⟩
  have hcov : s.pool.Covers a.toNat b.blockBytes := hbytes ▸ h.covers hspare
  refine ⟨Pool.holds_of_covers hcov h.valid, ?_⟩
  constructor
  · refine h.recast (h.recasts_takeSpare hn hb ho hlist fun hm => spares_set hlt hn hm)
      (s.pool.sameBounds_zero a b.blockBytes) ?_ ?_
      (h.blocks_take hn hr ho hblocks { b with free := rest, live := b.live + 1 } rfl rfl
        fun hsum => ?_) (h.others_set hn hb hlt)
    · rw [Function.update_of_ne (by rintro rfl; cases ho), h.root]
    · intro m hm hmb
      rw [spares_set hlt hn hm]
      split
      · have hnodup := h.nodup hn hb
        rw [hlist] at hnodup
        exact (List.nodup_cons.1 hnodup).2
      · exact h.nodup hm hmb
    · simp only [hsum, hfree, List.length_cons]
      omega
  · intro i h1 h2
    rw [regionSize_of_owner ho, ← hbytes] at h2
    rw [Pool.byteAt_zero hcov h.valid, if_pos ⟨h1, h2⟩]
  · intro r' x i hx h1 h2
    have ha := h.apart (P := .region r') hx hspare (by simp)
    rw [Pool.byteAt_zero hcov h.valid, if_neg]
    rw [hbytes]
    simp only [Apart, Piece.size] at ha
    omega

/-- Where the free lists stay, a piece is a new region or was there before. -/
theorem at_update_some {s' : Store} (hspares : ∀ {m}, t.Has m → s'.spares m.id = s.spares m.id)
    {P : Piece} {x : Address} (hP : s'.At t (Function.update base r (some a)) P x) :
    P = .region r ∧ x = a ∨ P ≠ .region r ∧ s.At t base P x := by
  cases P with
  | spare m c =>
    obtain ⟨hm, hmb, hc, hx⟩ := hP
    exact Or.inr ⟨by simp, hm, hmb, hspares hm ▸ hc, hx⟩
  | region r' =>
    by_cases he : r' = r
    · subst he
      simp only [At, Function.update_self, Option.some.injEq] at hP
      exact Or.inl ⟨rfl, hP.symm⟩
    · simp only [At, Function.update_of_ne he] at hP
      exact Or.inr ⟨by simpa using he, hP⟩

/-- What the pool hands out lies apart from every piece. -/
theorem Owns.apart_allocated (h : s.Owns t base) {pool : Pool} {len : Nat} (hlen : 0 < len)
    (hnew : s.pool.Allocated pool a len) {P : Piece} {x : Address} (hP : s.At t base P x) :
    Apart a.toNat len x.toNat (P.size t) := by
  refine apart_of_disjoint hlen (Nat.lt_of_lt_of_le (by decide) (P.size_pos t)) ?_
  rintro i h1 h2 ⟨h3, h4⟩
  exact hnew.fresh i h1 h2 (h.used hP h3 h4)

/-- The bytes that the pool hands out become a region, where the free lists stay as they are and the
counts are those of one more region. -/
theorem Owns.insert (h : s.Owns t base) (ho : r.owner? = some n) {s' : Store}
    (hnew : s.pool.Allocated s'.pool a (t.regionSize r)) (hroot : s'.root = s.root)
    (hspares : ∀ {m}, t.Has m → s'.spares m.id = s.spares m.id)
    (hblocks : ∀ {m}, t.Has m → m.blockBytes?.isSome → ∃ b, s'.blocks[m.id]? = some (some b) ∧
      b.blockBytes = m.blockSize ∧
        (regionsOf (Function.update base r (some a)) m).encard = b.live ∧
          b.total = b.live + b.free.length)
    (hothers : ∀ {m}, t.Has m → m.blockBytes? = none → s'.blocks[m.id]? = some none) :
    s'.Owns t (Function.update base r (some a)) := by
  have hpos : 0 < t.regionSize r := Nat.lt_of_lt_of_le (by decide) (t.regionSize_pos r)
  refine ⟨hnew.valid, ?root, ?covers, ?used, ?apart, ?nodup, hblocks, hothers⟩
  case root => rw [Function.update_of_ne (by rintro rfl; cases ho), h.root, hroot]
  case covers =>
    intro P x hP
    rcases at_update_some hspares hP with ⟨rfl, rfl⟩ | ⟨-, hP⟩
    · exact hnew.covers
    · exact hnew.covers_of _ _ (h.covers hP)
  case used =>
    intro P x i hP h1 h2
    rcases at_update_some hspares hP with ⟨rfl, rfl⟩ | ⟨-, hP⟩
    · exact hnew.used i h1 h2
    · exact hnew.used_of i (h.used hP h1 h2)
  case apart =>
    intro P Q x y hP hQ hne
    rcases at_update_some hspares hP with ⟨rfl, rfl⟩ | ⟨-, hP'⟩
    · rcases at_update_some hspares hQ with ⟨rfl, -⟩ | ⟨-, hQ'⟩
      · exact absurd rfl hne
      · exact h.apart_allocated hpos hnew hQ'
    · rcases at_update_some hspares hQ with ⟨rfl, rfl⟩ | ⟨-, hQ'⟩
      · exact (h.apart_allocated hpos hnew hP').symm
      · exact h.apart hP' hQ' hne
  case nodup =>
    intro m hm hmb
    exact hspares hm ▸ h.nodup hm hmb

/-- Taking a block that the pool hands out. -/
theorem Owns.takeFresh (h : s.Owns t base) (hn : t.Has n) (hb : n.blockBytes?.isSome)
    (hr : base r = none) (ho : r.owner? = some n) {b : Blocks}
    (hblocks : s.blocks[n.id]? = some (some b)) {pool : Pool}
    (halloc : Pool.alloc b.blockBytes s.pool = .ok a pool) :
    s.Took ⟨pool, s.root, s.blocks.set! n.id
      (some { b with live := b.live + 1, total := b.total + 1 })⟩ t base r a := by
  obtain ⟨b', hb', hbytes, -⟩ := h.blocks hn hb
  rw [hblocks] at hb'
  cases hb'
  have hsize : b.blockBytes = t.regionSize r := hbytes.trans (regionSize_of_owner ho).symm
  have hpos := t.regionSize_pos r
  have hnew := Pool.allocated_of_alloc h.valid (by omega) halloc
  rw [hsize] at hnew
  have hlt : n.id < s.blocks.size := (Array.getElem?_eq_some_iff.1 hblocks).1
  constructor
  · refine h.insert ho hnew rfl ?_ (h.blocks_take hn hr ho hblocks
      { b with live := b.live + 1, total := b.total + 1 } rfl rfl fun hsum => ?_)
        (h.others_set hn hb hlt)
    · intro m hm
      rw [spares_set hlt hn hm]
      split
      · rename_i he
        rw [he, spares_of_blocks hblocks]
      · rfl
    · simp only [hsum]
      omega
  · exact hnew.zeroed
  · intro r' x i hx h1 h2
    exact hnew.byteAt_eq i (h.used (P := .region r') hx h1 h2)

theorem takeBlock_of_spare {b : Blocks} {rest : List Address}
    (hblocks : s.blocks[n.id]? = some (some b)) (hfree : b.free = a :: rest)
    (hh : s.pool.holds a b.blockBytes) :
    StoreM.takeBlock n s = .ok a ⟨s.pool.zero a b.blockBytes, s.root,
      s.blocks.set! n.id (some { b with free := rest, live := b.live + 1 })⟩ := by
  cases s
  simp only at hblocks hh
  simp only [StoreM.takeBlock, hblocks, Blocks.alloc, hfree, if_pos hh]

theorem takeBlock_of_alloc {b : Blocks} (hblocks : s.blocks[n.id]? = some (some b))
    (hfree : b.free = []) {pool : Pool} (halloc : Pool.alloc b.blockBytes s.pool = .ok a pool) :
    StoreM.takeBlock n s = .ok a ⟨pool, s.root, s.blocks.set! n.id
      (some { b with live := b.live + 1, total := b.total + 1 })⟩ := by
  cases s
  simp only at hblocks halloc
  simp only [StoreM.takeBlock, hblocks, Blocks.alloc, hfree, halloc]

theorem takeBlock_of_error {b : Blocks} (hblocks : s.blocks[n.id]? = some (some b))
    (hfree : b.free = []) {pool : Pool} {shortage : Shortage}
    (halloc : Pool.alloc b.blockBytes s.pool = .error shortage pool) :
    StoreM.takeBlock n s = .error (.refused (.outOfMemory shortage)) s := by
  have hpool := Pool.eq_of_alloc_error halloc
  cases s with
  | mk pool' root blocks =>
    simp only at hblocks halloc hpool
    subst hpool
    have hset : blocks.set! n.id (some b) = blocks := by
      apply Array.ext_getElem?
      intro i
      rw [Array.set!_eq_setIfInBounds, Array.getElem?_setIfInBounds]
      split
      · rename_i hi
        rw [← hi, hblocks]
        exact if_pos (Array.getElem?_eq_some_iff.1 hblocks).1
      · rfl
    simp only [StoreM.takeBlock, hblocks, Blocks.alloc, hfree, halloc, hset]

/-- A node takes a zeroed block for a region, or the pool is exhausted and nothing changes. -/
theorem Owns.takeBlock (h : s.Owns t base) (hn : t.Has n) (hb : n.blockBytes?.isSome)
    (hr : base r = none) (ho : r.owner? = some n) :
    StoreM.Ends (StoreM.takeBlock n) s (fun a s' => s.Took s' t base r a)
      (fun e s' => s' = s ∧ ∃ shortage, e = .outOfMemory shortage) := by
  obtain ⟨b, hblocks, -⟩ := h.blocks hn hb
  cases hfree : b.free with
  | cons a rest =>
    obtain ⟨hh, htook⟩ := h.takeSpare hn hb hr ho hblocks hfree
    rw [StoreM.Ends, takeBlock_of_spare hblocks hfree hh]
    exact htook
  | nil =>
    cases halloc : Pool.alloc b.blockBytes s.pool with
    | ok a pool =>
      rw [StoreM.Ends, takeBlock_of_alloc hblocks hfree halloc]
      exact h.takeFresh hn hb hr ho hblocks halloc
    | error shortage pool =>
      rw [StoreM.Ends, takeBlock_of_error hblocks hfree halloc]
      exact ⟨rfl, shortage, rfl⟩

/-- The storage after a block of a node was given back. -/
def dropped (s : Store) (id : NodeId) (a : Address) : Store :=
  { s with blocks := s.blocks.modify id (·.map (·.release a)) }

theorem blocks_dropped {b : Blocks} (hblocks : s.blocks[n.id]? = some (some b)) (hn : t.Has n)
    (hm : t.Has m) : (s.dropped n.id a).blocks[m.id]? =
      if m = n then some (some (b.release a)) else s.blocks[m.id]? := by
  simp only [dropped, Array.getElem?_modify]
  by_cases he : m = n
  · subst he
    simp [hblocks]
  · rw [if_neg he, if_neg fun hid => he (hm.eq_of_id hn hid.symm)]

theorem spares_dropped {b : Blocks} (hblocks : s.blocks[n.id]? = some (some b)) (hn : t.Has n)
    (hm : t.Has m) : (s.dropped n.id a).spares m.id =
      if m = n then a :: s.spares n.id else s.spares m.id := by
  rw [spares, blocks_dropped hblocks hn hm]
  by_cases he : m = n
  · simp [he, Blocks.release, spares_of_blocks hblocks]
  · simp [he, spares]

/-- The spare block was the region, and every other piece is what it was. -/
theorem Owns.recasts_dropped (hr : base r = some a) (ho : r.owner? = some n) {s' : Store}
    (hspares : ∀ {m}, t.Has m →
      s'.spares m.id = if m = n then a :: s.spares n.id else s.spares m.id) :
    s.Recasts s' t base (Function.update base r none) (Piece.beforeGiving r n a) := by
  have hregion : s.At t base (.region r) a := hr
  have hne {r' : Region} {x : Address}
      (hP : s'.At t (Function.update base r none) (.region r') x) : r' ≠ r := by
    rintro rfl
    simp [At] at hP
  constructor
  · intro P x hP
    cases P with
    | region r' => rfl
    | spare m c =>
      rw [Piece.beforeGiving]
      split
      · rename_i he
        rw [he.1]
        exact regionSize_of_owner ho
      · rfl
  · intro P x hP
    cases P with
    | region r' => simpa only [Piece.beforeGiving, At, Function.update_of_ne (hne hP)] using hP
    | spare m c =>
      obtain ⟨hm, hmb, hc, rfl⟩ := hP
      rw [hspares hm] at hc
      rw [Piece.beforeGiving]
      split
      · rename_i he
        exact he.2 ▸ hregion
      · rename_i he
        refine ⟨hm, hmb, ?_, rfl⟩
        split at hc
        · rename_i hmn
          subst hmn
          rcases List.mem_cons.1 hc with rfl | hc
          · exact absurd ⟨rfl, rfl⟩ he
          · exact hc
        · exact hc
  · intro P Q x y hP hQ he
    -- no other piece is the region, which is handed out no more
    cases P with
    | region r' =>
      have := hne hP
      cases Q <;> dsimp only [Piece.beforeGiving] at he <;> grind
    | spare m c =>
      cases Q with
      | region r' =>
        have := hne hQ
        dsimp only [Piece.beforeGiving] at he
        grind
      | spare m' c' =>
        dsimp only [Piece.beforeGiving] at he
        grind

/-- The block of a region is given back and becomes spare. -/
theorem Owns.dropBlock (h : s.Owns t base) (hn : t.Has n) (hb : n.blockBytes?.isSome)
    (hr : base r = some a) (ho : r.owner? = some n) :
    (s.dropped n.id a).Owns t (Function.update base r none) := by
  obtain ⟨b, hblocks, hbytes, hlive, htotal⟩ := h.blocks hn hb
  -- the region is not spare as well
  have hfree : a ∉ s.spares n.id := by
    intro hmem
    have hregion : s.At t base (.region r) a := hr
    have hspare : s.At t base (.spare n a) a := ⟨hn, hb, hmem, rfl⟩
    have ha := h.apart hregion hspare (by simp)
    have := t.regionSize_pos r
    have := n.blockSize_pos
    simp only [Apart, Piece.size] at ha
    omega
  refine h.recast (Owns.recasts_dropped hr ho fun hm => spares_dropped hblocks hn hm)
    ⟨rfl, rfl, rfl, fun _ seg hseg => ⟨seg, hseg, rfl, rfl⟩⟩ ?_ ?_ ?_ ?_
  · rw [Function.update_of_ne (by rintro rfl; cases ho), h.root]
    rfl
  · intro m hm hmb
    rw [spares_dropped hblocks hn hm]
    split
    · exact List.nodup_cons.2 ⟨hfree, h.nodup hn hb⟩
    · exact h.nodup hm hmb
  · intro m hm hmb
    rw [blocks_dropped hblocks hn hm]
    split
    · rename_i he
      subst he
      obtain ⟨hpos, hcount⟩ := encard_regionsOf_none hr ho hlive
      refine ⟨_, rfl, hbytes, hcount, ?_⟩
      simp only [Blocks.release, htotal, List.length_cons]
      omega
    · rename_i he
      rw [regionsOf_update_of_ne ho he]
      exact h.blocks hm hmb
  · intro m hm hmb
    rw [blocks_dropped hblocks hn hm, if_neg (by rintro rfl; simp [hmb] at hb)]
    exact h.others hm hmb

end Store

end SparseLayout
