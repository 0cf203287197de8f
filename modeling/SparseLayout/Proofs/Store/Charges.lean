import SparseLayout.Proofs.Calls
import SparseLayout.Proofs.Coordinates
import SparseLayout.Proofs.Store.Ownership

namespace SparseLayout

open Layout (Node)

/-- A sum over a list of which one entry was replaced. -/
theorem sum_map_set {α : Type} (f : α → Nat) {l : List α} {i : Nat} {a : α} (h : l[i]? = some a)
    (b : α) : ((l.set i b).map f).sum + f a = (l.map f).sum + f b := by
  induction l generalizing i with
  | nil => cases h
  | cons x l ih =>
    cases i with
    | zero =>
      cases h
      simp only [List.set_cons_zero, List.map_cons, List.sum_cons]
      omega
    | succ i =>
      have := ih h
      simp only [List.set_cons_succ, List.map_cons, List.sum_cons]
      omega

namespace Pool

variable {p q : Pool}

theorem used_eq_sum (p : Pool) : p.used = (p.segments.toList.map Segment.used).sum := by
  unfold used
  induction p.segments.toList with
  | nil => rfl
  | cons s l ih => rw [List.foldr_cons, List.map_cons, List.sum_cons, ih]

theorem SameBounds.used_eq (h : p.SameBounds q) : q.used = p.used := by
  rw [used_eq_sum, used_eq_sum]
  congr 1
  apply List.ext_getElem?
  intro i
  simp only [List.getElem?_map, Array.getElem?_toList]
  cases hs : q.segments[i]? with
  | some s =>
    obtain ⟨s', hs', -, hu⟩ := h.segment_eq i s hs
    simp only [hs', Option.map_some, hu]
  | none =>
    have hi : p.segments[i]? = none := by
      rw [Array.getElem?_eq_none_iff] at hs ⊢
      exact h.size_eq ▸ hs
    rw [hi]

/-- An allocation hands out whole words. -/
theorem used_of_alloc {len : Nat} {a : Address} (h : alloc len p = .ok a q) :
    q.used = p.used + roundUp8 len := by
  unfold alloc at h
  split at h
  · cases h
  split at h
  · -- the bytes come from the last segment
    rename_i offset hroom
    cases h
    unfold room? at hroom
    split at hroom
    · rename_i s hs
      have hset := sum_map_set Segment.used (l := p.segments.toList) (i := p.last)
        (by rwa [Array.getElem?_toList]) (s.reserve len)
      have hreserve : (s.reserve len).used = s.used + roundUp8 len := rfl
      rw [used_eq_sum, used_eq_sum, Array.toList_modify, List.modify_eq_set_getElem?,
        Array.getElem?_toList, hs]
      simp only [Option.map_eq_map, Option.map_some, Option.getD_some]
      omega
    · cases hroom
  · split at h
    · cases h
    · split at h
      · cases h
        have hreserve : ((Segment.new p.segmentBytes).reserve len).used = roundUp8 len :=
          Nat.zero_add _
        simp only [used_eq_sum, Array.toList_push, List.map_append, List.sum_append,
          List.map_singleton, List.sum_singleton, hreserve]
      · cases h

end Pool

/-- Bytes of the pool that the blocks of a node were made of. -/
def Blocks.pooled (b : Blocks) : Nat := b.total * roundUp8 b.blockBytes

/-- Blocks may have been taken: spare ones first, and new ones when there were no spare ones. -/
structure Blocks.Takes (b b' : Blocks) : Prop where
  blockBytes : b'.blockBytes = b.blockBytes
  live_le : b.live ≤ b'.live
  total : b.total = b.live + b.free.length →
    b'.total = b'.live + b'.free.length ∧ b'.total = max b.total b'.live

theorem Blocks.Takes.refl (b : Blocks) : b.Takes b := by
  refine ⟨rfl, Nat.le_refl _, fun h => ⟨h, ?_⟩⟩
  omega

theorem Blocks.Takes.trans {b b' b'' : Blocks} (h : b.Takes b') (h' : b'.Takes b'') :
    b.Takes b'' := by
  refine ⟨h'.blockBytes.trans h.blockBytes, Nat.le_trans h.live_le h'.live_le, fun hb => ?_⟩
  obtain ⟨hb', hmax⟩ := h.total hb
  obtain ⟨hb'', hmax'⟩ := h'.total hb'
  have := h'.live_le
  exact ⟨hb'', by omega⟩

namespace Store

/-- Bytes of the pool that blocks were made of. -/
def pooled (s : Store) : Nat := (s.blocks.toList.map fun o => (o.map Blocks.pooled).getD 0).sum

/-- Nodes may have taken blocks, and the pool was asked for the new ones only. -/
structure Charges (s : Store) (t : Layout) (s' : Store) : Prop where
  used : s'.pool.used + s.pooled = s.pool.used + s'.pooled
  takes : ∀ {n b}, t.Has n → n.blockBytes?.isSome → s.blocks[n.id]? = some (some b) →
    ∃ b', s'.blocks[n.id]? = some (some b') ∧ b.Takes b'
  others : ∀ {id}, (∀ n, t.Has n → n.blockBytes?.isSome → n.id ≠ id) →
    s'.blocks[id]? = s.blocks[id]?

variable {s s' s'' : Store} {t : Layout} {n : Node}

/-- Only the bytes of the pool change. -/
theorem charges_withPool {pool : Pool} (h : s.pool.SameBounds pool) :
    s.Charges t { s with pool } :=
  ⟨congrArg (· + s.pooled) h.used_eq, fun _ _ hb => ⟨_, hb, .refl _⟩, fun _ => rfl⟩

theorem Charges.refl (s : Store) (t : Layout) : s.Charges t s :=
  ⟨rfl, fun _ _ hb => ⟨_, hb, .refl _⟩, fun _ => rfl⟩

theorem Charges.trans (h : s.Charges t s') (h' : s'.Charges t s'') : s.Charges t s'' := by
  refine ⟨?_, ?_, fun hid => (h'.others hid).trans (h.others hid)⟩
  · have := h.used
    have := h'.used
    omega
  · intro n b hn hbytes hb
    obtain ⟨b', hb', htakes⟩ := h.takes hn hbytes hb
    obtain ⟨b'', hb'', htakes'⟩ := h'.takes hn hbytes hb'
    exact ⟨b'', hb'', htakes.trans htakes'⟩

/-- A node takes blocks, and the pool hands out the bytes of those that are new. -/
theorem charges_set (hn : t.Has n) (hbytes : n.blockBytes?.isSome) {b b' : Blocks}
    (hb : s.blocks[n.id]? = some (some b)) (htakes : b.Takes b') {pool : Pool}
    (hpool : pool.used + b.pooled = s.pool.used + b'.pooled) :
    s.Charges t ⟨pool, s.root, s.blocks.set! n.id (some b')⟩ := by
  have hlt : n.id < s.blocks.size := (Array.getElem?_eq_some_iff.1 hb).1
  refine ⟨?_, ?_, ?_⟩
  · have hset := sum_map_set (fun o => (o.map Blocks.pooled).getD 0) (l := s.blocks.toList)
      (by rwa [Array.getElem?_toList]) (some b')
    simp only [Option.map_some, Option.getD_some] at hset
    simp only [pooled, Array.set!_eq_setIfInBounds, Array.toList_setIfInBounds]
    omega
  · intro m c hm _ hc
    rw [blocks_set hlt hn hm]
    by_cases he : m = n
    · subst he
      rw [hb] at hc
      cases hc
      exact ⟨b', if_pos rfl, htakes⟩
    · exact ⟨c, (if_neg he).trans hc, .refl c⟩
  · intro id hid
    simp only [Array.set!_eq_setIfInBounds, Array.getElem?_setIfInBounds]
    rw [if_neg (hid n hn hbytes)]

theorem liveBlocks_of_blocks {id : NodeId} {b : Blocks} (h : s.blocks[id]? = some (some b)) :
    s.liveBlocks id = b.live := by
  rw [liveBlocks, h]

/-- What the pool handed out is known from the numbers of blocks in use. -/
theorem Charges.used_eq (h : s.Charges t s') (h' : s.Charges t s'')
    (hblocks : ∀ n, t.Has n → n.blockBytes?.isSome → ∃ b, s.blocks[n.id]? = some (some b) ∧
      b.total = b.live + b.free.length)
    (hlive : ∀ n, t.Has n → n.blockBytes?.isSome → s'.liveBlocks n.id = s''.liveBlocks n.id) :
    s'.pool.used = s''.pool.used := by
  have hpooled : s'.pooled = s''.pooled := by
    unfold pooled
    congr 1
    apply List.ext_getElem?
    intro id
    simp only [List.getElem?_map, Array.getElem?_toList]
    by_cases hid : ∃ n, t.Has n ∧ n.blockBytes?.isSome ∧ n.id = id
    · -- there are as many blocks as were ever in use at once
      obtain ⟨n, hn, hbytes, rfl⟩ := hid
      obtain ⟨b, hb, hbalance⟩ := hblocks n hn hbytes
      obtain ⟨c, hc, htakes⟩ := h.takes hn hbytes hb
      obtain ⟨d, hd, htakes'⟩ := h'.takes hn hbytes hb
      have hl := hlive n hn hbytes
      rw [liveBlocks_of_blocks hc, liveBlocks_of_blocks hd] at hl
      have htotal : c.total = d.total := by
        rw [(htakes.total hbalance).2, (htakes'.total hbalance).2, hl]
      have hsize : c.blockBytes = d.blockBytes := htakes.blockBytes.trans htakes'.blockBytes.symm
      simp only [hc, hd, Option.map_some, Blocks.pooled, htotal, hsize]
    · have hid : ∀ n, t.Has n → n.blockBytes?.isSome → n.id ≠ id :=
        fun n hn hbytes he => hid ⟨n, hn, hbytes, he⟩
      rw [h.others hid, h'.others hid]
  have := h.used
  have := h'.used
  omega

end Store

namespace StoreM

variable {α β : Type} {t : Layout} {n : Node} {m : StoreM α}

/-- Wherever the operation is run, the pool is asked for new blocks only. -/
def Charged (t : Layout) (m : StoreM α) : Prop := ∀ s, match m s with
  | .ok _ s' | .error (.refused _) s' => s.Charges t s'
  | .error .outside _ => True

theorem Charged.bind {f : α → StoreM β} (hm : Charged t m) (hf : ∀ a, Charged t (f a)) :
    Charged t (m >>= f) := by
  intro s
  have h := hm s
  change match EStateM.bind m f s with
    | .ok _ s' | .error (.refused _) s' => s.Charges t s'
    | .error .outside _ => True
  unfold EStateM.bind
  cases hrun : m s with
  | error e s' =>
    rw [hrun] at h
    cases e with
    | refused e => exact h
    | outside => trivial
  | ok a s' =>
    rw [hrun] at h
    have h' := hf a s'
    dsimp only
    cases hrun' : f a s' with
    | ok b s'' =>
      rw [hrun'] at h'
      exact h.trans h'
    | error e s'' =>
      rw [hrun'] at h'
      cases e with
      | refused e => exact h.trans h'
      | outside => trivial

theorem charged_pure (a : α) : Charged t (pure a) := fun s => .refl s t

theorem charged_get : Charged t get := fun s => .refl s t

theorem charged_look (f : Store → Except Fault α) : Charged t (look f) := by
  intro s
  unfold look
  cases f s with
  | ok a => exact .refl s t
  | error e =>
    cases e with
    | refused e => exact .refl s t
    | outside => trivial

theorem charged_put (a : Address) (len : Nat) (w : UInt64) : Charged t (put a len w) := by
  intro s
  unfold put
  by_cases h : s.pool.holds a len
  · rw [if_pos h]
    exact Store.charges_withPool (s.pool.sameBounds_store a len w)
  · rw [if_neg h]
    trivial

theorem charged_takeBlock (hn : t.Has n) (hbytes : n.blockBytes?.isSome) :
    Charged t (takeBlock n) := by
  intro s
  rcases hblocks : s.blocks[n.id]? with _ | _ | b
  · simp only [takeBlock, hblocks]
    exact .refl s t
  · simp only [takeBlock, hblocks]
    exact .refl s t
  cases hfree : b.free with
  | cons a rest =>
    -- a spare block is zeroed, and the pool hands out nothing
    by_cases hh : s.pool.holds a b.blockBytes
    · rw [Store.takeBlock_of_spare hblocks hfree hh]
      have htakes : b.Takes { b with free := rest, live := b.live + 1 } := by
        refine ⟨rfl, Nat.le_succ b.live, fun hb => ?_⟩
        simp only [hfree, List.length_cons] at hb ⊢
        omega
      refine Store.charges_set hn hbytes hblocks htakes ?_
      exact congrArg (· + b.pooled) (s.pool.sameBounds_zero a b.blockBytes).used_eq
    · simp only [takeBlock, hblocks, Blocks.alloc, hfree, if_neg hh]
  | nil =>
    -- all blocks are in use, and a new one is made
    cases halloc : Pool.alloc b.blockBytes s.pool with
    | ok a pool =>
      rw [Store.takeBlock_of_alloc hblocks hfree halloc]
      have htakes : b.Takes { b with live := b.live + 1, total := b.total + 1 } := by
        refine ⟨rfl, Nat.le_succ b.live, fun hb => ?_⟩
        simp only [hfree, List.length_nil] at hb ⊢
        omega
      refine Store.charges_set hn hbytes hblocks htakes ?_
      have hused := Pool.used_of_alloc halloc
      simp only [Blocks.pooled, Nat.succ_mul]
      omega
    | error shortage pool =>
      rw [Store.takeBlock_of_error hblocks hfree halloc]
      exact .refl s t

theorem charged_linkChunks (hn : t.Has n) (hbytes : n.blockBytes?.isSome) (k : Nat) (a : Address) :
    Charged t (linkChunks n k a) := by
  induction k generalizing a with
  | zero => exact charged_pure _
  | succ k ih =>
    rw [linkChunks]
    refine (charged_look _).bind fun next => ?_
    split
    · refine (charged_takeBlock hn hbytes).bind fun block => ?_
      exact (charged_put a 8 _).bind fun _ => ih block
    · exact ih next

theorem charged_growList (hn : t.Has n) (hbytes : n.blockBytes?.isSome) (slot : Address)
    (len : UInt32) : Charged t (growList n slot len) := by
  unfold growList
  refine (charged_linkChunks hn hbytes _ _).bind fun _ => ?_
  exact (charged_look _).bind fun _ => charged_put slot 4 _

theorem charged_reachCell (hn : t.Has n) (target : Node) (c : Coords) (slot : Address) :
    Charged t (reachCell target c n slot) := by
  unfold reachCell
  cases hc : n.container with
  | bitmasked m =>
    refine (charged_look _).bind fun word => ?_
    split
    · exact (charged_put _ 8 _).bind fun _ => charged_pure _
    · exact (charged_pure _).bind fun _ => charged_pure _
  | pointer =>
    have hbytes : n.blockBytes?.isSome := by simp [Node.blockBytes?, hc]
    refine (charged_look _).bind fun block => ?_
    split
    · refine (charged_takeBlock hn hbytes).bind fun block => ?_
      exact (charged_put _ 8 _).bind fun _ => charged_pure _
    · exact charged_pure _
  | dynamic axis cap bytes =>
    have hbytes : n.blockBytes?.isSome := by simp [Node.blockBytes?, hc]
    refine (charged_look _).bind fun len => ?_
    dsimp only
    split
    · exact (charged_growList hn hbytes slot _).bind fun _ => charged_look _
    · exact charged_look _
  | _ => exact charged_pure _

theorem charged_reach {ns : List Node} (hns : ∀ n ∈ ns, t.Has n) (target : Node) (c : Coords)
    (cell : Address) : Charged t (reach target c ns cell) := by
  induction ns generalizing cell with
  | nil => exact charged_pure _
  | cons n ns ih =>
    refine (charged_reachCell (hns n List.mem_cons_self) target c _).bind fun cell => ?_
    exact ih (fun m hm => hns m (List.mem_cons_of_mem n hm)) cell

theorem charged_putValue (dtype : DataType) (slot : ValueSlot) (cell : Address) (v : Scalar) :
    Charged t (putValue dtype slot cell v) := by
  unfold putValue
  cases slot.bitOffset with
  | none => exact charged_put cell slot.bytes _
  | some offset => exact (charged_look _).bind fun _ => charged_put cell slot.bytes _

theorem charged_atIndex {space : Except AccessError Node} {idx : List Int32}
    {op : Coords → StoreM α} (hop : ∀ c, Charged t (op c)) : Charged t (atIndex space idx op) :=
  (charged_look _).bind fun _ => (charged_look _).bind hop

variable (ht : t.Branching) (hn : t.Has n)
include ht hn

theorem charged_reach_branch (c : Coords) (cell : Address) :
    Charged t (reach n c (t.branch n.id) cell) :=
  charged_reach (fun _ hm => ((ht.above_iff hn).2 (Or.inr hm)).has hn) n c cell

theorem charged_activate (c : Coords) : Charged t (activate t n c) := by
  unfold activate
  refine charged_get.bind fun s => ?_
  exact (charged_reach_branch ht hn c s.root).bind fun _ => charged_pure _

theorem charged_write (c : Coords) (v : Scalar) : Charged t (write t n c v) := by
  unfold write
  refine (charged_look _).bind fun dtype => ?_
  refine charged_get.bind fun s => ?_
  refine (charged_reach_branch ht hn c s.root).bind fun cell => ?_
  exact (charged_look _).bind fun slot => charged_putValue dtype slot cell v

end StoreM

end SparseLayout
