import SparseLayout.Proofs.Builder
import SparseLayout.Proofs.Reservations

namespace SparseLayout

open Layout (Node)

/-- The pool of a storage has come up by requests, and its blocks have bytes. -/
structure Store.Served (s : Store) (c : Config) : Prop where
  pool : ∃ rs, s.pool.Serves c rs
  blocks_pos : ∀ {id : Nat} {b : Blocks}, s.blocks[id]? = some (some b) → 0 < b.blockBytes

theorem Store.served_new {t : Layout} {c : Config} {s : Store} (h : Store.new t c = .ok s) :
    s.Served c := by
  unfold Store.new at h
  split at h
  · rename_i root pool halloc
    cases h
    refine ⟨⟨_, .alloc .new (by omega) halloc⟩, fun {id b} hb => ?_⟩
    rw [Array.getElem?_map, Option.map_eq_some_iff] at hb
    obtain ⟨n, -, hb⟩ := hb
    obtain ⟨bytes, -, rfl⟩ := Option.map_eq_some_iff.1 hb
    change 0 < max bytes 8
    omega
  · cases h

namespace StoreM

variable {α β : Type} {c : Config} {m : StoreM α}

/-- However the operation ends, the pool has only served. -/
def Serving (c : Config) (m : StoreM α) : Prop := ∀ s, s.Served c → (ending (m s)).2.Served c

theorem Serving.bind {f : α → StoreM β} (hm : Serving c m) (hf : ∀ a, Serving c (f a)) :
    Serving c (m >>= f) := by
  intro s hs
  have h := hm s hs
  change (ending (EStateM.bind m f s)).2.Served c
  unfold EStateM.bind
  cases hrun : m s with
  | error e s' =>
    rw [hrun] at h
    exact h
  | ok a s' =>
    rw [hrun] at h
    exact hf a s' h

theorem serving_pure (a : α) : Serving c (pure a) := fun _ hs => hs

theorem serving_throw (e : Fault) : Serving c (throw e : StoreM α) := fun _ hs => hs

theorem serving_unless {p : Prop} [Decidable p] {e : Fault} {m : StoreM α} (h : Serving c m) :
    Serving c (if p then (throw e : StoreM Unit) >>= fun _ => m else m) := by
  split
  · exact (serving_throw e).bind fun _ => h
  · exact h

theorem serving_get : Serving c get := fun _ hs => hs

theorem serving_look (f : Store → Except Fault α) : Serving c (look f) := by
  intro s hs
  unfold look
  cases f s <;> exact hs

theorem serving_put (a : Address) (n : Nat) (w : UInt64) : Serving c (put a n w) := by
  intro s hs
  obtain ⟨rs, hp⟩ := hs.pool
  unfold put
  split
  · rename_i h
    exact ⟨⟨rs, hp.store w h⟩, hs.blocks_pos⟩
  · exact hs

theorem serving_zero (a : Address) (len : Nat) : Serving c (zero a len) := by
  intro s hs
  obtain ⟨rs, hp⟩ := hs.pool
  unfold zero
  split
  · rename_i h
    exact ⟨⟨rs, hp.zero h⟩, hs.blocks_pos⟩
  · exact hs

theorem serving_dropBlock (id : NodeId) (a : Address) : Serving c (dropBlock id a) := by
  intro s hs
  refine ⟨hs.pool, fun {id' b} hb => ?_⟩
  change (s.blocks.modify id (·.map (·.release a)))[id']? = some (some b) at hb
  rw [Array.getElem?_modify] at hb
  split at hb
  · obtain ⟨o, ho, hb⟩ := Option.map_eq_some_iff.1 hb
    obtain ⟨b', rfl, rfl⟩ := Option.map_eq_some_iff.1 hb
    exact show 0 < b'.blockBytes from hs.blocks_pos ho
  · exact hs.blocks_pos hb

/-- The blocks of a node change, but not their size. -/
theorem served_set {s : Store} (hs : s.Served c) {id : NodeId} {b b' : Blocks}
    (hb : s.blocks[id]? = some (some b)) (hbytes : b'.blockBytes = b.blockBytes) {pool : Pool}
    (hp : ∃ rs, pool.Serves c rs) : Store.Served ⟨pool, s.root, s.blocks.set! id (some b')⟩ c := by
  refine ⟨hp, fun {id' d} hd => ?_⟩
  rw [Array.set!_eq_setIfInBounds, Array.getElem?_setIfInBounds] at hd
  split at hd
  · split at hd
    · cases hd
      exact hbytes ▸ hs.blocks_pos hb
    · cases hd
  · exact hs.blocks_pos hd

theorem serving_takeBlock (n : Node) : Serving c (takeBlock n) := by
  intro s hs
  obtain ⟨rs, hp⟩ := hs.pool
  rcases hblocks : s.blocks[n.id]? with _ | _ | b
  · simp only [takeBlock, hblocks]
    exact hs
  · simp only [takeBlock, hblocks]
    exact hs
  cases hfree : b.free with
  | cons a rest =>
    by_cases hh : s.pool.holds a b.blockBytes
    · rw [Store.takeBlock_of_spare hblocks hfree hh]
      refine served_set hs hblocks ?_ ⟨rs, hp.zero hh⟩
      rfl
    · simp only [takeBlock, hblocks, Blocks.alloc, hfree, if_neg hh]
      refine served_set hs hblocks ?_ ⟨rs, hp⟩
      rfl
  | nil =>
    cases halloc : Pool.alloc b.blockBytes s.pool with
    | ok a pool =>
      rw [Store.takeBlock_of_alloc hblocks hfree halloc]
      refine served_set hs hblocks ?_ ⟨_, hp.alloc (hs.blocks_pos hblocks) halloc⟩
      rfl
    | error shortage pool =>
      rw [Store.takeBlock_of_error hblocks hfree halloc]
      exact hs

theorem serving_forM {l : List β} {f : β → StoreM Unit} (h : ∀ b, Serving c (f b)) :
    Serving c (l.forM f) := by
  induction l with
  | nil => exact serving_pure _
  | cons b l ih => exact (h b).bind fun _ => ih

theorem serving_linkChunks (n : Node) (k : Nat) (a : Address) : Serving c (linkChunks n k a) := by
  induction k generalizing a with
  | zero => exact serving_pure _
  | succ k ih =>
    refine (serving_look _).bind fun next => ?_
    split
    · refine (serving_takeBlock n).bind fun block => ?_
      exact (serving_put a 8 _).bind fun _ => ih block
    · exact ih next

theorem serving_growList (n : Node) (slot : Address) (len : UInt32) :
    Serving c (growList n slot len) := by
  refine (serving_linkChunks n _ _).bind fun _ => ?_
  exact (serving_look _).bind fun _ => serving_put slot 4 _

theorem serving_reachCell (target : Node) (k : Coords) (n : Node) (slot : Address) :
    Serving c (reachCell target k n slot) := by
  unfold reachCell
  cases n.container with
  | bitmasked m =>
    refine (serving_look _).bind fun word => ?_
    split
    · exact (serving_put _ 8 _).bind fun _ => serving_pure _
    · exact (serving_pure _).bind fun _ => serving_pure _
  | pointer =>
    refine (serving_look _).bind fun block => ?_
    split
    · refine (serving_takeBlock n).bind fun block => ?_
      exact (serving_put _ 8 _).bind fun _ => serving_pure _
    · exact serving_pure _
  | dynamic axis cap bytes =>
    refine (serving_look _).bind fun len => ?_
    dsimp only
    split
    · exact (serving_growList n slot _).bind fun _ => serving_look _
    · exact serving_look _
  | _ => exact serving_pure _

theorem serving_reach (target : Node) (k : Coords) (ns : List Node) (cell : Address) :
    Serving c (reach target k ns cell) := by
  induction ns generalizing cell with
  | nil => exact serving_pure _
  | cons n ns ih => exact (serving_reachCell target k n _).bind ih

theorem serving_putValue (dtype : DataType) (slot : ValueSlot) (cell : Address) (v : Scalar) :
    Serving c (putValue dtype slot cell v) := by
  unfold putValue
  cases slot.bitOffset with
  | none => exact serving_put cell slot.bytes _
  | some offset => exact (serving_look _).bind fun _ => serving_put cell slot.bytes _

theorem serving_activate (t : Layout) (n : Node) (k : Coords) : Serving c (activate t n k) :=
  serving_get.bind fun s => (serving_reach n k _ s.root).bind fun _ => serving_pure _

theorem serving_write (t : Layout) (n : Node) (k : Coords) (v : Scalar) :
    Serving c (write t n k v) := by
  refine (serving_look _).bind fun dtype => serving_get.bind fun s => ?_
  refine (serving_reach n k _ s.root).bind fun cell => ?_
  exact (serving_look _).bind fun slot => serving_putValue dtype slot cell v

theorem serving_append (t : Layout) (n : Node) (k : Coords) (v : Scalar) :
    Serving c (append t n k v) := by
  refine (serving_look _).bind fun dim => ?_
  cases t.onlyPlace? n with
  | none => exact serving_throw _
  | some place =>
    refine (serving_look _).bind fun dtype => (serving_look _).bind fun parent => ?_
    refine serving_get.bind fun s => (serving_reach parent k _ s.root).bind fun cell => ?_
    refine (serving_look _).bind fun len => ?_
    dsimp only
    refine serving_unless ((serving_growList n _ _).bind fun _ => ?_)
    refine (serving_look _).bind fun element => ?_
    exact (serving_put _ _ _).bind fun _ => serving_pure len

theorem serving_dropChunks (id : NodeId) (k : Nat) (a : Address) :
    Serving c (dropChunks id k a) := by
  induction k generalizing a with
  | zero => exact serving_pure _
  | succ k ih =>
    unfold dropChunks
    split
    · exact serving_pure _
    · refine (serving_look _).bind fun next => ?_
      exact (serving_dropBlock id a).bind fun _ => ih next

theorem serving_releaseCell {release : Node → Address → StoreM Unit}
    (h : ∀ n a, Serving c (release n a)) (t : Layout) (n : Node) (cell : Address) :
    Serving c (releaseCell t release n cell) := by
  refine serving_forM fun child => ?_
  split
  · exact h child _
  · exact serving_pure _

theorem serving_clearMaskWord {inner : Address → StoreM Unit} (h : ∀ a, Serving c (inner a))
    (n : Node) (slot : Address) (maskOffset w : UInt64) :
    Serving c (clearMaskWord inner n slot maskOffset w) := by
  refine (serving_look _).bind fun word => ?_
  split
  · refine (serving_forM fun b => ?_).bind fun _ => serving_put _ 8 _
    dsimp only
    split
    · exact serving_pure _
    · exact h _
  · exact serving_pure _

theorem serving_clearContainer {inner : Address → StoreM Unit} (h : ∀ a, Serving c (inner a))
    (n : Node) (slot : Address) : Serving c (clearContainer inner n slot) := by
  unfold clearContainer
  cases n.container with
  | dense =>
    dsimp only
    split
    · exact serving_forM fun lin => h _
    · exact serving_pure _
  | bitmasked m => exact serving_forM fun w => serving_clearMaskWord h n slot m _
  | pointer =>
    refine serving_forM fun lin => (serving_look _).bind fun block => ?_
    split
    · exact (h block).bind fun _ => (serving_dropBlock _ _).bind fun _ => serving_put _ 8 _
    · exact serving_pure _
  | dynamic axis cap bytes =>
    refine (serving_look _).bind fun len => ?_
    refine (serving_forM fun e => (serving_look _).bind h).bind fun _ => ?_
    refine (serving_look _).bind fun first => serving_get.bind fun s => ?_
    exact (serving_dropChunks _ _ _).bind fun _ => serving_zero slot 16
  | _ => exact serving_pure _

theorem serving_releaseLevels (t : Layout) (height : Nat) (n : Node) (slot : Address) :
    Serving c (releaseLevels t height n slot) := by
  induction height generalizing n slot with
  | zero => exact serving_pure _
  | succ height ih => exact serving_clearContainer (serving_releaseCell ih t n) n slot

theorem serving_releaseBelow (t : Layout) (n : Node) (cell : Address) :
    Serving c (releaseBelow t n cell) :=
  serving_releaseCell (serving_releaseLevels t _) t n cell

theorem serving_releaseOne (t : Layout) (n : Node) (k : Coords) (slot : Address) :
    Serving c (releaseOne t n k slot) := by
  unfold releaseOne
  cases n.container with
  | pointer =>
    refine (serving_look _).bind fun block => ?_
    split
    · refine (serving_releaseBelow t n block).bind fun _ => ?_
      exact (serving_dropBlock _ _).bind fun _ => serving_put _ 8 _
    · exact serving_pure _
  | bitmasked m =>
    refine (serving_look _).bind fun word => ?_
    split
    · refine (serving_releaseBelow t n _).bind fun _ => ?_
      exact (serving_zero _ _).bind fun _ => serving_put _ 8 _
    · exact serving_pure _
  | dynamic axis cap bytes => exact serving_releaseLevels t _ n slot
  | _ => exact serving_pure _

theorem serving_deactivate (t : Layout) (n : Node) (k : Coords) :
    Serving c (deactivate t n k) := by
  refine serving_unless ((serving_look _).bind fun o => ?_)
  cases o with
  | none => exact serving_pure _
  | some cell => exact serving_releaseOne t n k _

theorem serving_deactivateAll (t : Layout) (n : Node) : Serving c (deactivateAll t n) := by
  refine serving_get.bind fun s => ?_
  dsimp only
  split
  · exact serving_releaseBelow t _ _
  · exact (serving_look _).bind fun slots => serving_forM fun a => serving_releaseLevels t _ n a

theorem serving_atIndex {space : Except AccessError Node} {idx : List Int32}
    {op : Coords → StoreM α} (h : ∀ k, Serving c (op k)) : Serving c (atIndex space idx op) :=
  (serving_look _).bind fun _ => (serving_look _).bind h

/-- No call makes the pool do anything else. -/
theorem serving_run (t : Layout) (n : Node) (a : Action) : Serving c (a.run t n) := by
  cases a with
  | activate idx =>
    exact serving_atIndex fun k => (serving_activate t n k).bind fun _ => serving_pure _
  | deactivate idx =>
    exact serving_atIndex fun k => (serving_deactivate t n k).bind fun _ => serving_pure _
  | deactivateAll => exact (serving_deactivateAll t n).bind fun _ => serving_pure _
  | write idx v =>
    exact serving_atIndex fun k => (serving_write t n k v).bind fun _ => serving_pure _
  | append idx v =>
    exact serving_atIndex fun k => (serving_append t n k v).bind fun _ => serving_pure _
  | read idx | isActive idx | length idx =>
    exact serving_atIndex fun k => (serving_look _).bind fun _ => serving_pure _

end StoreM

end SparseLayout
