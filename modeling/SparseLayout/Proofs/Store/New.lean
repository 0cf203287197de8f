import SparseLayout.Proofs.Store.Operations

namespace SparseLayout

open Layout (Node Datum Part)

/-- Contents in which nothing is in use. -/
def Contents.empty (root : Address) : Contents where
  root := root
  mask _ := false
  block _ := none
  chunks _ _ := []
  length _ _ := 0
  word _ _ := 0

def View.empty : View := ⟨fun _ => false, fun _ _ => 0, fun _ _ => 0⟩

namespace Contents

variable {t : Layout} {root : Address}

theorem sound_empty (t : Layout) (root : Address) : (empty root).Sound t := by
  constructor <;> simp [empty]

theorem tight_empty (root : Address) : (empty root).Tight := fun _ _ => (ceilDiv_zero _).symm

theorem base_empty_of_ne {r : Region} (hr : r ≠ .root) : (empty root).base r = none := by
  cases r with
  | root => exact absurd rfl hr
  | block p => rfl
  | chunk p n i => rfl

theorem value_empty {f : Datum} : (empty root).value f = 0 := by
  cases f with
  | link p n i => rfl
  | part p n f =>
    cases f with
    | mask w =>
      simp only [value, empty]
      decide
    | _ => rfl

end Contents

/-- The pool of a new storage, with sizes that were checked. -/
theorem Pool.valid_new {c : Config} (hc : c.check = .ok ()) :
    (Pool.new c.segmentBytes c.maxSegments).Valid := by
  unfold Config.check at hc
  split at hc
  · cases hc
  split at hc
  · cases hc
  split at hc
  · cases hc
  split at hc
  · cases hc
  rename_i h₁ h₂ h₃ h₄
  have hone {i : Nat} {s : Segment} (hs : (Pool.new c.segmentBytes c.maxSegments).segments[i]? = some s) :
      s = .new c.segmentBytes := by
    simp only [Pool.new, List.getElem?_toArray, List.getElem?_singleton] at hs
    split at hs
    · exact (Option.some.inj hs).symm
    · cases hs
  constructor
  · exact Nat.one_pos
  · exact Nat.pos_of_ne_zero h₃
  · exact Nat.le_of_not_gt h₄
  · exact Nat.le_of_not_gt h₂
  · simp only [Pool.new]
    omega
  · intro i s hs
    rw [hone hs]
    rfl
  · intro i s hs
    rw [hone hs]
    exact Nat.zero_le _

namespace Store

variable {t : Layout} {s : Store} {c : Config} {n : Node}

/-- A new storage has the memory of the root cell, and no blocks. -/
theorem of_new (hc : c.check = .ok ()) (h : Store.new t c = .ok s) :
    (Pool.new c.segmentBytes c.maxSegments).Allocated s.pool s.root
      (max t.rootNode.cellSize.toNat 8) ∧
    s.blocks = t.nodes.map fun n => n.blockBytes?.map Blocks.new := by
  unfold Store.new at h
  split at h
  · rename_i root pool halloc
    cases h
    exact ⟨Pool.allocated_of_alloc (Pool.valid_new hc)
      (Nat.lt_of_lt_of_le (by decide) (Nat.le_max_right _ 8)) halloc, rfl⟩
  · cases h

theorem regionsOf_empty (root : Address) (n : Node) :
    regionsOf (Contents.empty root).base n = ∅ := by
  ext r
  simp only [regionsOf, Set.mem_ofPred_eq, Set.mem_empty_iff_false, iff_false]
  rintro ⟨hr, ho⟩
  by_cases hroot : r = .root
  · subst hroot
    cases ho
  · simp [Contents.base_empty_of_ne hroot] at hr

section

variable (hs : s.blocks = t.nodes.map fun n => n.blockBytes?.map Blocks.new)

include hs

theorem blocks_new (hn : t.Has n) : s.blocks[n.id]? = some (n.blockBytes?.map Blocks.new) := by
  have hhas : t.nodes[n.id]? = some n := hn
  rw [hs, Array.getElem?_map, hhas, Option.map_some]

theorem spares_new (hn : t.Has n) : s.spares n.id = [] := by
  unfold Store.spares
  rw [blocks_new hs hn]
  cases n.blockBytes? <;> rfl

/-- The only memory of a new storage is the cell of the root. -/
theorem at_new {P : Piece} {a : Address} (hP : s.At t (Contents.empty s.root).base P a) :
    P = .region .root ∧ a = s.root := by
  cases P with
  | region r =>
    by_cases hr : r = .root
    · subst hr
      exact ⟨rfl, (Option.some.inj hP).symm⟩
    · rw [Store.At, Contents.base_empty_of_ne hr] at hP
      cases hP
  | spare n b =>
    have hmem : b ∈ s.spares n.id := hP.2.2.1
    rw [spares_new hs hP.1] at hmem
    cases hmem

theorem owns_new {p : Pool}
    (hall : p.Allocated s.pool s.root (max t.rootNode.cellSize.toNat 8)) :
    s.Owns t (Contents.empty s.root).base := by
  refine ⟨hall.valid, rfl, ?covers, ?used, ?apart, ?nodup, ?blocks, ?others⟩
  case covers =>
    intro P a hP
    obtain ⟨rfl, rfl⟩ := at_new hs hP
    exact hall.covers
  case used =>
    intro P a i hP h1 h2
    obtain ⟨rfl, rfl⟩ := at_new hs hP
    exact hall.used i h1 h2
  case apart =>
    intro P Q a b hP hQ hne
    exact absurd ((at_new hs hP).1.trans (at_new hs hQ).1.symm) hne
  case nodup =>
    intro n hn _
    rw [spares_new hs hn]
    exact List.nodup_nil
  case blocks =>
    intro n hn hb
    obtain ⟨bytes, hbytes⟩ := Option.isSome_iff_exists.1 hb
    refine ⟨Blocks.new bytes, ?_, ?_, ?_, rfl⟩
    · rw [blocks_new hs hn, hbytes, Option.map_some]
    · simp [Blocks.new, Node.blockSize, hbytes]
    · rw [regionsOf_empty, Set.encard_empty]
      rfl
  case others =>
    intro n hn hb
    rw [blocks_new hs hn, hb, Option.map_none]

end

/-- A new storage holds nothing. -/
theorem represents_new (ht : t.WellFormed) (hc : c.check = .ok ())
    (h : Store.new t c = .ok s) : s.Represents t (.empty s.root) := by
  obtain ⟨hall, hs⟩ := of_new hc h
  refine ⟨owns_new hs hall, Contents.sound_empty t s.root, ?_⟩
  intro f hf
  rw [Contents.value_empty]
  apply Pool.wordAt_eq_zero
  intro i h1 h2
  have hr : f.region = .root := by
    by_contra hne
    have hbase := hf.2
    rw [Contents.base_empty_of_ne hne] at hbase
    cases hbase
  have hstart : (Contents.empty s.root).datumStart f = s.root.toNat + f.offset := by
    rw [Contents.datumStart, hr]
    rfl
  have hle : f.offset + f.size ≤ max t.rootNode.cellSize.toNat 8 := by
    have hle := ht.datum_le_regionSize hf.1
    rwa [hr] at hle
  exact hall.zeroed i (by omega) (by omega)

end Store

end SparseLayout
