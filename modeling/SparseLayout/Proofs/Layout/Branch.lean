import SparseLayout.Proofs.Digits

namespace SparseLayout

namespace Layout

open Node (number)

variable {t : Layout} {target p n : Node} {c : Coords}

/-- What holds of the root, and of a node when it holds of the parent, holds of all nodes. -/
theorem Branching.induction (h : t.Branching) {motive : Node → Prop} (root : motive t.rootNode)
    (child : ∀ p n, t.Has p → n ∈ t.childNodes p → motive p → motive n) {n : Node}
    (hn : t.Has n) : motive n := by
  induction hid : n.id using Nat.strongRecOn generalizing n with
  | ind id ih =>
    by_cases h0 : n.id = 0
    · rwa [hn.eq_of_id h.has_root (h0.trans h.root_id.symm)]
    · obtain ⟨p, hp, hnp⟩ := h.exists_parent hn h0
      exact child p n hp hnp (ih p.id (hid ▸ h.id_lt hp hnp) hp rfl)

theorem Branching.parent?_child (h : t.Branching) (hp : t.Has p) (hn : n ∈ t.childNodes p) :
    t.parent? n.id = some p.id := by
  have hhas : t.nodes[n.id]? = some n := h.has_child hn
  rw [parent?, hhas, Option.bind_some, h.parent_eq hp hn]

theorem Branching.parent?_root (h : t.Branching) : t.parent? 0 = none := by
  have hroot : t.nodes[0]? = some t.rootNode := Array.getElem?_eq_getElem t.nodes_ne
  rw [parent?, hroot, Option.bind_some, h.root_parent]

/-- The climb from a node ends at the root within as many steps as the node's number. -/
theorem Branching.climb_eq (h : t.Branching) (hn : t.Has n) {steps : Nat} (hs : n.id ≤ steps) :
    climb t.parent? steps n.id = climb t.parent? n.id n.id := by
  induction hid : n.id using Nat.strongRecOn generalizing n steps with
  | ind id ih =>
    subst hid
    by_cases h0 : n.id = 0
    · cases steps with
      | zero => rw [h0]
      | succ steps => rw [h0, climb, climb, h.parent?_root]
    · obtain ⟨p, hp, hnp⟩ := h.exists_parent hn h0
      have hlt := h.id_lt hp hnp
      obtain ⟨k, hk⟩ := Nat.exists_eq_succ_of_ne_zero h0
      have hpk : p.id ≤ k := Nat.le_of_lt_succ (hk ▸ hlt)
      cases steps with
      | zero => exact absurd (hk ▸ hs) (Nat.not_succ_le_zero k)
      | succ steps =>
        have hks : k ≤ steps := Nat.le_of_succ_le_succ (hk ▸ hs)
        have hparent := h.parent?_child hp hnp
        have h1 := ih p.id hlt hp (Nat.le_trans hpk hks) rfl
        have h2 := ih p.id hlt hp hpk rfl
        rw [climb, hparent]
        conv_rhs => rw [hk, climb, ← hk, hparent]
        simp only [h1, h2]

theorem Branching.path_child (h : t.Branching) (hp : t.Has p) (hn : n ∈ t.childNodes p) :
    t.path n.id = t.path p.id ++ [n.id] := by
  have hlt := h.id_lt hp hn
  obtain ⟨k, hk⟩ := Nat.exists_eq_add_of_lt hlt
  have hparent := h.parent?_child hp hn
  have hclimb := h.climb_eq hp (Nat.le_add_right p.id k)
  have hstep : climb t.parent? n.id n.id = n.id :: climb t.parent? p.id p.id := by
    conv_lhs => rw [hk, climb, ← hk, hparent]
    simp only [hclimb]
  unfold path pathFromRoot
  rw [hstep, List.reverse_cons]

theorem Branching.branch_root (h : t.Branching) : t.branch t.rootNode.id = [] := by
  rw [h.root_id]
  rfl

theorem path_ne_nil (t : Layout) (id : NodeId) : t.path id ≠ [] := by
  unfold path pathFromRoot
  rw [List.reverse_ne_nil_iff]
  cases id with
  | zero => simp [climb]
  | succ k =>
    rw [climb]
    split <;> simp

/-- The way down to a child goes through its parent. -/
theorem Branching.branch_child (h : t.Branching) (hp : t.Has p) (hn : n ∈ t.childNodes p) :
    t.branch n.id = t.branch p.id ++ [n] := by
  have hhas : t.nodes[n.id]? = some n := h.has_child hn
  unfold branch
  rw [h.path_child hp hn, List.tail_append_of_ne_nil (t.path_ne_nil p.id), List.filterMap_append]
  simp [hhas]

/-- The position that coordinates of `target` name at the end of a way down from `p`. -/
def way (target : Node) (c : Coords) : List Node → Position → Position
  | [], p => p
  | n :: rest, p => way target c rest ((n, number target n c) :: p)

theorem way_append (target : Node) (c : Coords) (ns : List Node) (n : Node) (p : Position) :
    way target c (ns ++ [n]) p = (n, number target n c) :: way target c ns p := by
  induction ns generalizing p with
  | nil => rfl
  | cons m ns ih => exact ih _

/-- The position of the cell of `n` that coordinates of `target` name. -/
def place (t : Layout) (target : Node) (c : Coords) (n : Node) : Position :=
  way target c (t.branch n.id) []

theorem Branching.place_root (h : t.Branching) (target : Node) (c : Coords) :
    t.place target c t.rootNode = [] := by
  rw [place, h.branch_root]
  rfl

theorem Branching.place_child (h : t.Branching) (target : Node) (c : Coords) (hp : t.Has p)
    (hn : n ∈ t.childNodes p) :
    t.place target c n = (n, number target n c) :: t.place target c p := by
  rw [place, h.branch_child hp hn, way_append, place]

theorem Branching.nodeAt_place (h : t.Branching) (target : Node) (c : Coords) (hn : t.Has n) :
    t.nodeAt (t.place target c n) = n := by
  refine h.induction (motive := fun n => t.nodeAt (t.place target c n) = n) ?_ ?_ hn
  · rw [h.place_root]
    rfl
  · intro p n hp hnp _
    rw [h.place_child target c hp hnp]
    rfl

theorem WellFormed.locates_place (ht : t.WellFormed) (target : Node) (c : Coords)
    (hn : t.Has n) : t.Locates (t.place target c n) := by
  refine ht.induction (motive := fun n => t.Locates (t.place target c n)) ?_ ?_ hn
  · rw [ht.place_root]
    trivial
  · intro p n hp hnp ih
    rw [ht.place_child target c hp hnp]
    refine ⟨ih, ?_, ht.numbers_number (ht.has_child hnp) target c⟩
    rwa [ht.nodeAt_place target c hp]

end Layout

end SparseLayout
