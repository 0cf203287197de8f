import SparseLayout.IndexSpace
import SparseLayout.Kind
import SparseLayout.Proofs.Draft.Sizes
import Mathlib.Algebra.BigOperators.Group.List.Basic
import Mathlib.Algebra.BigOperators.Fin

namespace SparseLayout

namespace IndexSpace

variable {packing : Packing} {s : IndexSpace} {ds : List Division} {a : Axis}

/-- Active axes are listed once; the others are not divided. -/
structure Listed (s : IndexSpace) : Prop where
  nodup : s.positions.Nodup
  active_iff : ∀ a, (s.extent a).active = true ↔ a ∈ s.positions
  inactive : ∀ a, a ∉ s.positions → (s.extent a).fromRoot = 1

theorem listed_root : root.Listed := by
  refine ⟨List.nodup_nil, ?_, ?_⟩
  · intro a
    rw [extent_root]
    constructor
    · intro h
      cases h
    · exact fun h => absurd h List.not_mem_nil
  · intro a _
    rw [extent_root]
    rfl

theorem Listed.nextLevel (h : s.Listed) : s.nextLevel.Listed := by
  refine ⟨h.nodup, ?_, ?_⟩
  · intro a
    rw [extent_nextLevel]
    exact h.active_iff a
  · intro a ha
    rw [extent_nextLevel]
    exact h.inactive a ha

theorem Listed.divideAxis (h : s.Listed) (d : Division) : (s.divideAxis packing d).Listed := by
  have hmem : ∀ a, a ∈ (s.divideAxis packing d).positions ↔ a = d.axis ∨ a ∈ s.positions := by
    intro a
    unfold IndexSpace.divideAxis
    split <;> rename_i hact
    · refine ⟨Or.inr, ?_⟩
      rintro (rfl | ha)
      · exact (h.active_iff _).1 hact
      · exact ha
    · rw [List.mem_append, List.mem_singleton, or_comm]
  refine ⟨?_, ?_, ?_⟩
  · unfold IndexSpace.divideAxis
    split <;> rename_i hact
    · exact h.nodup
    · refine List.nodup_append.2 ⟨h.nodup, List.nodup_cons.2 ⟨List.not_mem_nil, List.nodup_nil⟩, ?_⟩
      intro a ha b hb he
      rw [List.mem_singleton.1 hb] at he
      exact hact ((h.active_iff _).2 (he ▸ ha))
  · intro a
    rw [extent_divideAxis, hmem]
    split <;> rename_i ha
    · exact ⟨fun _ => Or.inl ha, fun _ => rfl⟩
    · rw [h.active_iff]
      exact ⟨Or.inr, fun hor => hor.resolve_left ha⟩
  · intro a ha
    rw [hmem, not_or] at ha
    rw [extent_divideAxis, if_neg ha.1]
    exact h.inactive a ha.2

theorem child_eq (packing : Packing) (s : IndexSpace) (ds : List Division) :
    s.child packing ds = ds.foldl (IndexSpace.divideAxis packing) s.nextLevel :=
  (List.foldl_hom Prod.fst fun _ _ => rfl).symm

theorem Listed.child (h : s.Listed) (packing : Packing) (ds : List Division) :
    (s.child packing ds).Listed := by
  rw [child_eq]
  have hnext := h.nextLevel
  generalize s.nextLevel = s' at hnext
  induction ds generalizing s' with
  | nil => exact hnext
  | cons d ds ih => exact ih _ (hnext.divideAxis d)

/-- The space of a child lists the axes of its parent first. -/
theorem positions_child (packing : Packing) (s : IndexSpace) (ds : List Division) :
    s.positions <+: (s.child packing ds).positions := by
  rw [child_eq, ← positions_nextLevel]
  generalize s.nextLevel = s
  induction ds generalizing s with
  | nil => exact List.prefix_rfl
  | cons d ds ih =>
    refine List.IsPrefix.trans ?_ (ih (s.divideAxis packing d))
    unfold divideAxis
    split
    · exact List.prefix_rfl
    · exact List.prefix_append _ _

/-- Only the axes that a level divides differ from what they were above it. -/
theorem extent_child (h : (ds.map (·.axis)).Nodup) (a : Axis) :
    (s.child packing ds).extent a = match ds.find? (·.axis = a) with
      | some d => (s.extent a).nextLevel.divide packing d.extent
      | none => (s.extent a).nextLevel := by
  rw [← extent_nextLevel, child_eq]
  generalize s.nextLevel = s
  induction ds generalizing s with
  | nil => rfl
  | cons d ds ih =>
    obtain ⟨hnot, hnd⟩ := List.nodup_cons.1 h
    rw [List.foldl_cons, ih hnd, List.find?_cons, extent_divideAxis]
    by_cases ha : d.axis = a
    · have hnone : ds.find? (·.axis = a) = none := by
        rw [List.find?_eq_none]
        intro d' hd' he
        rw [decide_eq_true_eq] at he
        exact hnot (List.mem_map.2 ⟨d', hd', he.trans ha.symm⟩)
      rw [hnone, if_pos ha.symm]
      simp [ha]
    · simp only [ha, decide_false, if_neg (Ne.symm ha)]

theorem extent_child_of_mem (h : (ds.map (·.axis)).Nodup) {d : Division} (hd : d ∈ ds) :
    (s.child packing ds).extent d.axis = (s.extent d.axis).nextLevel.divide packing d.extent := by
  rw [extent_child h]
  cases hf : ds.find? (·.axis = d.axis) with
  | none =>
    have := List.find?_eq_none.1 hf d hd
    simp at this
  | some d' =>
    have hax : d'.axis = d.axis := by simpa using List.find?_some hf
    have : d' = d := List.inj_on_of_nodup_map h (List.mem_of_find?_eq_some hf) hd hax
    rw [this]

theorem extent_child_of_not_mem (h : (ds.map (·.axis)).Nodup) (ha : a ∉ ds.map (·.axis)) :
    (s.child packing ds).extent a = (s.extent a).nextLevel := by
  rw [extent_child h]
  cases hf : ds.find? (·.axis = a) with
  | none => rfl
  | some d =>
    have hax : d.axis = a := by simpa using List.find?_some hf
    exact absurd (hax ▸ List.mem_map_of_mem (List.mem_of_find?_eq_some hf)) ha

/-- An axis has the product of its extents so far. -/
theorem fromRoot_child (h : (ds.map (·.axis)).Nodup) (a : Axis) :
    ((s.child packing ds).extent a).fromRoot = saturatingMul (s.extent a).fromRoot
      ((s.child packing ds).extent a).declared.toUInt64 := by
  rw [extent_child h]
  split
  · rfl
  · apply UInt64.toNat_inj.1
    rw [toNat_saturatingMul]
    have := (s.extent a).fromRoot.toNat_lt
    change (s.extent a).fromRoot.toNat = min ((s.extent a).fromRoot.toNat * 1) (UInt64.size - 1)
    unfold UInt64.size
    omega

/-- Memory extents of the axes that a level does not divide are 1. -/
theorem exactCells_eq {axes : List Axis} (hnd : axes.Nodup)
    (h : ∀ a, a ∉ axes → (s.extent a).padded = 1) :
    s.exactCells = (axes.map fun a => (s.extent a).padded.toNat).prod := by
  have hall : s.exactCells = ∏ a : Axis, (s.extent a).padded.toNat := by
    unfold exactCells
    rw [← List.prod_ofFn]
    congr 1
    apply List.ext_getElem
    · rw [List.length_map, List.length_ofFn, Vector.length_toList]
    · intro i hi hi'
      rw [List.getElem_map, List.getElem_ofFn, Vector.getElem_toList]
      rfl
  rw [hall, ← List.prod_toFinset _ hnd]
  symm
  apply Finset.prod_subset (Finset.subset_univ _)
  intro a _ ha
  rw [h a fun hm => ha (List.mem_toFinset.2 hm)]
  rfl

end IndexSpace

namespace Draft

variable {d : Draft} {id : NodeId} {n : Node}

/-- The index space of a node, which is the root's or made from its parent's. -/
theorem Grown.index_cases (h : d.Grown) (hn : d.nodes[id]? = some n) :
    (id = 0 ∧ n.kind = .root ∧ n.parent = none ∧ n.index = .root) ∨
      (id ≠ 0 ∧ n.kind.Valid ∧ ∃ p q, p < id ∧ d.nodes[p]? = some q ∧ id ∈ q.children ∧
        n.parent = some p ∧ n.index = q.index.child d.packing n.kind.divisions ∧
          q.kind.type.Admits n.kind) := by
  by_cases h0 : id = 0
  · left
    have hr := h.root
    rw [h0] at hn
    rw [hn, Option.map_some, Option.some.injEq] at hr
    obtain ⟨hk, hp, hi⟩ : n.kind = .root ∧ n.parent = none ∧ n.index = .root := by
      simpa using hr
    exact ⟨h0, hk, hp, hi⟩
  · right
    obtain ⟨p, q, hp, hq, hmem⟩ := h.parent hn h0
    obtain ⟨hlt, m, hm, hpar, hidx, hadm, hval⟩ := h.child hq hmem
    rw [hn, Option.some.injEq] at hm
    subst hm
    exact ⟨h0, hval, p, q, hlt, hq, hmem, hp, hidx, hadm⟩

theorem valid_root : Kind.root.Valid := by
  constructor
  · exact List.nodup_nil
  · intro d hd
    cases hd
  · intro c hc
    cases hc
  · intro w hw
    cases hw

theorem Grown.valid (h : d.Grown) (hn : d.nodes[id]? = some n) : n.kind.Valid := by
  rcases h.index_cases hn with ⟨-, hk, -⟩ | ⟨-, hv, -⟩
  · exact hk ▸ valid_root
  · exact hv

theorem Grown.listed (h : d.Grown) (hn : d.nodes[id]? = some n) : n.index.Listed := by
  induction id using Nat.strongRecOn generalizing n with
  | ind id ih =>
    rcases h.index_cases hn with ⟨-, -, -, hi⟩ | ⟨-, -, p, q, hlt, hq, -, -, hi, -⟩
    · exact hi ▸ IndexSpace.listed_root
    · exact hi ▸ (ih p hlt hq).child _ _

/-- What a level knows of an axis that it does not divide. -/
theorem Grown.undivided (h : d.Grown) (hn : d.nodes[id]? = some n) {a : Axis}
    (ha : a ∉ n.kind.axes) : (n.index.extent a).declared = 1 ∧ (n.index.extent a).padded = 1 := by
  rcases h.index_cases hn with ⟨-, -, -, hi⟩ | ⟨-, hv, p, q, -, -, -, -, hi, -⟩
  · rw [hi, IndexSpace.extent_root]
    exact ⟨rfl, rfl⟩
  · rw [hi, IndexSpace.extent_child_of_not_mem hv.axes_nodup ha]
    exact ⟨rfl, rfl⟩

theorem Grown.division (h : d.Grown) (hn : d.nodes[id]? = some n) {e : Division}
    (he : e ∈ n.kind.divisions) : (n.index.extent e.axis).declared = e.extent ∧
      0 < e.extent.toNat ∧ e.extent.toNat ≤ (n.index.extent e.axis).padded.toNat := by
  rcases h.index_cases hn with ⟨-, hk, -⟩ | ⟨-, hv, p, q, -, -, -, -, hi, -⟩
  · rw [hk] at he
    cases he
  · rw [hi, IndexSpace.extent_child_of_mem hv.axes_nodup he]
    exact ⟨rfl, hv.extent_pos e he, d.packing.le_extent e.extent⟩

/-- The memory extents of a node are positive. -/
theorem Grown.peopled (h : d.Grown) (hn : d.nodes[id]? = some n) : n.index.Peopled := by
  intro a
  by_cases ha : a ∈ n.kind.axes
  · obtain ⟨e, he, rfl⟩ := List.mem_map.1 ha
    obtain ⟨-, hpos, hle⟩ := h.division hn he
    exact Nat.lt_of_lt_of_le hpos hle
  · rw [(h.undivided hn ha).2]
    exact Nat.one_pos

theorem Grown.exactCells_eq (h : d.Grown) (hn : d.nodes[id]? = some n) :
    n.index.exactCells = (n.kind.axes.map fun a => (n.index.extent a).padded.toNat).prod :=
  n.index.exactCells_eq (h.valid hn).axes_nodup fun _ ha => (h.undivided hn ha).2

end Draft

end SparseLayout
