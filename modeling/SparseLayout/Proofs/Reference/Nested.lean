import SparseLayout.Proofs.Layout.Cell
import SparseLayout.Proofs.Store.Session

/-!
What a store without memory holds lies in cells in use, as long as cells are deactivated one by
one. So there is nothing below a cell that is not in use, and nothing to remove there.
-/

namespace SparseLayout

open Layout (Node)
open Layout.Node (around digit)

namespace Reference

variable {t : Layout} {r r' : Reference} {k l m n p q : Node} {c d : Coords}

/-- The second store has all in use that the first one has. -/
structure Le (r r' : Reference) : Prop where
  on : ∀ i c, r.on i c = true → r'.on i c = true
  length : ∀ i c, r.length i c ≤ r'.length i c

theorem le_setOn (r : Reference) (i : NodeId) (c : Coords) : r.Le (r.setOn i c) := by
  refine ⟨fun j d h => ?_, fun _ _ => Nat.le_refl _⟩
  rw [on_setOn, h, Bool.true_or]

theorem le_setLength {i : NodeId} {len : Nat} (h : r.length i c ≤ len) :
    r.Le (r.setLength i c len) := by
  refine ⟨fun _ _ h => h, fun j d => ?_⟩
  rw [length_setLength]
  split
  · rename_i he
    rwa [he.1, he.2]
  · exact Nat.le_refl _

theorem Le.holds (h : r.Le r') (hm : r.holds t n c m = true) : r'.holds t n c m = true := by
  unfold Reference.holds at hm ⊢
  split at hm
  · exact h.on _ _ hm
  · exact h.on _ _ hm
  · have hlt := of_decide_eq_true hm
    exact decide_eq_true (Nat.lt_of_lt_of_le hlt (h.length _ _))
  · rfl

theorem Le.active (h : r.Le r') (ha : r.active t n c = true) : r'.active t n c = true := by
  unfold Reference.active at ha ⊢
  rw [List.all_eq_true] at ha ⊢
  exact fun m hm => h.holds (ha m hm)

section

variable (ht : t.WellFormed)
include ht

theorem active_root (r : Reference) (c : Coords) : r.active t t.rootNode c = true := by
  unfold active
  rw [ht.branch_root]
  rfl

/-- A level holds a cell where it holds the cell around it that is further in. -/
theorem holds_around (r : Reference) (hp : t.Has p) (hl : l ∈ t.childNodes p) (h : t.Above l m)
    (h' : t.Above m n) (hn : t.Has n) (ha : n.Addressable) (c : Coords) :
    r.holds t m (around n m c) l = r.holds t n c l := by
  have hpm := (Layout.Above.child hp hl).trans h
  unfold holds
  simp only [Layout.outer_eq ht hp hl, h.around_around ht.toCharted h' hn ha, hpm.around_around ht.toCharted h' hn ha,
    h.digit_around ht.toCharted h' hn ha]

/-- The levels down to a node are those of the cell around. -/
theorem all_holds (r : Reference) (h : t.Above m n) (hn : t.Has n) (ha : n.Addressable)
    (c : Coords) : (t.branch m.id).all (r.holds t n c) = r.active t m (around n m c) := by
  refine ht.induction (motive := fun m => ∀ (n : Node) (c : Coords), t.Above m n → t.Has n →
    n.Addressable → (t.branch m.id).all (r.holds t n c) = r.active t m (around n m c)) ?_ ?_
    (h.has hn) n c h hn ha
  · intro n c _ _ _
    rw [ht.branch_root, List.all_nil, active_root ht]
  · intro p m hp hm ih n c h hn ha
    have hmhas := ht.has_child hm
    have hpm := Layout.Above.child hp hm
    have hma := (h.exists_side ht.toCharted ha).1
    unfold active
    rw [ht.branch_child hp hm, List.all_append, List.all_append, ih n c (hpm.trans h) hn ha,
      ih m (around n m c) hpm hmhas hma, hpm.around_around ht.toCharted h hn ha]
    simp only [List.all_cons, List.all_nil, holds_around ht r hp hm (.refl m) h hn ha]

theorem active_child (r : Reference) (hp : t.Has p) (hn : n ∈ t.childNodes p)
    (ha : n.Addressable) (c : Coords) :
    r.active t n c = (r.active t p (around n p c) && r.holds t n c n) := by
  have hall := all_holds ht r (Layout.Above.child hp hn) (ht.has_child hn) ha c
  rw [active, ht.branch_child hp hn, List.all_append, hall]
  simp only [List.all_cons, List.all_nil, Bool.and_true]

/-- The cells around a cell in use are in use. -/
theorem active_around (h : t.Above m n) (hn : t.Has n) (ha : n.Addressable)
    (hact : r.active t n c = true) : r.active t m (around n m c) = true := by
  induction h generalizing c with
  | refl => rwa [ht.around_self hn]
  | @step p n hp hnp h ih =>
    have hpa := ((Layout.Above.child hp hnp).exists_side ht.toCharted ha).1
    rw [active_child ht r hp hnp ha, Bool.and_eq_true] at hact
    rw [← h.around_around ht.toCharted (.child hp hnp) hn ha]
    exact ih hp hpa hact.1

end

/-- Two stores have the same in all cells that can be addressed. -/
structure Agree (t : Layout) (r r' : Reference) : Prop where
  on : ∀ {n : Node} {c : Coords}, t.Has n → n.Addressable → n.Within c →
    r.on n.id c = r'.on n.id c
  length : ∀ {p n : Node} {c : Coords}, t.Has p → n ∈ t.childNodes p → p.Addressable →
    p.Within c → n.type = .dynamic → r.length n.id c = r'.length n.id c
  value : ∀ {n : Node} {c : Coords}, t.Has n → n.Addressable → n.Within c →
    r.value n.id c = r'.value n.id c

theorem Agree.refl (t : Layout) (r : Reference) : Agree t r r :=
  ⟨fun _ _ _ => rfl, fun _ _ _ _ _ => rfl, fun _ _ _ => rfl⟩

/-- The cell of `n` at `c` is removed, or its whole list there, with everything below. -/
def cut (t : Layout) (n : Node) (c : Coords) (r : Reference) : Reference :=
  match n.kind with
  | .dynamic .. => r.clear t n (t.outer n) (around n (t.outer n) c)
  | _ => r.clear t n n c

/-- What is kept lies in cells in use. -/
structure Nested (t : Layout) (r : Reference) : Prop where
  on : ∀ {n : Node} {c : Coords}, t.Has n → n.Addressable → n.Within c → r.on n.id c = true →
    r.active t n c = true
  length : ∀ {p n : Node} {c : Coords}, t.Has p → n ∈ t.childNodes p → p.Addressable →
    p.Within c → r.length n.id c ≠ 0 → r.active t p c = true
  value : ∀ {n : Node} {c : Coords}, t.Has n → n.Addressable → n.Within c →
    r.value n.id c ≠ none → r.active t n c = true

theorem nested_empty (t : Layout) : Nested t .empty :=
  ⟨fun _ _ _ h => absurd h Bool.false_ne_true, fun _ _ _ _ h => absurd rfl h, fun _ _ _ h => absurd rfl h⟩

namespace Nested

variable (ht : t.WellFormed) (h : r.Nested t)
include ht h

omit ht in
theorem setOn (hn : t.Has n) (hact : (r.setOn n.id c).active t n c = true) :
    (r.setOn n.id c).Nested t := by
  have hle := r.le_setOn n.id c
  refine ⟨?_, fun hp hm ha hw hl => hle.active (h.length hp hm ha hw hl),
    fun hm ha hw hv => hle.active (h.value hm ha hw hv)⟩
  intro m d hm ha hw hon
  rw [on_setOn, Bool.or_eq_true, decide_eq_true_iff] at hon
  rcases hon with hon | ⟨hid, rfl⟩
  · exact hle.active (h.on hm ha hw hon)
  · rwa [hm.eq_of_id hn hid]

theorem setLength (hp : t.Has p) (hn : n ∈ t.childNodes p) (hact : r.active t p c = true)
    {len : Nat} (hlen : r.length n.id c ≤ len) : (r.setLength n.id c len).Nested t := by
  have hle := le_setLength hlen
  refine ⟨fun hm ha hw hon => hle.active (h.on hm ha hw hon), ?_,
    fun hm ha hw hv => hle.active (h.value hm ha hw hv)⟩
  intro q m d hq hm ha hw hl
  rw [length_setLength] at hl
  split at hl
  · rename_i he
    have hmn := (ht.has_child hm).eq_of_id (ht.has_child hn) he.1
    subst hmn
    rw [he.2, ht.parent_unique hq hp hm hn]
    exact hle.active hact
  · exact hle.active (h.length hq hm ha hw hl)

omit ht in
theorem store (hn : t.Has n) (hact : n.Addressable → r.active t n c = true) (x : Scalar) :
    (r.store n.id c x).Nested t := by
  refine ⟨h.on, h.length, ?_⟩
  intro m d hm ha hw hv
  change r.active t m d = true
  rw [value_store] at hv
  split at hv
  · rename_i he
    obtain rfl := hm.eq_of_id hn he.1
    rw [he.2]
    exact hact ha
  · exact h.value hm ha hw hv

/-- A level that is put to use inside cells in use. -/
theorem raise (hp : t.Has p) (hm : m ∈ t.childNodes p) (hmn : t.Above m n) (hn : t.Has n)
    (ha : n.Addressable) (hact : r.active t p (around n p c) = true) :
    (r.raise t n c m).Nested t ∧ (r.raise t n c m).active t m (around n m c) = true := by
  have hmhas := ht.has_child hm
  have hpm := Layout.Above.child hp hm
  have hma := (hmn.exists_side ht.toCharted ha).1
  -- the levels above are in use already, so it is enough that `m` holds its cell now
  have holds {r' : Reference} (hle : r.Le r') (hm' : r'.holds t n c m = true) :
      r'.active t m (around n m c) = true := by
    rw [active_child ht r' hp hm hma, hpm.around_around ht.toCharted hmn hn ha,
      holds_around ht r' hp hm (.refl m) hmn hn ha, hle.active hact, hm']
    rfl
  have hon (hkind : ∀ r' : Reference, r'.holds t n c m = r'.on m.id (around n m c)) :
      (r.setOn m.id (around n m c)).Nested t ∧
        (r.setOn m.id (around n m c)).active t m (around n m c) = true := by
    have hactive := holds (r.le_setOn m.id (around n m c)) (by rw [hkind, on_setOn]; simp)
    exact ⟨h.setOn hmhas hactive, hactive⟩
  unfold Reference.raise
  cases hk : m.kind with
  | pointer ds | bitmasked ds => exact hon fun r' => by rw [Reference.holds, hk]
  | dynamic axis dim chunk =>
    have hle := Nat.le_max_left (r.length m.id (around n p c)) ((digit n m axis c).toNat + 1)
    simp only [Layout.outer_eq ht hp hm]
    refine ⟨h.setLength ht hp hm hact hle, holds (le_setLength hle) ?_⟩
    simp only [Reference.holds, hk, Layout.outer_eq ht hp hm, length_setLength, and_self, if_true]
    exact decide_eq_true (Nat.lt_of_succ_le (Nat.le_max_right _ _))
  | root | dense ds | bitStruct width | bitArray ds width | place info =>
    exact ⟨h, holds ⟨fun _ _ h => h, fun _ _ => Nat.le_refl _⟩ (by rw [Reference.holds, hk])⟩

theorem activate (hn : t.Has n) (ha : n.Addressable) (c : Coords) :
    (r.activate t n c).Nested t ∧ (r.activate t n c).active t n c = true := by
  suffices t.Above n n → ((t.branch n.id).foldl (Reference.raise t n c) r).Nested t ∧
      ((t.branch n.id).foldl (Reference.raise t n c) r).active t n (around n n c) = true by
    have hself := this (.refl n)
    rwa [ht.around_self hn] at hself
  refine ht.induction (motive := fun m => t.Above m n →
    ((t.branch m.id).foldl (Reference.raise t n c) r).Nested t ∧
      ((t.branch m.id).foldl (Reference.raise t n c) r).active t m (around n m c) = true) ?_ ?_ hn
  · intro _
    rw [ht.branch_root]
    exact ⟨h, active_root ht r _⟩
  · intro p m hp hm ih hmn
    obtain ⟨hrest, hact⟩ := ih ((Layout.Above.child hp hm).trans hmn)
    rw [ht.branch_child hp hm, List.foldl_append]
    exact hrest.raise ht hp hm hmn hn ha hact

end Nested

section

variable (ht : t.WellFormed)
include ht

theorem on_clear (hn : t.Has n) (hm : t.Has m) (c : Coords) :
    (r.clear t n q d).on m.id c = true ↔
      r.on m.id c = true ∧ ¬ (t.Above n m ∧ around m q c = d) := by
  have hnode : t.nodes[m.id]? = some m := hm
  unfold clear remove
  simp only [hnode, Option.any_some]
  rw [← ht.isBelow_and_iff hn hm, Bool.and_eq_true, Bool.not_eq_true', Bool.not_eq_true]

theorem length_clear (hn : t.Has n) (hp : t.Has p) (hm : m ∈ t.childNodes p) (c : Coords) :
    (t.Above n m ∧ around p q c = d → (r.clear t n q d).length m.id c = 0) ∧
      (¬ (t.Above n m ∧ around p q c = d) →
        (r.clear t n q d).length m.id c = r.length m.id c) := by
  have hmhas := ht.has_child hm
  have hnode : t.nodes[m.id]? = some m := hmhas
  unfold clear remove
  simp only [hnode, Option.any_some, Layout.outer_eq ht hp hm]
  rw [← ht.isBelow_and_iff hn hmhas]
  exact ⟨fun h => if_pos h, fun h => if_neg h⟩

theorem value_clear (hn : t.Has n) (hm : t.Has m) (c : Coords) :
    (t.Above n m ∧ around m q c = d → (r.clear t n q d).value m.id c = none) ∧
      (¬ (t.Above n m ∧ around m q c = d) →
        (r.clear t n q d).value m.id c = r.value m.id c) := by
  have hnode : t.nodes[m.id]? = some m := hm
  unfold clear remove
  simp only [hnode, Option.any_some]
  rw [← ht.isBelow_and_iff hn hm]
  exact ⟨fun h => if_pos h, fun h => if_neg h⟩

/-- Cells that are not removed stay in use. Those of a list are removed with the cell around it. -/
theorem active_clear (hq : t.Has q) (hn : n.type = .dynamic ∧ n ∈ t.childNodes q ∨
      n.type ≠ .dynamic ∧ n = q) (hm : t.Has m) (ha : m.Addressable)
    (hact : r.active t m c = true) (hnot : ¬ (t.Above n m ∧ around m q c = d)) :
    (r.clear t n q d).active t m c = true := by
  have hnhas : t.Has n := by
    rcases hn with ⟨-, hn⟩ | ⟨-, rfl⟩
    · exact ht.has_child hn
    · exact hq
  have hqn : t.Above q n := by
    rcases hn with ⟨-, hn⟩ | ⟨-, rfl⟩
    · exact .child hq hn
    · exact .refl _
  refine ht.induction (motive := fun m => ∀ c, m.Addressable → r.active t m c = true →
    ¬ (t.Above n m ∧ around m q c = d) → (r.clear t n q d).active t m c = true) ?_ ?_ hm c ha hact
      hnot
  · intro c _ _ _
    exact active_root ht _ c
  · intro p m hp hm ih c ha hact hnot
    have hmhas := ht.has_child hm
    have hpm := Layout.Above.child hp hm
    have hself : around m m c = c := ht.around_self hmhas c
    rw [active_child ht _ hp hm ha, Bool.and_eq_true] at hact ⊢
    have around_q (hqp : t.Above q p) : around p q (around m p c) = around m q c :=
      hqp.around_around ht.toCharted hpm hmhas ha c
    refine ⟨ih _ (hpm.exists_side ht.toCharted ha).1 hact.1 fun hgone => hnot ⟨hgone.1.trans hpm, ?_⟩, ?_⟩
    · rw [← around_q (hqn.trans hgone.1)]
      exact hgone.2
    · have hold := hact.2
      unfold holds at hold ⊢
      cases hk : m.kind with
      | pointer ds | bitmasked ds =>
        simp only [hk, hself] at hold ⊢
        exact (on_clear ht hnhas hmhas c).2 ⟨hold, hnot⟩
      | dynamic axis dim chunk =>
        simp only [hk, Layout.outer_eq ht hp hm] at hold ⊢
        rw [((length_clear ht hnhas hp hm (around m p c)).2 fun hgone => ?_)]
        · exact hold
        · -- the list is `n` itself, in a cell of `q`, or it lies below it
          have hqp : t.Above q p := by
            by_cases he : n = m
            · subst he
              rcases hn with ⟨-, hn⟩ | ⟨hnd, -⟩
              · rw [ht.parent_unique hq hp hn hm]
                exact .refl p
              · exact absurd (by rw [Node.type, hk]; rfl) hnd
            · exact hqn.trans (hgone.1.of_ne ht hp hm he)
          exact hnot ⟨hgone.1, (around_q hqp) ▸ hgone.2⟩
      | root | dense ds | bitStruct width | bitArray ds width | place info => rfl

theorem Nested.clear (h : r.Nested t) (hq : t.Has q) (hn : n.type = .dynamic ∧ n ∈ t.childNodes q ∨
    n.type ≠ .dynamic ∧ n = q) : (r.clear t n q d).Nested t := by
  have hnhas : t.Has n := by
    rcases hn with ⟨-, hn⟩ | ⟨-, rfl⟩
    · exact ht.has_child hn
    · exact hq
  refine ⟨?_, ?_, ?_⟩
  · intro m c hm ha hw hon
    obtain ⟨hon, hnot⟩ := (on_clear ht hnhas hm c).1 hon
    exact active_clear ht hq hn hm ha (h.on hm ha hw hon) hnot
  · intro p m c hp hm ha hw hl
    obtain ⟨hgone, hkept⟩ := length_clear (d := d) (r := r) (q := q) ht hnhas hp hm c
    have hnot : ¬ (t.Above n m ∧ around p q c = d) := fun hg => hl (hgone hg)
    rw [hkept hnot] at hl
    exact active_clear ht hq hn hp ha (h.length hp hm ha hw hl) fun hg =>
      hnot ⟨hg.1.trans (.child hp hm), hg.2⟩
  · intro m c hm ha hw hv
    obtain ⟨hgone, hkept⟩ := value_clear (d := d) (r := r) (q := q) ht hnhas hm c
    have hnot : ¬ (t.Above n m ∧ around m q c = d) := fun hg => hv (hgone hg)
    rw [hkept hnot] at hv
    exact active_clear ht hq hn hm ha (h.value hm ha hw hv) hnot

theorem Nested.deactivate (h : r.Nested t) (hn : t.Has n) (c : Coords) :
    (r.deactivate t n c).Nested t := by
  unfold Reference.deactivate
  cases hk : n.kind with
  | dynamic axis dim chunk =>
    obtain ⟨p, hp, hnp⟩ := ht.ne_root_of_kind hn (by rw [hk]; simp)
    rw [Layout.outer_eq ht hp hnp]
    exact h.clear ht hp (Or.inl ⟨by rw [Node.type, hk]; rfl, hnp⟩)
  | bitmasked ds =>
    dsimp only
    split
    · exact h.clear ht hn (Or.inr ⟨by rw [Node.type, hk]; simp [Kind.type], rfl⟩)
    · exact h
  | root | dense ds | pointer ds | bitStruct width | bitArray ds width | place info =>
    exact h.clear ht hn (Or.inr ⟨by rw [Node.type, hk]; simp [Kind.type], rfl⟩)

/-- No cell around a cell in use is out of use. -/
theorem not_active_below {ds : List Division} (hn : t.Has n) (hk : n.kind = .bitmasked ds)
    (hoff : r.on n.id c = false) (hm : t.Has m) (ha : m.Addressable) (hnm : t.Above n m)
    (hd : around m n d = c) : ¬ r.active t m d = true := by
  intro hact
  have hcell := active_around ht hnm hm ha hact
  obtain ⟨p, hp, hnp⟩ := ht.ne_root_of_kind hn (by rw [hk]; simp)
  rw [active_child ht r hp hnp (hnm.exists_side ht.toCharted ha).1, Bool.and_eq_true, hd] at hcell
  have hon := hcell.2
  rw [holds, hk] at hon
  simp only [ht.around_self hn, hoff] at hon
  exact Bool.false_ne_true hon

/-- Removing a cell that is not in use changes nothing. -/
theorem Nested.clear_off (h : r.Nested t) {ds : List Division} (hn : t.Has n)
    (hk : n.kind = .bitmasked ds) (hoff : r.on n.id c = false) : Agree t r (r.clear t n n c) := by
  -- a cell that would be removed is not in use, since the cell of `n` around it is not
  have gone {m : Node} {d : Coords} (hm : t.Has m) (ha : m.Addressable)
      (hgone : t.Above n m ∧ around m n d = c) : ¬ r.active t m d = true :=
    not_active_below ht hn hk hoff hm ha hgone.1 hgone.2
  refine ⟨?_, ?_, ?_⟩
  · intro m d hm ha hw
    rw [Bool.eq_iff_iff, on_clear ht hn hm, iff_self_and]
    exact fun hon hgone => gone hm ha hgone (h.on hm ha hw hon)
  · intro p m d hp hm ha hw hmd
    by_cases hgone : t.Above n m ∧ around p n d = c
    · have hne : n ≠ m := by
        rintro rfl
        rw [Node.type, hk] at hmd
        cases hmd
      rw [(length_clear ht hn hp hm d).1 hgone]
      by_contra hl
      exact gone hp ha ⟨hgone.1.of_ne ht hp hm hne, hgone.2⟩ (h.length hp hm ha hw hl)
    · exact ((length_clear ht hn hp hm d).2 hgone).symm
  · intro m d hm ha hw
    by_cases hgone : t.Above n m ∧ around m n d = c
    · rw [(value_clear ht hn hm d).1 hgone]
      by_contra hv
      exact gone hm ha hgone (h.value hm ha hw hv)
    · exact ((value_clear ht hn hm d).2 hgone).symm

/-- Deactivating removes the cell or the list, and everything below. -/
theorem Nested.agree_cut (h : r.Nested t) (hn : t.Has n) (c : Coords) :
    Agree t (r.deactivate t n c) (r.cut t n c) := by
  unfold Reference.deactivate cut
  cases hk : n.kind with
  | bitmasked ds =>
    dsimp only
    split
    · exact .refl t _
    · rename_i hoff
      exact h.clear_off ht hn hk (Bool.eq_false_iff.2 hoff)
  | root | dense ds | pointer ds | dynamic axis dim chunk | bitStruct width | bitArray ds width
  | place info => exact .refl t _

/-- An element of a list in use is in use when the list has it. -/
theorem active_element {axis : Axis} {dim chunk : UInt32} {info : PlaceInfo} {e : Nat}
    (hp : t.Has p) (hn : n ∈ t.childNodes p) (hk : n.kind = .dynamic axis dim chunk)
    (hm : m ∈ t.childNodes n) (hmk : m.kind = .place info) (ha : m.Addressable)
    (hc : p.Within c) (he : e < dim.toNat) (hact : r.active t p c = true)
    (hlen : e < r.length n.id c) : r.active t m (n.elementCoords c e) = true := by
  have hnhas := ht.has_child hn
  have hmhas := ht.has_child hm
  have hnm := Layout.Above.child hnhas hm
  have hpn := Layout.Above.child hp hn
  have hna := (hnm.exists_side ht.toCharted ha).1
  obtain ⟨hdigit, haround⟩ := (ht.element_iff hp hn hk hm hmk ha hc he).2 rfl
  have hplace : r.holds t m (n.elementCoords c e) m = true := by rw [holds, hmk]
  have hlist : r.holds t m (n.elementCoords c e) n = true := by
    rw [holds, hk]
    simp only [Layout.outer_eq ht hp hn, haround, hdigit]
    exact decide_eq_true hlen
  rw [active_child ht r hnhas hm ha, active_child ht r hp hn hna,
    hpn.around_around ht.toCharted hnm hmhas ha, haround,
    holds_around ht r hp hn (.refl n) hnm hmhas ha, hact, hlist, hplace]
  rfl

end

/-- The store that an operation leaves, whatever its result. -/
inductive Leaves (P : Reference → Prop) : EStateM.Result AccessError Reference Answer → Prop
  | ok {r : Reference} (a : Answer) (h : P r) : Leaves P (.ok a r)
  | error {r : Reference} (e : AccessError) (h : P r) : Leaves P (.error e r)

namespace Nested

variable (ht : t.WellFormed) (h : r.Nested t)
include h

/-- It is enough to look at the coordinates that an index expression resolves to. -/
theorem atIndex {space : Except AccessError Node} {idx : List Int32}
    {f : Node → Coords → EStateM AccessError Reference Answer}
    (hop : ∀ p c, space = .ok p → p.resolve idx = .ok c → Leaves (Nested t) (f p c r)) :
    Leaves (Nested t) (SparseLayout.atIndex space idx f r) := by
  unfold SparseLayout.atIndex
  cases space with
  | error e => exact .error e h
  | ok p =>
    cases hc : p.resolve idx with
    | error e =>
      simp only [hc]
      exact .error e h
    | ok c =>
      simp only [hc]
      exact hop p c rfl hc

include ht

theorem performAppend (hn : t.Has n) (idx : List Int32) (x : Scalar) :
    Leaves (Nested t) (Reference.perform t n (.append idx x) r) := by
  unfold Reference.perform
  refine h.atIndex fun p c hp hc => ?_
  obtain ⟨hp, hnp⟩ := Layout.of_parentNode ht hn hp
  obtain ⟨ha, hw⟩ := ht.of_resolve hp hc
  dsimp only
  cases hdim : n.listCapacity .append with
  | error e => exact .error e h
  | ok dim =>
  obtain ⟨axis, chunk, hk⟩ := Node.of_listCapacity hdim
  cases hm : t.onlyPlace? n with
  | none => exact .error _ h
  | some m =>
  dsimp only
  cases hd : m.accessType .append with
  | error e => exact .error e h
  | ok d =>
  obtain ⟨info, hmk, hacc, rfl⟩ := Node.of_accessType hd
  obtain ⟨hnest, hact⟩ := h.activate ht hp ha c
  have hmn := (Layout.onlyPlace hk hm).1
  dsimp only
  split
  · exact .error _ hnest
  · rename_i hlen
    have hle := Nat.le_succ ((r.activate t p c).length n.id c)
    have hset := hnest.setLength ht hp hnp hact hle
    refine .ok _ (hset.store (ht.has_child hmn) (fun hma => ?_) _)
    refine active_element ht hp hnp hk hmn hmk hma hw (Nat.lt_of_not_le hlen)
      ((le_setLength hle).active hact) ?_
    rw [length_setLength, if_pos ⟨rfl, rfl⟩]
    exact Nat.lt_succ_self _

/-- Every operation but the deactivation of a whole node. -/
theorem perform (hn : t.Has n) {a : Action} (hall : a ≠ .deactivateAll) :
    Leaves (Nested t) (Reference.perform t n a r) := by
  cases a with
  | activate idx =>
    unfold Reference.perform
    refine h.atIndex fun p c hp hc => ?_
    cases hp
    exact .ok _ (h.activate ht hn (ht.of_resolve hn hc).1 c).1
  | deactivate idx =>
    unfold Reference.perform
    refine h.atIndex fun p c hp hc => ?_
    cases hp
    split
    · exact .ok _ (h.deactivate ht hn c)
    · exact .error _ h
  | deactivateAll => exact absurd rfl hall
  | write idx x =>
    unfold Reference.perform
    refine h.atIndex fun p c hp hc => ?_
    cases hp
    obtain ⟨hnest, hact⟩ := h.activate ht hn (ht.of_resolve hn hc).1 c
    split
    · exact .error _ h
    · exact .ok _ (hnest.store hn (fun _ => hact) _)
  | append idx x => exact h.performAppend ht hn idx x
  | read idx =>
    unfold Reference.perform
    refine h.atIndex fun p c hp hc => ?_
    split
    · exact .error _ h
    · exact .ok _ h
  | isActive idx =>
    unfold Reference.perform
    exact h.atIndex fun p c hp hc => .ok _ h
  | length idx =>
    unfold Reference.perform
    refine h.atIndex fun p c hp hc => ?_
    split
    · exact .error _ h
    · exact .ok _ h

/-- After a run in which no whole node is deactivated, what is kept lies in cells in use. -/
theorem session {calls : List Call} (hc : t.Calls calls)
    (hall : ∀ c ∈ calls, c.action ≠ .deactivateAll) : (r.session t calls).2.Nested t := by
  induction calls generalizing r with
  | nil => exact h
  | cons c cs ih =>
    have hstep := h.perform ht (hc c List.mem_cons_self) (hall c List.mem_cons_self)
    have hcs : t.Calls cs := fun c hmem => hc c (List.mem_cons_of_mem _ hmem)
    have halls := fun c hmem => hall c (List.mem_cons_of_mem _ hmem)
    generalize hr : Reference.perform t c.node c.action r = res at hstep
    cases hstep with
    | ok a h' =>
      rw [session_ok hr]
      exact ih h' hcs halls
    | error e h' =>
      rw [session_error hr]
      exact ih h' hcs halls

end Nested

theorem session_nested (ht : t.WellFormed) {calls : List Call} (hc : t.Calls calls)
    (hall : ∀ c ∈ calls, c.action ≠ .deactivateAll) :
    (Reference.empty.session t calls).2.Nested t := (nested_empty t).session ht hc hall

end Reference

end SparseLayout
