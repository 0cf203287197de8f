import SparseLayout.Proofs.Layout.Branch

namespace SparseLayout

namespace Layout

open Node (digit linear number)

variable {t : Layout} {k m n p : Node} {c d : Coords} {a : Axis}

namespace Node

/-- The extent of an axis from the root down to a node. -/
def side (n : Node) (a : Axis) : Nat := (n.index.extent a).fromRoot.toNat

/-- All extents are exact, and index expressions can be resolved. -/
def Addressable (n : Node) : Prop := ∀ a, n.side a < 2 ^ 63

/-- The coordinates name a cell of the node. -/
def Within (n : Node) (c : Coords) : Prop := ∀ a : Axis, (c.get a).toNat < n.side a

/-- The coordinates of the cell of `level` around a cell of `target`. -/
def around (target level : Node) (c : Coords) : Coords :=
  Vector.ofFn fun a =>
    c.get a / ((target.index.extent a).fromRoot / (level.index.extent a).fromRoot)

theorem toNat_around (target level : Node) (c : Coords) (a : Axis) :
    ((around target level c).get a).toNat = (c.get a).toNat / (target.side a / level.side a) := by
  unfold around side
  rw [← UInt64.toNat_div, ← UInt64.toNat_div]
  exact congrArg UInt64.toNat (Vector.getElem_ofFn a.isLt)

end Node

/-- A node and the nodes around it. -/
inductive Above (t : Layout) : Node → Node → Prop
  | refl (n : Node) : t.Above n n
  | step {m p n : Node} (hp : t.Has p) (hn : n ∈ t.childNodes p) (h : t.Above m p) : t.Above m n

theorem Above.trans (h : t.Above k m) (h' : t.Above m n) : t.Above k n := by
  induction h' with
  | refl => exact h
  | step hp hn _ ih => exact .step hp hn ih

theorem Above.child (hp : t.Has p) (hn : n ∈ t.childNodes p) : t.Above p n :=
  .step hp hn (.refl p)

theorem Above.has (h : t.Above m n) (hn : t.Has n) : t.Has m := by
  induction h with
  | refl => exact hn
  | step hp _ _ ih => exact ih hp

theorem Above.id_le (ht : t.Branching) (h : t.Above m n) : m.id ≤ n.id := by
  induction h with
  | refl => exact Nat.le_refl _
  | step hp hn _ ih => exact Nat.le_trans ih (Nat.le_of_lt (ht.id_lt hp hn))

theorem Branching.above_root (h : t.Branching) (hn : t.Has n) : t.Above t.rootNode n :=
  h.induction (motive := fun n => t.Above t.rootNode n) (.refl _)
    (fun _ _ hp hnp ih => .step hp hnp ih) hn

theorem Branching.above_iff (h : t.Branching) (hn : t.Has n) :
    t.Above m n ↔ m = t.rootNode ∨ m ∈ t.branch n.id := by
  refine h.induction (motive := fun n => t.Above m n ↔ m = t.rootNode ∨ m ∈ t.branch n.id)
    ?_ ?_ hn
  · rw [h.branch_root]
    constructor
    · intro ha
      cases ha with
      | refl => exact Or.inl rfl
      | step hp hn _ =>
        have hlt := h.id_lt hp hn
        rw [h.root_id] at hlt
        exact absurd hlt (Nat.not_lt_zero _)
    · rintro (rfl | hm)
      · exact .refl _
      · cases hm
  · intro p n hp hnp ih
    rw [h.branch_child hp hnp, List.mem_append, List.mem_singleton, ← or_assoc, ← ih]
    constructor
    · intro ha
      cases ha with
      | refl => exact Or.inr rfl
      | step hq hnq ha => exact Or.inl (h.parent_unique hq hp hnq hnp ▸ ha)
    · rintro (ha | rfl)
      · exact .step hp hnp ha
      · exact .refl _

theorem Charted.declared_pos (ht : t.Charted) (hn : t.Has n) (a : Axis) :
    0 < (n.index.extent a).declared.toNat := by
  by_cases ha : a ∈ n.kind.axes
  · exact (ht.exists_division hn ha).1
  · rw [ht.undivided hn ha]
    decide

theorem Charted.side_child (ht : t.Charted) (hp : t.Has p) (hn : n ∈ t.childNodes p)
    (a : Axis) :
    n.side a = min (p.side a * (n.index.extent a).declared.toNat) (UInt64.size - 1) := by
  unfold Node.side
  rw [ht.fromRoot_child a hp hn, toNat_saturatingMul, UInt32.toNat_toUInt64]

theorem Charted.side_pos (ht : t.Charted) (hn : t.Has n) (a : Axis) : 0 < n.side a := by
  refine ht.induction (motive := fun n => 0 < n.side a) ?_ ?_ hn
  · unfold Node.side
    rw [ht.fromRoot_root]
    decide
  · intro p n hp hnp ih
    rw [ht.side_child hp hnp]
    have := Nat.mul_pos ih (ht.declared_pos (ht.has_child hnp) a)
    unfold UInt64.size
    omega

/-- Below an extent that is exact, extents are products. -/
theorem Charted.side_eq (ht : t.Charted) (hp : t.Has p) (hn : n ∈ t.childNodes p)
    (ha : n.Addressable) (a : Axis) :
    n.side a = p.side a * (n.index.extent a).declared.toNat := by
  have h := ht.side_child hp hn a
  have hlt := ha a
  unfold UInt64.size at h
  omega

theorem Above.exists_side (ht : t.Charted) (h : t.Above m n) (ha : n.Addressable) :
    m.Addressable ∧ ∀ a, ∃ e, 0 < e ∧ n.side a = m.side a * e := by
  induction h with
  | refl => exact ⟨ha, fun a => ⟨1, Nat.one_pos, (Nat.mul_one _).symm⟩⟩
  | @step p n hp hn _ ih =>
    have hpos := ht.declared_pos (ht.has_child hn)
    have hap : p.Addressable := by
      intro a
      refine Nat.lt_of_le_of_lt ?_ (ha a)
      rw [ht.side_eq hp hn ha]
      exact Nat.le_mul_of_pos_right _ (hpos a)
    obtain ⟨hm, he⟩ := ih hap
    refine ⟨hm, fun a => ?_⟩
    obtain ⟨e, hpos', he⟩ := he a
    refine ⟨e * (n.index.extent a).declared.toNat, Nat.mul_pos hpos' (hpos a), ?_⟩
    rw [ht.side_eq hp hn ha, he, Nat.mul_assoc]

theorem Above.side_div (ht : t.Charted) (h : t.Above m n) (hn : t.Has n) (ha : n.Addressable)
    (a : Axis) : 0 < n.side a / m.side a ∧ n.side a = m.side a * (n.side a / m.side a) := by
  obtain ⟨e, hpos, he⟩ := (h.exists_side ht ha).2 a
  have hm := ht.side_pos (h.has hn) a
  rw [he, Nat.mul_div_cancel_left _ hm]
  exact ⟨hpos, rfl⟩

theorem Coords.ext_toNat (h : ∀ a : Axis, (c.get a).toNat = (d.get a).toNat) : c = d := by
  ext i hi
  exact congrArg UInt64.toNat (UInt64.toNat_inj.1 (h ⟨i, hi⟩))

theorem Coords.get_set (c : Coords) (b : Axis) (v : UInt64) (a : Axis) :
    (c.set b v b.isLt).get a = if a = b then v else c.get a := by
  by_cases hab : a = b
  · subst hab
    rw [if_pos rfl]
    exact Vector.getElem_set_self a.isLt
  · rw [if_neg hab]
    exact Vector.getElem_set_ne b.isLt a.isLt fun he => hab (Fin.ext he.symm)

theorem Charted.around_self (ht : t.Charted) (hn : t.Has n) (c : Coords) :
    Node.around n n c = c := by
  apply Coords.ext_toNat
  intro a
  rw [Node.toNat_around, Nat.div_self (ht.side_pos hn a), Nat.div_one]

theorem Above.around_within (ht : t.Charted) (h : t.Above m n) (hn : t.Has n)
    (ha : n.Addressable) (hc : n.Within c) : m.Within (Node.around n m c) := by
  intro a
  obtain ⟨hpos, he⟩ := h.side_div ht hn ha a
  rw [Node.toNat_around, Nat.div_lt_iff_lt_mul hpos, ← he]
  exact hc a

theorem Above.around_around (ht : t.Charted) (h : t.Above k m) (h' : t.Above m n)
    (hn : t.Has n) (ha : n.Addressable) (c : Coords) :
    Node.around m k (Node.around n m c) = Node.around n k c := by
  apply Coords.ext_toNat
  intro a
  have hm := h'.has hn
  obtain ⟨hpos, he⟩ := h'.side_div ht hn ha a
  obtain ⟨hpos', he'⟩ := h.side_div ht hm (h'.exists_side ht ha).1 a
  have hk := ht.side_pos (h.has hm) a
  rw [Node.toNat_around, Node.toNat_around, Node.toNat_around, Nat.div_div_eq_div_mul]
  congr 1
  have hnk : n.side a = k.side a * (m.side a / k.side a * (n.side a / m.side a)) := by
    rw [← Nat.mul_assoc, ← he', ← he]
  conv_rhs => rw [hnk, Nat.mul_div_cancel_left _ hk]
  rw [Nat.mul_comm]

theorem max_one_of_pos {w : UInt64} (h : 0 < w.toNat) : max w 1 = w := by
  change (if w ≤ 1 then 1 else w) = w
  by_cases hw : w ≤ 1
  · rw [if_pos hw]
    have hle := UInt64.le_iff_toNat_le.1 hw
    have h1 : (1 : UInt64).toNat = 1 := rfl
    exact UInt64.toNat_inj.1 (by omega)
  · rw [if_neg hw]

/-- A digit is the last digit of the coordinate of the cell around. -/
theorem Above.toNat_digit (ht : t.Charted) (h : t.Above m n) (hn : t.Has n)
    (ha : n.Addressable) (c : Coords) (a : Axis) :
    (digit n m a c).toNat =
      ((Node.around n m c).get a).toNat % (m.index.extent a).declared.toNat := by
  have hm := h.has hn
  have hside := ht.side_pos hm a
  have hdiv := (h.side_div ht hn ha a).1
  have hdec : UInt32.toNat 1 ≤ (m.index.extent a).declared.toNat := ht.declared_pos hm a
  unfold digit
  simp only
  rw [max_one_of_pos (w := (m.index.extent a).fromRoot) hside,
    max_one_of_pos (by rw [UInt64.toNat_div]; exact hdiv), UInt64.toNat_mod, UInt64.toNat_div,
    UInt64.toNat_div, UInt32.toNat_toUInt64, toNat_max, Node.toNat_around, Nat.max_eq_left hdec]
  rfl

theorem Above.digit_around (ht : t.Charted) (h : t.Above k m) (h' : t.Above m n)
    (hn : t.Has n) (ha : n.Addressable) (c : Coords) (a : Axis) :
    digit m k a (Node.around n m c) = digit n k a c := by
  apply UInt64.toNat_inj.1
  rw [h.toNat_digit ht (h'.has hn) (h'.exists_side ht ha).1, (h.trans h').toNat_digit ht hn ha,
    h.around_around ht h' hn ha]

theorem Above.number_around (ht : t.Charted) (h : t.Above k m) (h' : t.Above m n)
    (hn : t.Has n) (ha : n.Addressable) (c : Coords) :
    number m k (Node.around n m c) = number n k c := by
  have hdigit := h.digit_around ht h' hn ha c
  unfold number linear
  simp only [hdigit]

/-- A cell around the one that coordinates name is named by its own coordinates. -/
theorem Above.place_around (ht : t.Charted) (h : t.Above k m) (h' : t.Above m n)
    (hn : t.Has n) (ha : n.Addressable) (c : Coords) :
    t.place m (Node.around n m c) k = t.place n c k := by
  have hk := h.has (h'.has hn)
  refine ht.induction (motive := fun k => t.Above k m →
    t.place m (Node.around n m c) k = t.place n c k) ?_ ?_ hk h
  · intro _
    rw [ht.place_root, ht.place_root]
  · intro p k hp hk ih h
    rw [ht.place_child _ _ hp hk, ht.place_child _ _ hp hk, ih ((Above.child hp hk).trans h),
      h.number_around ht h' hn ha]

/-- The levels on the path to a node that divide an axis, from the root down. -/
def levels (t : Layout) (n : Node) (a : Axis) : List Node :=
  ((t.path n.id).filterMap (t.nodes[·]?)).filter (·.kind.axes.contains a)

namespace Node

/-- The product of the extents that levels declare along an axis. -/
def declaredProd (a : Axis) (ms : List Node) : Nat :=
  (ms.map fun m => (m.index.extent a).declared.toNat).prod

/-- The digits that levels read of an axis, each times the extents of the levels below it. -/
def radixSum (target : Node) (a : Axis) (c : Coords) : List Node → Nat
  | [] => 0
  | m :: below => (digit target m a c).toNat * declaredProd a below + radixSum target a c below

/-- A level below the others shifts their digits by its extent. -/
theorem radixSum_append (target : Node) (a : Axis) (c : Coords) (ms : List Node) (m : Node) :
    radixSum target a c (ms ++ [m]) =
      radixSum target a c ms * (m.index.extent a).declared.toNat + (digit target m a c).toNat := by
  induction ms with
  | nil => simp [radixSum, declaredProd]
  | cons k ms ih =>
    have hprod : declaredProd a (ms ++ [m]) =
        declaredProd a ms * (m.index.extent a).declared.toNat := by
      simp [declaredProd]
    rw [List.cons_append, radixSum, radixSum, ih, hprod, Nat.add_mul, Nat.mul_assoc, Nat.add_assoc]

theorem radixSum_congr {target : Node} {ms : List Node}
    (h : ∀ m ∈ ms, digit target m a c = digit target m a d) :
    radixSum target a c ms = radixSum target a d ms := by
  induction ms with
  | nil => rfl
  | cons m ms ih =>
    rw [radixSum, radixSum, h m List.mem_cons_self, ih fun k hk => h k (List.mem_cons_of_mem m hk)]

end Node

theorem Branching.axes_root (ht : t.Branching) : t.rootNode.kind.axes = [] := by
  rw [ht.root_kind]
  rfl

theorem Branching.levels_root (ht : t.Branching) (a : Axis) : t.levels t.rootNode a = [] := by
  have hroot : t.nodes[0]? = some t.rootNode := Array.getElem?_eq_getElem t.nodes_ne
  have hpath : t.path t.rootNode.id = [0] := by
    rw [ht.root_id]
    rfl
  rw [levels, hpath, List.filterMap_cons_some hroot, List.filterMap_nil,
    List.filter_cons_of_neg (by simp [ht.axes_root]), List.filter_nil]

theorem Branching.levels_child (ht : t.Branching) (hp : t.Has p) (hn : n ∈ t.childNodes p)
    (a : Axis) : t.levels n a = t.levels p a ++ [n].filter (·.kind.axes.contains a) := by
  have hhas : t.nodes[n.id]? = some n := ht.has_child hn
  rw [levels, ht.path_child hp hn, List.filterMap_append, List.filter_append,
    List.filterMap_cons_some hhas, List.filterMap_nil]
  rfl

/-- The levels that divide an axis are around the node. -/
theorem Branching.mem_levels (ht : t.Branching) (hn : t.Has n) :
    m ∈ t.levels n a ↔ t.Above m n ∧ a ∈ m.kind.axes := by
  have hbranch : t.levels n a = (t.branch n.id).filter (·.kind.axes.contains a) := by
    refine ht.induction (motive := fun n => t.levels n a = (t.branch n.id).filter
      (·.kind.axes.contains a)) ?_ ?_ hn
    · rw [ht.levels_root, ht.branch_root, List.filter_nil]
    · intro p n hp hnp ih
      rw [ht.levels_child hp hnp, ht.branch_child hp hnp, List.filter_append, ih]
  rw [hbranch, List.mem_filter, List.contains_iff_mem, ht.above_iff hn, or_and_right]
  refine (or_iff_right ?_).symm
  rintro ⟨rfl, ha⟩
  rw [ht.axes_root] at ha
  cases ha

/-- The digits of the levels down to a cell around make up its coordinates. -/
theorem Charted.radixSum_around (ht : t.Charted) (hn : t.Has n) (ha : n.Addressable)
    (hc : n.Within c) (hm : t.Above m n) (a : Axis) :
    Node.radixSum n a c (t.levels m a) = ((Node.around n m c).get a).toNat := by
  refine ht.induction (motive := fun m => t.Above m n →
    Node.radixSum n a c (t.levels m a) = ((Node.around n m c).get a).toNat) ?_ ?_ (hm.has hn) hm
  · intro hr
    have hside : t.rootNode.side a = 1 := by
      unfold Node.side
      rw [ht.fromRoot_root]
      rfl
    have hlt := hr.around_within ht hn ha hc a
    rw [hside] at hlt
    rw [ht.levels_root, Node.radixSum]
    omega
  · intro p m hp hm ih hmn
    have hpm := Above.child hp hm
    have ham := (hmn.exists_side ht ha).1
    have hdigit := hmn.toNat_digit ht hn ha c a
    -- the cell around the parent has what is left when the digit is taken away
    have hquot : ((Node.around n p c).get a).toNat =
        ((Node.around n m c).get a).toNat / (m.index.extent a).declared.toNat := by
      rw [← hpm.around_around ht hmn hn ha, Node.toNat_around m p, ht.side_eq hp hm ham,
        Nat.mul_div_cancel_left _ (ht.side_pos hp a)]
    have hsum := ih (hpm.trans hmn)
    rw [hquot] at hsum
    rw [ht.levels_child hp hm, List.filter_singleton]
    cases hax : m.kind.axes.contains a with
    | true =>
      rw [cond_true, Node.radixSum_append, hsum, hdigit, Nat.mul_comm, Nat.div_add_mod]
    | false =>
      have hnot : a ∉ m.kind.axes := fun hmem => by
        rw [List.contains_iff_mem.2 hmem] at hax
        cases hax
      rw [cond_false, List.append_nil, hsum, ht.undivided (ht.has_child hm) hnot]
      exact Nat.div_one _

theorem Charted.radixSum_levels (ht : t.Charted) (hn : t.Has n) (ha : n.Addressable)
    (hc : n.Within c) (a : Axis) : Node.radixSum n a c (t.levels n a) = (c.get a).toNat := by
  rw [ht.radixSum_around hn ha hc (.refl n), ht.around_self hn]

/-- The digits of every level make up the coordinates. -/
theorem Charted.coords_ext (ht : t.Charted) (hn : t.Has n) (ha : n.Addressable)
    (hc : n.Within c) (hd : n.Within d)
    (h : ∀ m, t.Above m n → ∀ a ∈ m.kind.axes, digit n m a c = digit n m a d) : c = d := by
  apply Coords.ext_toNat
  intro a
  rw [← ht.radixSum_levels hn ha hc, ← ht.radixSum_levels hn ha hd]
  apply Node.radixSum_congr
  intro m hm
  obtain ⟨hmn, hax⟩ := (ht.mem_levels hn).1 hm
  exact h m hmn a hax

/-- The cells around a cell are the beginnings of the way to it. -/
theorem Branching.suffix_place (ht : t.Branching) (hm : t.Has m) {target : Node} {x : Position} :
    x <:+ t.place target c m ↔ ∃ k, t.Above k m ∧ x = t.place target c k := by
  refine ht.induction (motive := fun m => x <:+ t.place target c m ↔
    ∃ k, t.Above k m ∧ x = t.place target c k) ?_ ?_ hm
  · rw [ht.place_root, List.suffix_nil]
    constructor
    · rintro rfl
      exact ⟨t.rootNode, .refl _, (ht.place_root target c).symm⟩
    · rintro ⟨k, hk, rfl⟩
      rcases (ht.above_iff ht.has_root).1 hk with rfl | hk
      · exact ht.place_root target c
      · rw [ht.branch_root] at hk
        cases hk
  · intro p m hp hm ih
    rw [ht.place_child target c hp hm, List.suffix_cons_iff, ih, ← ht.place_child target c hp hm]
    constructor
    · rintro (rfl | ⟨k, hk, rfl⟩)
      · exact ⟨m, .refl m, rfl⟩
      · exact ⟨k, .step hp hm hk, rfl⟩
    · rintro ⟨k, hk, rfl⟩
      cases hk with
      | refl => exact Or.inl rfl
      | step hq hmq hk =>
        rw [ht.parent_unique hq hp hmq hm] at hk
        exact Or.inr ⟨k, hk, rfl⟩

/-- Equal cells lie in equal cells. -/
theorem Above.place_eq (ht : t.Branching) (h : t.Above k m) {target : Node}
    (he : t.place target c m = t.place target d m) :
    t.place target c k = t.place target d k := by
  induction h with
  | refl => exact he
  | step hp hn _ ih =>
    rw [ht.place_child target c hp hn, ht.place_child target d hp hn] at he
    exact ih (List.cons.inj he).2

theorem WellFormed.number_eq (ht : t.WellFormed) (hm : t.Has m) (target : Node)
    (hc : ∀ axis cap bytes, m.container ≠ .dynamic axis cap bytes) (hne : m.container ≠ .bitArray) :
    number target m c = rowMajor (Node.digits target m c) := by
  rw [← ht.toNat_linear hm]
  unfold number
  cases ht.level hm with
  | dynamic _ hcon => exact absurd hcon (hc _ _ _)
  | bitArray _ hcon => exact absurd hcon hne
  | dense _ hcon | bitmasked _ hcon | pointer _ hcon => rw [hcon]
  | root hk hcon | bitStruct hk hcon | place hk hcon =>
    simp [hcon, hk, linear, Kind.axes, Kind.divisions]

/-- Levels that number a cell alike read the same digits. -/
theorem WellFormed.digit_eq (ht : t.WellFormed) (hm : t.Has m) {target : Node}
    (h : number target m c = number target m d)
    (hb : m.container = .bitArray → linear target m c = linear target m d) :
    ∀ a ∈ m.kind.axes, digit target m a c = digit target m a d := by
  by_cases hba : m.container = .bitArray
  · apply (ht.rowMajor_digits_inj hm).1
    rw [← ht.toNat_linear hm, ← ht.toNat_linear hm, hb hba]
  · by_cases hdy : ∃ axis cap bytes, m.container = .dynamic axis cap bytes
    · obtain ⟨axis, cap, bytes, hc⟩ := hdy
      obtain ⟨dim, chunk, hk, -⟩ := ht.digit_lt_of_dynamic hm hc target c
      intro a ha
      rw [hk] at ha
      obtain rfl : a = axis := by simpa [Kind.axes, Kind.divisions] using ha
      simp only [number, hc] at h
      exact UInt64.toNat_inj.1 h
    · apply (ht.rowMajor_digits_inj hm).1
      have hnd : ∀ axis cap bytes, m.container ≠ .dynamic axis cap bytes :=
        fun axis cap bytes hc => hdy ⟨axis, cap, bytes, hc⟩
      rwa [← ht.number_eq hm target hnd hba, ← ht.number_eq hm target hnd hba]

/-- Coordinates name one cell only, or one element of a bit array. -/
theorem WellFormed.place_inj (ht : t.WellFormed) (hn : t.Has n) (ha : n.Addressable)
    (hc : n.Within c) (hd : n.Within d) (h : t.place n c n = t.place n d n)
    (hb : ∀ m, t.Above m n → m.container = .bitArray → linear n m c = linear n m d) : c = d := by
  refine ht.coords_ext hn ha hc hd fun m hm => ?_
  have hmhas := hm.has hn
  refine ht.digit_eq hmhas ?_ (hb m hm)
  have hplace := hm.place_eq ht.toBranching h
  by_cases h0 : m.id = 0
  · rw [hmhas.eq_of_id ht.has_root (h0.trans ht.root_id.symm)]
    have hcon := ht.type_eq ht.has_root
    rw [Node.type, ht.root_kind] at hcon
    unfold number
    cases hc : t.rootNode.container with
    | root => rfl
    | _ => simp [hc, Kind.type, Container.type] at hcon
  · obtain ⟨p, hp, hmp⟩ := ht.exists_parent hmhas h0
    rw [ht.place_child n c hp hmp, ht.place_child n d hp hmp] at hplace
    exact congrArg Prod.snd (List.cons.inj hplace).1

end Layout

end SparseLayout
