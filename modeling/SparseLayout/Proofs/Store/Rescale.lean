import SparseLayout.Proofs.Layout.Bounds
import SparseLayout.Proofs.Layout.Cell
import SparseLayout.Proofs.Store.Locate
import SparseLayout.Layout.Handle

namespace SparseLayout

/-- The entry of a shape at the position of an axis is its extent. -/
theorem IndexSpace.shape_of_position {s : IndexSpace} {k : Nat} {a : Axis}
    (h : s.positions[k]? = some a) : s.shape[k]? = some (s.extent a).fromRoot := by
  rw [shape, List.getElem?_map, h, Option.map_some]

section Entry

variable {source target : UInt64} {i : Int32}

theorem toInt_ratio {w : UInt64} (h : w.toNat < 2 ^ 31) :
    w.toUInt32.toInt32.toInt = w.toNat := by
  have hw : w.toUInt32.toNat = w.toNat := by
    rw [UInt64.toNat_toUInt32]
    exact Nat.mod_eq_of_lt (by omega)
  change BitVec.toInt w.toUInt32.toBitVec = _
  rw [BitVec.toInt_eq_toNat_of_lt, ← hw]
  · rfl
  · change 2 * w.toUInt32.toNat < 2 ^ 32
    omega

/-- Towards a coarser extent, an entry is divided by the ratio, rounded down. -/
theorem rescaleEntry_coarser (ht : 0 < target.toNat) (hle : target.toNat ≤ source.toNat)
    (hratio : source.toNat / target.toNat < 2 ^ 31) (i : Int32) :
    rescaleEntry source target i =
      some (.ofInt (i.toInt / ((source.toNat / target.toNat : Nat) : Int))) := by
  unfold rescaleEntry
  simp only
  rw [Layout.max_one_of_pos (Nat.lt_of_lt_of_le ht hle), Layout.max_one_of_pos ht]
  rcases Nat.lt_or_eq_of_le hle with hlt | heq
  · have hpos : 1 ≤ source.toNat / target.toNat := Nat.div_pos hle ht
    have hr : (source / target).toUInt32.toInt32.toInt = (source.toNat / target.toNat : Nat) := by
      rw [← UInt64.toNat_div] at hratio ⊢
      exact toInt_ratio hratio
    -- the ratio is positive, so that no division by 0 or -1 is refused
    have hbad : ¬ ((source / target).toUInt32.toInt32 = 0 ∨
        (i = Int32.minValue ∧ (source / target).toUInt32.toInt32 = -1)) := by
      rintro (h | ⟨-, h⟩)
      · rw [h, Int32.toInt_zero] at hr
        omega
      · have hone : Int32.toInt 1 = 1 := rfl
        have hneg : (-1 : Int).bmod (2 ^ 32) = -1 := by decide
        rw [h, Int32.toInt_neg, hone, hneg] at hr
        omega
    rw [if_pos (UInt64.lt_iff_toNat_lt.2 hlt), if_neg hbad, hr]
  · have hirr : ¬ source < source := UInt64.lt_irrefl source
    rw [UInt64.toNat_inj.1 heq, if_neg hirr, if_neg hirr, Nat.div_self (heq ▸ ht), Nat.cast_one,
      Int.ediv_one, Int32.ofInt_toInt]

/-- Towards a finer extent, an entry is multiplied by the ratio. -/
theorem rescaleEntry_finer (hs : 0 < source.toNat) (hle : source.toNat ≤ target.toNat)
    (hratio : target.toNat / source.toNat < 2 ^ 31)
    (hlow : -2 ^ 31 ≤ i.toInt * (target.toNat / source.toNat : Nat))
    (hhigh : i.toInt * (target.toNat / source.toNat : Nat) < 2 ^ 31) :
    ∃ j, rescaleEntry source target i = some j ∧
      j.toInt = i.toInt * (target.toNat / source.toNat : Nat) := by
  unfold rescaleEntry
  simp only
  rw [Layout.max_one_of_pos hs, Layout.max_one_of_pos (Nat.lt_of_lt_of_le hs hle),
    if_neg (by rw [gt_iff_lt, UInt64.lt_iff_toNat_lt]; omega)]
  rcases Nat.lt_or_eq_of_le hle with hlt | heq
  · rw [← UInt64.toNat_div] at hratio hlow hhigh ⊢
    rw [if_pos (UInt64.lt_iff_toNat_lt.2 hlt), toInt_ratio hratio]
    have hleast : Int32.minValue.toInt = -2 ^ 31 := rfl
    have hmost : Int32.maxValue.toInt = 2 ^ 31 - 1 := rfl
    refine ⟨_, if_pos ⟨by omega, by omega⟩, ?_⟩
    exact Int32.toInt_ofInt_of_le hlow hhigh
  · refine ⟨i, if_neg (by rw [UInt64.lt_iff_toNat_lt]; omega), ?_⟩
    rw [heq, Nat.div_self (heq ▸ hs), Nat.cast_one, Int.mul_one]

end Entry

section Entries

variable (ss ts : List UInt64) (is : List Int32)

/-- Entries that can all be carried over make an expression of as many entries. -/
theorem exists_rescaleEntries (f : UInt64 → UInt64 → Int32 → Int32)
    (h : ∀ (k : Nat) s t i, ss[k]? = some s → ts[k]? = some t → is[k]? = some i →
      rescaleEntry s t i = some (f s t i)) :
    ∃ js, rescaleEntries ss ts is = some js ∧ js.length = is.length ∧
      ∀ (k : Nat) s t i, ss[k]? = some s → ts[k]? = some t → is[k]? = some i →
        js[k]? = some (f s t i) := by
  induction ss generalizing ts is with
  | nil => exact ⟨is, rfl, rfl, fun _ _ _ _ hs => absurd hs (by simp)⟩
  | cons s ss ih =>
    rcases ts with _ | ⟨t, ts⟩
    · exact ⟨is, rfl, rfl, fun _ _ _ _ _ ht => absurd ht (by simp)⟩
    rcases is with _ | ⟨i, is⟩
    · exact ⟨[], rfl, rfl, fun _ _ _ _ _ _ hi => absurd hi (by simp)⟩
    obtain ⟨js, hjs, hlen, hget⟩ := ih ts is fun k => h (k + 1)
    refine ⟨f s t i :: js, ?_, congrArg Nat.succ hlen, ?_⟩
    · rw [rescaleEntries, h 0 s t i rfl rfl rfl, hjs]
      rfl
    · intro k s' t' i' hs ht hi
      cases k with
      | zero =>
        cases hs
        cases ht
        cases hi
        rfl
      | succ k => exact hget k s' t' i' hs ht hi

/-- Entries that all come back make an expression that comes back. -/
theorem rescaleEntries_inverse
    (h : ∀ (k : Nat) s t i, ss[k]? = some s → ts[k]? = some t → is[k]? = some i →
      ∃ j, rescaleEntry s t i = some j ∧ rescaleEntry t s j = some i) :
    ∃ js, rescaleEntries ss ts is = some js ∧ rescaleEntries ts ss js = some is := by
  induction ss generalizing ts is with
  | nil => exact ⟨is, rfl, by cases ts <;> rfl⟩
  | cons s ss ih =>
    rcases ts with _ | ⟨t, ts⟩
    · exact ⟨is, rfl, rfl⟩
    rcases is with _ | ⟨i, is⟩
    · exact ⟨[], rfl, rfl⟩
    obtain ⟨j, hj, hi⟩ := h 0 s t i rfl rfl rfl
    obtain ⟨js, hjs, his⟩ := ih ts is fun k => h (k + 1)
    refine ⟨j :: js, ?_, ?_⟩
    · rw [rescaleEntries, hj, hjs]
      rfl
    · rw [rescaleEntries, hi, his]
      rfl

end Entries

namespace Layout

open Node (around digit linear)

variable {t : Layout} {d : Draft} {m n : Node} {idx : List Int32} {c : Coords}

/-- Extents from the root do not decrease on the way down. -/
theorem Above.side_le (ht : t.Charted) (h : t.Above m n) (a : Axis) : m.side a ≤ n.side a := by
  induction h with
  | refl => exact Nat.le_refl _
  | @step p n hp hn _ ih =>
    have hpos := ht.declared_pos (ht.has_child hn) a
    have hmul := Nat.le_mul_of_pos_right (p.side a) hpos
    have hlt : p.side a < UInt64.size := (p.index.extent a).fromRoot.toNat_lt
    rw [ht.side_child hp hn]
    omega

/-- The axes that a node divides or has above it are the first ones of every node below it. -/
theorem NodesOf.positions_above (h : t.NodesOf d) (hg : d.Grown) (hmn : t.Above m n) :
    m.index.positions <+: n.index.positions := by
  induction hmn with
  | refl => exact List.prefix_rfl
  | step hp hn _ ih =>
    obtain ⟨-, -, -, hindex, -⟩ := h.child hg hp hn
    rw [hindex]
    exact ih.trans (IndexSpace.positions_child _ _ _)

/-- Only places have offsets, and nothing lies below them. -/
theorem NodesOf.indexOffsets_above (h : t.NodesOf d) (hg : d.Grown) (hmn : t.Above m n)
    (hoff : n.indexOffsets = []) : m.indexOffsets = [] := by
  induction hmn with
  | refl => exact hoff
  | @step p n hp hn _ ih =>
    apply ih
    obtain ⟨-, -, -, -, hadm, -⟩ := h.child hg hp hn
    unfold Node.indexOffsets
    unfold Node.type at hadm
    cases hk : p.kind with
    | place info =>
      rw [hk] at hadm
      cases hkn : n.kind <;> simp [hkn, NodeType.Admits, Kind.type, NodeType.acceptsChildren] at hadm
    | _ => rfl

/-- A position of an axis that is divided here is its position below. -/
theorem positions_getElem? (hpos : m.index.positions <+: n.index.positions) {k : Nat} {a : Axis}
    (ha : m.index.positions[k]? = some a) : n.index.positions[k]? = some a := by
  obtain ⟨rest, hrest⟩ := hpos
  rw [← hrest, List.getElem?_append_left (List.getElem?_eq_some_iff.1 ha).1, ha]

/-- Entries at one position of two shapes are extents of one axis. -/
theorem shape_getElem? (hpos : m.index.positions <+: n.index.positions) {k : Nat} {s l : UInt64}
    (hs : n.index.shape[k]? = some s) (hl : m.index.shape[k]? = some l) :
    ∃ a ∈ m.index.positions, n.index.positions[k]? = some a ∧
      s = (n.index.extent a).fromRoot ∧ l = (m.index.extent a).fromRoot := by
  unfold IndexSpace.shape at hs hl
  rw [List.getElem?_map, Option.map_eq_some_iff] at hs hl
  obtain ⟨a, ha, rfl⟩ := hl
  obtain ⟨b, hb, rfl⟩ := hs
  rw [positions_getElem? hpos ha, Option.some.injEq] at hb
  subst hb
  exact ⟨a, List.mem_of_getElem? ha, positions_getElem? hpos ha, rfl, rfl⟩

/-- The entries are the coordinates along their axes. -/
def Node.Spells (n : Node) (idx : List Int32) (c : Coords) : Prop :=
  ∀ (k : Nat) (a : Axis) (i : Int32), (n.entries idx)[k]? = some (a, i) →
    i.toInt = (c.get a).toNat

/-- Without offsets, an accepted expression spells the coordinates of its cell. -/
theorem Charted.spells_of_resolve (ht : t.Charted) (hn : t.Has n) (hoff : n.indexOffsets = [])
    (hc : n.resolve idx = .ok c) :
    idx.length = n.index.arity ∧ n.Spells idx c ∧ ∀ a ∉ n.index.positions, c.get a = 0 := by
  have hlen : idx.length = n.index.arity := by
    by_contra hne
    rw [Node.resolve, if_pos hne] at hc
    cases hc
  rw [Node.resolve, if_neg (not_not.2 hlen)] at hc
  have hnd := ht.positions_nodup hn
  refine ⟨hlen, fun k a i hk => ?_, fun a ha => ?_⟩
  · obtain ⟨-, hget⟩ := Node.entry_of_resolveEntries hc hlen.symm hnd hk
    have hlow : (n.lowerAt (0 + k)).toInt = 0 := by
      rw [Node.lowerAt, hoff]
      rfl
    omega
  · rw [(Node.of_resolveEntries hc hlen.symm hnd a).2 ha]
    exact Vector.getElem_replicate a.isLt

/-- An expression that spells the coordinates of a cell is accepted, and names this cell. -/
theorem Charted.resolve_of_spells (ht : t.Charted) (hm : t.Has m) (hoff : m.indexOffsets = [])
    (haddr : m.Addressable) (hw : m.Within c) (hlen : idx.length = m.index.arity)
    (h : m.Spells idx c) : m.resolve idx = .ok c := by
  have hlow (k : Nat) : (m.lowerAt k).toInt = 0 := by
    rw [Node.lowerAt, hoff]
    rfl
  have hin : ∀ k a i, (m.index.positions.zip idx)[k]? = some (a, i) →
      Node.InBounds (m.side a) (m.lowerAt (0 + k)) i := by
    intro k a i hk
    have hi := h k a i hk
    have hlt := hw a
    rw [Node.InBounds, hlow]
    exact ⟨haddr a, by omega, by omega⟩
  obtain ⟨e, he⟩ := Node.exists_resolveEntries (c := .replicate axisCount 0) hin
  have hresolve : m.resolve idx = .ok e := by rwa [Node.resolve, if_neg (not_not.2 hlen)]
  obtain ⟨-, hspell, hzero⟩ := ht.spells_of_resolve hm hoff hresolve
  -- coordinates without an entry are zero, and so are those of the cell there
  suffices he : e = c by rwa [← he]
  apply Coords.ext_toNat
  intro a
  by_cases ha : a ∈ m.index.positions
  · obtain ⟨k, hk⟩ := List.mem_iff_getElem?.1 ha
    have hlt : k < idx.length := hlen ▸ (List.getElem?_eq_some_iff.1 hk).1
    have hzip : (m.entries idx)[k]? = some (a, idx[k]) := by
      rw [Node.entries, List.getElem?_zip_eq_some]
      exact ⟨hk, List.getElem?_eq_getElem hlt⟩
    have h1 := h k a _ hzip
    have h2 := hspell k a _ hzip
    omega
  · have hside : m.side a = 1 := by
      rw [Node.side, ht.fromRoot_inactive hm ha]
      rfl
    have hlt := hw a
    rw [hzero a ha]
    change 0 = _
    omega

/-- Rescaled to a node above, an accepted expression names the cell around. -/
theorem Charted.resolve_rescaled (ht : t.Charted) (hmn : t.Above m n) (hn : t.Has n)
    (hpos : m.index.positions <+: n.index.positions) (hm0 : m.indexOffsets = [])
    (hn0 : n.indexOffsets = [])
    (hratio : ∀ a ∈ m.index.positions, n.side a / m.side a < 2 ^ 31)
    (hc : n.resolve idx = .ok c) :
    ∃ js, rescaleEntries n.index.shape m.index.shape idx = some js ∧
      m.resolve (js.take m.index.arity) = .ok (around n m c) := by
  obtain ⟨haddr, hw⟩ := ht.of_resolve hn hc
  obtain ⟨hlen, hspell, -⟩ := ht.spells_of_resolve hn hn0 hc
  have hm := hmn.has hn
  obtain ⟨js, hjs, hjlen, hget⟩ := exists_rescaleEntries n.index.shape m.index.shape idx
    (fun s l i => .ofInt (i.toInt / ((s.toNat / l.toNat : Nat) : Int))) fun k s l i hs hl _ => by
      obtain ⟨a, ha, -, rfl, rfl⟩ := shape_getElem? hpos hs hl
      exact rescaleEntry_coarser (ht.side_pos hm a) (hmn.side_le ht a) (hratio a ha) i
  have hle : m.index.arity ≤ js.length := by
    rw [hjlen, hlen]
    exact hpos.length_le
  -- each entry that is kept is the coordinate of the cell around, the quotient by the ratio
  refine ⟨js, hjs, ht.resolve_of_spells hm hm0 (hmn.exists_side ht haddr).1
    (hmn.around_within ht hn haddr hw) (List.length_take_of_le hle) fun k a j hk => ?_⟩
  obtain ⟨ha, hj⟩ : m.index.positions[k]? = some a ∧ (js.take m.index.arity)[k]? = some j :=
    List.getElem?_zip_eq_some.1 hk
  have ha' := positions_getElem? hpos ha
  have hlt : k < idx.length := hlen ▸ (List.getElem?_eq_some_iff.1 ha').1
  have hi := hspell k a idx[k] (List.getElem?_zip_eq_some.2 ⟨ha', List.getElem?_eq_getElem hlt⟩)
  have hjk := hget k _ _ _ (IndexSpace.shape_of_position ha') (IndexSpace.shape_of_position ha)
    (List.getElem?_eq_getElem hlt)
  have hklt : k < m.index.arity := (List.getElem?_eq_some_iff.1 ha).1
  rw [List.getElem?_take_of_lt hklt, hjk, Option.some.injEq] at hj
  subst hj
  have hlast := (idx[k]).toInt_lt
  have hle := Nat.div_le_self (c.get a).toNat (n.side a / m.side a)
  rw [Node.toNat_around]
  change (Int32.ofInt (idx[k].toInt / ((n.side a / m.side a : Nat) : Int))).toInt = _
  rw [hi] at hlast ⊢
  rw [← Int.natCast_ediv]
  generalize (c.get a).toNat / (n.side a / m.side a) = q at hle
  exact Int32.toInt_ofInt_of_le (by omega) (by omega)

/-- Rescaled to a node below, an expression whose products are words comes back. -/
theorem Charted.rescaled_back (ht : t.Charted) (hmn : t.Above m n) (hn : t.Has n)
    (hpos : m.index.positions <+: n.index.positions)
    (hratio : ∀ (k : Nat) (s l : UInt64), n.index.shape[k]? = some s →
      m.index.shape[k]? = some l → s.toNat / l.toNat < 2 ^ 31)
    (hprod : ∀ (k : Nat) (s l : UInt64) (i : Int32), n.index.shape[k]? = some s →
      m.index.shape[k]? = some l → idx[k]? = some i →
        -2 ^ 31 ≤ i.toInt * (s.toNat / l.toNat : Nat) ∧
          i.toInt * (s.toNat / l.toNat : Nat) < 2 ^ 31) :
    ∃ js, rescaleEntries m.index.shape n.index.shape idx = some js ∧
      rescaleEntries n.index.shape m.index.shape js = some idx := by
  refine rescaleEntries_inverse _ _ _ fun k l s i hl hs hi => ?_
  obtain ⟨hlow, hhigh⟩ := hprod k s l i hs hl hi
  have hsmall := hratio k s l hs hl
  obtain ⟨a, -, -, rfl, rfl⟩ := shape_getElem? hpos hs hl
  have hside : 0 < (m.index.extent a).fromRoot.toNat := ht.side_pos (hmn.has hn) a
  have hle : (m.index.extent a).fromRoot.toNat ≤ (n.index.extent a).fromRoot.toNat :=
    hmn.side_le ht a
  obtain ⟨j, hj, hji⟩ := rescaleEntry_finer hside hle hsmall hlow hhigh
  have hdiv : 0 < (n.index.extent a).fromRoot.toNat / (m.index.extent a).fromRoot.toNat :=
    Nat.div_pos hle hside
  -- the product is exact, so that dividing it gives the entry again
  refine ⟨j, hj, ?_⟩
  rw [rescaleEntry_coarser hside hle hsmall, hji,
    Int.mul_ediv_cancel _ (Int.natCast_ne_zero.2 (Nat.ne_of_gt hdiv)), Int32.ofInt_toInt]

end Layout

/-- A lookup goes on from the cell where the first part of its way ends. -/
theorem Store.lookup_append (s : Store) (target : Layout.Node) (c : Coords)
    (ms ns : List Layout.Node) (cell : Address) :
    s.lookup target c (ms ++ ns) cell = (do
      match ← s.lookup target c ms cell with
      | some cell => s.lookup target c ns cell
      | none => return none) := by
  induction ms generalizing cell with
  | nil => rfl
  | cons m ms ih =>
    rw [List.cons_append, lookup, lookup]
    cases s.cell? target c m (cell.add m.offset) with
    | error e => rfl
    | ok o =>
      cases o with
      | none => rfl
      | some cell => exact ih cell

namespace Layout

variable {t : Layout} {m n : Node}

theorem Above.branch_prefix_branch (ht : t.Branching) (h : t.Above m n) :
    t.branch m.id <+: t.branch n.id := by
  induction h with
  | refl => exact List.prefix_rfl
  | step hp hn _ ih =>
    rw [ht.branch_child hp hn]
    exact ih.trans (List.prefix_append _ _)

/-- The lookup of a cell goes on in the cell around it. -/
theorem Above.lookup_around (ht : t.Charted) (h : t.Above m n) (hn : t.Has n) {c : Coords}
    (haddr : n.Addressable) : ∃ rest, t.branch n.id = t.branch m.id ++ rest ∧ ∀ s : Store,
      s.lookup n c (t.branch n.id) s.root = do
        match ← s.lookup m (Node.around n m c) (t.branch m.id) s.root with
        | some cell => s.lookup n c rest cell
        | none => return none := by
  obtain ⟨rest, hrest⟩ := h.branch_prefix_branch ht.toBranching
  refine ⟨rest, hrest.symm, fun s => ?_⟩
  have hcell : s.lookup m (Node.around n m c) (t.branch m.id) s.root =
      s.lookup n c (t.branch m.id) s.root := by
    rw [Store.lookup_branch, Store.lookup_branch, (Above.refl m).place_around ht h hn haddr]
  rw [hcell, ← hrest, Store.lookup_append]

end Layout

open Layout.Node (digit)

/-- Rescaled to a node above it, an accepted index expression of a node without offsets starts with
an expression that is accepted there, has the same digits at every level down to that node, and so
names the cell in which the lookup of the first cell goes on. An expression that is rescaled to a
node below, where its products are 32-bit words, comes back. -/
theorem Draft.Built.rescale_digits {d : Draft} (h : d.Built) {tree : TreeId} {compileOnly : Bool}
    {t : Layout} (ht : d.compile tree compileOnly = .ok t) {target level : Handle}
    (htarget : target.layout = t) (hlevel : level.layout = t) (hpath : level.id ∈ target.path)
    (hoff : target.indexOffsets = [])
    (hratio : ∀ (k : Nat) (s l : UInt64), target.node.index.shape[k]? = some s →
      level.node.index.shape[k]? = some l → s.toNat / l.toNat < 2 ^ 31) :
    (∀ idx c, target.node.resolve idx = .ok c → ∃ js e,
      rescaleIndex target level idx = some js ∧
      level.node.resolve (js.take level.node.index.arity) = .ok e ∧
      (∀ m, t.Has m → m.id ∈ level.path → ∀ a,
        digit level.node m a e = digit target.node m a c) ∧
      ∃ rest, t.branch target.id = t.branch level.id ++ rest ∧ ∀ s : Store,
        s.lookup target.node c (t.branch target.id) s.root = do
          match ← s.lookup level.node e (t.branch level.id) s.root with
          | some cell => s.lookup target.node c rest cell
          | none => return none) ∧
    ∀ idx : List Int32,
      (∀ (k : Nat) (s l : UInt64) (i : Int32), target.node.index.shape[k]? = some s →
        level.node.index.shape[k]? = some l → idx[k]? = some i →
          -2 ^ 31 ≤ i.toInt * (s.toNat / l.toNat : Nat) ∧
            i.toInt * (s.toNat / l.toNat : Nat) < 2 ^ 31) →
      ∃ js, rescaleIndex level target idx = some js ∧ rescaleIndex target level js = some idx := by
  have hnodes := (compile_nodes ht).1
  have hct := hnodes.charted h.good.grown
  have has {x : Handle} (hx : x.layout = t) : t.Has x.node ∧ x.node.id = x.id := by
    subst hx
    have hget : x.layout.nodes[x.id]? = some x.node := Array.getElem?_eq_getElem x.isLt
    exact ⟨hct.has hget, hct.id_eq hget⟩
  obtain ⟨hn, hnid⟩ := has htarget
  obtain ⟨hm, hmid⟩ := has hlevel
  rw [Handle.path, htarget, ← hnid, ← hmid] at hpath
  have hmn : t.Above level.node target.node := (hct.mem_path_iff hm hn).1 hpath
  have hpos := hnodes.positions_above h.good.grown hmn
  constructor
  · intro idx c hc
    -- the bounds are given by position, and needed by axis
    have hratio' : ∀ a ∈ level.node.index.positions,
        target.node.side a / level.node.side a < 2 ^ 31 := by
      intro a ha
      obtain ⟨k, hk⟩ := List.mem_iff_getElem?.1 ha
      exact hratio k _ _ (IndexSpace.shape_of_position (Layout.positions_getElem? hpos hk))
        (IndexSpace.shape_of_position hk)
    obtain ⟨js, hjs, hres⟩ := hct.resolve_rescaled hmn hn hpos
      (hnodes.indexOffsets_above h.good.grown hmn hoff) hoff hratio' hc
    obtain ⟨haddr, -⟩ := hct.of_resolve hn hc
    obtain ⟨rest, hrest, hlookup⟩ := hmn.lookup_around hct hn haddr
    rw [hnid, hmid] at hrest hlookup
    refine ⟨js, _, hjs, hres, fun m hhas hmem a => ?_, rest, hrest, hlookup⟩
    rw [Handle.path, hlevel, ← hmid] at hmem
    exact ((hct.mem_path_iff hhas hm).1 hmem).digit_around hct hmn hn haddr c a
  · exact fun idx hprod => hct.rescaled_back hmn hn hpos hratio hprod

namespace Sample

/-- The dense level below the pointer cells, and the level of these. -/
def fine : Handle := ⟨twiceLayout, 2, by decide +kernel⟩

def coarse : Handle := ⟨twiceLayout, 1, by decide +kernel⟩

/-- Coordinates 21 and 2. -/
def fineCoords : Coords := (fine.node.resolve [21, 2]).toOption.get (by decide +kernel)

theorem rescale_twice : rescaleIndex fine coarse [21, 2] = some [2, 2] ∧
    (∃ e, coarse.node.resolve [2] = .ok e ∧
      digit coarse.node coarse.node 0 e = digit fine.node coarse.node 0 fineCoords) ∧
    ∃ js, rescaleIndex coarse fine [3] = some js ∧ rescaleIndex fine coarse js = some [3] := by
  have hcompile : twice.draft.compile 0 false = .ok twiceLayout := eq_ok_get (by decide +kernel)
  have hresolve : fine.node.resolve [21, 2] = .ok fineCoords := eq_ok_get (by decide +kernel)
  have hshape : fine.node.index.shape = [32, 3] := by decide +kernel
  have hshape' : coarse.node.index.shape = [4] := by decide +kernel
  have hratio : ∀ (k : Nat) (s l : UInt64), fine.node.index.shape[k]? = some s →
      coarse.node.index.shape[k]? = some l → s = 32 ∧ l = 4 ∧ k = 0 := by
    intro k s l hs hl
    rw [hshape] at hs
    rw [hshape'] at hl
    cases k with
    | zero => simpa [eq_comm] using And.intro hs hl
    | succ k => cases hl
  have hpath : coarse.id ∈ fine.path := by decide +kernel
  have hoff : fine.indexOffsets = [] := by decide +kernel
  obtain ⟨hdown, hback⟩ := built_twice.rescale_digits hcompile rfl rfl hpath hoff
    fun k s l hs hl => by
      obtain ⟨rfl, rfl, -⟩ := hratio k s l hs hl
      decide
  have hjs : rescaleIndex fine coarse [21, 2] = some [2, 2] := by decide +kernel
  obtain ⟨js, e, hjs', he, hdigit, -⟩ := hdown _ _ hresolve
  rw [hjs, Option.some.injEq] at hjs'
  subst hjs'
  have harity : coarse.node.index.arity = 1 := by decide +kernel
  rw [harity] at he
  refine ⟨hjs, ⟨e, he, hdigit coarse.node (by decide +kernel) (by decide +kernel) 0⟩,
    hback [3] fun k s l i hs hl hi => ?_⟩
  obtain ⟨rfl, rfl, rfl⟩ := hratio k s l hs hl
  cases hi
  decide

end Sample

end SparseLayout
