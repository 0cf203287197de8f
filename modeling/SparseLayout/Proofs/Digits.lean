import SparseLayout.Proofs.Layout.Region
import Mathlib.Algebra.BigOperators.Group.List.Lemmas
import Mathlib.Algebra.Order.BigOperators.GroupWithZero.List

namespace SparseLayout

/-- The row-major number of digits, each with the extent of its axis. -/
def rowMajor (ds : List (Nat × Nat)) : Nat := ds.foldl (fun n d => n * d.1 + d.2) 0

theorem rowMajor_append (ds : List (Nat × Nat)) (d : Nat × Nat) :
    rowMajor (ds ++ [d]) = rowMajor ds * d.1 + d.2 := by
  simp [rowMajor]

/-- Digits below their extents make a number below the product of the extents. -/
theorem rowMajor_lt {ds : List (Nat × Nat)} (h : ∀ d ∈ ds, d.2 < d.1) :
    rowMajor ds < (ds.map (·.1)).prod := by
  induction ds using List.reverseRecOn with
  | nil => exact Nat.one_pos
  | append_singleton ds d ih =>
    have hd := h d (by simp)
    have hds := ih fun e he => h e (by simp [he])
    rw [rowMajor_append, List.map_append, List.prod_append]
    simp only [List.map_cons, List.map_nil, List.prod_cons, List.prod_nil, Nat.mul_one]
    calc rowMajor ds * d.1 + d.2 < rowMajor ds * d.1 + d.1 := by omega
      _ = (rowMajor ds + 1) * d.1 := by rw [Nat.succ_mul]
      _ ≤ (ds.map (·.1)).prod * d.1 := Nat.mul_le_mul_right _ hds

/-- Digits below their extents are known by their number. -/
theorem rowMajor_inj {ds es : List (Nat × Nat)} (hd : ∀ d ∈ ds, d.2 < d.1)
    (he : ∀ e ∈ es, e.2 < e.1) (hext : ds.map (·.1) = es.map (·.1))
    (h : rowMajor ds = rowMajor es) : ds = es := by
  induction ds using List.reverseRecOn generalizing es with
  | nil => simpa using hext.symm
  | append_singleton ds d ih =>
    rcases List.eq_nil_or_concat es with rfl | ⟨es, e, rfl⟩
    · simp at hext
    · rw [List.concat_eq_append] at hext h he ⊢
      simp only [List.map_append, List.map_cons, List.map_nil] at hext
      obtain ⟨hext, hde⟩ := List.append_inj' hext rfl
      have hde : d.1 = e.1 := by simpa using hde
      have hd1 := hd d (by simp)
      have he1 := he e (by simp)
      rw [rowMajor_append, rowMajor_append, hde] at h
      have hpos : 0 < e.1 := by omega
      have hdiv := congrArg (· / e.1) h
      have hmod := congrArg (· % e.1) h
      simp only [Nat.mul_comm _ e.1, Nat.mul_add_div hpos, Nat.mul_add_mod] at hdiv hmod
      rw [Nat.mod_eq_of_lt (by omega), Nat.mod_eq_of_lt he1] at hmod
      rw [Nat.div_eq_of_lt (by omega), Nat.div_eq_of_lt he1] at hdiv
      have hds := ih (fun x hx => hd x (by simp [hx])) (fun x hx => he x (by simp [hx])) hext
        (by omega)
      rw [hds, show d = e from Prod.ext hde hmod]

namespace Layout

open Node (digit linear)

variable {t : Layout} {target n : Node} {c : Coords}

/-- The digits that a level reads, with the memory extents of their axes. -/
def Node.digits (target n : Node) (c : Coords) : List (Nat × Nat) :=
  n.kind.axes.map fun a => ((n.index.extent a).padded.toNat, (digit target n a c).toNat)

/-- The number of the cell that coordinates name in a container of a level. -/
def Node.number (target n : Node) (c : Coords) : Nat :=
  match n.container with
  | .dense | .bitmasked _ | .pointer => (linear target n c).toNat
  | .dynamic axis .. => (digit target n axis c).toNat
  | .root | .bitStruct | .bitArray | .place => 0

theorem toNat_max (a b : UInt32) : (max a b).toNat = max a.toNat b.toNat := by
  change (if a ≤ b then b else a).toNat = _
  by_cases h : a ≤ b
  · rw [if_pos h, Nat.max_eq_right (UInt32.le_iff_toNat_le.1 h)]
  · rw [if_neg h, Nat.max_eq_left]
    exact Nat.le_of_not_le fun hn => h (UInt32.le_iff_toNat_le.2 hn)

/-- A digit is below the extent declared at its level. -/
theorem digit_lt (target n : Node) (a : Axis) (c : Coords) :
    (digit target n a c).toNat < max (n.index.extent a).declared.toNat 1 := by
  unfold digit
  rw [UInt64.toNat_mod, UInt32.toNat_toUInt64, toNat_max]
  exact Nat.mod_lt _ (Nat.lt_of_lt_of_le Nat.one_pos (Nat.le_max_right _ _))

theorem Charted.exists_division (ht : t.Charted) (hn : t.Has n) {a : Axis}
    (ha : a ∈ n.kind.axes) : 0 < (n.index.extent a).declared.toNat ∧
      (n.index.extent a).declared.toNat ≤ (n.index.extent a).padded.toNat ∧
        ∃ d ∈ n.kind.divisions, d.axis = a ∧ d.extent = (n.index.extent a).declared := by
  obtain ⟨d, hd, rfl⟩ := List.mem_map.1 ha
  obtain ⟨h1, h2, h3⟩ := ht.division hn hd
  rw [h1]
  exact ⟨h2, h3, d, hd, rfl, rfl⟩

theorem Charted.digits_lt (ht : t.Charted) (hn : t.Has n) (target : Node) (c : Coords) :
    ∀ d ∈ Node.digits target n c, d.2 < d.1 := by
  intro d hd
  obtain ⟨a, ha, rfl⟩ := List.mem_map.1 hd
  obtain ⟨h1, h2, -⟩ := ht.exists_division hn ha
  have := digit_lt target n a c
  dsimp only
  omega

theorem map_fst_digits (target n : Node) (c : Coords) :
    (Node.digits target n c).map (·.1) =
      n.kind.axes.map fun a => (n.index.extent a).padded.toNat := by
  simp [Node.digits, Function.comp_def]

/-- Numbers are equal for equal digits only. -/
theorem Charted.rowMajor_digits_inj (ht : t.Charted) (hn : t.Has n) {target : Node} {c d : Coords} :
    rowMajor (Node.digits target n c) = rowMajor (Node.digits target n d) ↔
      ∀ a ∈ n.kind.axes, digit target n a c = digit target n a d := by
  constructor
  · intro h
    have hds := rowMajor_inj (ht.digits_lt hn target c) (ht.digits_lt hn target d)
      (by rw [map_fst_digits, map_fst_digits]) h
    intro a ha
    have := (List.map_inj_left.1 hds) a ha
    exact UInt64.toNat_inj.1 (Prod.mk.inj this).2
  · intro h
    congr 1
    exact List.map_congr_left fun a ha => by rw [h a ha]

/-- The number of a cell in exact numbers, where a word can count the cells. -/
theorem Charted.toNat_linear (ht : t.Charted) (hn : t.Has n)
    (hcells : (n.kind.axes.map fun a => (n.index.extent a).padded.toNat).prod < 2 ^ 64)
    (target : Node) (c : Coords) :
    (linear target n c).toNat = rowMajor (Node.digits target n c) := by
  have hlt := ht.digits_lt hn target c
  rw [← map_fst_digits target n c] at hcells
  -- a prefix of the axes has a number that is no larger
  unfold linear Node.digits at *
  generalize n.kind.axes = axes at *
  induction axes using List.reverseRecOn with
  | nil => rfl
  | append_singleton axes a ih =>
    simp only [List.map_append, List.map_cons, List.map_nil, List.prod_append, List.prod_cons,
      List.prod_nil, Nat.mul_one] at hcells hlt
    have ha := hlt _ (List.mem_append_right _ (List.mem_singleton.2 rfl))
    dsimp only at ha
    have hds : ∀ d ∈ axes.map fun a =>
        ((n.index.extent a).padded.toNat, (digit target n a c).toNat), d.2 < d.1 :=
      fun d hd => hlt d (List.mem_append_left _ hd)
    have hle := Nat.le_mul_of_pos_right (List.map (fun x => x.1) (List.map (fun a =>
      ((n.index.extent a).padded.toNat, (digit target n a c).toNat)) axes)).prod
      (Nat.lt_of_le_of_lt (Nat.zero_le _) ha)
    have hrow := rowMajor_lt hlt
    have hprev := ih (by omega) hds
    simp only [List.map_append, List.map_cons, List.map_nil, rowMajor_append, List.prod_append,
      List.prod_cons, List.prod_nil, Nat.mul_one] at hrow ⊢
    rw [List.foldl_append, List.foldl_cons, List.foldl_nil, UInt64.toNat_add, UInt64.toNat_mul,
      hprev, UInt32.toNat_toUInt64, Nat.mod_add_mod]
    exact Nat.mod_eq_of_lt (by omega)

theorem WellFormed.toNat_linear (ht : t.WellFormed) (hn : t.Has n) (target : Node) (c : Coords) :
    (linear target n c).toNat = rowMajor (Node.digits target n c) := by
  apply ht.toCharted.toNat_linear hn
  rw [← ht.cells_eq hn]
  exact n.cells.toNat_lt

/-- The number of a cell is one that its container has. -/
theorem WellFormed.numbers_number (ht : t.WellFormed) (hn : t.Has n) (target : Node) (c : Coords) :
    n.Numbers (Node.number target n c) := by
  have hlin : (linear target n c).toNat < n.cells.toNat := by
    rw [ht.toNat_linear hn, ht.cells_eq hn, ← map_fst_digits target n c]
    exact rowMajor_lt (ht.digits_lt hn target c)
  unfold Node.Numbers Node.number
  cases hc : n.container <;> first | exact hlin | trivial

/-- The digit of an element is below the extent of the list. -/
theorem WellFormed.digit_lt_of_dynamic (ht : t.WellFormed) (hn : t.Has n) {axis : Axis}
    {cap : UInt32} {bytes : UInt64} (hc : n.container = .dynamic axis cap bytes)
    (target : Node) (c : Coords) : ∃ dim chunk, n.kind = .dynamic axis dim chunk ∧
      (digit target n axis c).toNat < dim.toNat := by
  obtain ⟨dim, chunk, hk⟩ := ht.kind_of_dynamic hn hc
  obtain ⟨hdim, hpos, -⟩ := ht.division hn (d := ⟨axis, dim⟩) (by simp [hk, Kind.divisions])
  have hlt := digit_lt target n axis c
  rw [hdim] at hlt
  change 0 < dim.toNat at hpos
  change _ < max dim.toNat 1 at hlt
  exact ⟨dim, chunk, hk, by omega⟩

end Layout

end SparseLayout
