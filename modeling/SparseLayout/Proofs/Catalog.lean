import SparseLayout.Field
import Mathlib.Data.List.Basic

namespace SparseLayout

/-- A member of the field, or the adjoint of one. -/
def Field.Mentions (f : Field) (m : Member) : Prop :=
  m ∈ f.members ∨ ∃ p ∈ f.members, p.adjoint? = some m

namespace Catalog

/-- Members with ids that were given out, each with its own; their adjoints are among them, and
each is the adjoint of one member only. -/
structure Registers (c : Catalog) (known : Member → Prop) : Prop where
  id_lt : ∀ {m : Member}, known m → m.id < c.placements.size
  id_inj : ∀ {m m' : Member}, known m → known m' → m.id = m'.id → m = m'
  adjoint : ∀ {m a : Member}, known m → m.adjoint? = some a → known a
  adjoint_inj : ∀ {m m' a a' : Member}, known m → known m' → m.adjoint? = some a →
    m'.adjoint? = some a' → a.id = a'.id → m = m'

variable {c c' : Catalog} {decl : FieldDecl} {f : Field} {m : Member} {known : Member → Prop}

theorem components_snd (c : Catalog) (decl : FieldDecl) (name : String) :
    (c.components decl name).2.placements.size = c.placements.size + decl.shape.count.toNat ∧
      (c.components decl name).2.roots = c.roots ∧
        ∀ i, (c.components decl name).2.placement? i = c.placement? i := by
  refine ⟨by simp [components], rfl, fun i => ?_⟩
  unfold components placement?
  simp only [Array.getElem?_append]
  split
  · rfl
  · rename_i hi
    rw [Array.getElem?_eq_none (Nat.le_of_not_lt hi), Array.getElem?_replicate]
    split <;> rfl

theorem declare_error {e : BuildError} (h : declare decl c = .error e c') : c' = c := by
  unfold declare at h
  split at h
  · cases h
    rfl
  · split at h <;> cases h

/-- A declared field has one member for each of its first numbers, all alike; the adjoints come
before the primals. -/
theorem declare_cases (h : declare decl c = .ok f c') : ∃ primal : Nat → Member,
    f.members = (List.range decl.shape.count.toNat).map primal ∧
    c'.roots = c.roots ∧ (∀ i, c'.placement? i = c.placement? i) ∧
    ((∃ adjoint : Nat → Member, ∀ k, (primal k).adjoint? = some (adjoint k) ∧
        (adjoint k).adjoint? = none ∧ (adjoint k).id = c.placements.size + k ∧
        (primal k).id = c.placements.size + decl.shape.count.toNat + k) ∧
      c'.placements.size = c.placements.size + 2 * decl.shape.count.toNat ∨
    (∀ k, (primal k).adjoint? = none ∧ (primal k).id = c.placements.size + k) ∧
      c'.placements.size = c.placements.size + decl.shape.count.toNat) := by
  unfold declare at h
  split at h
  · cases h
  split at h
  · cases h
    obtain ⟨hsize, hroots, hplaced⟩ := c.components_snd decl (adjointName decl.name)
    obtain ⟨hsize', hroots', hplaced'⟩ :=
      (c.components decl (adjointName decl.name)).2.components_snd decl decl.name
    refine ⟨fun k => ⟨⟨(c.components decl (adjointName decl.name)).2.placements.size + k,
        decl.shape.memberName decl.name k, decl.dtype⟩, .primal (some ⟨c.placements.size + k,
          decl.shape.memberName (adjointName decl.name) k, decl.dtype⟩)⟩,
      ?_, hroots'.trans hroots, fun i => (hplaced' i).trans (hplaced i),
      Or.inl ⟨⟨_, fun k => ⟨rfl, rfl, rfl, ?_⟩⟩, ?_⟩⟩
    · exact List.zipWith_map.trans List.zipWith_self
    · rw [← hsize]
    · exact hsize'.trans (by omega)
  · cases h
    obtain ⟨hsize, hroots, hplaced⟩ := c.components_snd decl decl.name
    refine ⟨fun k => ⟨⟨c.placements.size + k, decl.shape.memberName decl.name k, decl.dtype⟩,
      .primal none⟩, List.map_map, hroots, hplaced, Or.inr ⟨fun k => ⟨rfl, rfl⟩, hsize⟩⟩

/-- Members without adjoints that have the next ids. -/
theorem registers_primals {n : Nat} {primal : Nat → Member}
    (hmembers : f.members = (List.range n).map primal)
    (hprimal : ∀ k, (primal k).adjoint? = none ∧ (primal k).id = c.placements.size + k)
    (hsize : c'.placements.size = c.placements.size + n) :
    (∀ m, f.Mentions m → c.placements.size ≤ m.id) ∧ c'.Registers f.Mentions := by
  have hment {m : Member} (hm : f.Mentions m) : ∃ k < n, m = primal k := by
    unfold Field.Mentions at hm
    simp only [hmembers, List.mem_map, List.mem_range] at hm
    rcases hm with ⟨k, hk, rfl⟩ | ⟨p, ⟨k, hk, rfl⟩, hpa⟩
    · exact ⟨k, hk, rfl⟩
    · rw [(hprimal k).1] at hpa
      cases hpa
  have hno {m a : Member} (hm : f.Mentions m) (ha : m.adjoint? = some a) : False := by
    obtain ⟨k, hk, rfl⟩ := hment hm
    rw [(hprimal k).1] at ha
    cases ha
  constructor
  · intro m hm
    obtain ⟨k, hk, rfl⟩ := hment hm
    exact (hprimal k).2 ▸ Nat.le_add_right _ k
  constructor
  · intro m hm
    obtain ⟨k, hk, rfl⟩ := hment hm
    rw [(hprimal k).2, hsize]
    exact Nat.add_lt_add_left hk _
  · intro m m' hm hm' he
    obtain ⟨k, hk, rfl⟩ := hment hm
    obtain ⟨k', hk', rfl⟩ := hment hm'
    rw [(hprimal k).2, (hprimal k').2] at he
    exact congrArg primal (Nat.add_left_cancel he)
  · exact fun hm ha => (hno hm ha).elim
  · exact fun hm _ ha => (hno hm ha).elim

/-- Adjoints that have the next ids, and behind them their primals. -/
theorem registers_adjoints {n : Nat} {primal adjoint : Nat → Member}
    (hmembers : f.members = (List.range n).map primal)
    (hadjoint : ∀ k, (primal k).adjoint? = some (adjoint k) ∧ (adjoint k).adjoint? = none ∧
      (adjoint k).id = c.placements.size + k ∧ (primal k).id = c.placements.size + n + k)
    (hsize : c'.placements.size = c.placements.size + 2 * n) :
    (∀ m, f.Mentions m → c.placements.size ≤ m.id) ∧ c'.Registers f.Mentions := by
  have hmem {k : Nat} (hk : k < n) : primal k ∈ f.members := by
    rw [hmembers]
    exact List.mem_map_of_mem (List.mem_range.2 hk)
  have hment {m : Member} (hm : f.Mentions m) : ∃ k < n, m = primal k ∨ m = adjoint k := by
    unfold Field.Mentions at hm
    simp only [hmembers, List.mem_map, List.mem_range] at hm
    rcases hm with ⟨k, hk, rfl⟩ | ⟨p, ⟨k, hk, rfl⟩, hpa⟩
    · exact ⟨k, hk, Or.inl rfl⟩
    · rw [(hadjoint k).1, Option.some.injEq] at hpa
      exact ⟨k, hk, Or.inr hpa.symm⟩
  -- a member with an adjoint is a primal
  have hprimal {m a : Member} (hm : f.Mentions m) (ha : m.adjoint? = some a) :
      ∃ k < n, m = primal k ∧ a = adjoint k := by
    obtain ⟨k, hk, rfl | rfl⟩ := hment hm
    · rw [(hadjoint k).1, Option.some.injEq] at ha
      exact ⟨k, hk, rfl, ha.symm⟩
    · rw [(hadjoint k).2.1] at ha
      cases ha
  have hid (k : Nat) : (adjoint k).id = c.placements.size + k ∧
      (primal k).id = c.placements.size + n + k := (hadjoint k).2.2
  constructor
  · intro m hm
    obtain ⟨k, hk, rfl | rfl⟩ := hment hm
    · exact (hid k).2 ▸ Nat.le_trans (Nat.le_add_right _ n) (Nat.le_add_right _ k)
    · exact (hid k).1 ▸ Nat.le_add_right _ k
  constructor
  · intro m hm
    obtain ⟨k, hk, rfl | rfl⟩ := hment hm
    · rw [(hid k).2]
      exact (by omega : c.placements.size + n + k < c'.placements.size)
    · rw [(hid k).1]
      exact (by omega : c.placements.size + k < c'.placements.size)
  · intro m m' hm hm' he
    obtain ⟨k, hk, rfl | rfl⟩ := hment hm <;> obtain ⟨k', hk', rfl | rfl⟩ := hment hm' <;>
      simp only [hid] at he
    · exact congrArg primal (Nat.add_left_cancel he)
    · have he : c.placements.size + n + k = c.placements.size + k' := he
      omega
    · have he : c.placements.size + k = c.placements.size + n + k' := he
      omega
    · exact congrArg adjoint (Nat.add_left_cancel he)
  · intro m a hm ha
    obtain ⟨k, hk, rfl, rfl⟩ := hprimal hm ha
    exact Or.inr ⟨primal k, hmem hk, ha⟩
  · intro m m' a a' hm hm' ha ha' he
    obtain ⟨k, hk, rfl, rfl⟩ := hprimal hm ha
    obtain ⟨k', hk', rfl, rfl⟩ := hprimal hm' ha'
    rw [(hid k).1, (hid k').1] at he
    exact congrArg primal (Nat.add_left_cancel he)

/-- The ids that a field mentions are new ones, and the catalog registers its members. -/
theorem declare_registers (h : declare decl c = .ok f c') :
    c.placements.size ≤ c'.placements.size ∧ (∀ m, f.Mentions m → c.placements.size ≤ m.id) ∧
      c'.Registers f.Mentions := by
  obtain ⟨primal, hmembers, -, -, ⟨⟨adjoint, hadjoint⟩, hsize⟩ | ⟨hprimal, hsize⟩⟩ :=
    declare_cases h
  · exact ⟨by omega, registers_adjoints hmembers hadjoint hsize⟩
  · exact ⟨by omega, registers_primals hmembers hprimal hsize⟩

/-- Placing members registers no others. -/
theorem Registers.of_size (h : c.Registers known) (hsize : c.placements.size = c'.placements.size) :
    c'.Registers known :=
  ⟨fun hm => hsize ▸ h.id_lt hm, h.id_inj, h.adjoint, h.adjoint_inj⟩

/-- A declared field adds members to those that the catalog registers. -/
theorem Registers.declare (h : c.Registers known) (hf : declare decl c = .ok f c') :
    c'.Registers fun m => known m ∨ f.Mentions m := by
  obtain ⟨hsize, hnew, hreg⟩ := declare_registers hf
  -- ids given out before are smaller
  have hapart {m m' : Member} (hm : known m) (hm' : f.Mentions m') : m.id ≠ m'.id :=
    Nat.ne_of_lt (Nat.lt_of_lt_of_le (h.id_lt hm) (hnew m' hm'))
  constructor
  · rintro m (hm | hm)
    · exact Nat.lt_of_lt_of_le (h.id_lt hm) hsize
    · exact hreg.id_lt hm
  · rintro m m' (hm | hm) (hm' | hm') hid
    · exact h.id_inj hm hm' hid
    · exact absurd hid (hapart hm hm')
    · exact absurd hid.symm (hapart hm' hm)
    · exact hreg.id_inj hm hm' hid
  · rintro m a (hm | hm) ha
    · exact Or.inl (h.adjoint hm ha)
    · exact Or.inr (hreg.adjoint hm ha)
  · rintro m m' a a' (hm | hm) (hm' | hm') ha ha' hid
    · exact h.adjoint_inj hm hm' ha ha' hid
    · exact absurd hid (hapart (h.adjoint hm ha) (hreg.adjoint hm' ha'))
    · exact absurd hid.symm (hapart (h.adjoint hm' ha') (hreg.adjoint hm ha))
    · exact hreg.adjoint_inj hm hm' ha ha' hid

end Catalog

end SparseLayout
