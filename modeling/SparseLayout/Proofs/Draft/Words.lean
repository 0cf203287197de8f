import SparseLayout.Proofs.Draft.Grown

namespace SparseLayout

namespace DataType

theorem toNat_bits_quantFloat (digits exponent : UInt8) :
    (quantFloat digits exponent).bits.toNat = digits.toNat + exponent.toNat := by
  have := digits.toNat_lt
  have := exponent.toNat_lt
  unfold bits
  rw [UInt32.toNat_add, UInt8.toNat_toUInt32, UInt8.toNat_toUInt32]
  exact Nat.mod_eq_of_lt (by omega)

/-- A quantized float has digits and an exponent. -/
theorem quantFloat_pos {digits exponent : UInt8} (h : (quantFloat digits exponent).check = .ok ()) :
    0 < digits.toNat ∧ 0 < exponent.toNat := by
  simp only [check] at h
  by_cases hd : 1 ≤ digits ∧ digits ≤ 32 ∧ 1 ≤ exponent ∧ exponent ≤ 8
  · exact ⟨hd.1, hd.2.2.1⟩
  · rw [if_neg hd] at h
    cases h

theorem bits_pos {t : DataType} (h : t.check = .ok ()) (hq : t.isQuant = true) :
    0 < t.bits.toNat := by
  cases t with
  | quantInt bits signed =>
    simp only [check] at h
    by_cases hb : 1 ≤ bits ∧ bits ≤ 32
    · exact hb.1
    · rw [if_neg hb] at h
      cases h
  | quantFloat digits exponent =>
    rw [toNat_bits_quantFloat]
    exact Nat.add_pos_left (quantFloat_pos h).1 _
  | _ => cases hq

end DataType

namespace Draft

/-- What a bit container records of its word: how it is divided, the members in it, and its bits and
exponents in use. -/
structure Word where
  kind : Kind
  index : IndexSpace
  placed : List PlaceInfo
  bitsUsed : UInt32
  exponentGroups : UInt32

/-- Nothing is placed yet. -/
structure Word.Blank (w : Word) : Prop where
  placed : w.placed = []
  bitsUsed : w.bitsUsed = 0
  exponentGroups : w.exponentGroups = 0

/-- The word of a node that holds these members. -/
def Node.word (n : Node) (placed : List PlaceInfo) : Word :=
  ⟨n.kind, n.index, placed, n.bitsUsed, n.exponentGroups⟩

/-- The word of a node, if it is a bit container. -/
def word? (d : Draft) (id : NodeId) : Option Word :=
  match d.nodes[id]? with
  | some n => if n.kind.type.isBitLevel then some (n.word (d.placed id)) else none
  | none => none

variable {d d' d'' : Draft} {id p : NodeId} {n q : Node} {kind : Kind} {w : Word}
  {mid : Option NodeId}

theorem word?_eq_some_iff : d.word? id = some w ↔ ∃ n, d.nodes[id]? = some n ∧
    n.kind.type.isBitLevel = true ∧ w = n.word (d.placed id) := by
  unfold word?
  cases hn : d.nodes[id]? with
  | none => simp
  | some n =>
    by_cases hb : n.kind.type.isBitLevel = true
    · simp only [hb, if_true, Option.some.injEq, exists_eq_left']
      exact ⟨fun h => ⟨trivial, h.symm⟩, fun h => h.2.symm⟩
    · simp [hb]

theorem word?_of_some (hn : d.nodes[id]? = some n) (hb : n.kind.type.isBitLevel = true) :
    d.word? id = some (n.word (d.placed id)) :=
  word?_eq_some_iff.2 ⟨n, hn, hb, rfl⟩

/-- Nodes keep their kinds, and bit containers other than `mid` their words. -/
structure KeepsBut (mid : Option NodeId) (d d' : Draft) : Prop where
  kind : ∀ {id : NodeId} {n : Node}, d.nodes[id]? = some n →
    ∃ n', d'.nodes[id]? = some n' ∧ n'.kind = n.kind
  word : ∀ {id : NodeId} {w : Word}, some id ≠ mid → d'.word? id = some w →
    d.word? id = some w ∨ d.nodes[id]? = none ∧ w.Blank

/-- Nodes keep their kinds, and bit containers their words. -/
abbrev Keeps (d d' : Draft) : Prop := KeepsBut none d d'

theorem KeepsBut.refl (mid : Option NodeId) (d : Draft) : KeepsBut mid d d :=
  ⟨fun hn => ⟨_, hn, rfl⟩, fun _ hw => Or.inl hw⟩

theorem KeepsBut.trans (h : KeepsBut mid d d') (h' : KeepsBut mid d' d'') : KeepsBut mid d d'' := by
  constructor
  · intro id n hn
    obtain ⟨n', hn', hk⟩ := h.kind hn
    obtain ⟨n'', hn'', hk'⟩ := h'.kind hn'
    exact ⟨n'', hn'', hk'.trans hk⟩
  · intro id w hid hw
    rcases h'.word hid hw with hw' | ⟨hnone, hblank⟩
    · exact h.word hid hw'
    · refine Or.inr ⟨?_, hblank⟩
      cases hn : d.nodes[id]? with
      | none => rfl
      | some n =>
        obtain ⟨n', hn', -⟩ := h.kind hn
        rw [hnone] at hn'
        cases hn'

/-- A node is added under one that is not among the containers that keep their words. -/
theorem Grown.keepsBut_push (h : d.Grown) (hq : d.nodes[p]? = some q)
    (hb : q.kind.type.isBitLevel = false ∨ mid = some p) (kind : Kind) :
    KeepsBut mid d (d.push p q kind) := by
  constructor
  · intro id n hn
    refine ⟨_, getElem?_push_of_some hn, ?_⟩
    split <;> rfl
  · intro id w hid hw
    obtain ⟨m, hm, hbit, rfl⟩ := word?_eq_some_iff.1 hw
    rw [h.placed_push hq]
    rcases of_getElem?_push hm with ⟨rfl, rfl⟩ | ⟨n, hn, rfl⟩
    · rw [if_neg (Nat.ne_of_gt (lt_next_of_some hq)), placed_next]
      exact Or.inr ⟨Array.getElem?_eq_none (Nat.le_refl _), rfl, rfl, rfl⟩
    · by_cases hp : id = p
      · subst hp
        rw [hq, Option.some.injEq] at hn
        subst hn
        rcases hb with hb | hb
        · rw [if_pos rfl, hb] at hbit
          cases hbit
        · exact absurd hb.symm hid
      · rw [if_neg hp] at hbit ⊢
        rw [if_neg hp]
        exact Or.inl (word?_of_some hn hbit)

theorem keepsBut_setBits (hq : d.nodes[p]? = some q)
    (hb : q.kind.type.isBitLevel = false ∨ mid = some p) (used groups : UInt32) :
    KeepsBut mid d (d.setBits p used groups) := by
  constructor
  · intro id n hn
    refine ⟨_, getElem?_setBits_of_some hn used groups, ?_⟩
    split <;> rfl
  · intro id w hid hw
    obtain ⟨m, hm, hbit, rfl⟩ := word?_eq_some_iff.1 hw
    obtain ⟨n, hn, rfl⟩ := of_getElem?_setBits hm
    rw [placed_setBits]
    by_cases hp : id = p
    · subst hp
      rw [hq, Option.some.injEq] at hn
      subst hn
      rcases hb with hb | hb
      · rw [if_pos rfl, hb] at hbit
        cases hbit
      · exact absurd hb.symm hid
    · rw [if_neg hp] at hbit ⊢
      exact Or.inl (word?_of_some hn hbit)

end Draft

end SparseLayout
