import SparseLayout.Proofs.Coordinates

namespace SparseLayout

namespace Layout

namespace Node

/-- The difference of two 32-bit integers fits into 64 bits. -/
theorem toInt_entry_sub (i lower : Int32) :
    (i.toInt64 - lower.toInt64).toInt = i.toInt - lower.toInt := by
  have hi := i.toInt_lt
  have hi' := i.le_toInt
  have hl := lower.toInt_lt
  have hl' := lower.le_toInt
  rw [Int64.toInt_sub, Int32.toInt_toInt64, Int32.toInt_toInt64]
  exact Int.bmod_eq_of_le (by omega) (by omega)

/-- What is reported of an entry out of bounds: its bounds, or a panic where the upper one is no
signed word. -/
def outOfBounds (position : Nat) (i lower : Int32) (upper : Int) : AccessError :=
  if -2 ^ 63 ≤ upper ∧ upper < 2 ^ 63 then
    .indexOutOfBounds position i.toInt64 lower.toInt64 (.ofInt upper)
  else .panic .overflow

/-- An entry is checked by its exact distance from the lower bound, against the extent as a signed
word. -/
theorem resolveEntry_eq (position : Nat) (extent : UInt64) (lower i : Int32) :
    resolveEntry position extent lower i =
      if i.toInt - lower.toInt < 0 ∨ (extent.toNat : Int).bmod (2 ^ 64) ≤ i.toInt - lower.toInt then
        .error (outOfBounds position i lower (lower.toInt + (extent.toNat : Int).bmod (2 ^ 64)))
      else .ok (i.toInt64 - lower.toInt64).toUInt64 := by
  have hext : extent.toInt64.toInt = (extent.toNat : Int).bmod (2 ^ 64) :=
    BitVec.toInt_eq_toNat_bmod _
  have hzero : (0 : Int64).toInt = 0 := rfl
  have hsigned (v : Int) : (Int64.minValue.toInt ≤ v ∧ v ≤ Int64.maxValue.toInt) ↔
      -2 ^ 63 ≤ v ∧ v < 2 ^ 63 := and_congr_right fun _ => Int.lt_add_one_iff.symm
  unfold resolveEntry outOfBounds
  simp only [Int64.lt_iff_toInt_lt, Int64.le_iff_toInt_le, toInt_entry_sub, hext, hzero, hsigned,
    Int32.toInt_toInt64, apply_ite Except.error]

/-- An entry that is accepted is counted from its lower bound, below an extent that is exact. -/
theorem of_resolveEntry {position : Nat} {extent v : UInt64} {lower i : Int32}
    (h : resolveEntry position extent lower i = .ok v) :
    extent.toNat < 2 ^ 63 ∧ v.toNat < extent.toNat ∧ (v.toNat : Int) = i.toInt - lower.toInt := by
  rw [resolveEntry_eq] at h
  split at h
  · cases h
  rename_i hnot
  cases h
  have hi := i.toInt_lt
  have hl := lower.le_toInt
  have hlt := extent.toNat_lt
  -- an extent that is no signed word reads as a negative number, and nothing lies below it
  have hsmall : extent.toNat < 2 ^ 63 := by
    by_contra hge
    have hneg : (extent.toNat : Int).bmod (2 ^ 64) = extent.toNat - 2 ^ 64 := by
      rw [Int.bmod_def]
      omega
    omega
  have hpos : (extent.toNat : Int).bmod (2 ^ 64) = extent.toNat :=
    Int.bmod_eq_of_le (by omega) (by omega)
  have hle : (0 : Int64) ≤ i.toInt64 - lower.toInt64 := by
    rw [Int64.le_iff_toInt_le, toInt_entry_sub]
    change 0 ≤ i.toInt - lower.toInt
    omega
  have hv : (i.toInt64 - lower.toInt64).toUInt64.toNat = (i.toInt - lower.toInt).toNat := by
    rw [Int64.toNat_toUInt64_of_le hle]
    exact congrArg Int.toNat (toInt_entry_sub i lower)
  rw [hv]
  omega

variable {n : Node} {idx idx' : List Int32} {c c' d d' : Coords} {k : Nat} {axes : List Axis}

theorem resolveEntries_cons (n : Node) (k : Nat) (a : Axis) (axes : List Axis) (i : Int32)
    (idx : List Int32) (c : Coords) : n.resolveEntries k (a :: axes) (i :: idx) c =
      Except.bind (resolveEntry k (n.index.extent a).fromRoot (n.indexOffsets[k]?.getD 0) i)
        fun v => n.resolveEntries (k + 1) axes idx (c.set a v a.isLt) := rfl

/-- The first entry sets the coordinate of the first axis. -/
theorem of_resolveEntries_cons {a : Axis} {i : Int32}
    (h : n.resolveEntries k (a :: axes) (i :: idx) c = .ok d) : ∃ v,
      resolveEntry k (n.index.extent a).fromRoot (n.indexOffsets[k]?.getD 0) i = .ok v ∧
        n.resolveEntries (k + 1) axes idx (c.set a v a.isLt) = .ok d := by
  rw [resolveEntries_cons] at h
  cases hv : resolveEntry k (n.index.extent a).fromRoot (n.indexOffsets[k]?.getD 0) i with
  | error e =>
    rw [hv] at h
    cases h
  | ok v =>
    rw [hv] at h
    exact ⟨v, rfl, h⟩

/-- Entries that are accepted set the coordinates of their axes, and no others. -/
theorem of_resolveEntries (h : n.resolveEntries k axes idx c = .ok d)
    (hlen : axes.length = idx.length) (hnd : axes.Nodup) (a : Axis) :
    (a ∈ axes → n.side a < 2 ^ 63 ∧ (d.get a).toNat < n.side a) ∧
      (a ∉ axes → d.get a = c.get a) := by
  induction axes generalizing k idx c with
  | nil =>
    cases h
    exact ⟨fun ha => absurd ha List.not_mem_nil, fun _ => rfl⟩
  | cons b axes ih =>
    cases idx with
    | nil => cases hlen
    | cons i idx =>
      obtain ⟨v, hv, h⟩ := of_resolveEntries_cons h
      obtain ⟨hb, hnd⟩ := List.nodup_cons.1 hnd
      obtain ⟨hin, hout⟩ := ih h (Nat.succ.inj hlen) hnd
      have hset := Coords.get_set c b v a
      by_cases hab : a = b
      · subst hab
        refine ⟨fun _ => ?_, fun hna => absurd List.mem_cons_self hna⟩
        rw [hout hb, hset, if_pos rfl]
        obtain ⟨h1, h2, -⟩ := of_resolveEntry hv
        exact ⟨h1, h2⟩
      · rw [List.mem_cons, or_iff_right hab]
        refine ⟨hin, fun hna => ?_⟩
        rw [hout hna, hset, if_neg hab]

/-- Entries are known by the coordinates that they set. -/
theorem resolveEntries_inj (h : n.resolveEntries k axes idx c = .ok d)
    (h' : n.resolveEntries k axes idx' c' = .ok d) (hlen : axes.length = idx.length)
    (hlen' : axes.length = idx'.length) (hnd : axes.Nodup) : idx = idx' := by
  induction axes generalizing k idx idx' c c' with
  | nil =>
    rw [List.length_nil] at hlen hlen'
    rw [List.length_eq_zero_iff.1 hlen.symm, List.length_eq_zero_iff.1 hlen'.symm]
  | cons b axes ih =>
    cases idx with
    | nil => cases hlen
    | cons i idx =>
      cases idx' with
      | nil => cases hlen'
      | cons i' idx' =>
        obtain ⟨v, hv, h⟩ := of_resolveEntries_cons h
        obtain ⟨v', hv', h'⟩ := of_resolveEntries_cons h'
        obtain ⟨hb, hnd⟩ := List.nodup_cons.1 hnd
        -- no axis comes twice, so the coordinate set by the first entry is not set again
        have hd := (of_resolveEntries h (Nat.succ.inj hlen) hnd b).2 hb
        have hd' := (of_resolveEntries h' (Nat.succ.inj hlen') hnd b).2 hb
        have hvv : v = v' := by
          rw [Coords.get_set, if_pos rfl] at hd hd'
          rw [← hd, ← hd']
        obtain ⟨-, -, he⟩ := of_resolveEntry hv
        obtain ⟨-, -, he'⟩ := of_resolveEntry hv'
        have hii : i = i' := by
          apply Int32.toInt_inj.1
          rw [hvv] at he
          omega
        rw [hii, ih h h' (Nat.succ.inj hlen) (Nat.succ.inj hlen') hnd]

end Node

variable {t : Layout} {n : Node} {idx idx' : List Int32} {c : Coords}

/-- An index expression that is accepted names a cell of the node. -/
theorem Charted.of_resolve (ht : t.Charted) (hn : t.Has n) (h : n.resolve idx = .ok c) :
    n.Addressable ∧ n.Within c := by
  unfold Node.resolve at h
  split at h
  · cases h
  rename_i hlen
  have hlen : n.index.positions.length = idx.length := by
    rw [not_not] at hlen
    exact hlen.symm
  have hall := Node.of_resolveEntries h hlen (ht.positions_nodup hn)
  have hside {a : Axis} (ha : a ∉ n.index.positions) : n.side a = 1 := by
    unfold Node.side
    rw [ht.fromRoot_inactive hn ha]
    rfl
  constructor
  · intro a
    by_cases ha : a ∈ n.index.positions
    · exact ((hall a).1 ha).1
    · rw [hside ha]
      decide
  · intro a
    by_cases ha : a ∈ n.index.positions
    · exact ((hall a).1 ha).2
    · rw [hside ha, (hall a).2 ha]
      have : (Vector.replicate axisCount (0 : UInt64)).get a = 0 := Vector.getElem_replicate a.isLt
      rw [this]
      decide

/-- Different index expressions of a node name different cells. -/
theorem Charted.resolve_inj (ht : t.Charted) (hn : t.Has n) (h : n.resolve idx = .ok c)
    (h' : n.resolve idx' = .ok c) : idx = idx' := by
  unfold Node.resolve at h h'
  split at h
  · cases h
  split at h'
  · cases h'
  rename_i hlen hlen'
  rw [not_not] at hlen hlen'
  exact Node.resolveEntries_inj h h' hlen.symm hlen'.symm (ht.positions_nodup hn)

end Layout

end SparseLayout
