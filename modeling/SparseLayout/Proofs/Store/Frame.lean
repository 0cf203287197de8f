import SparseLayout.Proofs.Contents.Frame
import SparseLayout.Proofs.Store.Commute
import SparseLayout.Proofs.Store.Separation

namespace SparseLayout

open Layout (Node)

variable {t : Layout} {g g' : Contents} {D : Set Position} {m n p : Node} {c d : Coords}

/-- The node has a cell at the coordinates. -/
structure Layout.HasCell (t : Layout) (n : Node) (c : Coords) : Prop where
  has : t.Has n
  addressable : n.Addressable
  inside : n.Within c

namespace Layout

/-- Index expressions name cells. -/
theorem HasCell.of_resolve (ht : t.WellFormed) (hn : t.Has n) {idx : List Int32}
    (h : n.resolve idx = .ok c) : t.HasCell n c :=
  ⟨hn, (ht.of_resolve hn h).1, (ht.of_resolve hn h).2⟩

/-- Around a cell lie cells of all nodes above. -/
theorem HasCell.around (ht : t.WellFormed) (h : t.HasCell m d) (hnm : t.Above n m) :
    t.HasCell n (Node.around m n d) :=
  ⟨hnm.has h.has, (hnm.exists_side ht.toCharted h.addressable).1,
    hnm.around_within ht.toCharted h.has h.addressable h.inside⟩

/-- A node other than the root lies in the cells of its outer node. -/
theorem WellFormed.child_outer (ht : t.WellFormed) (hn : t.Has n) (hk : n.kind ≠ .root) :
    t.Has (t.outer n) ∧ n ∈ t.childNodes (t.outer n) := by
  obtain ⟨p, hp, hnp⟩ := ht.ne_root_of_kind hn hk
  rw [outer_eq ht hp hnp]
  exact ⟨hp, hnp⟩

theorem Node.kind_ne_root_of_sparse (h : n.type.isSparse = true) : n.kind ≠ .root := by
  intro hk
  rw [Node.type, hk] at h
  cases h

theorem Node.kind_of_dynamic (h : n.type = .dynamic) :
    ∃ axis dim chunk, n.kind = .dynamic axis dim chunk := by
  unfold Node.type Kind.type at h
  cases hk : n.kind <;> simp_all

end Layout

/-- The word of a place lies in a cell around it. -/
theorem View.keyOf_suffix (t : Layout) (n : Node) (c : Coords) :
    (View.keyOf t n c).1 <:+ t.place n c n := by
  have hkey (n : Node) (q : Position) : (wordKey n q).1 <:+ q := by
    unfold wordKey
    split
    · split
      · exact List.suffix_cons _ _
      · exact List.suffix_rfl
    · exact List.suffix_rfl
  exact (hkey n _).trans (List.tail_suffix _)

namespace Store

/-- A cell is in use as before, lies where it did, and reads the same. -/
structure SameCell (s s' : Store) (t : Layout) (n : Node) (c : Coords) : Prop where
  isActive : s'.isActive t n c = s.isActive t n c
  address : s'.address t n c = s.address t n c
  read : s'.read t n c = s.read t n c

variable {s s' : Store}

namespace Represents

section

variable (ht : t.WellFormed) (h : s.Represents t g) (h' : s'.Represents t g')

include ht h

theorem length_eq_zero (hn : t.Has n) (hd : n.type = .dynamic)
    (hlen : g.length (t.place (t.outer n) c (t.outer n)) n = 0) : s.length t n c = .ok 0 := by
  obtain ⟨axis, dim, chunk, hk⟩ := Node.kind_of_dynamic hd
  obtain ⟨hp, hnp⟩ := ht.child_outer hn (by rw [hk]; simp)
  obtain ⟨len, hl, hv⟩ := h.length ht hp hnp hk c
  rw [hl, UInt32.toNat_inj.1 ((hv.trans hlen).trans UInt32.toNat_zero.symm)]

include h'

theorem sameCell (hn : t.Has n)
    (hact : g'.Active t (t.place n c n) ↔ g.Active t (t.place n c n))
    (hstart : g.Active t (t.place n c n) →
      g'.cellStart (t.place n c n) = g.cellStart (t.place n c n))
    (hword : g.Active t (t.place n c n) →
      g'.word (View.keyOf t n c).1 (View.keyOf t n c).2 =
        g.word (View.keyOf t n c).1 (View.keyOf t n c).2) : s.SameCell s' t n c := by
  constructor
  · by_cases ha : g.Active t (t.place n c n)
    · rw [(h.isActive_eq_true_iff ht hn).2 ha, (h'.isActive_eq_true_iff ht hn).2 (hact.2 ha)]
    · rw [(h.isActive_eq_false_iff ht hn).2 ha,
        (h'.isActive_eq_false_iff ht hn).2 (mt hact.1 ha)]
  · by_cases ha : g.Active t (t.place n c n)
    · obtain ⟨a, hadr, hcell⟩ := h.address_of_active ht ha
      obtain ⟨a', hadr', hcell'⟩ := h'.address_of_active ht (hact.2 ha)
      rw [hadr, hadr', Address.ext_toNat (hcell'.trans ((hstart ha).trans hcell.symm))]
    · rw [h.address_of_not_active ht hn ha, h'.address_of_not_active ht hn (mt hact.1 ha)]
  · -- words matter only where the cell is in use; elsewhere its type says what is read
    cases hd : n.accessType .read with
    | error e => rw [read_refused hd, read_refused hd]
    | ok dtype =>
      obtain ⟨slot, hslot, hon, hoff⟩ := h.shows_self.read ht hn hd c
      obtain ⟨slot', hslot', hon', hoff'⟩ := h'.shows_self.read ht hn hd c
      rw [hslot, Except.ok.injEq] at hslot'
      subst hslot'
      rw [← h.sound.active_iff] at hon hoff
      rw [← h'.sound.active_iff] at hon' hoff'
      by_cases ha : g.Active t (t.place n c n)
      · rw [hon ha, hon' (hact.2 ha)]
        exact congrArg (fun w => Except.ok (dtype.inSlot slot w)) (hword ha)
      · rw [hoff ha, hoff' (mt hact.1 ha)]

theorem length_eq (hn : t.Has n) (hlen : n.type = .dynamic →
    g'.length (t.place (t.outer n) c (t.outer n)) n =
      g.length (t.place (t.outer n) c (t.outer n)) n) : s'.length t n c = s.length t n c := by
  cases hdim : n.listCapacity .length with
  | error e =>
    unfold Store.length
    rw [hdim]
    rfl
  | ok dim =>
    obtain ⟨axis, chunk, hk⟩ := Node.of_listCapacity hdim
    obtain ⟨hp, hnp⟩ := ht.child_outer hn (by rw [hk]; simp)
    obtain ⟨len, hl, hv⟩ := h.length ht hp hnp hk c
    obtain ⟨len', hl', hv'⟩ := h'.length ht hp hnp hk c
    rw [hl, hl', UInt32.toNat_inj.1 (hv'.trans ((hlen (by rw [Node.type, hk]; rfl)).trans hv.symm))]

/-- A cell outside of those that went out of use is as it was. -/
theorem sameCell_of_loses (hloses : g.Loses g' D) (hD : Closed D) (hn : t.Has n)
    (hc : t.place n c n ∉ D) : s.SameCell s' t n c :=
  h.sameCell ht h' hn (hloses.active_iff_of_not_mem ht h.sound h'.sound hD hc)
    (fun _ => hloses.cellStart_eq hD hc)
    (fun _ => hloses.word _ (fun hx => hc (hD.below hx (View.keyOf_suffix t n c))) _)

end

/-- As many blocks of a node are in use as there are regions of it. -/
theorem encard_regionsOf (h : s.Represents t g) (hn : t.Has n) :
    (regionsOf g.base n).encard = s.liveBlocks n.id := by
  cases hb : n.blockBytes? with
  | some bytes =>
    obtain ⟨b, hblocks, -, hlive, -⟩ := h.owns.blocks hn (by rw [hb]; rfl)
    rw [hlive, liveBlocks_of_blocks hblocks]
  | none =>
    have hempty : regionsOf g.base n = ∅ := by
      refine Set.eq_empty_of_forall_notMem ?_
      rintro r ⟨hr, ho⟩
      have hsome := h.blockBytes_of_owner hr ho
      rw [hb] at hsome
      cases hsome
    rw [hempty, Set.encard_empty, liveBlocks, h.owns.others hn hb]
    rfl

/-- The blocks of a node that are no longer in use are those of the regions that were lost. -/
theorem live_of_loses (h : s.Represents t g) (h' : s'.Represents t g') (hloses : g.Loses g' D)
    (hn : t.Has n) : (s.liveBlocks n.id : ℕ∞) =
      s'.liveBlocks n.id + {r | r ∈ regionsOf g.base n ∧ r.In D}.encard := by
  rw [← h.encard_regionsOf hn, ← h'.encard_regionsOf hn, ← Set.encard_union_eq]
  · congr 1
    ext r
    have hiff := hloses.isSome_base r
    simp only [regionsOf, Set.mem_union, Set.mem_ofPred_eq, hiff]
    by_cases hr : r.In D <;> simp [hr]
  · refine Set.disjoint_left.2 ?_
    rintro r ⟨hr, -⟩ ⟨-, hin⟩
    exact ((hloses.isSome_base r).1 hr).2 hin

/-- Regions start at different addresses. -/
theorem encard_starts (h : s.Represents t g) {S : Set Region} (hS : ∀ r ∈ S, (g.base r).isSome) :
    {b | ∃ r ∈ S, g.base r = some b}.encard = S.encard := by
  -- the default is never taken, since all regions of `S` are there
  have hinj : Set.InjOn (fun r => (g.base r).getD s.root) S := by
    intro r hr r' hr' he
    obtain ⟨a, ha⟩ := Option.isSome_iff_exists.1 (hS r hr)
    obtain ⟨a', ha'⟩ := Option.isSome_iff_exists.1 (hS r' hr')
    simp only [ha, ha', Option.getD_some] at he
    exact h.base_inj (he ▸ ha) ha'
  rw [← hinj.encard_image]
  congr 1
  ext b
  constructor
  · rintro ⟨r, hr, hb⟩
    exact ⟨r, hr, by simp [hb]⟩
  · rintro ⟨r, hr, rfl⟩
    obtain ⟨a, ha⟩ := Option.isSome_iff_exists.1 (hS r hr)
    exact ⟨r, hr, by simp [ha]⟩

end Represents

end Store

end SparseLayout
