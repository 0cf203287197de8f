import SparseLayout.Proofs.Draft.Grown

namespace SparseLayout

open Draft (Node)

theorem readAxes_ok {seen axes : List Axis} {ns : List Nat} (h : readAxes seen ns = .ok axes) :
    axes.Nodup ∧ ∀ a ∈ axes, a ∉ seen := by
  induction ns generalizing seen axes with
  | nil =>
    cases h
    exact ⟨List.nodup_nil, fun a ha => absurd ha List.not_mem_nil⟩
  | cons n ns ih =>
    unfold readAxes at h
    split at h
    · rename_i hn
      split at h
      · cases h
      · rename_i hseen
        obtain ⟨rest, hrest, h⟩ := exists_of_bind h
        cases h
        obtain ⟨hnd, hnot⟩ := ih hrest
        refine ⟨List.nodup_cons.2 ⟨fun hm => hnot _ hm List.mem_cons_self, hnd⟩, ?_⟩
        intro a ha
        rcases List.mem_cons.1 ha with rfl | ha
        · exact hseen
        · exact fun hs => hnot a ha (List.mem_cons_of_mem _ hs)
    · cases h

theorem axes_zipWith_sublist (axes : List Axis) (extents : List UInt32) :
    ((axes.zipWith Division.mk extents).map (·.axis)).Sublist axes := by
  induction axes generalizing extents with
  | nil => exact List.Sublist.slnil
  | cons a axes ih =>
    cases extents with
    | nil => exact List.nil_sublist _
    | cons e extents => exact (ih extents).cons_cons a

/-- Divisions that a node can have: of distinct axes, into at least one part each. -/
def Divides (ds : List Division) : Prop := (ds.map (·.axis)).Nodup ∧ ∀ d ∈ ds, 0 < d.extent.toNat

theorem readDivisions_ok {axes : List Nat} {dims : Dims} {ds : List Division}
    (h : readDivisions axes dims = .ok ds) : Divides ds := by
  unfold readDivisions at h
  obtain ⟨extents, -, h⟩ := exists_of_bind h
  obtain ⟨as, has, h⟩ := exists_of_bind h
  dsimp only at h
  split at h
  · cases h
  rename_i hfind
  cases h
  refine ⟨(axes_zipWith_sublist as extents).nodup (readAxes_ok has).1, ?_⟩
  intro d hd
  have hne := List.find?_eq_none.1 hfind d hd
  simp only [decide_eq_true_eq] at hne
  exact Nat.pos_of_ne_zero fun h0 => hne (UInt32.toNat_inj.1 h0)

theorem acceptsChildren_of_check {parent child : NodeType} {u : Unit}
    (h : parent.checkChild child = .ok u) : parent.acceptsChildren = true := by
  unfold NodeType.checkChild at h
  split at h
  · assumption
  · cases h

theorem not_isBitLevel_of_acceptsChildren {type : NodeType} (h : type.acceptsChildren = true) :
    type.isBitLevel = false ∧ type ≠ .place := by
  cases type <;> simp_all [NodeType.acceptsChildren, NodeType.isBitLevel]

theorem checkWordBits_ok {width : UInt32} {u : Unit} (h : checkWordBits width = .ok u) :
    width ∈ [8, 16, 32, 64] := by
  unfold checkWordBits at h
  split at h
  · assumption
  · cases h

namespace Structural

variable {parent : NodeType} {s : Structural} {k : Kind}

theorem kind.ok_of_divided {child : NodeType} {axes : List Nat} {dims : Dims}
    {f : List Division → Kind} (h : divided parent child axes dims f = .ok k) :
    parent.acceptsChildren = true ∧ ∃ ds, k = f ds ∧ Divides ds := by
  obtain ⟨_, hacc, h⟩ := exists_of_bind (checked_eq_ok_iff.1 h)
  obtain ⟨ds, hds, h⟩ := exists_of_bind h
  cases h
  exact ⟨acceptsChildren_of_check hacc, ds, rfl, readDivisions_ok hds⟩

/-- All that a structural declaration makes of its arguments, with what it has checked by then. -/
inductive Makes : Kind → Prop
  | dense {ds : List Division} (hds : Divides ds) : Makes (.dense ds)
  | pointer {ds : List Division} (hds : Divides ds) : Makes (.pointer ds)
  | bitmasked {ds : List Division} (hds : Divides ds) : Makes (.bitmasked ds)
  | dynamic (axis : Axis) {dim chunk : UInt32} (hdim : 0 < dim.toNat) (hchunk : 0 < chunk.toNat) :
    Makes (.dynamic axis dim chunk)
  | bitStruct {width : UInt32} (hwidth : width ∈ [8, 16, 32, 64]) : Makes (.bitStruct width)
  | bitArray {ds : List Division} {width : UInt32} (hds : Divides ds)
    (hwidth : width ∈ [8, 16, 32, 64]) : Makes (.bitArray ds width)

theorem kind_makes (h : s.kind parent = .ok k) : parent.acceptsChildren = true ∧ Makes k := by
  cases s with
  | dense axes dims =>
    obtain ⟨hacc, ds, rfl, hds⟩ := kind.ok_of_divided h
    exact ⟨hacc, .dense hds⟩
  | pointer axes dims =>
    obtain ⟨hacc, ds, rfl, hds⟩ := kind.ok_of_divided h
    exact ⟨hacc, .pointer hds⟩
  | bitmasked axes dims =>
    obtain ⟨hacc, ds, rfl, hds⟩ := kind.ok_of_divided h
    exact ⟨hacc, .bitmasked hds⟩
  | dynamic axes dim chunk =>
    simp only [kind] at h
    split at h
    · cases h
    obtain ⟨_, hacc, h⟩ := exists_of_bind (checked_eq_ok_iff.1 h)
    obtain ⟨ds, hds, h⟩ := exists_of_bind h
    split at h
    · rename_i d
      split at h
      · cases h
      rename_i hzero
      cases h
      have hdim := (readDivisions_ok hds).2 d List.mem_cons_self
      refine ⟨acceptsChildren_of_check hacc, .dynamic d.axis hdim ?_⟩
      -- the size of a chunk is the extent of the list, or was given and is not 0
      cases chunk with
      | none => exact hdim
      | some c => exact Nat.pos_of_ne_zero fun h0 => hzero (congrArg some (UInt32.toNat_inj.1 h0))
    · cases h
  | bitStruct width =>
    obtain ⟨_, hacc, h⟩ := exists_of_bind (checked_eq_ok_iff.1 h)
    obtain ⟨_, hwidth, h⟩ := exists_of_bind h
    cases h
    exact ⟨acceptsChildren_of_check hacc, .bitStruct (checkWordBits_ok hwidth)⟩
  | bitArray axes dims width =>
    obtain ⟨_, hacc, h⟩ := exists_of_bind (checked_eq_ok_iff.1 h)
    obtain ⟨ds, hds, h⟩ := exists_of_bind h
    obtain ⟨_, hwidth, h⟩ := exists_of_bind h
    cases h
    exact ⟨acceptsChildren_of_check hacc,
      .bitArray (readDivisions_ok hds) (checkWordBits_ok hwidth)⟩
  | hash axes dims => cases h

theorem Makes.valid (h : Makes k) : k.Valid := by
  cases h with
  | dense hds | pointer hds | bitmasked hds => exact ⟨hds.1, hds.2, nofun, nofun⟩
  | dynamic axis hdim hchunk =>
    refine ⟨List.pairwise_singleton _ _, ?_, ?_, nofun⟩
    · intro d hd
      rw [List.mem_singleton.1 hd]
      exact hdim
    · rintro _ ⟨⟩
      exact hchunk
  | bitStruct hwidth =>
    refine ⟨List.nodup_nil, nofun, nofun, ?_⟩
    rintro _ ⟨⟩
    exact hwidth
  | bitArray hds hwidth =>
    refine ⟨hds.1, hds.2, nofun, ?_⟩
    rintro _ ⟨⟩
    exact hwidth

theorem Makes.admitted (h : Makes k) (hacc : parent.acceptsChildren = true) : parent.Admits k := by
  cases h <;> exact hacc

/-- A structural declaration does not add a place. -/
theorem kind_ne_place (h : s.kind parent = .ok k) (info : PlaceInfo) : k ≠ .place info := by
  rintro rfl
  cases (kind_makes h).2

end Structural

end SparseLayout
