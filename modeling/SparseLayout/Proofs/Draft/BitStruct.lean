import SparseLayout.Proofs.Draft.Sample
import SparseLayout.Proofs.Draft.Spaces
import Mathlib.Algebra.Order.BigOperators.Group.List
import Mathlib.Algebra.Order.Group.Nat

namespace SparseLayout

open Draft (Node Word)

/-- Bits of a word for one value: where they start, and how many there are. -/
structure BitSpan where
  start : Option UInt32
  width : Nat
  deriving DecidableEq

/-- Spans lie side by side, in order, from one bit up to another. -/
def Tiles : Nat → List BitSpan → Nat → Prop
  | lo, [], hi => lo = hi
  | lo, s :: rest, hi => s.start.map (·.toNat) = some lo ∧ Tiles (lo + s.width) rest hi

theorem Tiles.append {lo mid hi : Nat} {ss ss' : List BitSpan} (h : Tiles lo ss mid)
    (h' : Tiles mid ss' hi) : Tiles lo (ss ++ ss') hi := by
  induction ss generalizing lo with
  | nil => exact (show lo = mid from h) ▸ h'
  | cons s ss ih => exact ⟨h.1, ih h.2⟩

namespace PlaceInfo

/-- The bits of the member itself. -/
def span (i : PlaceInfo) : BitSpan := ⟨i.bitOffset, i.ownBits⟩

/-- The bits of members that one call placed: those of the exponent that they share, if they do, and
those of each member. -/
def spans (is : List PlaceInfo) : List BitSpan :=
  (is.head?.bind (·.sharedExponent)).toList.map (fun e => ⟨some e.bitOffset, e.bits.toNat⟩) ++
    is.map span

/-- The group that a member shares its exponent with. -/
def group? (i : PlaceInfo) : Option UInt32 := i.sharedExponent.map (·.group)

/-- The members share an exponent, which the first of them owns. -/
def Share (group bitOffset bits : UInt32) : List PlaceInfo → Prop
  | [] => False
  | i :: rest => i.sharedExponent = some ⟨group, bitOffset, bits, true⟩ ∧
    ∀ j ∈ rest, j.sharedExponent = some ⟨group, bitOffset, bits, false⟩

end PlaceInfo

/-- A placement that was accepted. -/
structure PlaceCall where
  target : NodeId
  members : List Member
  shared : Bool

/-- The call placed its members like this. If they share an exponent, it is that of their types. -/
structure PlaceCall.Places (call : PlaceCall) (group bitOffset : UInt32) (is : List PlaceInfo) :
    Prop where
  members : is.map (·.member) = call.members
  plain : call.shared = false → ∀ i ∈ is, i.sharedExponent = none
  shared : call.shared = true → ∃ bits : UInt32, PlaceInfo.Share group bitOffset bits is ∧
    ∀ m ∈ call.members, ∃ digits exponent, m.dtype = .quantFloat digits exponent ∧
      bits = exponent.toUInt32

/-- A bit struct of this width holds what these calls placed. Call by call, the fields lie side by
side up to the bits in use. Every call with a shared exponent opened a group, whose number its
members and no others have. -/
structure Draft.Word.Filled (w : Word) (width : UInt32)
    (calls : List (PlaceCall × List PlaceInfo)) : Prop where
  placed : calls.flatMap (·.2) = w.placed
  places : ∀ c ∈ calls, ∃ group bitOffset, c.1.Places group bitOffset c.2
  tiles : Tiles 0 (calls.flatMap fun c => PlaceInfo.spans c.2) w.bitsUsed.toNat
  bits_le : w.bitsUsed.toNat ≤ width.toNat
  groups_eq : w.exponentGroups.toNat = calls.countP (·.1.shared)
  groups_le : w.exponentGroups.toNat ≤ w.bitsUsed.toNat
  group_iff : ∀ g : UInt32, g < w.exponentGroups ↔ ∃ i ∈ w.placed, i.group? = some g
  group_call : ∀ g : UInt32, g < w.exponentGroups →
    ∃ c ∈ calls, c.1.shared = true ∧ w.placed.filter (·.group? = some g) = c.2

namespace PlaceInfo

/-- Members that bring no exponent along lie side by side. -/
theorem Laid.tiles {lo : Nat} {is : List PlaceInfo} (h : Laid lo is)
    (hplain : ∀ i ∈ is, i.exponentBits = 0) (hlt : lo + totalBits is < UInt32.size) :
    Tiles lo (is.map span) (lo + totalBits is) := by
  induction is generalizing lo with
  | nil => rfl
  | cons i is ih =>
    have hzero := hplain i List.mem_cons_self
    have hsum : totalBits (i :: is) = i.ownBits + totalBits is := by simp [totalBits, hzero]
    have hnext := h.2
    rw [hzero, Nat.zero_add] at hnext
    rw [hsum, ← Nat.add_assoc] at hlt ⊢
    refine ⟨?_, ih hnext (fun j hj => hplain j (List.mem_cons_of_mem _ hj)) hlt⟩
    change i.bitOffset.map (·.toNat) = some lo
    rw [h.1, hzero, Nat.add_zero, Option.map_some, UInt32.toNat_ofNat_of_lt' (by omega)]

theorem exponentBits_of_none {i : PlaceInfo} (h : i.sharedExponent = none) : i.exponentBits = 0 := by
  unfold exponentBits
  rw [h]

theorem exponentBits_of_share {i : PlaceInfo} {group bitOffset bits : UInt32} {owner : Bool}
    (h : i.sharedExponent = some ⟨group, bitOffset, bits, owner⟩) :
    i.exponentBits = if owner then bits.toNat else 0 := by
  unfold exponentBits
  rw [h]

theorem Share.exists_owner {group bitOffset bits : UInt32} {is : List PlaceInfo}
    (h : Share group bitOffset bits is) :
    ∀ i ∈ is, ∃ owner, i.sharedExponent = some ⟨group, bitOffset, bits, owner⟩ := by
  cases is with
  | nil => exact h.elim
  | cons i is =>
    intro j hj
    rcases List.mem_cons.1 hj with rfl | hj
    · exact ⟨true, h.1⟩
    · exact ⟨false, h.2 j hj⟩

theorem Share.group?_eq {group bitOffset bits : UInt32} {is : List PlaceInfo}
    (h : Share group bitOffset bits is) : ∀ i ∈ is, i.group? = some group := by
  intro i hi
  obtain ⟨owner, howner⟩ := h.exists_owner i hi
  unfold group?
  rw [howner]
  rfl

/-- Members of a group of their own are told apart from those placed before. -/
theorem filter_group_append {placed is : List PlaceInfo} {groups : UInt32} {shared : Bool}
    (hold : ∀ i ∈ placed, ∀ g, i.group? = some g → g < groups)
    (hnew : ∀ i ∈ is, i.group? = if shared then some groups else none) (g : UInt32) :
    (placed ++ is).filter (·.group? = some g) =
      if shared = true ∧ g = groups then is else placed.filter (·.group? = some g) := by
  rw [List.filter_append]
  split
  · rename_i h
    obtain ⟨hs, rfl⟩ := h
    have hnone : placed.filter (·.group? = some g) = [] :=
      List.filter_eq_nil_iff.2 fun i hi he => UInt32.lt_irrefl _ (hold i hi g (of_decide_eq_true he))
    rw [hnone]
    exact List.filter_eq_self.2 fun i hi => decide_eq_true ((hnew i hi).trans (if_pos hs))
  · rename_i h
    have hnone : is.filter (·.group? = some g) = [] := by
      refine List.filter_eq_nil_iff.2 fun i hi he => ?_
      rw [decide_eq_true_eq, hnew i hi] at he
      split at he
      · exact h ⟨‹_›, (Option.some.inj he).symm⟩
      · cases he
    rw [hnone, List.append_nil]

end PlaceInfo

namespace PlaceCall.Places

variable {call : PlaceCall} {group bitOffset : UInt32} {is : List PlaceInfo}

/-- What a call placed lies side by side behind the bits in use before. -/
theorem tiles (h : call.Places group bitOffset is) (hl : PlaceInfo.Laid bitOffset.toNat is)
    (hlt : bitOffset.toNat + PlaceInfo.totalBits is < UInt32.size) :
    Tiles bitOffset.toNat (PlaceInfo.spans is) (bitOffset.toNat + PlaceInfo.totalBits is) := by
  unfold PlaceInfo.spans
  cases hs : call.shared with
  | false =>
    have hnone : is.head?.bind (·.sharedExponent) = none := by
      cases is with
      | nil => rfl
      | cons i is => exact h.plain hs i List.mem_cons_self
    rw [hnone]
    exact hl.tiles (fun i hi => PlaceInfo.exponentBits_of_none (h.plain hs i hi)) hlt
  | true =>
    obtain ⟨bits, hshare, -⟩ := h.shared hs
    cases is with
    | nil => exact hshare.elim
    | cons i is =>
      have hfirst : i.exponentBits = bits.toNat := PlaceInfo.exponentBits_of_share hshare.1
      have hsum : bitOffset.toNat + PlaceInfo.totalBits (i :: is) =
          bitOffset.toNat + bits.toNat + i.ownBits + PlaceInfo.totalBits is := by
        simp [PlaceInfo.totalBits, hfirst, Nat.add_assoc]
      obtain ⟨hoffset, hrest⟩ := hl
      rw [hfirst] at hoffset
      rw [hfirst, ← Nat.add_assoc] at hrest
      rw [hsum] at hlt ⊢
      -- the exponent counts with its owner, so the other members bring none along
      have hplain : ∀ j ∈ is, j.exponentBits = 0 := fun j hj =>
        PlaceInfo.exponentBits_of_share (hshare.2 j hj)
      rw [List.head?_cons, Option.bind_some, hshare.1]
      refine ⟨rfl, ?_, hrest.tiles hplain hlt⟩
      change i.bitOffset.map (·.toNat) = some (bitOffset.toNat + bits.toNat)
      rw [hoffset]
      exact congrArg some (UInt32.toNat_ofNat_of_lt' (by omega))

/-- The members are in the group that the call opened, if it opened one. -/
theorem group?_eq (h : call.Places group bitOffset is) :
    ∀ i ∈ is, i.group? = if call.shared then some group else none := by
  intro i hi
  cases hs : call.shared with
  | false =>
    unfold PlaceInfo.group?
    rw [h.plain hs i hi]
    rfl
  | true =>
    obtain ⟨bits, hshare, -⟩ := h.shared hs
    exact hshare.group?_eq i hi

/-- A member takes no more bits than its type. -/
theorem bits_le (h : call.Places group bitOffset is) :
    ∀ i ∈ is, i.exponentBits + i.ownBits ≤ i.member.dtype.bits.toNat := by
  intro i hi
  cases hs : call.shared with
  | false =>
    have hnone := h.plain hs i hi
    rw [PlaceInfo.exponentBits_of_none hnone, Nat.zero_add]
    unfold PlaceInfo.ownBits
    rw [hnone]
  | true =>
    obtain ⟨bits, hshare, htypes⟩ := h.shared hs
    obtain ⟨digits, exponent, htype, rfl⟩ :=
      htypes i.member (h.members ▸ List.mem_map_of_mem hi)
    obtain ⟨owner, howner⟩ := hshare.exists_owner i hi
    have hown : i.ownBits = digits.toNat := by
      unfold PlaceInfo.ownBits
      simp only [howner, htype, DataType.digitBits, UInt8.toNat_toUInt32]
    rw [PlaceInfo.exponentBits_of_share howner, hown, htype, DataType.toNat_bits_quantFloat,
      UInt8.toNat_toUInt32]
    split <;> omega

theorem totalBits_le (h : call.Places group bitOffset is) :
    PlaceInfo.totalBits is ≤ (call.members.map (·.dtype.bits.toNat)).sum := by
  rw [← h.members, List.map_map]
  exact List.sum_le_sum h.bits_le

/-- An exponent takes bits. -/
theorem totalBits_pos (h : call.Places group bitOffset is) (hs : call.shared = true)
    (hv : ∀ m ∈ call.members, m.Valid) : 0 < PlaceInfo.totalBits is := by
  obtain ⟨bits, hshare, htypes⟩ := h.shared hs
  cases is with
  | nil => exact hshare.elim
  | cons i is =>
    have hmem : i.member ∈ call.members := h.members ▸ List.mem_map_of_mem List.mem_cons_self
    obtain ⟨digits, exponent, htype, rfl⟩ := htypes _ hmem
    have hcheck := (hv _ hmem).1
    rw [htype] at hcheck
    have hpos := (DataType.quantFloat_pos hcheck).2
    have hfirst : i.exponentBits = exponent.toUInt32.toNat :=
      PlaceInfo.exponentBits_of_share hshare.1
    rw [UInt8.toNat_toUInt32] at hfirst
    simp only [PlaceInfo.totalBits, List.map_cons, List.sum_cons]
    omega

end PlaceCall.Places

theorem packPlain_plain (offsets : List Int32) (cursor : UInt32) (ms : List Member) :
    ∀ i ∈ placeInfos offsets ms (packPlain cursor ms), i.sharedExponent = none := by
  induction ms generalizing cursor with
  | nil => exact fun i hi => absurd hi List.not_mem_nil
  | cons m ms ih =>
    intro i hi
    rcases List.mem_cons.1 hi with rfl | hi
    · rfl
    · exact ih _ i hi

theorem packShared_others (offsets : List Int32) (group bitOffset bits cursor : UInt32)
    (ms : List Member) :
    ∀ i ∈ placeInfos offsets ms (packShared group bitOffset bits false cursor ms),
      i.sharedExponent = some ⟨group, bitOffset, bits, false⟩ := by
  induction ms generalizing cursor with
  | nil => exact fun i hi => absurd hi List.not_mem_nil
  | cons m ms ih =>
    intro i hi
    rcases List.mem_cons.1 hi with rfl | hi
    · rfl
    · exact ih _ i hi

/-- A plan for a bit struct opens a group where an exponent is shared, and stays in the word. -/
theorem planStruct_places {width : UInt32} {node : Node} {ms : List Member} {shared : Bool}
    {b : BitPlan} (h : planStruct width node ms shared = .ok b) (hne : ms ≠ []) (id : NodeId)
    (offsets : List Int32) :
    (⟨id, ms, shared⟩ : PlaceCall).Places node.exponentGroups node.bitsUsed
        (placeInfos offsets ms b.fields) ∧ b.bitsUsed.toNat ≤ width.toNat ∧
      b.exponentGroups = if shared then node.exponentGroups + 1 else node.exponentGroups := by
  have hmembers := (planStruct_ok h hne (UInt32.ofNat_toNat (x := node.bitsUsed)).symm offsets).1
  obtain ⟨-, hfit, ⟨rfl, hfields, hgroups, -⟩ | ⟨rfl, hgroups, exponent, htypes, hfields, -⟩⟩ :=
    planStruct_cases h
  · refine ⟨⟨hmembers, fun _ => ?_, nofun⟩, hfit, hgroups⟩
    rw [hfields]
    exact packPlain_plain _ _ ms
  · refine ⟨⟨hmembers, nofun, fun _ => ⟨exponent, ?_, htypes⟩⟩, hfit, hgroups⟩
    rw [hfields]
    cases ms with
    | nil => exact absurd rfl hne
    | cons m ms => exact ⟨rfl, packShared_others _ _ _ _ _ ms⟩

namespace Draft.Word

variable {w : Word} {width : UInt32} {calls : List (PlaceCall × List PlaceInfo)}

theorem Blank.filled (h : w.Blank) (width : UInt32) : w.Filled width [] := by
  refine ⟨h.placed.symm, fun c hc => absurd hc List.not_mem_nil, ?tiles, ?bits_le, ?groups_eq,
    ?groups_le, ?group_iff, ?group_call⟩
  case tiles => exact (congrArg UInt32.toNat h.bitsUsed).symm
  case bits_le =>
    rw [h.bitsUsed]
    exact Nat.zero_le _
  case groups_eq => exact congrArg UInt32.toNat h.exponentGroups
  case groups_le =>
    rw [h.exponentGroups]
    exact Nat.zero_le _
  case group_iff =>
    intro g
    rw [h.exponentGroups, h.placed]
    exact iff_of_false (Nat.not_lt_zero _) (by rintro ⟨i, hi, -⟩; exact absurd hi List.not_mem_nil)
  case group_call =>
    intro g hg
    rw [h.exponentGroups] at hg
    exact absurd hg (Nat.not_lt_zero _)

/-- A call without members places nothing. -/
theorem Filled.nothing (h : w.Filled width calls) (id : NodeId) :
    w.Filled width (calls ++ [(⟨id, [], false⟩, [])]) := by
  refine ⟨by simpa using h.placed, ?_, by simpa [PlaceInfo.spans] using h.tiles, h.bits_le,
    by simpa using h.groups_eq, h.groups_le, h.group_iff, ?_⟩
  · intro c hc
    rcases List.mem_append.1 hc with hc | hc
    · exact h.places c hc
    · rw [List.mem_singleton.1 hc]
      exact ⟨0, 0, rfl, fun _ i hi => absurd hi List.not_mem_nil, nofun⟩
  · intro g hg
    obtain ⟨c, hc, hshared, hfilter⟩ := h.group_call g hg
    exact ⟨c, List.mem_append_left _ hc, hshared, hfilter⟩

/-- The count of groups goes up where a call opens one. -/
theorem toNat_groups {n : UInt32} (h : n.toNat + 1 < 2 ^ 32) (shared : Bool) :
    (if shared then n + 1 else n).toNat = n.toNat + if shared then 1 else 0 := by
  cases shared with
  | false => rfl
  | true =>
    rw [if_pos rfl, if_pos rfl, UInt32.toNat_add]
    exact Nat.mod_eq_of_lt (by have := UInt32.toNat_one; omega)

/-- The group that a call opens has the next number. -/
theorem lt_groups_iff {n : UInt32} (h : n.toNat + 1 < 2 ^ 32) (shared : Bool) (g : UInt32) :
    g < (if shared then n + 1 else n) ↔ g < n ∨ shared = true ∧ g = n := by
  rw [UInt32.lt_iff_toNat_lt, UInt32.lt_iff_toNat_lt, toNat_groups h, ← UInt32.toNat_inj]
  cases shared with
  | false => simp
  | true =>
    simp only [if_true, true_and]
    omega

/-- A further call fills the bits behind those in use. -/
theorem Filled.call {q : Node} {placed : List PlaceInfo} {ms : List Member} {shared : Bool}
    {b : BitPlan} (h : (q.word placed).Filled width calls) (hwidth : width.toNat ≤ 64)
    (hplan : planStruct width q ms shared = .ok b) (hne : ms ≠ []) (hv : ∀ m ∈ ms, m.Valid)
    (hms : (ms.map (·.dtype.bits.toNat)).sum < 2 ^ 31) (id : NodeId) (offsets : List Int32) :
    Filled ⟨q.kind, q.index, placed ++ placeInfos offsets ms b.fields, b.bitsUsed,
      b.exponentGroups⟩ width (calls ++ [(⟨id, ms, shared⟩, placeInfos offsets ms b.fields)]) := by
  obtain ⟨hplaces, hfit, hgroups⟩ := planStruct_places hplan hne id offsets
  obtain ⟨hmembers, hlaid, hused⟩ :=
    planStruct_ok hplan hne (UInt32.ofNat_toNat (x := q.bitsUsed)).symm offsets
  generalize placeInfos offsets ms b.fields = is at hplaces hmembers hlaid hused
  have hold : q.bitsUsed.toNat ≤ width.toNat := h.bits_le
  have hcount : q.exponentGroups.toNat ≤ q.bitsUsed.toNat := h.groups_le
  have hbits : PlaceInfo.totalBits is ≤ (ms.map (·.dtype.bits.toNat)).sum := hplaces.totalBits_le
  -- neither the bits in use nor the groups reach the end of a 32-bit word
  have hexact : b.bitsUsed.toNat = q.bitsUsed.toNat + PlaceInfo.totalBits is := by
    rw [hused]
    exact UInt32.toNat_ofNat_of_lt' (by unfold UInt32.size; omega)
  have hroom : q.exponentGroups.toNat + 1 < 2 ^ 32 := by omega
  have hnext : b.exponentGroups.toNat = q.exponentGroups.toNat + if shared then 1 else 0 := by
    rw [hgroups, toNat_groups hroom]
  have hlt_iff (g : UInt32) : g < b.exponentGroups ↔
      g < q.exponentGroups ∨ shared = true ∧ g = q.exponentGroups := by
    rw [hgroups, lt_groups_iff hroom]
  have hgroup := hplaces.group?_eq
  have hfilter (g : UInt32) : (placed ++ is).filter (·.group? = some g) = _ :=
    PlaceInfo.filter_group_append (fun i hi g hg => (h.group_iff g).2 ⟨i, hi, hg⟩) hgroup g
  have hne' : is ≠ [] := by
    rintro rfl
    exact hne hmembers.symm
  refine ⟨?placed, ?places, ?tiles, hfit, ?groups_eq, ?groups_le, ?group_iff, ?group_call⟩
  case placed =>
    rw [List.flatMap_append, h.placed]
    simp [Node.word]
  case places =>
    intro c hc
    rcases List.mem_append.1 hc with hc | hc
    · exact h.places c hc
    · rw [List.mem_singleton.1 hc]
      exact ⟨_, _, hplaces⟩
  case tiles =>
    -- the fields of this call start where those of the calls before end
    rw [hexact, List.flatMap_append]
    have htiles := h.tiles.append (hplaces.tiles hlaid (by unfold UInt32.size; omega))
    simpa using htiles
  case groups_eq =>
    rw [List.countP_append, ← h.groups_eq, List.countP_singleton]
    exact hnext
  case groups_le =>
    -- the exponent of a new group takes at least one bit
    rw [hexact]
    change b.exponentGroups.toNat ≤ _
    rw [hnext]
    split
    · have := hplaces.totalBits_pos ‹_› hv
      omega
    · omega
  case group_iff =>
    -- only this call can have opened the group whose number was the next
    intro g
    refine (hlt_iff g).trans ?_
    constructor
    · rintro (hg | ⟨hs, rfl⟩)
      · obtain ⟨i, hi, hg⟩ := (h.group_iff g).1 hg
        exact ⟨i, List.mem_append_left _ hi, hg⟩
      · obtain ⟨i, hi⟩ := List.exists_mem_of_ne_nil is hne'
        exact ⟨i, List.mem_append_right _ hi, (hgroup i hi).trans (if_pos hs)⟩
    · rintro ⟨i, hi, hg⟩
      rcases List.mem_append.1 hi with hi | hi
      · exact Or.inl ((h.group_iff g).2 ⟨i, hi, hg⟩)
      · rw [hgroup i hi] at hg
        split at hg
        · exact Or.inr ⟨‹_›, (Option.some.inj hg).symm⟩
        · cases hg
  case group_call =>
    intro g hg
    rcases (hlt_iff g).1 hg with hg | ⟨hs, rfl⟩
    · obtain ⟨c, hc, hshared, hcall⟩ := h.group_call g hg
      refine ⟨c, List.mem_append_left _ hc, hshared, (hfilter g).trans ?_⟩
      rw [if_neg fun hand => UInt32.lt_irrefl _ (hand.2 ▸ hg)]
      exact hcall
    · exact ⟨_, List.mem_append_right _ List.mem_cons_self, hs,
        (hfilter _).trans (if_pos ⟨hs, rfl⟩)⟩

end Draft.Word

/-- The placement that a declaration on node `id` makes, if it is one. -/
def Declaration.calls (id : NodeId) : Declaration → List PlaceCall
  | .place groups o => [⟨id, FieldGroup.membersOf groups, o.shared⟩]
  | _ => []

/-- The members of a placement have fewer than 2^31 bits altogether. -/
def Declaration.Narrow : Declaration → Prop
  | .place groups _ => ((FieldGroup.membersOf groups).map (·.dtype.bits.toNat)).sum < 2 ^ 31
  | _ => True

namespace Draft

/-- Trees that declarations can make, each from a new one, with the placements that were accepted.
Those are narrow. -/
inductive Logged : Draft → List PlaceCall → Prop
  | new (root : RootId) (packing : Packing) : Logged (.new root packing) []
  | declared {d : Draft} {log : List PlaceCall} {c : Catalog} {id id' : NodeId}
      {decl : Declaration} {s : Drafting} :
    Logged d log → decl.OfFields → decl.Narrow → DraftM.declare id decl ⟨d, c⟩ = .ok id' s →
      Logged s.draft (log ++ decl.calls id)
  | refused {d : Draft} {log : List PlaceCall} {c : Catalog} {id : NodeId} {decl : Declaration}
      {e : BuildError} {s : Drafting} :
    Logged d log → decl.OfFields → DraftM.declare id decl ⟨d, c⟩ = .error e s → Logged s.draft log

variable {d d' : Draft} {log : List PlaceCall}

theorem Logged.built (h : d.Logged log) : d.Built := by
  induction h with
  | new root packing => exact .new root packing
  | declared _ hd _ hs ih => exact .declared ih hd hs
  | refused _ hd hs ih => exact .refused ih hd hs

/-- The log is about nodes of the draft, and says what is in the words of its bit structs. -/
structure FollowsLog (d : Draft) (log : List PlaceCall) : Prop where
  target : ∀ call ∈ log, ∃ n, d.nodes[call.target]? = some n
  filled : ∀ {id : NodeId} {w : Word} {width : UInt32}, d.word? id = some w →
    w.kind = .bitStruct width → ∃ calls,
      calls.map (·.1) = log.filter (·.target = id) ∧ w.Filled width calls

theorem FollowsLog.filter_eq_nil (h : d.FollowsLog log) {id : NodeId} (hn : d.nodes[id]? = none) :
    log.filter (·.target = id) = [] := by
  refine List.filter_eq_nil_iff.2 fun call hcall he => ?_
  obtain ⟨n, hn'⟩ := h.target call hcall
  rw [of_decide_eq_true he, hn] at hn'
  cases hn'

theorem FollowsLog.keeps (h : d.FollowsLog log) (hd : d.Keeps d') : d'.FollowsLog log := by
  constructor
  · intro call hcall
    obtain ⟨n, hn⟩ := h.target call hcall
    obtain ⟨n', hn', -⟩ := hd.kind hn
    exact ⟨n', hn'⟩
  · intro id w width hw hk
    rcases hd.word (by simp) hw with hold | ⟨hnone, hblank⟩
    · exact h.filled hold hk
    · exact ⟨[], (h.filter_eq_nil hnone).symm, hblank.filled width⟩

/-- A placement goes into the log, and its members into the word. -/
theorem FollowsLog.fills (h : d.FollowsLog log) (hg : d.Grown) {target : NodeId} {ms : List Member}
    {shared : Bool} (hv : ∀ m ∈ ms, m.Valid) (hms : (ms.map (·.dtype.bits.toNat)).sum < 2 ^ 31)
    (hd : d.Fills d' target ms shared) : d'.FollowsLog (log ++ [⟨target, ms, shared⟩]) := by
  constructor
  · intro call hcall
    obtain ⟨n, hn⟩ : ∃ n, d.nodes[call.target]? = some n := by
      rcases List.mem_append.1 hcall with hcall | hcall
      · exact h.target call hcall
      · exact List.mem_singleton.1 hcall ▸ hd.exists_node
    obtain ⟨mid, hkeeps⟩ := hd.exists_keeps
    obtain ⟨n', hn', -⟩ := hkeeps.kind hn
    exact ⟨n', hn'⟩
  · intro id w width hw hk
    have hother (hid : id ≠ target) : (log ++ [(⟨target, ms, shared⟩ : PlaceCall)]).filter
        (·.target = id) = log.filter (·.target = id) := by
      rw [List.filter_append]
      simp [Ne.symm hid]
    have hthis (hid : id = target) : (log ++ [(⟨target, ms, shared⟩ : PlaceCall)]).filter
        (·.target = id) = log.filter (·.target = id) ++ [⟨target, ms, shared⟩] := by
      rw [List.filter_append]
      simp [hid]
    rcases hd.word_cases hw with ⟨hold, hnil⟩ | ⟨hnone, hid, hblank⟩ |
      ⟨hid, hne, q, offsets, b, hold, hq, hplan, rfl⟩
    -- the word is as it was: the call went elsewhere, or it has no members
    · obtain ⟨calls, hcalls, hfilled⟩ := h.filled hold hk
      by_cases hid : id = target
      · obtain ⟨rfl, rfl⟩ := hnil hid
        exact ⟨_, by rw [hthis hid, ← hcalls, List.map_append]; rfl, hfilled.nothing target⟩
      · exact ⟨calls, hcalls.trans (hother hid).symm, hfilled⟩
    -- the word is that of a new node, which no call of the log can have been about
    · exact ⟨[], by rw [hother hid, h.filter_eq_nil hnone]; rfl, hblank.filled width⟩
    -- the word got the members of this call
    · replace hk : q.kind = .bitStruct width := hk
      obtain ⟨calls, hcalls, hfilled⟩ := h.filled hold hk
      unfold planBits at hplan
      rw [hk] at hplan
      have hwidth : width.toNat ≤ 64 := by
        have hmem := (hg.valid hq).width width (by rw [hk]; rfl)
        simp only [List.mem_cons, List.not_mem_nil, or_false] at hmem
        rcases hmem with rfl | rfl | rfl | rfl <;> decide
      exact ⟨_, by rw [hthis hid, ← hcalls, List.map_append]; rfl,
        hfilled.call hwidth hplan hne hv hms target offsets⟩

theorem Logged.follows (h : d.Logged log) : d.FollowsLog log := by
  induction h with
  | new root packing =>
    refine ⟨fun call hcall => absurd hcall List.not_mem_nil, fun {id} _ _ hw _ => ?_⟩
    rw [word?_new] at hw
    cases hw
  | refused hlogged hd hs ih => exact ih.keeps (hlogged.built.keeps hd hs)
  | @declared d log c id id' decl s hlogged hd hnarrow hs ih =>
    have hfills := hlogged.built.fills hd hs
    cases decl with
    | node | lazyGrad =>
      change s.draft.FollowsLog (log ++ [])
      rw [List.append_nil]
      exact ih.keeps hfills
    | place groups o =>
      exact ih.fills hlogged.built.good.grown (fun m hm => (hd m hm).valid) hnarrow hfills

/-- The word of a bit struct, after any narrow placements, holds what the accepted ones placed in it.
Call by call their fields tile the bits in use, which the word has. The groups of shared exponents
are numbered from zero on; each of them has the members of one call, who agree on the exponent that
the first of them owns. -/
theorem Logged.bitStruct_filled (h : d.Logged log) {id : NodeId} {n : Node} {width : UInt32}
    (hn : d.nodes[id]? = some n) (hk : n.kind = .bitStruct width) : ∃ calls,
      calls.map (·.1) = log.filter (·.target = id) ∧
        (n.word (d.placed id)).Filled width calls :=
  h.follows.filled (word?_of_some hn (by rw [hk]; rfl)) hk

end Draft

theorem Draft.Logged.after {s : Drafting} {log : List PlaceCall} {id : NodeId} {decl : Declaration}
    (h : s.draft.Logged log) (hd : decl.OfFields) (hnarrow : decl.Narrow)
    (hok : ∃ id' s', DraftM.declare id decl s = .ok id' s') :
    (s.after id decl).draft.Logged (log ++ decl.calls id) := by
  obtain ⟨id', s', hs⟩ := hok
  exact Drafting.after_of_ok hs ▸ .declared h hd hnarrow hs

namespace Sample

def struct : Drafting :=
  (⟨.new 0 .padded, ⟨#[none, none, none], 0⟩⟩ : Drafting).after 0 (.node (.bitStruct 32))

def floats : List FieldGroup :=
  [.one (fieldOf (.quantFloat 5 3) "a" 0), .one (fieldOf (.quantFloat 5 3) "b" 1)]

def integer : List FieldGroup := [.one (fieldOf (.quantInt 4 true) "q" 2)]

/-- A bit struct of two floats that share an exponent, and an integer. -/
def packed : Drafting :=
  (struct.after 1 (.place floats ⟨none, true⟩)).after 1 (.place integer ⟨none, false⟩)

def packedLog : List PlaceCall :=
  [⟨1, FieldGroup.membersOf floats, true⟩, ⟨1, FieldGroup.membersOf integer, false⟩]

theorem logged_packed : packed.draft.Logged packedLog := by
  have hfloats : Declaration.OfFields (.place floats ⟨none, true⟩) := by
    intro m hm
    rcases List.mem_cons.1 hm with rfl | hm
    · exact declared_fieldOf 0 ⟨.empty, rfl⟩ List.mem_cons_self
    · rw [List.mem_singleton.1 hm]
      exact declared_fieldOf 1 ⟨⟨#[none], 0⟩, rfl⟩ List.mem_cons_self
  have hinteger : Declaration.OfFields (.place integer ⟨none, false⟩) := by
    intro m hm
    rw [List.mem_singleton.1 hm]
    exact declared_fieldOf 2 ⟨⟨#[none, none], 0⟩, rfl⟩ List.mem_cons_self
  have hnew : (⟨.new 0 .padded, ⟨#[none, none, none], 0⟩⟩ : Drafting).draft.Logged [] :=
    .new 0 .padded
  have hstruct : struct.draft.Logged [] := hnew.after trivial trivial ⟨_, _, rfl⟩
  have hnarrow : ((FieldGroup.membersOf floats).map (·.dtype.bits.toNat)).sum < 2 ^ 31 := by decide
  have hnarrow' : ((FieldGroup.membersOf integer).map (·.dtype.bits.toNat)).sum < 2 ^ 31 := by
    decide
  exact (hstruct.after hfloats hnarrow ⟨_, _, rfl⟩).after hinteger hnarrow' ⟨_, _, rfl⟩

def packedNode : Node := packed.draft.nodes[1]?.getD .root

theorem bitStruct_filled_packed : packedNode.bitsUsed = 17 ∧
    (packed.draft.placed 1).map PlaceInfo.span = [⟨some 3, 5⟩, ⟨some 8, 5⟩, ⟨some 13, 4⟩] ∧
    ∃ calls, calls.map (·.1) = packedLog ∧
      (packedNode.word (packed.draft.placed 1)).Filled 32 calls := by
  have hn : packed.draft.nodes[1]? = some packedNode := by decide +kernel
  have hk : packedNode.kind = .bitStruct 32 := by decide +kernel
  exact ⟨by decide +kernel, by decide +kernel, logged_packed.bitStruct_filled hn hk⟩

end Sample

end SparseLayout
