import SparseLayout.Proofs.Layout.BitSlot
import SparseLayout.Proofs.Layout.Radix

namespace SparseLayout

open Draft (Node)
open Layout.Node (digit linear)

theorem checkQuant_singleton {m : Member} (hq : m.dtype.isQuant = true) (type : NodeType) :
    checkQuant type [m] = .ok () := by
  unfold checkQuant
  rw [List.find?_cons, hq]
  rfl

/-- A member is planned for a bit array where the bits of all elements fit the word. -/
theorem le_of_planArray {width : UInt32} {node : Node} {m : Member} {shared : Bool} {b : BitPlan}
    (h : planArray width node [m] shared = .ok b) : shared = false ∧ node.children = [] ∧
      node.index.exactCells * m.dtype.bits.toNat ≤ width.toNat := by
  obtain ⟨_, hm, hempty, -⟩ := planArray_ok h
  unfold planArray at h
  split at h
  · cases h
  rename_i hshared
  rw [hempty] at h
  obtain ⟨_, -, h⟩ := exists_of_bind h
  obtain ⟨cells, hcells, h⟩ := exists_of_bind h
  obtain ⟨total, htotal, h⟩ := exists_of_bind h
  split at h
  · cases h
  rename_i hfit
  refine ⟨Bool.eq_false_iff.2 hshared, hempty, ?_⟩
  rw [← IndexSpace.toNat_of_paddedCells (unchecked_eq_ok_iff.1 hcells),
    ← UInt32.toNat_toUInt64 m.dtype.bits, ← checkedMul_eq_some_iff.1 (unchecked_eq_ok_iff.1 htotal),
    ← UInt32.toNat_toUInt64 width]
  exact UInt64.le_iff_toNat_le.1 (UInt64.not_lt.1 hfit)

/-- A quantized member that comes first into a bit array is planned, refused or ends in a panic, by
the exact number of bits of all elements. -/
theorem planArray_cases {width : UInt32} {node : Node} {m : Member} (hq : m.dtype.isQuant = true)
    (hbits : 0 < m.dtype.bits.toNat) (hempty : node.children = []) (hpos : node.index.Peopled) :
    let total := node.index.exactCells * m.dtype.bits.toNat
    (total ≤ width.toNat ∧ ∃ b, planArray width node [m] false = .ok b) ∨
      (width.toNat < total ∧ total < UInt64.size ∧ planArray width node [m] false =
        .error (.invalid (.arrayFull width (.ofNat node.index.exactCells) m.dtype.bits.toUInt64))) ∨
      (UInt64.size ≤ total ∧ planArray width node [m] false = .error (.panic .overflow)) := by
  intro total
  have hplan : planArray width node [m] false = do
      let cells ← unchecked node.index.paddedCells
      let total ← unchecked (checkedMul cells m.dtype.bits.toUInt64)
      if total > width.toUInt64 then
        .error (.invalid (.arrayFull width cells m.dtype.bits.toUInt64))
      else return ⟨[⟨some 0, none⟩], total.toUInt32, node.exponentGroups⟩ := by
    unfold planArray
    rw [hempty, checkQuant_singleton hq]
    rfl
  rw [hplan]
  cases hc : node.index.paddedCells with
  | none =>
    have hcells := hpos.paddedCells_eq_none_iff.1 hc
    have hle : node.index.exactCells ≤ total := Nat.le_mul_of_pos_right _ hbits
    exact .inr (.inr ⟨hcells.trans hle, rfl⟩)
  | some cells =>
    have hcells := IndexSpace.toNat_of_paddedCells hc
    have hbits' : m.dtype.bits.toUInt64.toNat = m.dtype.bits.toNat := UInt32.toNat_toUInt64 _
    cases ht : checkedMul cells m.dtype.bits.toUInt64 with
    | none =>
      have hover := checkedMul_eq_none_iff.1 ht
      rw [hbits', hcells] at hover
      exact .inr (.inr ⟨hover, by simp [unchecked, ht, bind, Except.bind]⟩)
    | some product =>
      have hproduct := checkedMul_eq_some_iff.1 ht
      rw [hbits', hcells] at hproduct
      have hcompare : width.toUInt64 < product ↔ width.toNat < total := by
        rw [UInt64.lt_iff_toNat_lt, UInt32.toNat_toUInt64, hproduct]
      rcases Nat.lt_or_ge width.toNat total with hlt | hge
      · refine .inr (.inl ⟨hlt, lt_of_toNat_eq hproduct, ?_⟩)
        rw [← hcells, UInt64.ofNat_toNat]
        simp [unchecked, ht, bind, Except.bind, hcompare.2 hlt]
      · refine .inl ⟨hge, ?_⟩
        have hfit := mt hcompare.1 (Nat.not_lt.2 hge)
        simp only [unchecked, ht, bind, Except.bind, gt_iff_lt, if_neg hfit]
        exact ⟨_, rfl⟩

/-- Nothing but the width of the word can keep this member out of the bit array. -/
structure Draft.Node.Awaits (n : Node) (c : Catalog) (o : PlaceOptions) (m : Member) : Prop where
  fresh : c.isPlaced m = false
  offsets : ∃ offsets, o.offsets n.index.arity = .ok offsets
  not_shared : o.shared = false
  empty : n.children = []

section Plan

variable {c : Catalog} {id : NodeId} {n : Node} {ds : List Division} {width : UInt32} {m : Member}
  {o : PlaceOptions}

theorem Draft.Node.Awaits.planPlace_eq (h : n.Awaits c o m) (hk : n.kind = .bitArray ds width)
    (id : NodeId) :
    ∃ offsets, planPlace c id n [m] o = do
      let b ← planArray width n [m] false
      return ⟨id, id = 0, placeInfos offsets [m] b.fields, b.bitsUsed, b.exponentGroups⟩ := by
  obtain ⟨offsets, hoffsets⟩ := h.offsets
  refine ⟨offsets, ?_⟩
  have hfresh : checkFresh c [] [m] = .ok () := by simp [checkFresh, h.fresh]
  unfold planPlace planBits placeInfos
  rw [hk, hfresh, hoffsets, h.not_shared]
  rfl

/-- Whatever else keeps a member out of a bit array is reported as an argument that is refused. -/
theorem planPlace_not_awaits (hk : n.kind = .bitArray ds width) (h : ¬ n.Awaits c o m) :
    ∃ cause, planPlace c id n [m] o = .error (.invalid cause) := by
  unfold planPlace planBits
  rw [hk]
  cases hfree : c.isPlaced m with
  | true =>
    have hplaced : checkFresh c [] [m] = .error (.memberPlaced m.name) := by
      simp [checkFresh, hfree]
    rw [hplaced]
    exact ⟨_, rfl⟩
  | false =>
    have hfresh : checkFresh c [] [m] = .ok () := by simp [checkFresh, hfree]
    rw [hfresh]
    cases hoffsets : o.offsets n.index.arity with
    | error cause => exact ⟨cause, rfl⟩
    | ok offsets =>
      cases hshared : o.shared with
      | true => exact ⟨.sharedParent, rfl⟩
      | false =>
        cases hempty : n.children with
        | nil => exact absurd ⟨hfree, ⟨offsets, hoffsets⟩, hshared, hempty⟩ h
        | cons child children =>
          have hmembers : planArray width n [m] false = .error (.invalid .arrayMembers) := by
            simp [planArray, hempty]
          exact ⟨.arrayMembers, by simp only [hmembers]; rfl⟩

/-- A placement of one quantized member in a bit array goes by the exact number of bits of all
elements, where nothing else keeps the member out. -/
theorem planPlace_bitArray (hk : n.kind = .bitArray ds width) (hq : m.dtype.isQuant = true)
    (hbits : 0 < m.dtype.bits.toNat) (hpos : n.index.Peopled) (id : NodeId) :
    let total := n.index.exactCells * m.dtype.bits.toNat
    ((∃ plan, planPlace c id n [m] o = .ok plan) ↔ n.Awaits c o m ∧ total ≤ width.toNat) ∧
      (∀ e, planPlace c id n [m] o = .error e → (∃ cause, e = .invalid cause) ∨
        n.Awaits c o m ∧ UInt64.size ≤ total) ∧
      (n.Awaits c o m → width.toNat < total → total < UInt64.size → planPlace c id n [m] o =
        .error (.invalid (.arrayFull width (.ofNat n.index.exactCells) m.dtype.bits.toUInt64))) ∧
      (n.Awaits c o m → UInt64.size ≤ total →
        planPlace c id n [m] o = .error (.panic .overflow)) := by
  intro total
  have hwidth : width.toNat < UInt64.size := Nat.lt_trans width.toNat_lt (by decide)
  by_cases h : n.Awaits c o m
  swap
  · obtain ⟨cause, he⟩ : ∃ cause, planPlace c id n [m] o = .error (.invalid cause) :=
      planPlace_not_awaits hk h
    rw [he]
    refine ⟨iff_of_false nofun fun hand => h hand.1, fun e hcause => .inl ⟨cause, ?_⟩,
      fun ha => absurd ha h, fun ha => absurd ha h⟩
    rw [← Except.error.inj hcause]
  obtain ⟨offsets, hplan⟩ := h.planPlace_eq hk id
  rw [hplan]
  rcases planArray_cases hq hbits h.empty hpos with
    ⟨hle, b, hb⟩ | ⟨hlt, hword, he⟩ | ⟨hge, he⟩
  · rw [hb]
    exact ⟨iff_of_true ⟨_, rfl⟩ ⟨h, hle⟩, nofun, fun _ hlt => absurd hle (Nat.not_le.2 hlt),
      fun _ hge => absurd hle (Nat.not_le.2 (Nat.lt_of_lt_of_le hwidth hge))⟩
  · rw [he]
    refine ⟨iff_of_false nofun fun hand => Nat.not_le.2 hlt hand.2, fun e hcause => .inl ?_,
      fun _ _ _ => rfl, fun _ hge => absurd hword (Nat.not_lt.2 hge)⟩
    exact ⟨_, (Except.error.inj hcause).symm⟩
  · rw [he]
    refine ⟨iff_of_false nofun fun hand => ?_, fun e _ => .inr ⟨h, hge⟩,
      fun _ _ hword => absurd hword (Nat.not_lt.2 hge), fun _ _ => rfl⟩
    exact Nat.not_le.2 (Nat.lt_of_lt_of_le hwidth hge) hand.2

end Plan

namespace DraftM

variable {s : Drafting} {id : NodeId} {n : Node} {groups : List FieldGroup} {o : PlaceOptions}

/-- On a bit container a plan that was accepted is carried out. -/
theorem place_ok_iff (h : s.draft.Good) (hn : s.draft.nodes[id]? = some n)
    (hb : n.kind.type.isBitLevel = true) (hv : ∀ m ∈ FieldGroup.membersOf groups, m.Valid) :
    (∃ s', place id groups o s = .ok () s') ↔
      ∃ plan, planPlace s.catalog id n (FieldGroup.membersOf groups) o = .ok plan := by
  rw [place_eq hn]
  cases hplan : planPlace s.catalog id n (FieldGroup.membersOf groups) o with
  | error cause => exact iff_of_false (by rintro ⟨_, he⟩; cases he) (by rintro ⟨_, he⟩; cases he)
  | ok plan =>
    refine iff_of_true ?_ ⟨plan, rfl⟩
    rcases planPlace_ok hplan with ⟨-, -, rfl⟩ | ⟨offsets, b, hne, hfresh, -, hbits, rfl⟩
    · exact ⟨s, rfl⟩
    -- the members of the plan are fresh, so none of them can fail to be bound
    · obtain ⟨⟨⟩, s', hs, -⟩ :=
        (ends_applyPlan_bits offsets h hn hb hne hv hfresh hbits).exists_ok
      exact ⟨s', hs⟩

end DraftM

/-- The bits of all elements are no more than the width of a bit array. -/
def Draft.Word.ArrayFits (w : Word) : Prop :=
  ∀ (ds : List Division) (width : UInt32), w.kind = .bitArray ds width →
    ∀ i ∈ w.placed, w.index.exactCells * i.member.dtype.bits.toNat ≤ width.toNat

theorem Draft.Word.Blank.arrayFits {w : Word} (h : w.Blank) : w.ArrayFits := by
  intro ds width _ i hi
  rw [h.placed] at hi
  cases hi

/-- The only member of a bit array was accepted there. -/
theorem Draft.arrayFits_of_planBits {d : Draft} {id : NodeId} {q : Node} {ms : List Member}
    {shared : Bool} {offsets : List Int32} {b : BitPlan} (hq : d.nodes[id]? = some q)
    (hplan : planBits q ms shared = .ok b) : Word.ArrayFits ⟨q.kind, q.index,
      d.placed id ++ placeInfos offsets ms b.fields, b.bitsUsed, b.exponentGroups⟩ := by
  intro ds width hk i hi
  replace hk : q.kind = .bitArray ds width := hk
  unfold planBits at hplan
  rw [hk] at hplan
  obtain ⟨m, rfl, hempty, -⟩ := planArray_ok hplan
  have hplaced : d.placed id = [] := by
    unfold placed
    rw [children_of_some hq, hempty]
    rfl
  simp only [hplaced, List.nil_append] at hi
  obtain rfl : i.member = m := List.mem_singleton.1 (of_mem_placeInfos hi).1
  exact (le_of_planArray hplan).2.2

theorem Draft.Built.arrayFits {d : Draft} (h : d.Built) {id : NodeId} {w : Word}
    (hw : d.word? id = some w) : w.ArrayFits := by
  induction h generalizing id w with
  | new root packing =>
    rw [word?_new] at hw
    cases hw
  | @refused d c target decl e s hbuilt hd hs ih =>
    rcases (hbuilt.keeps hd hs).word (by simp) hw with hold | ⟨-, hblank⟩
    · exact ih hold
    · exact hblank.arrayFits
  | @declared d c target id' decl s hbuilt hd hs ih =>
    have hfills := hbuilt.fills hd hs
    cases decl with
    | node | lazyGrad =>
      rcases hfills.word (by simp) hw with hold | ⟨-, hblank⟩
      · exact ih hold
      · exact hblank.arrayFits
    | place groups o =>
      rcases hfills.word_cases hw with ⟨hold, -⟩ | ⟨-, -, hblank⟩ |
        ⟨-, -, q, offsets, b, -, hq, hplan, rfl⟩
      · exact ih hold
      · exact hblank.arrayFits
      · exact arrayFits_of_planBits hq hplan

/-- The elements of the bit array `p`, which `place` holds, have their bits in its word one after
the other. -/
structure Layout.ElementsApart (t : Layout) (p place : Layout.Node) (bits width : UInt32) :
    Prop where
  fit : p.index.exactCells * bits.toNat ≤ width.toNat
  slot : ∀ c, (linear place p c).toNat < p.index.exactCells ∧ ∃ offset : UInt32,
    t.valueSlot place c = .ok ⟨(width / 8).toNat, some offset⟩ ∧
      offset.toNat = (linear place p c).toNat * bits.toNat ∧
        offset.toNat + bits.toNat ≤ width.toNat
  apart : ∀ c c', (∃ a ∈ p.kind.axes, digit place p a c ≠ digit place p a c') →
    Apart ((linear place p c).toNat * bits.toNat) bits.toNat
      ((linear place p c').toNat * bits.toNat) bits.toNat

theorem Layout.Charted.elementsApart {t : Layout} {p place : Layout.Node} {ds : List Division}
    {width : UInt32} {info : PlaceInfo} (ht : t.Charted) (hp : t.Has p)
    (hn : place ∈ t.childNodes p) (hkp : p.kind = .bitArray ds width)
    (hk : place.kind = .place info) (h0 : info.bitOffset = some 0)
    (hpos : 0 < info.member.dtype.bits.toNat) (hcells : p.index.paddedCells = some p.cells)
    (hfit : p.index.exactCells * info.member.dtype.bits.toNat ≤ width.toNat) :
    t.ElementsApart p place info.member.dtype.bits width := by
  have hwidth := width.toNat_lt
  have hlin (c : Coords) : (linear place p c).toNat < p.index.exactCells := by
    rw [← IndexSpace.toNat_of_paddedCells hcells]
    exact (ht.linear_lt_and_inj hp hcells place c).1
  have hle (c : Coords) : (linear place p c).toNat * info.member.dtype.bits.toNat +
      info.member.dtype.bits.toNat ≤ width.toNat :=
    calc _ = ((linear place p c).toNat + 1) * info.member.dtype.bits.toNat :=
          (Nat.succ_mul ..).symm
      _ ≤ p.index.exactCells * info.member.dtype.bits.toNat := Nat.mul_le_mul_right _ (hlin c)
      _ ≤ width.toNat := hfit
  refine ⟨hfit, fun c => ⟨hlin c, ?_⟩, ?_⟩
  · obtain ⟨offset, hslot, hoff⟩ := ht.valueSlot_bitArray hp hn hkp hk (c := c) (by rw [h0]; rfl)
      hpos (by have := hle c; rw [UInt32.size]; omega)
    exact ⟨offset, hslot, hoff, hoff ▸ hle c⟩
  · rintro c c' ⟨a, ha, hne⟩
    refine apart_mul (fun he => hne ?_) _
    exact ((ht.linear_lt_and_inj hp hcells place c).2 c').1 (UInt64.toNat_inj.1 he) a ha

namespace Draft

variable {d : Draft} {id : NodeId} {n : Node} {ds : List Division} {width : UInt32}

/-- The elements of an array that was accepted have bits of their own. -/
theorem Built.elementsApart (h : d.Built) (hn : d.nodes[id]? = some n)
    (hk : n.kind = .bitArray ds width) {tree : TreeId} {compileOnly : Bool} {t : Layout}
    (ht : d.compile tree compileOnly = .ok t) {p place : Layout.Node} (hp : t.nodes[id]? = some p)
    (hplace : place ∈ t.childNodes p) : t.childNodes p = [place] ∧
      ∃ info, place.kind = .place info ∧
        t.ElementsApart p place info.member.dtype.bits width := by
  obtain ⟨hof, -⟩ := compile_nodes ht
  have hg := h.good
  have hct := hof.charted hg.grown
  have hcells := hg.grown.paddedCells_compiled (hg.grown.compiledFrom_of_ok ht).2 hp
  obtain ⟨n', hn', hid, hkp, -, -, hip, -⟩ := hof.node hp
  rw [hn, Option.some.injEq] at hn'
  subst hn'
  have hhas : t.Has p := hct.has hp
  rw [hk] at hkp
  obtain ⟨info, hkind, hin, hzero, honly⟩ := hof.array_child hg hhas hplace hkp
  have hvalid := hof.valid_of_place hg.grown (hof.has_of_mem hplace) hkind
  obtain ⟨-, -, -, -, hadm, -⟩ := hof.child hg.grown hhas hplace
  rw [hkind] at hadm
  have hquant : info.member.dtype.isQuant = true := by
    rw [hadm.2.2, Layout.Node.type, hkp]
    rfl
  have hfit := h.arrayFits (word?_of_some hn (by rw [hk]; rfl)) ds width hk info (hid ▸ hin)
  rw [show (n.word (d.placed id)).index = n.index from rfl] at hfit
  exact ⟨honly, info, hkind, hct.elementsApart hhas hplace hkp hkind hzero
    (DataType.bits_pos hvalid.1 hquant) hcells (hip ▸ hfit)⟩

/-- One quantized member is accepted by a bit array just where nothing else keeps it out and the
bits of all elements are no more than the width. It is refused otherwise, but where the number of
these bits is no word the call panics; either way nothing changes. The elements of the compiled tree
lie in the word, and no two of them share a bit. -/
theorem Built.bitArray_capacity (h : d.Built) (hn : d.nodes[id]? = some n)
    (hk : n.kind = .bitArray ds width) :
    (∀ (c : Catalog) (groups : List FieldGroup) (o : PlaceOptions) (m : Member),
      FieldGroup.membersOf groups = [m] → m.Declared → m.dtype.isQuant = true →
        let total := n.index.exactCells * m.dtype.bits.toNat
        ((∃ s, DraftM.place id groups o ⟨d, c⟩ = .ok () s) ↔
          n.Awaits c o m ∧ total ≤ width.toNat) ∧
        (∀ e s, DraftM.place id groups o ⟨d, c⟩ = .error e s → s = ⟨d, c⟩ ∧
          ((∃ cause, e = .invalid cause) ∨ n.Awaits c o m ∧ UInt64.size ≤ total)) ∧
        (n.Awaits c o m → width.toNat < total → total < UInt64.size →
          DraftM.place id groups o ⟨d, c⟩ = .error (.invalid
            (.arrayFull width (.ofNat n.index.exactCells) m.dtype.bits.toUInt64)) ⟨d, c⟩) ∧
        (n.Awaits c o m → UInt64.size ≤ total →
          DraftM.place id groups o ⟨d, c⟩ = .error (.panic .overflow) ⟨d, c⟩)) ∧
    ∀ (tree : TreeId) (compileOnly : Bool) (t : Layout), d.compile tree compileOnly = .ok t →
      ∀ p, t.nodes[id]? = some p → ∀ place ∈ t.childNodes p, t.childNodes p = [place] ∧
        ∃ info, place.kind = .place info ∧
          t.ElementsApart p place info.member.dtype.bits width := by
  refine ⟨?_, fun _ _ _ ht p hp place hplace => h.elementsApart hn hk ht hp hplace⟩
  intro c groups o m hms hm hq total
  have hv : ∀ m' ∈ FieldGroup.membersOf groups, m'.Valid := by
    rw [hms]
    exact fun m' hm' => List.mem_singleton.1 hm' ▸ hm.valid
  have hok : (∃ s, DraftM.place id groups o ⟨d, c⟩ = .ok () s) ↔ _ :=
    DraftM.place_ok_iff h.good hn (by rw [hk]; rfl) hv
  have hplace : DraftM.place id groups o ⟨d, c⟩ = _ := DraftM.place_eq hn groups o
  rw [hms] at hok hplace
  -- placing goes just as planning, which counts the bits last
  obtain ⟨hiff, herror, hfull, hpanic⟩ := planPlace_bitArray (c := c) (o := o) hk hq
    (DataType.bits_pos hm.valid.1 hq) (h.good.grown.peopled hn) id
  refine ⟨hok.trans hiff, fun e s he => ?_, fun ha hlt hword => ?_, fun ha hge => ?_⟩
  · cases hplan : planPlace c id n [m] o with
    | error e' =>
      rw [hplan, he] at hplace
      obtain ⟨rfl, rfl⟩ := EStateM.Result.error.inj hplace
      exact ⟨rfl, herror e hplan⟩
    | ok plan =>
      obtain ⟨s', hs'⟩ := hok.2 ⟨plan, hplan⟩
      rw [he] at hs'
      cases hs'
  · rw [hplace, hfull ha hlt hword]
  · rw [hplace, hpanic ha hge]

end Draft

namespace Sample

/-- A bit array of 32 bits with that many elements along each of two axes. -/
def square (extent : UInt32) : Drafting :=
  (⟨.new 0 .padded, ⟨#[none], 0⟩⟩ : Drafting).after 0 (.node (.bitArray [0, 1] (.uniform extent) 32))

theorem built_square (extent : UInt32) : (square extent).draft.Built :=
  (Draft.Built.new 0 .padded).after (s := ⟨.new 0 .padded, ⟨#[none], 0⟩⟩) 0 trivial

/-- A signed integer of four bits. -/
def nibble : Member := ⟨⟨0, "q", .quantInt 4 true⟩, .primal none⟩

theorem declared_nibble : nibble.Declared :=
  declared_fieldOf 0 ⟨.empty, rfl⟩ List.mem_cons_self

/-- The square with a nibble in every element, as far as it is accepted. -/
def nibbles (extent : UInt32) : Drafting :=
  (square extent).after 1 (.place [.one (fieldOf (.quantInt 4 true) "q" 0)] ⟨none, false⟩)

theorem built_nibbles (extent : UInt32) : (nibbles extent).draft.Built := by
  refine (built_square extent).after 1 fun m hm => ?_
  exact List.mem_singleton.1 hm ▸ declared_nibble

def nibblesLayout : Layout := ((nibbles 2).draft.compile 0 false).toOption.get (by decide +kernel)

def squareNode (extent : UInt32) : Node := (square extent).draft.nodes[1]?.getD .root

def placeNibble (extent : UInt32) : EStateM.Result BuildError Drafting Unit :=
  DraftM.place 1 [.one (fieldOf (.quantInt 4 true) "q" 0)] ⟨none, false⟩
    ⟨(square extent).draft, ⟨#[none], 0⟩⟩

/-- Sixteen nibbles are more than 32 bits, and refused. Four are fewer, and lie apart. The bits of
2^62 are no word, and counting them panics. -/
theorem bitArray_capacity_nibbles :
    placeNibble 4 =
        .error (.invalid (.arrayFull 32 16 4)) ⟨(square 4).draft, ⟨#[none], 0⟩⟩ ∧
      (∃ p place, place ∈ nibblesLayout.childNodes p ∧ nibblesLayout.ElementsApart p place 4 32) ∧
      (squareNode 2147483648).index.exactCells = 2 ^ 62 ∧ placeNibble 2147483648 =
        .error (.panic .overflow) ⟨(square 2147483648).draft, ⟨#[none], 0⟩⟩ := by
  refine ⟨?_, ?_, by decide +kernel, ?_⟩
  · have hn : (square 4).draft.nodes[1]? = some (squareNode 4) := by decide +kernel
    have hk : (squareNode 4).kind = .bitArray [⟨0, 4⟩, ⟨1, 4⟩] 32 := by decide +kernel
    obtain ⟨hplace, -⟩ := (built_square 4).bitArray_capacity hn hk
    obtain ⟨-, -, hfull, -⟩ := hplace ⟨#[none], 0⟩ [.one (fieldOf (.quantInt 4 true) "q" 0)]
      ⟨none, false⟩ nibble rfl declared_nibble rfl
    have hcells : (squareNode 4).index.exactCells = 16 := by decide +kernel
    rw [hcells] at hfull
    exact hfull ⟨rfl, ⟨[], rfl⟩, rfl, by decide +kernel⟩ (by decide) (by decide)
  · have hcompile : (nibbles 2).draft.compile 0 false = .ok nibblesLayout :=
      eq_ok_get (by decide +kernel)
    let n := (nibbles 2).draft.nodes[1]?.getD .root
    have hn : (nibbles 2).draft.nodes[1]? = some n := by decide +kernel
    have hk : n.kind = .bitArray [⟨0, 2⟩, ⟨1, 2⟩] 32 := by decide +kernel
    obtain ⟨-, hapart⟩ := (built_nibbles 2).bitArray_capacity hn hk
    let p := nibblesLayout.nodes[1]?.getD nibblesLayout.rootNode
    let place := nibblesLayout.nodes[2]?.getD nibblesLayout.rootNode
    have hmem : place ∈ nibblesLayout.childNodes p := by decide +kernel
    obtain ⟨-, info, hkind, helements⟩ := hapart 0 false _ hcompile p (by decide +kernel) place hmem
    have hbits : place.kind.place?.map (·.member.dtype.bits) = some 4 := by decide +kernel
    rw [hkind] at hbits
    have hbits : info.member.dtype.bits = 4 := Option.some.inj hbits
    rw [hbits] at helements
    exact ⟨p, place, hmem, helements⟩
  · have hn : (square 2147483648).draft.nodes[1]? = some (squareNode 2147483648) := by
      decide +kernel
    have hk : (squareNode 2147483648).kind =
        .bitArray [⟨0, 2147483648⟩, ⟨1, 2147483648⟩] 32 := by decide +kernel
    obtain ⟨hplace, -⟩ := (built_square 2147483648).bitArray_capacity hn hk
    obtain ⟨-, -, -, hpanic⟩ := hplace ⟨#[none], 0⟩ [.one (fieldOf (.quantInt 4 true) "q" 0)]
      ⟨none, false⟩ nibble rfl declared_nibble rfl
    exact hpanic ⟨rfl, ⟨[], rfl⟩, rfl, by decide +kernel⟩ (by decide +kernel)

end Sample

end SparseLayout
