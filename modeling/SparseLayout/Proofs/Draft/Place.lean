import SparseLayout.Proofs.Draft.Declare
import SparseLayout.Proofs.Draft.Words

namespace SparseLayout

open Draft (Node)

namespace DraftM

variable {α β : Type} {m : DraftM α} {s : Drafting} {ok ok' : α → Drafting → Prop}
  {no no' : Drafting → Prop}

/-- Run on `s`, the declaration ends with a result and a draft that satisfy `ok`, or is refused and
leaves one that satisfies `no`. -/
def Ends (m : DraftM α) (s : Drafting) (ok : α → Drafting → Prop) (no : Drafting → Prop) : Prop :=
  match m s with
  | .ok a s => ok a s
  | .error _ s => no s

theorem Ends.mono (h : Ends m s ok no) (hok : ∀ a s, ok a s → ok' a s)
    (hno : ∀ s, no s → no' s) : Ends m s ok' no' := by
  unfold Ends at *
  split at h
  · exact hok _ _ h
  · exact hno _ h

theorem Ends.and (h : Ends m s ok no) (h' : Ends m s ok' no') :
    Ends m s (fun a s => ok a s ∧ ok' a s) fun s => no s ∧ no' s := by
  unfold Ends at *
  split at h <;> rename_i he <;> rw [he] at h' <;> exact ⟨h, h'⟩

theorem Ends.bind {f : α → DraftM β} {ok : β → Drafting → Prop}
    (h : Ends m s (fun a s => Ends (f a) s ok no) no) : Ends (m >>= f) s ok no := by
  unfold Ends at h
  change match EStateM.bind m f s with
    | .ok a s => ok a s
    | .error _ s => no s
  unfold EStateM.bind
  split at h <;> rename_i he <;> rw [he] <;> exact h

theorem Ends.exists_ok (h : Ends m s ok fun _ => False) : ∃ a s', m s = .ok a s' ∧ ok a s' := by
  unfold Ends at h
  split at h
  · exact ⟨_, _, ‹_›, h⟩
  · exact h.elim

theorem ends_pure {a : α} (h : ok a s) : Ends (pure a) s ok no := h

theorem ends_throw {e : BuildError} (h : no s) : Ends (throw e : DraftM α) s ok no := h

theorem ends_get {ok : Drafting → Drafting → Prop} (h : ok s s) :
    Ends (get : DraftM Drafting) s ok no := h

theorem ends_check {r : Except BuildError α} (hok : ∀ a, r = .ok a → ok a s) (hno : no s) :
    Ends (check r) s ok no := by
  cases r with
  | ok a => exact hok a rfl
  | error c => exact hno

theorem ends_node {id : NodeId} {ok : Node → Drafting → Prop}
    (hok : ∀ n, s.draft.nodes[id]? = some n → ok n s) (hno : s.draft.nodes[id]? = none → no s) :
    Ends (node id) s ok no := by
  unfold node
  apply Ends.bind
  apply ends_get
  cases hn : s.draft.nodes[id]? with
  | some n => exact hok n hn
  | none => exact hno hn

theorem ends_push {id : NodeId} {q : Node} {kind : Kind} {ok : NodeId → Drafting → Prop}
    (hq : s.draft.nodes[id]? = some q)
    (h : ok s.draft.next { s with draft := s.draft.push id q kind }) :
    Ends (push id kind) s ok no := by
  apply Ends.bind
  refine ends_node ?_ fun hn => ?_
  · intro n hn
    rw [hq, Option.some.injEq] at hn
    subst hn
    exact h
  · rw [hq] at hn
    cases hn

end DraftM

namespace Draft

variable {d d' : Draft} {id p : NodeId} {n q : Node} {kind : Kind}

/-- The draft was made by declarations and its words are packed. -/
structure Good (d : Draft) : Prop where
  grown : d.Grown
  packs : d.Packs none

theorem Good.push (h : d.Good) (hq : d.nodes[p]? = some q) (ha : q.kind.type.Admits kind)
    (hk : kind.Valid) (hb : q.kind.type.isBitLevel = false) : (d.push p q kind).Good :=
  ⟨h.grown.push hq ha hk, h.packs.push h.grown hq (Or.inl hb)⟩

theorem Good.setBits (h : d.Good) (hq : d.nodes[p]? = some q)
    (hb : q.kind.type.isBitLevel = false) (used groups : UInt32) :
    (d.setBits p used groups).Good :=
  ⟨h.grown.setBits p used groups, h.packs.setBits hq (Or.inl hb) used groups⟩

theorem valid_place (info : PlaceInfo) : (Kind.place info).Valid := by
  constructor
  · exact List.nodup_nil
  · intro d hd
    cases hd
  · intro c hc
    cases hc
  · intro w hw
    cases hw

theorem valid_dense_nil : (Kind.dense []).Valid := by
  constructor
  · exact List.nodup_nil
  · intro d hd
    cases hd
  · intro c hc
    cases hc
  · intro w hw
    cases hw

end Draft

open Draft

/-- Placed members in the order of `ms`, with these bits. -/
def placeInfos (offsets : List Int32) (ms : List Member) (fs : List BitField) : List PlaceInfo :=
  ms.zipWith (fun m b => ⟨m, offsets, b.bitOffset, b.sharedExponent⟩) fs

theorem of_mem_placeInfos {offsets : List Int32} {ms : List Member} {fs : List BitField}
    {i : PlaceInfo} (hi : i ∈ placeInfos offsets ms fs) :
    i.member ∈ ms ∧ i.indexOffsets = offsets := by
  induction ms generalizing fs with
  | nil => cases hi
  | cons m ms ih =>
    cases fs with
    | nil => cases hi
    | cons f fs =>
      rcases List.mem_cons.1 hi with rfl | hi
      · exact ⟨List.mem_cons_self, rfl⟩
      · exact ⟨List.mem_cons_of_mem _ (ih hi).1, (ih hi).2⟩

section Plans

variable {node : Node} {ms : List Member} {shared : Bool} {width : UInt32} {b : BitPlan}

theorem checkQuant_ok {type : NodeType} {u : Unit} (h : checkQuant type ms = .ok u) :
    ∀ m ∈ ms, m.dtype.isQuant = true := by
  unfold checkQuant at h
  split at h
  · cases h
  · rename_i hf
    intro m hm
    simpa using List.find?_eq_none.1 hf m hm

theorem foldlM_checkedAdd {start n : UInt32}
    (h : ms.foldlM (fun n m => checkedAdd n m.dtype.bits) start = some n) :
    n.toNat = start.toNat + (ms.map (·.dtype.bits.toNat)).sum := by
  induction ms generalizing start with
  | nil =>
    cases h
    rfl
  | cons m ms ih =>
    rw [List.foldlM_cons] at h
    obtain ⟨next, hnext, h⟩ := Option.bind_eq_some_iff.1 h
    rw [ih h, checkedAdd_eq_some_iff.1 hnext, List.map_cons, List.sum_cons, Nat.add_assoc]

/-- The members whose digits were counted are quantized floats with one exponent. -/
theorem sharedBits_ok {known : Option UInt8} {digits exponent total : UInt32}
    (h : sharedBits known digits ms = .ok (exponent, total)) :
    (∀ w, known = some w → exponent = w.toUInt32) ∧
      (∀ m ∈ ms, ∃ own bits, m.dtype = .quantFloat own bits ∧ exponent = bits.toUInt32) ∧
      total.toNat = digits.toNat + (ms.map (·.dtype.digitBits.toNat)).sum := by
  induction ms generalizing known digits with
  | nil =>
    cases h
    refine ⟨?_, fun m hm => absurd hm List.not_mem_nil, rfl⟩
    rintro w rfl
    rfl
  | cons m ms ih =>
    unfold sharedBits at h
    split at h
    · rename_i own bits htype
      split at h
      · rename_i hall
        obtain ⟨next, hnext, h⟩ := exists_of_bind h
        have hsum := checkedAdd_eq_some_iff.1 (unchecked_eq_ok_iff.1 hnext)
        obtain ⟨hknown, htypes, htotal⟩ := ih h
        have hexponent := hknown bits rfl
        refine ⟨?_, ?_, ?_⟩
        · rintro w rfl
          rw [hexponent, (of_decide_eq_true hall : w = bits)]
        · intro m' hm'
          rcases List.mem_cons.1 hm' with rfl | hm'
          · exact ⟨own, bits, htype, hexponent⟩
          · exact htypes m' hm'
        · rw [htotal, hsum, List.map_cons, List.sum_cons, htype, DataType.digitBits, Nat.add_assoc]
      · cases h
    · cases h

/-- A plan for a bit struct: members side by side, or digits behind one exponent that the types of
the members have in common. Either way the word holds them. -/
theorem planStruct_cases (h : planStruct width node ms shared = .ok b) :
    (∀ m ∈ ms, m.dtype.isQuant = true) ∧ b.bitsUsed.toNat ≤ width.toNat ∧
      (shared = false ∧ b.fields = packPlain node.bitsUsed ms ∧
        b.exponentGroups = node.exponentGroups ∧
        b.bitsUsed.toNat = node.bitsUsed.toNat + (ms.map (·.dtype.bits.toNat)).sum ∨
      shared = true ∧ b.exponentGroups = node.exponentGroups + 1 ∧ ∃ exponent : UInt32,
        (∀ m ∈ ms, ∃ own bits, m.dtype = .quantFloat own bits ∧ exponent = bits.toUInt32) ∧
        b.fields = packShared node.exponentGroups node.bitsUsed exponent true
          (node.bitsUsed + exponent) ms ∧
        b.bitsUsed.toNat = node.bitsUsed.toNat +
          (exponent.toNat + (ms.map (·.dtype.digitBits.toNat)).sum)) := by
  unfold planStruct at h
  obtain ⟨_, hquant, h⟩ := exists_of_bind h
  refine ⟨checkQuant_ok (checked_eq_ok_iff.1 hquant), ?_⟩
  cases shared with
  | false =>
    rw [if_neg Bool.false_ne_true] at h
    obtain ⟨needed, hneeded, h⟩ := exists_of_bind h
    obtain ⟨stop, hstop, h⟩ := exists_of_bind h
    have hcount := foldlM_checkedAdd (unchecked_eq_ok_iff.1 hneeded)
    rw [UInt32.toNat_zero, Nat.zero_add] at hcount
    have hsum := checkedAdd_eq_some_iff.1 (unchecked_eq_ok_iff.1 hstop)
    split at h
    · cases h
    rename_i hfit
    cases h
    exact ⟨UInt32.le_iff_toNat_le.1 (UInt32.not_lt.1 hfit), Or.inl ⟨rfl, rfl, rfl, hcount ▸ hsum⟩⟩
  | true =>
    rw [if_pos rfl] at h
    obtain ⟨⟨exponent, digits⟩, hshared, h⟩ := exists_of_bind h
    obtain ⟨needed, hneeded, h⟩ := exists_of_bind h
    obtain ⟨stop, hstop, h⟩ := exists_of_bind h
    obtain ⟨-, htypes, hdigits⟩ := sharedBits_ok hshared
    have hadd := checkedAdd_eq_some_iff.1 (unchecked_eq_ok_iff.1 hneeded)
    have hsum := checkedAdd_eq_some_iff.1 (unchecked_eq_ok_iff.1 hstop)
    split at h
    · cases h
    rename_i hfit
    cases h
    refine ⟨UInt32.le_iff_toNat_le.1 (UInt32.not_lt.1 hfit),
      Or.inr ⟨rfl, rfl, exponent, htypes, rfl, ?_⟩⟩
    rw [hsum, hadd, hdigits, UInt32.toNat_zero, Nat.zero_add, Nat.add_comm exponent.toNat]

theorem planArray_ok (h : planArray width node ms shared = .ok b) :
    ∃ m, ms = [m] ∧ node.children = [] ∧ m.dtype.isQuant = true ∧
      b.fields = [⟨some 0, none⟩] ∧ b.exponentGroups = node.exponentGroups := by
  unfold planArray at h
  split at h
  · cases h
  split at h
  · rename_i m hch
    obtain ⟨_, hquant, h⟩ := exists_of_bind h
    obtain ⟨cells, -, h⟩ := exists_of_bind h
    obtain ⟨total, -, h⟩ := exists_of_bind h
    split at h
    · cases h
    · cases h
      have hmember := checkQuant_ok (checked_eq_ok_iff.1 hquant) m List.mem_cons_self
      exact ⟨m, rfl, hch, hmember, rfl, rfl⟩
  · cases h

theorem planBytes_ok (h : planBytes node ms shared = .ok b) :
    (∀ m ∈ ms, m.dtype.isQuant = false) ∧
      b = ⟨ms.map fun _ => ⟨none, none⟩, node.bitsUsed, node.exponentGroups⟩ := by
  unfold planBytes at h
  split at h
  · cases h
  split at h
  · cases h
  · rename_i hf
    cases h
    exact ⟨fun m hm => by simpa using List.find?_eq_none.1 hf m hm, rfl⟩

/-- How the bits of a placement are planned depends on the node: in the word of a bit struct, in
that of a bit array, or there is no word. -/
theorem planBits_cases (h : planBits node ms shared = .ok b) :
    (∃ width, node.kind = .bitStruct width ∧ planStruct width node ms shared = .ok b) ∨
    (∃ ds width, node.kind = .bitArray ds width ∧ planArray width node ms shared = .ok b) ∨
    node.kind.type.isBitLevel = false ∧ node.kind.type ≠ .place ∧
      planBytes node ms shared = .ok b := by
  unfold planBits at h
  cases hk : node.kind with
  | place info =>
    rw [hk] at h
    cases h
  | bitStruct width =>
    rw [hk] at h
    exact Or.inl ⟨width, rfl, h⟩
  | bitArray ds width =>
    rw [hk] at h
    exact Or.inr (Or.inl ⟨ds, width, rfl, h⟩)
  | root | dense ds | pointer ds | bitmasked ds | dynamic axis dim chunk =>
    rw [hk] at h
    exact Or.inr (Or.inr ⟨rfl, nofun, h⟩)

/-- A plan is made only for members that the container admits. -/
theorem planBits_admits (h : planBits node ms shared = .ok b) :
    node.kind.type ≠ .place ∧ ∀ m ∈ ms, m.dtype.isQuant = node.kind.type.isBitLevel := by
  rcases planBits_cases h with ⟨width, hk, h⟩ | ⟨ds, width, hk, h⟩ | ⟨hb, hplace, h⟩
  · rw [hk]
    exact ⟨nofun, (planStruct_cases h).1⟩
  · rw [hk]
    obtain ⟨m, rfl, -, hm, -⟩ := planArray_ok h
    refine ⟨nofun, ?_⟩
    intro m' hm'
    rw [List.mem_singleton.1 hm']
    exact hm
  · rw [hb]
    exact ⟨hplace, (planBytes_ok h).1⟩

end Plans

/-- A plan puts nothing down where there are no members. Otherwise the members are fresh, and each
is put where the plan for the bits says. -/
theorem planPlace_ok {c : Catalog} {target : NodeId} {node : Node} {ms : List Member}
    {o : PlaceOptions} {plan : PlacePlan} (h : planPlace c target node ms o = .ok plan) :
    ms = [] ∧ o.shared = false ∧ plan = ⟨target, false, [], node.bitsUsed, node.exponentGroups⟩ ∨
    ∃ offsets b, ms ≠ [] ∧ checkFresh c [] ms = .ok () ∧
      o.offsets node.index.arity = .ok offsets ∧ planBits node ms o.shared = .ok b ∧
      plan = ⟨target, target = 0, placeInfos offsets ms b.fields, b.bitsUsed, b.exponentGroups⟩ := by
  unfold planPlace at h
  split at h
  · rename_i hms
    split at h
    · cases h
    · cases h
      exact Or.inl ⟨List.isEmpty_iff.1 hms, Bool.eq_false_iff.2 ‹_›, rfl⟩
  rename_i hms
  obtain ⟨_, hfresh, h⟩ := exists_of_bind h
  obtain ⟨offsets, hoffsets, h⟩ := exists_of_bind h
  obtain ⟨b, hbits, h⟩ := exists_of_bind h
  cases h
  exact Or.inr ⟨offsets, b, fun he => hms (List.isEmpty_iff.2 he), checked_eq_ok_iff.1 hfresh,
    checked_eq_ok_iff.1 hoffsets, hbits, rfl⟩

/-- A plan for a container of whole bytes that admits what is planned. -/
structure PlacePlan.Bytes (plan : PlacePlan) (d : Draft) : Prop where
  implicit : plan.implicitDense = true → plan.target = 0
  target : ∃ q, d.nodes[plan.target]? = some q ∧ q.kind.type.isBitLevel = false ∧
    ∀ i ∈ plan.infos, q.kind.type.Admits (.place i)

theorem PlacePlan.Bytes.mono {plan : PlacePlan} {d d' : Draft} (h : plan.Bytes d)
    (hd : d.Keeps d') : plan.Bytes d' := by
  obtain ⟨q, hq, hb, hi⟩ := h.target
  obtain ⟨q', hq', hk⟩ := hd.kind hq
  exact ⟨h.implicit, q', hq', hk ▸ hb, hk ▸ hi⟩

namespace DraftM

theorem ends_placeAll_cons {target : NodeId} {info : PlaceInfo} {rest : List PlaceInfo}
    {s : Drafting} {q : Node} {ok : Unit → Drafting → Prop} {no : Drafting → Prop}
    (hq : s.draft.nodes[target]? = some q)
    (hok : ∀ c, Catalog.bind info.member ⟨s.draft.root, s.draft.next⟩ s.catalog = .ok () c →
      Ends (placeAll target rest) ⟨s.draft.push target q (.place info), c⟩ ok no)
    (hno : s.catalog.isPlaced info.member = true →
      no ⟨s.draft.push target q (.place info), s.catalog⟩) :
    Ends (placeAll target (info :: rest)) s ok no := by
  unfold placeAll
  apply Ends.bind
  apply ends_push hq
  unfold Ends
  cases hbind : Catalog.bind info.member
      ⟨(s.draft.push target q (.place info)).root, s.draft.next⟩ s.catalog with
  | ok u c =>
    simp only [hbind]
    exact hok c hbind
  | error e c =>
    simp only [hbind]
    unfold Catalog.bind at hbind
    split at hbind <;> cases hbind
    exact hno ‹_›

/-- A plan puts its members under a node that is there, or under a new dense one below it, and then
accounts for their bits. -/
theorem ends_applyPlan {plan : PlacePlan} {s : Drafting} {q : Node} {ok : Unit → Drafting → Prop}
    {no : Drafting → Prop} (hq : s.draft.nodes[plan.target]? = some q)
    (hnone : plan.infos = [] → ok () s)
    (hthere : plan.infos ≠ [] → plan.implicitDense = false →
      Ends (placeAll plan.target plan.infos) s (fun _ s' => ok () { s' with
        draft := s'.draft.setBits plan.target plan.bitsUsed plan.exponentGroups }) no)
    (hnew : plan.infos ≠ [] → plan.implicitDense = true →
      Ends (placeAll s.draft.next plan.infos) ⟨s.draft.push plan.target q (.dense []), s.catalog⟩
        (fun _ s' => ok () { s' with
          draft := s'.draft.setBits s.draft.next plan.bitsUsed plan.exponentGroups }) no) :
    Ends (applyPlan plan) s ok no := by
  unfold applyPlan
  by_cases hne : plan.infos = []
  · rw [if_neg (by simpa using hne)]
    exact ends_pure (hnone hne)
  · rw [if_pos (by simpa using hne)]
    by_cases himp : plan.implicitDense = true
    · rw [if_pos himp]
      apply Ends.bind
      apply ends_push hq
      exact Ends.bind (hnew hne himp)
    · rw [if_neg himp]
      apply Ends.bind
      apply ends_pure
      exact Ends.bind (hthere hne (Bool.eq_false_iff.2 himp))

/-- Members placed one by one in a container of whole bytes leave a good draft even when one of
them is refused. -/
theorem ends_placeAll_bytes {target : NodeId} {infos : List PlaceInfo} {s : Drafting} {q : Node}
    (h : s.draft.Good) (hq : s.draft.nodes[target]? = some q)
    (hb : q.kind.type.isBitLevel = false) (ha : ∀ i ∈ infos, q.kind.type.Admits (.place i)) :
    Ends (placeAll target infos) s (fun _ s' => s'.draft.Good ∧ s.draft.Keeps s'.draft)
      fun s' => s'.draft.Good ∧ s.draft.Keeps s'.draft := by
  induction infos generalizing s q with
  | nil => exact ends_pure ⟨h, .refl _ _⟩
  | cons info rest ih =>
    have hgood := h.push hq (ha info List.mem_cons_self) (valid_place info) hb
    have hkeep : s.draft.Keeps (s.draft.push target q (.place info)) :=
      h.grown.keepsBut_push hq (Or.inl hb) _
    obtain ⟨q', hq', hk⟩ := hkeep.kind hq
    refine ends_placeAll_cons hq ?_ fun _ => ⟨hgood, hkeep⟩
    intro c _
    refine (ih (s := ⟨s.draft.push target q (.place info), c⟩) hgood hq' (hk ▸ hb)
      fun i hi => hk ▸ ha i (List.mem_cons_of_mem _ hi)).mono ?_ ?_
    · exact fun _ s' hs => ⟨hs.1, hkeep.trans hs.2⟩
    · exact fun s' hs => ⟨hs.1, hkeep.trans hs.2⟩

theorem ends_placeAll_setBits_bytes {target : NodeId} {infos : List PlaceInfo} {s : Drafting}
    {q : Node} (h : s.draft.Good) (hq : s.draft.nodes[target]? = some q)
    (hb : q.kind.type.isBitLevel = false) (ha : ∀ i ∈ infos, q.kind.type.Admits (.place i))
    (used groups : UInt32) :
    Ends (placeAll target infos) s (fun _ s' => (s'.draft.setBits target used groups).Good ∧
      s.draft.Keeps (s'.draft.setBits target used groups))
      fun s' => s'.draft.Good ∧ s.draft.Keeps s'.draft := by
  refine (ends_placeAll_bytes h hq hb ha).mono ?_ fun _ hs => hs
  rintro _ s' ⟨hgood, hkeeps⟩
  obtain ⟨q', hq', hk⟩ := hkeeps.kind hq
  have hb' : q'.kind.type.isBitLevel = false := hk ▸ hb
  exact ⟨hgood.setBits hq' hb' _ _, hkeeps.trans (keepsBut_setBits hq' (Or.inl hb') _ _)⟩

theorem ends_applyPlan_bytes {plan : PlacePlan} {s : Drafting} (h : s.draft.Good)
    (hp : plan.Bytes s.draft) :
    Ends (applyPlan plan) s (fun _ s' => s'.draft.Good ∧ s.draft.Keeps s'.draft)
      fun s' => s'.draft.Good ∧ s.draft.Keeps s'.draft := by
  obtain ⟨q, hq, hb, ha⟩ := hp.target
  refine ends_applyPlan hq (fun _ => ⟨h, .refl _ _⟩)
    (fun _ _ => ends_placeAll_setBits_bytes h hq hb ha _ _) ?_
  -- a new dense node goes under the root, and admits what the root admits
  intro _ himp
  have hroot : q.kind = .root := by
    have hr := h.grown.root
    rw [hp.implicit himp] at hq
    rw [hq, Option.map_some, Option.some.injEq] at hr
    exact (Prod.mk.inj hr).1
  rw [hroot] at ha
  have hgood := h.push hq (by rw [hroot]; rfl) valid_dense_nil hb
  have hkeep : s.draft.Keeps (s.draft.push plan.target q (.dense [])) :=
    h.grown.keepsBut_push hq (Or.inl hb) _
  refine (ends_placeAll_setBits_bytes (s := ⟨_, s.catalog⟩) hgood getElem?_push_next rfl ?_ _ _).mono
    (fun _ s' hs => ⟨hs.1, hkeep.trans hs.2⟩) fun s' hs => ⟨hs.1, hkeep.trans hs.2⟩
  intro i hi
  obtain ⟨-, hvalid, hquant⟩ := ha i hi
  exact ⟨by simp [Node.child, Kind.type], hvalid, hquant⟩

end DraftM

/-- Members with ids of their own, none of which is placed. -/
def Catalog.Fresh (c : Catalog) (ms : List Member) : Prop :=
  (ms.map (·.id)).Nodup ∧ ∀ m ∈ ms, c.isPlaced m = false

theorem checkFresh_ok {c : Catalog} {seen : List MemberId} {ms : List Member} {u : Unit}
    (h : checkFresh c seen ms = .ok u) : c.Fresh ms ∧ ∀ m ∈ ms, m.id ∉ seen := by
  induction ms generalizing seen with
  | nil => exact ⟨⟨List.nodup_nil, fun m hm => absurd hm List.not_mem_nil⟩,
      fun m hm => absurd hm List.not_mem_nil⟩
  | cons m ms ih =>
    unfold checkFresh at h
    split at h
    · cases h
    rename_i hseen
    split at h
    · cases h
    rename_i hplaced
    obtain ⟨⟨hnd, hfree⟩, hnot⟩ := ih h
    refine ⟨⟨?_, ?_⟩, ?_⟩
    · rw [List.map_cons, List.nodup_cons]
      refine ⟨?_, hnd⟩
      intro hm
      obtain ⟨m', hm', he⟩ := List.mem_map.1 hm
      exact hnot m' hm' (he ▸ List.mem_cons_self)
    · intro m' hm'
      rcases List.mem_cons.1 hm' with rfl | hm'
      · exact Bool.eq_false_iff.2 hplaced
      · exact hfree m' hm'
    · intro m' hm'
      rcases List.mem_cons.1 hm' with rfl | hm'
      · exact hseen
      · exact fun hs => hnot m' hm' (List.mem_cons_of_mem _ hs)

/-- Binding the first of some fresh members leaves the others fresh. -/
theorem Catalog.Fresh.bind {c c' : Catalog} {m : Member} {ms : List Member} {p : Placement}
    {u : Unit} (h : c.Fresh (m :: ms)) (hb : Catalog.bind m p c = .ok u c') : c'.Fresh ms := by
  have hnd := List.nodup_cons.1 (List.map_cons ▸ h.1)
  refine ⟨hnd.2, ?_⟩
  intro m' hm'
  have hne : m.id ≠ m'.id := fun he => hnd.1 (he ▸ List.mem_map_of_mem hm')
  have hfree := h.2 m' (List.mem_cons_of_mem _ hm')
  unfold Catalog.bind at hb
  split at hb
  · cases hb
  · cases hb
    unfold Catalog.isPlaced Catalog.placement? at hfree ⊢
    rw [Array.set!_eq_setIfInBounds, Array.getElem?_setIfInBounds, if_neg hne]
    exact hfree

namespace DraftM

/-- Fresh members are all placed in a bit container, behind the members that it has. -/
theorem ends_placeAll_bits {target : NodeId} {infos : List PlaceInfo} {s : Drafting} {q : Node}
    (hg : s.draft.Grown) (hp : s.draft.Packs (some target))
    (hq : s.draft.nodes[target]? = some q) (ha : ∀ i ∈ infos, q.kind.type.Admits (.place i))
    (hf : s.catalog.Fresh (infos.map (·.member))) :
    Ends (placeAll target infos) s (fun _ s' => s'.draft.Grown ∧ s'.draft.Packs (some target) ∧
      KeepsBut (some target) s.draft s'.draft ∧
      s'.draft.placed target = s.draft.placed target ++ infos ∧
        ∃ q', s'.draft.nodes[target]? = some q' ∧ q'.kind = q.kind ∧ q'.index = q.index ∧
          q'.children.length = q.children.length + infos.length) fun _ => False := by
  induction infos generalizing s q with
  | nil => exact ends_pure ⟨hg, hp, .refl _ _, (List.append_nil _).symm, q, hq, rfl, rfl, rfl⟩
  | cons info rest ih =>
    refine ends_placeAll_cons hq ?_ ?_
    · intro c hbind
      have hq' : (s.draft.push target q (.place info)).nodes[target]? = _ := getElem?_push_of_some hq
      rw [if_pos rfl] at hq'
      have hg' := hg.push hq (ha info List.mem_cons_self) (valid_place info)
      refine (ih (s := ⟨s.draft.push target q (.place info), c⟩) hg'
        (hp.push hg hq (Or.inr rfl)) hq' (fun i hi => ha i (List.mem_cons_of_mem _ hi))
          (hf.bind hbind)).mono ?_ fun _ => False.elim
      rintro _ s' ⟨hgood, hpacks, hkeeps, hplaced, q', hq', hk, hi, hlen⟩
      refine ⟨hgood, hpacks, (hg.keepsBut_push hq (Or.inr rfl) _).trans hkeeps, ?_, q', hq', hk, hi, ?_⟩
      · rw [hplaced, hg.placed_push hq, if_pos rfl, List.append_assoc]
        rfl
      · rw [hlen, List.length_append, List.length_cons, List.length_cons, List.length_nil]
        omega
    · intro hplaced
      rw [hf.2 _ (List.mem_map_of_mem List.mem_cons_self)] at hplaced
      cases hplaced

end DraftM

theorem packPlain_laid (offsets : List Int32) (start : Nat) (ms : List Member) :
    (placeInfos offsets ms (packPlain (.ofNat start) ms)).map (·.member) = ms ∧
      PlaceInfo.Laid start (placeInfos offsets ms (packPlain (.ofNat start) ms)) ∧
      PlaceInfo.totalBits (placeInfos offsets ms (packPlain (.ofNat start) ms)) =
        (ms.map fun m => m.dtype.bits.toNat).sum := by
  induction ms generalizing start with
  | nil => exact ⟨rfl, trivial, rfl⟩
  | cons m ms ih =>
    obtain ⟨hm, hl, ht⟩ := ih (start + m.dtype.bits.toNat)
    rw [UInt32.ofNat_add, UInt32.ofNat_toNat] at hm hl ht
    refine ⟨congrArg (m :: ·) hm, ⟨rfl, ?_⟩, ?_⟩
    · rw [show start + (PlaceInfo.exponentBits ⟨m, offsets, some (.ofNat start), none⟩ +
        PlaceInfo.ownBits ⟨m, offsets, some (.ofNat start), none⟩) = start + m.dtype.bits.toNat from
          congrArg (start + ·) (Nat.zero_add _)]
      exact hl
    · change (0 + m.dtype.bits.toNat) + PlaceInfo.totalBits _ = _
      rw [Nat.zero_add]
      exact congrArg (m.dtype.bits.toNat + ·) ht

/-- The exponent counts where its owner is placed: `lead` bits before the first member. -/
theorem packShared_laid (offsets : List Int32) (group bitOffset bits : UInt32) (owner : Bool)
    (start : Nat) (ms : List Member) :
    let lead := if owner then bits.toNat else 0
    let is := placeInfos offsets ms
      (packShared group bitOffset bits owner (.ofNat (start + lead)) ms)
    is.map (·.member) = ms ∧ PlaceInfo.Laid start is ∧
      (ms ≠ [] → PlaceInfo.totalBits is = lead + (ms.map fun m => m.dtype.digitBits.toNat).sum) := by
  induction ms generalizing owner start with
  | nil => exact ⟨rfl, trivial, fun h => absurd rfl h⟩
  | cons m ms ih =>
    intro lead is
    obtain ⟨hm, hl, ht⟩ := ih false (start + lead + m.dtype.digitBits.toNat)
    simp only [Bool.false_eq_true, if_false, Nat.add_zero, Nat.zero_add] at hm hl ht
    rw [UInt32.ofNat_add, UInt32.ofNat_toNat] at hm hl ht
    refine ⟨congrArg (m :: ·) hm, ⟨rfl, ?_⟩, fun _ => ?_⟩
    · change PlaceInfo.Laid (start + (lead + m.dtype.digitBits.toNat)) _
      rw [← Nat.add_assoc]
      exact hl
    · change (lead + m.dtype.digitBits.toNat) + PlaceInfo.totalBits _ = _
      rw [List.map_cons, List.sum_cons, Nat.add_assoc]
      congr 2
      by_cases hms : ms = []
      · subst hms
        rfl
      · exact ht hms

/-- A plan for a bit struct puts the members behind those in use, and accounts for their bits. -/
theorem planStruct_ok {width : UInt32} {node : Node} {ms : List Member} {shared : Bool}
    {b : BitPlan} (h : planStruct width node ms shared = .ok b) (hne : ms ≠ []) {start : Nat}
    (hstart : node.bitsUsed = .ofNat start) (offsets : List Int32) :
    (placeInfos offsets ms b.fields).map (·.member) = ms ∧
      PlaceInfo.Laid start (placeInfos offsets ms b.fields) ∧
      b.bitsUsed = .ofNat (start + PlaceInfo.totalBits (placeInfos offsets ms b.fields)) := by
  have hcut {used : UInt32} {n : Nat} (hused : used.toNat = node.bitsUsed.toNat + n) :
      used = .ofNat (start + n) := by
    rw [UInt32.ofNat_add, ← hstart, ← UInt32.ofNat_toNat (x := used), hused, UInt32.ofNat_add,
      UInt32.ofNat_toNat]
  obtain ⟨-, -, ⟨-, hfields, -, hused⟩ | ⟨-, -, exponent, -, hfields, hused⟩⟩ := planStruct_cases h
  · obtain ⟨hm, hl, ht⟩ := packPlain_laid offsets start ms
    rw [← hstart, ← hfields] at hm hl ht
    exact ⟨hm, hl, ht ▸ hcut hused⟩
  · obtain ⟨hm, hl, ht⟩ := packShared_laid offsets node.exponentGroups node.bitsUsed exponent
      true start ms
    simp only [if_true] at hm hl ht
    rw [UInt32.ofNat_add, UInt32.ofNat_toNat, ← hstart, ← hfields] at hm hl ht
    exact ⟨hm, hl, ht hne ▸ hcut hused⟩

/-- The container left out is packed too. -/
theorem Draft.Packs.close {d : Draft} {p : NodeId} (h : d.Packs (some p))
    (hs : ∀ (n : Node) (width : UInt32), d.nodes[p]? = some n → n.kind = .bitStruct width →
      n.bitsUsed = .ofNat (PlaceInfo.totalBits (d.placed p)) ∧ PlaceInfo.Laid 0 (d.placed p))
    (ha : ∀ (n : Node) (ds : List Division) (width : UInt32), d.nodes[p]? = some n →
      n.kind = .bitArray ds width → n.children.length ≤ 1 ∧
        ∀ i ∈ d.placed p, i.bitOffset = some 0 ∧ i.sharedExponent = none) : d.Packs none := by
  constructor
  · intro id n width hn hk _
    by_cases hid : id = p
    · subst hid
      exact hs n width hn hk
    · exact h.struct hn hk fun he => hid (Option.some.inj he)
  · intro id n ds width hn hk _
    by_cases hid : id = p
    · subst hid
      exact ha n ds width hn hk
    · exact h.array hn hk fun he => hid (Option.some.inj he)

/-- The members of a plan lie behind those placed before, and in a bit array there are none. -/
theorem planBits_ok {node : Node} {ms : List Member} {shared : Bool} {b : BitPlan}
    (h : planBits node ms shared = .ok b) (hb : node.kind.type.isBitLevel = true) (hne : ms ≠ [])
    {start : Nat} (hstart : ∀ width, node.kind = .bitStruct width → node.bitsUsed = .ofNat start)
    (offsets : List Int32) :
    (placeInfos offsets ms b.fields).map (·.member) = ms ∧
      (∀ width, node.kind = .bitStruct width →
        PlaceInfo.Laid start (placeInfos offsets ms b.fields) ∧
          b.bitsUsed = .ofNat (start + PlaceInfo.totalBits (placeInfos offsets ms b.fields))) ∧
      ∀ ds width, node.kind = .bitArray ds width → node.children = [] ∧
        (placeInfos offsets ms b.fields).length = 1 ∧
          ∀ i ∈ placeInfos offsets ms b.fields, i.bitOffset = some 0 ∧ i.sharedExponent = none := by
  rcases planBits_cases h with ⟨width, hk, h⟩ | ⟨ds, width, hk, h⟩ | ⟨hbytes, -⟩
  · obtain ⟨hm, hl, hu⟩ := planStruct_ok h hne (hstart width hk) offsets
    refine ⟨hm, fun _ _ => ⟨hl, hu⟩, ?_⟩
    intro ds w hw
    cases hk.symm.trans hw
  · obtain ⟨m, rfl, hch, -, hf, -⟩ := planArray_ok h
    rw [hf]
    refine ⟨rfl, ?_, fun _ _ _ => ⟨hch, rfl, ?_⟩⟩
    · intro w hw
      cases hk.symm.trans hw
    · intro i hi
      rw [List.mem_singleton.1 hi]
      exact ⟨rfl, rfl⟩
  · rw [hbytes] at hb
    cases hb

/-- A word stays packed when the members of a plan go behind those it has, with their bits. -/
theorem Draft.Good.fill {d d' : Draft} {target : NodeId} {q q' : Node} {ms : List Member}
    {shared : Bool} {b : BitPlan} {offsets : List Int32} (h : d.Good)
    (hq : d.nodes[target]? = some q) (hb : q.kind.type.isBitLevel = true) (hne : ms ≠ [])
    (hplan : planBits q ms shared = .ok b) (hg : d'.Grown) (hp : d'.Packs (some target))
    (hq' : d'.nodes[target]? = some q') (hk : q'.kind = q.kind)
    (hplaced : d'.placed target = d.placed target ++ placeInfos offsets ms b.fields)
    (hlen : q'.children.length = q.children.length + (placeInfos offsets ms b.fields).length) :
    (d'.setBits target b.bitsUsed b.exponentGroups).Good := by
  obtain ⟨-, hstruct, harray⟩ := planBits_ok hplan hb hne
    (fun width hk => (h.packs.struct hq hk (by simp)).1) offsets
  refine ⟨hg.setBits _ _ _, (hp.setBits hq' (Or.inr rfl) _ _).close ?_ ?_⟩
  · -- the members of the plan start at the bit where those before them end
    intro n width hn hkind
    rw [getElem?_setBits_of_some hq', if_pos rfl, Option.some.injEq] at hn
    subst hn
    have hw : q.kind = .bitStruct width := hk ▸ hkind
    obtain ⟨hlaid, hused⟩ := hstruct width hw
    rw [placed_setBits, hplaced, PlaceInfo.totalBits_append, PlaceInfo.laid_append, Nat.zero_add]
    exact ⟨hused, (h.packs.struct hq hw (by simp)).2, hlaid⟩
  · intro n ds width hn hkind
    rw [getElem?_setBits_of_some hq', if_pos rfl, Option.some.injEq] at hn
    subst hn
    have hw : q.kind = .bitArray ds width := hk ▸ hkind
    obtain ⟨hch, hone, hbits⟩ := harray ds width hw
    refine ⟨?_, ?_⟩
    · change q'.children.length ≤ 1
      rw [hlen, hch, hone]
      exact Nat.le_refl _
    · have hold : d.placed target = [] := by
        unfold placed
        rw [children_of_some hq, hch]
        rfl
      rw [placed_setBits, hplaced, hold]
      exact hbits

/-- What placing these members does to the words. In a bit container they go behind those that are
there, with the bits that were planned; elsewhere no word changes. -/
inductive Draft.Fills (d d' : Draft) (target : NodeId) (ms : List Member) (shared : Bool) : Prop
  | bytes {q : Node} (hq : d.nodes[target]? = some q)
    (hb : ms = [] ∧ shared = false ∨ q.kind.type.isBitLevel = false) (keeps : d.Keeps d')
  | bits {q : Node} {offsets : List Int32} {b : BitPlan} (hq : d.nodes[target]? = some q)
    (hb : q.kind.type.isBitLevel = true) (hne : ms ≠ []) (plan : planBits q ms shared = .ok b)
    (keeps : KeepsBut (some target) d d') (word : d'.word? target = some ⟨q.kind, q.index,
      d.placed target ++ placeInfos offsets ms b.fields, b.bitsUsed, b.exponentGroups⟩)

theorem Draft.Fills.exists_node {d d' : Draft} {target : NodeId} {ms : List Member}
    {shared : Bool} (h : d.Fills d' target ms shared) : ∃ q, d.nodes[target]? = some q := by
  cases h with
  | bytes hq | bits hq => exact ⟨_, hq⟩

theorem Draft.Fills.exists_keeps {d d' : Draft} {target : NodeId} {ms : List Member}
    {shared : Bool} (h : d.Fills d' target ms shared) : ∃ mid, KeepsBut mid d d' := by
  cases h with
  | bytes _ _ keeps | bits _ _ _ _ keeps => exact ⟨_, keeps⟩

/-- A word after a placement is what it was, or that of a new node, or it got the members. -/
theorem Draft.Fills.word_cases {d d' : Draft} {target id : NodeId} {ms : List Member}
    {shared : Bool} {w : Word} (h : d.Fills d' target ms shared) (hw : d'.word? id = some w) :
    (d.word? id = some w ∧ (id = target → ms = [] ∧ shared = false)) ∨
      (d.nodes[id]? = none ∧ id ≠ target ∧ w.Blank) ∨
        (id = target ∧ ms ≠ [] ∧ ∃ q offsets b, d.word? id = some (q.word (d.placed id)) ∧
          d.nodes[id]? = some q ∧ planBits q ms shared = .ok b ∧ w = ⟨q.kind, q.index,
            d.placed id ++ placeInfos offsets ms b.fields, b.bitsUsed, b.exponentGroups⟩) := by
  cases h with
  | @bytes q hq hb keeps =>
    rcases keeps.word (by simp) hw with hold | ⟨hnone, hblank⟩
    · refine Or.inl ⟨hold, ?_⟩
      rintro rfl
      refine hb.resolve_right fun hb => ?_
      obtain ⟨n, hn, hbit, -⟩ := word?_eq_some_iff.1 hold
      rw [hq, Option.some.injEq] at hn
      rw [← hn, hb] at hbit
      cases hbit
    · refine Or.inr (Or.inl ⟨hnone, ?_, hblank⟩)
      rintro rfl
      rw [hq] at hnone
      cases hnone
  | @bits q offsets b hq hb hne plan keeps word =>
    by_cases hid : id = target
    · subst hid
      rw [word, Option.some.injEq] at hw
      exact Or.inr (Or.inr ⟨rfl, hne, q, offsets, b, word?_of_some hq hb, hq, plan, hw.symm⟩)
    · rcases keeps.word (by simpa using hid) hw with hold | ⟨hnone, hblank⟩
      · exact Or.inl ⟨hold, fun he => absurd he hid⟩
      · exact Or.inr (Or.inl ⟨hnone, hid, hblank⟩)

namespace DraftM

variable {s : Drafting}

theorem ends_applyPlan_bits {target : NodeId} {q : Node} {ms : List Member}
    (offsets : List Int32) {shared : Bool} {b : BitPlan} (h : s.draft.Good)
    (hq : s.draft.nodes[target]? = some q) (hb : q.kind.type.isBitLevel = true) (hne : ms ≠ [])
    (hv : ∀ m ∈ ms, m.Valid) (hf : checkFresh s.catalog [] ms = .ok ())
    (hplan : planBits q ms shared = .ok b) :
    Ends (applyPlan ⟨target, target = 0, placeInfos offsets ms b.fields, b.bitsUsed,
      b.exponentGroups⟩) s
      (fun _ s' => s'.draft.Good ∧ s.draft.Fills s'.draft target ms shared) fun _ => False := by
  -- the root is no bit container, so the plan adds no container of its own
  have h0 : target ≠ 0 := by
    rintro rfl
    have hr := h.grown.root
    rw [hq, Option.map_some, Option.some.injEq] at hr
    rw [(Prod.mk.inj hr).1] at hb
    cases hb
  have hm : (placeInfos offsets ms b.fields).map (·.member) = ms := (planBits_ok hplan hb hne
    (fun width hk => (h.packs.struct hq hk (by simp)).1) offsets).1
  obtain ⟨hplace, hadm⟩ := planBits_admits hplan
  have ha : ∀ i ∈ placeInfos offsets ms b.fields, q.kind.type.Admits (.place i) := by
    intro i hi
    have hmem := (of_mem_placeInfos hi).1
    exact ⟨hplace, hv _ hmem, hadm _ hmem⟩
  -- the bits are set after the places are added: meanwhile the container is left out
  have hopen : s.draft.Packs (some target) :=
    ⟨fun hn hk _ => h.packs.struct hn hk (by simp), fun hn hk _ => h.packs.array hn hk (by simp)⟩
  refine ends_applyPlan hq ?_ ?_ fun _ himp => absurd (of_decide_eq_true himp) h0
  · intro hnil
    rw [show placeInfos offsets ms b.fields = [] from hnil] at hm
    exact absurd hm.symm hne
  intro _ _
  have hfresh : s.catalog.Fresh ((placeInfos offsets ms b.fields).map (·.member)) :=
    hm.symm ▸ (checkFresh_ok hf).1
  refine (ends_placeAll_bits h.grown hopen hq ha hfresh).mono ?_ fun _ => False.elim
  rintro _ s' ⟨hg, hp, hkeeps, hplaced, q', hq', hk, hi, hlen⟩
  have hset := getElem?_setBits_of_some hq' b.bitsUsed b.exponentGroups (p := target)
  rw [if_pos rfl] at hset
  have hword : (s'.draft.setBits target b.bitsUsed b.exponentGroups).word? target = some
      ⟨q.kind, q.index, s.draft.placed target ++ placeInfos offsets ms b.fields, b.bitsUsed,
        b.exponentGroups⟩ := by
    rw [← hplaced, ← hk, ← hi]
    exact (word?_of_some hset (hk ▸ hb)).trans (by rw [placed_setBits]; rfl)
  exact ⟨h.fill hq hb hne hplan hg hp hq' hk hplaced hlen, .bits hq hb hne hplan
    (hkeeps.trans (keepsBut_setBits hq' (Or.inr rfl) _ _)) hword⟩

theorem node_eq {id : NodeId} {q : Node} (hq : s.draft.nodes[id]? = some q) :
    node id s = .ok q s := by
  have hends : Ends (node id) s (fun n s' => n = q ∧ s' = s) fun _ => False := by
    apply ends_node
    · exact fun n hn => ⟨Option.some.inj (hn.symm.trans hq), rfl⟩
    · exact fun hn => nomatch hn.symm.trans hq
  obtain ⟨_, _, hrun, rfl, rfl⟩ := hends.exists_ok
  exact hrun

/-- A placement is planned first; where the plan is refused nothing changes. -/
theorem place_eq {target : NodeId} {q : Node} (hq : s.draft.nodes[target]? = some q)
    (groups : List FieldGroup) (o : PlaceOptions) : place target groups o s =
      match planPlace s.catalog target q (FieldGroup.membersOf groups) o with
      | .ok plan => applyPlan plan s
      | .error e => .error e s := by
  unfold place
  change EStateM.bind (node target) _ s = _
  rw [EStateM.bind, node_eq hq]
  change EStateM.bind (check (planPlace s.catalog target q _ o)) applyPlan s = _
  cases planPlace s.catalog target q (FieldGroup.membersOf groups) o <;> rfl

theorem ends_place {target : NodeId} {groups : List FieldGroup} {o : PlaceOptions}
    (h : s.draft.Good) (hv : ∀ m ∈ FieldGroup.membersOf groups, m.Valid) :
    Ends (place target groups o) s (fun _ s' => s'.draft.Good ∧
      s.draft.Fills s'.draft target (FieldGroup.membersOf groups) o.shared)
        fun s' => s'.draft.Good ∧ s.draft.Keeps s'.draft := by
  unfold place
  apply Ends.bind
  refine ends_node ?_ fun _ => ⟨h, .refl _ _⟩
  intro q hq
  apply Ends.bind
  apply ends_get
  apply Ends.bind
  refine ends_check ?_ ⟨h, .refl _ _⟩
  intro plan hplan
  rcases planPlace_ok hplan with ⟨hnil, hshared, rfl⟩ | ⟨offsets, b, hne, hfresh, -, hbits, rfl⟩
  · exact ends_pure ⟨h, .bytes hq (Or.inl ⟨hnil, hshared⟩) (.refl _ _)⟩
  · obtain ⟨hplace, hadm⟩ := planBits_admits hbits
    by_cases hb : q.kind.type.isBitLevel = true
    · exact (ends_applyPlan_bits offsets h hq hb hne hv hfresh hbits).mono (fun _ _ hs => hs)
        fun _ => False.elim
    · have hb := Bool.eq_false_iff.2 hb
      refine (ends_applyPlan_bytes h ⟨of_decide_eq_true, q, hq, hb, ?_⟩).mono
        (fun _ s' hs => ⟨hs.1, .bytes hq (Or.inr hb) hs.2⟩) fun s' hs => hs
      intro i hi
      have hm := (of_mem_placeInfos hi).1
      exact ⟨hplace, hv _ hm, hadm _ hm⟩

end DraftM

end SparseLayout
