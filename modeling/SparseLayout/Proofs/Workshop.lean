import SparseLayout.Proofs.Draft.Atomic
import SparseLayout.Proofs.Draft.Sample

/-!
Many drafts under construction at once, which place the members of the same fields. Every member is
placed by one node of one draft at most, and the catalog records it there; a declaration on one
draft is carried out as a whole or changes nothing.
-/

namespace SparseLayout

open Draft (Node)

/-- All drafts ever made, oldest first, with the fields whose members they place. -/
structure Workshop where
  catalog : Catalog
  drafts : List Draft
  fields : List Field

namespace Workshop

/-- The member belongs to a declared field, or to the field of its adjoints. -/
def Knows (w : Workshop) (m : Member) : Prop := ∃ f ∈ w.fields, f.Mentions m

/-- The workshop with one more field, unless its declaration is refused. -/
def declareField (w : Workshop) (decl : FieldDecl) : Workshop :=
  match Catalog.declare decl w.catalog with
  | .ok f c => { w with catalog := c, fields := w.fields ++ [f] }
  | .error _ c => { w with catalog := c }

/-- The workshop with one more draft, which has a fresh root. -/
def newDraft (w : Workshop) (packing : Packing) : Workshop :=
  { w with
    catalog := w.catalog.newRoot.2
    drafts := w.drafts ++ [.new w.catalog.newRoot.1 packing] }

/-- A draft of the workshop changed together with the catalog. -/
def set (w : Workshop) (k : Nat) (s : Drafting) : Workshop :=
  { w with catalog := s.catalog, drafts := w.drafts.set k s.draft }

/-- The workshop after a declaration on a node of one of its drafts, also where it is refused. -/
def declare (w : Workshop) (k : Nat) (id : NodeId) (decl : Declaration) : Workshop :=
  match w.drafts[k]? with
  | some d => w.set k (Drafting.after ⟨d, w.catalog⟩ id decl)
  | none => w

/-- The workshops that can come up: fields are declared and drafts are begun at any time, and any
draft can get any declaration that places known members. -/
inductive Reachable : Workshop → Prop
  | start : Reachable ⟨.empty, [], []⟩
  | declareField {w : Workshop} (decl : FieldDecl) : Reachable w → Reachable (w.declareField decl)
  | newDraft {w : Workshop} (packing : Packing) : Reachable w → Reachable (w.newDraft packing)
  | declare {w : Workshop} {decl : Declaration} (k : Nat) (id : NodeId) :
    Reachable w → decl.Uses w.Knows → Reachable (w.declare k id decl)

/-- The members are placed in the drafts where the catalog records them. -/
structure Sound (w : Workshop) : Prop where
  built : ∀ d ∈ w.drafts, d.Built
  roots : (w.drafts.map (·.root)).Nodup
  root_lt : ∀ d ∈ w.drafts, d.root < w.catalog.roots
  members : w.catalog.Registers w.Knows
  declared : ∀ {m : Member}, w.Knows m → m.Declared
  places : ∀ d ∈ w.drafts, ∀ {id : NodeId} {info : PlaceInfo}, d.placeAt? id = some info →
    w.Knows info.member
  recorded : ∀ (i : MemberId) (p : Placement), w.catalog.placement? i = some p ↔
    ∃ d ∈ w.drafts, d.root = p.root ∧ (d.placeAt? p.node).map (·.member.id) = some i

variable {w : Workshop} {k k' : Nat} {d d' : Draft} {known : Member → Prop}

theorem set_of_getElem? {α : Type} {l : List α} {k : Nat} {a : α} (h : l[k]? = some a) :
    l.set k a = l := by
  obtain ⟨hk, rfl⟩ := List.getElem?_eq_some_iff.1 h
  exact List.set_getElem_self hk

theorem Sound.eq_of_root (h : w.Sound) (hd : d ∈ w.drafts) (hd' : d' ∈ w.drafts)
    (hr : d.root = d'.root) : d = d' :=
  List.inj_on_of_nodup_map h.roots hd hd' hr

/-- One of the drafts, with the catalog. -/
theorem Sound.registered (h : w.Sound) (hd : d ∈ w.drafts) :
    Drafting.Registered ⟨d, w.catalog⟩ w.Knows := by
  refine ⟨(h.built d hd).good.grown, h.members, h.places d hd, fun i id => ?_⟩
  change w.catalog.placement? i = some ⟨d.root, id⟩ ↔ _
  rw [h.recorded]
  constructor
  · rintro ⟨d', hd', hr, hp⟩
    rwa [h.eq_of_root hd' hd hr] at hp
  · exact fun hp => ⟨d, hd, rfl, hp⟩

theorem sound_start : Sound ⟨.empty, [], []⟩ := by
  have none {m : Member} : ¬ Knows ⟨.empty, [], []⟩ m := fun ⟨f, hf, _⟩ => nomatch hf
  refine ⟨?_, List.nodup_nil, ?_, ⟨fun hm => (none hm).elim, fun hm => (none hm).elim,
    fun hm => (none hm).elim, fun hm => (none hm).elim⟩, fun hm => (none hm).elim, ?_, ?_⟩
  · exact fun d hd => nomatch hd
  · exact fun d hd => nomatch hd
  · exact fun d hd => nomatch hd
  · intro i p
    refine iff_of_false (fun hp => ?_) fun ⟨d, hd, _⟩ => nomatch hd
    cases hp

theorem Sound.declareField (h : w.Sound) (decl : FieldDecl) : (w.declareField decl).Sound := by
  unfold Workshop.declareField
  cases hf : Catalog.declare decl w.catalog with
  | error e c =>
    rw [Catalog.declare_error hf]
    exact h
  | ok f c =>
  obtain ⟨-, -, hroots, hplaced, -⟩ := Catalog.declare_cases hf
  have hknows : Knows { w with catalog := c, fields := w.fields ++ [f] } =
      fun m => w.Knows m ∨ f.Mentions m := by
    funext m
    simp [Knows, or_and_right, exists_or]
  refine ⟨h.built, h.roots, fun d hd => hroots ▸ h.root_lt d hd, ?members, ?declared, ?places,
    ?recorded⟩
  case members =>
    rw [hknows]
    exact h.members.declare hf
  case declared =>
    intro m hm
    rw [hknows] at hm
    rcases hm with hm | hm
    · exact h.declared hm
    · exact ⟨decl, w.catalog, f, c, hf, hm⟩
  case places =>
    intro d hd id info hp
    rw [hknows]
    exact Or.inl (h.places d hd hp)
  case recorded =>
    intro i p
    change c.placement? i = some p ↔ _
    rw [hplaced]
    exact h.recorded i p

theorem placeAt?_new (root : RootId) (packing : Packing) (id : NodeId) :
    (Draft.new root packing).placeAt? id = none := by
  unfold Draft.placeAt? Draft.new
  cases id with
  | zero => rfl
  | succ id => rfl

theorem Sound.newDraft (h : w.Sound) (packing : Packing) : (w.newDraft packing).Sound := by
  have hnew {d : Draft} (hd : d ∈ w.drafts ++ [.new w.catalog.roots packing]) :
      d ∈ w.drafts ∨ d = .new w.catalog.roots packing := by
    simpa using hd
  refine ⟨?built, ?roots, ?root_lt, h.members.of_size rfl, h.declared, ?places, ?recorded⟩
  case built =>
    intro d hd
    rcases hnew hd with hd | rfl
    · exact h.built d hd
    · exact .new _ _
  case roots =>
    change ((w.drafts ++ [Draft.new w.catalog.roots packing]).map (·.root)).Nodup
    rw [List.map_append, List.nodup_append]
    refine ⟨h.roots, List.nodup_singleton _, ?_⟩
    rintro r hr r' hr' rfl
    obtain ⟨d, hd, rfl⟩ := List.mem_map.1 hr
    have hlt := h.root_lt d hd
    rw [List.mem_singleton.1 hr'] at hlt
    exact absurd hlt (Nat.lt_irrefl _)
  case root_lt =>
    intro d hd
    rcases hnew hd with hd | rfl
    · exact Nat.lt_succ_of_lt (h.root_lt d hd)
    · exact Nat.lt_succ_self _
  case places =>
    intro d hd id info hp
    rcases hnew hd with hd | rfl
    · exact h.places d hd hp
    · rw [placeAt?_new] at hp
      cases hp
  case recorded =>
    intro i p
    refine (h.recorded i p).trans ⟨?_, ?_⟩
    · rintro ⟨d, hd, hp⟩
      exact ⟨d, List.mem_append_left _ hd, hp⟩
    · rintro ⟨d, hd, hr, hp⟩
      rcases hnew hd with hd | rfl
      · exact ⟨d, hd, hr, hp⟩
      · rw [placeAt?_new] at hp
        cases hp

theorem roots_set (hk : w.drafts[k]? = some d) (hr : d'.root = d.root) :
    (w.drafts.set k d').map (·.root) = w.drafts.map (·.root) := by
  rw [List.map_set, hr, ← List.map_set, set_of_getElem? hk]

/-- Where a draft was changed, a draft is the changed one, or another one, which has another
root. -/
theorem Sound.mem_set_iff (h : w.Sound) (hk : w.drafts[k]? = some d) (hr : d'.root = d.root)
    {e : Draft} : e ∈ w.drafts.set k d' ↔ e = d' ∨ e ∈ w.drafts ∧ e.root ≠ d.root := by
  have hlt : k < w.drafts.length := (List.getElem?_eq_some_iff.1 hk).1
  constructor
  · intro he
    by_cases hroot : e.root = d.root
    · have hnodup : ((w.drafts.set k d').map (·.root)).Nodup := roots_set hk hr ▸ h.roots
      exact Or.inl (List.inj_on_of_nodup_map hnodup he (List.mem_set hlt _) (hroot.trans hr.symm))
    · refine Or.inr ⟨(List.mem_or_eq_of_mem_set he).resolve_right fun heq => hroot ?_, hroot⟩
      rw [heq, hr]
  · rintro (rfl | ⟨he, hroot⟩)
    · exact List.mem_set hlt _
    · obtain ⟨k', hk'⟩ := List.mem_iff_getElem?.1 he
      refine List.mem_iff_getElem?.2 ⟨k', ?_⟩
      rw [List.getElem?_set_ne, hk']
      rintro rfl
      rw [hk, Option.some.injEq] at hk'
      exact hroot (congrArg Draft.root hk'.symm)

/-- Placements in other drafts are as they were: the members that were bound had none. -/
theorem placement?_of_binds {s : Drafting} {ms : List Member}
    (hs : Drafting.Binds ⟨d, w.catalog⟩ s ms) {i : MemberId} {p : Placement}
    (hr : p.root ≠ d.root) :
    s.catalog.placement? i = some p ↔ w.catalog.placement? i = some p := by
  by_cases hi : i ∈ ms.map (·.id)
  · obtain ⟨m, hm, rfl⟩ := List.mem_map.1 hi
    obtain ⟨id, hhere⟩ := hs.here m hm
    rw [hhere, hs.fresh m hm]
    refine iff_of_false (fun he => hr ?_) (fun he => by cases he)
    rw [← Option.some.inj he]
  · rw [hs.other i hi]

/-- Known members that one draft binds leave the workshop sound. -/
theorem Sound.bind (h : w.Sound) (hk : w.drafts[k]? = some d) {s : Drafting}
    (hb : s.draft.Built) {ms : List Member} (hms : ∀ m ∈ ms, w.Knows m)
    (hs : Drafting.Binds ⟨d, w.catalog⟩ s ms) : (w.set k s).Sound := by
  have hd : d ∈ w.drafts := List.mem_of_getElem? hk
  have mem_set {e : Draft} := h.mem_set_iff hk hs.root (e := e)
  refine ⟨?_, roots_set hk hs.root ▸ h.roots, ?_, h.members.of_size hs.size.symm, h.declared,
    ?_, ?_⟩
  · intro e he
    rcases mem_set.1 he with rfl | ⟨he, -⟩
    · exact hb
    · exact h.built e he
  · intro e he
    change e.root < s.catalog.roots
    rw [hs.roots]
    rcases mem_set.1 he with rfl | ⟨he, -⟩
    · exact hs.root ▸ h.root_lt d hd
    · exact h.root_lt e he
  · intro e he id info hp
    rcases mem_set.1 he with rfl | ⟨he, -⟩
    · rcases hs.places id info hp with hp | hm
      · exact h.places d hd hp
      · exact hms _ hm
    · exact h.places e he hp
  · intro i p
    change s.catalog.placement? i = some p ↔ ∃ e ∈ w.drafts.set k s.draft, _
    by_cases hr : p.root = d.root
    · -- a placement in the changed draft
      have hp : p = ⟨s.draft.root, p.node⟩ := by rw [hs.root, ← hr]
      rw [hp, hs.consistent (h.registered hd).consistent]
      constructor
      · exact fun hplace => ⟨s.draft, mem_set.2 (Or.inl rfl), rfl, hplace⟩
      · rintro ⟨e, he, hr', hplace⟩
        rcases mem_set.1 he with rfl | ⟨-, hne⟩
        · exact hplace
        · exact absurd (hr'.trans hs.root) hne
    · rw [placement?_of_binds hs hr, h.recorded]
      constructor
      · rintro ⟨e, he, hr', hplace⟩
        exact ⟨e, mem_set.2 (Or.inr ⟨he, hr' ▸ hr⟩), hr', hplace⟩
      · rintro ⟨e, he, hr', hplace⟩
        rcases mem_set.1 he with rfl | ⟨he, -⟩
        · exact absurd (hr'.symm.trans hs.root) hr
        · exact ⟨e, he, hr', hplace⟩

theorem set_self (hk : w.drafts[k]? = some d) : w.set k ⟨d, w.catalog⟩ = w :=
  congrArg (fun drafts => { w with drafts }) (set_of_getElem? hk)

/-- A draft keeps its root. -/
theorem Sound.root_after (h : w.Sound) (hd : d ∈ w.drafts) (id : NodeId) {decl : Declaration}
    (hdecl : decl.Uses w.Knows) : (Drafting.after ⟨d, w.catalog⟩ id decl).draft.root = d.root := by
  have hatomic := DraftM.ends_declare_atomic (h.registered hd) id hdecl
  unfold DraftM.Ends at hatomic
  split at hatomic <;> rename_i hr
  · rw [Drafting.after_of_ok hr]
    obtain ⟨⟨ms, -, hbinds⟩, -⟩ := hatomic
    exact hbinds.root
  · rw [Drafting.after_of_error hr, hatomic]

/-- Every declaration leaves the workshop sound. -/
theorem Sound.declare (h : w.Sound) (k : Nat) (id : NodeId) {decl : Declaration}
    (hdecl : decl.Uses w.Knows) : (w.declare k id decl).Sound := by
  unfold Workshop.declare
  cases hk : w.drafts[k]? with
  | none => exact h
  | some d =>
  have hd := List.mem_of_getElem? hk
  have hfields : decl.OfFields := by
    cases decl with
    | place groups o => exact fun m hm => h.declared (hdecl m hm)
    | node | lazyGrad => trivial
  have hbuilt := Draft.Built.after (s := ⟨d, w.catalog⟩) (h.built d hd) id hfields
  have hatomic := DraftM.ends_declare_atomic (h.registered hd) id hdecl
  unfold DraftM.Ends at hatomic
  change (w.set k (Drafting.after ⟨d, w.catalog⟩ id decl)).Sound
  split at hatomic <;> rename_i hr
  · rw [Drafting.after_of_ok hr] at hbuilt ⊢
    obtain ⟨⟨ms, hms, hbinds⟩, -⟩ := hatomic
    exact h.bind hk hbuilt hms hbinds
  · rw [Drafting.after_of_error hr, hatomic, set_self hk]
    exact h

theorem Reachable.sound (h : w.Reachable) : w.Sound := by
  induction h with
  | start => exact sound_start
  | declareField decl _ ih => exact ih.declareField decl
  | newDraft packing _ ih => exact ih.newDraft packing
  | declare k id _ hdecl ih => exact ih.declare k id hdecl

/-- What the drafts and the catalog promise at every moment. -/
structure Accounted (w : Workshop) : Prop where
  roots : (w.drafts.map (·.root)).Nodup
  /-- A member is placed by one node of one draft at most. -/
  once : ∀ {k k' : Nat} {d d' : Draft} {id id' : NodeId} {info info' : PlaceInfo},
    w.drafts[k]? = some d → w.drafts[k']? = some d' → d.placeAt? id = some info →
    d'.placeAt? id' = some info' → info.member.id = info'.member.id → k = k' ∧ id = id'
  /-- The catalog records a member exactly where it is placed. -/
  recorded : ∀ (i : MemberId) (p : Placement), w.catalog.placement? i = some p ↔
    ∃ d ∈ w.drafts, d.root = p.root ∧ (d.placeAt? p.node).map (·.member.id) = some i
  /-- Members that are placed get one new node each, in order. -/
  received : ∀ {d : Draft} {target id : NodeId} {groups : List FieldGroup} {o : PlaceOptions}
    {s : Drafting}, d ∈ w.drafts → (Declaration.place groups o).Uses w.Knows →
    DraftM.declare target (.place groups o) ⟨d, w.catalog⟩ = .ok id s →
    id = target ∧ d.Receives s.draft target (FieldGroup.membersOf groups)
  /-- What is refused changes nothing. -/
  refused : ∀ {k : Nat} {d : Draft} {id : NodeId} {decl : Declaration} {e : BuildError}
    {s : Drafting}, w.drafts[k]? = some d → decl.Uses w.Knows →
    DraftM.declare id decl ⟨d, w.catalog⟩ = .error e s → w.set k s = w
  /-- A placement that was planned is carried out. -/
  carried_out : ∀ {d : Draft} {target : NodeId} {q : Node} {ms : List Member} {o : PlaceOptions}
    {plan : PlacePlan}, d ∈ w.drafts → d.nodes[target]? = some q → (∀ m ∈ ms, w.Knows m) →
    planPlace w.catalog target q ms o = .ok plan →
    ∃ s, DraftM.applyPlan plan ⟨d, w.catalog⟩ = .ok () s
  /-- So are those that were planned together. -/
  all_carried_out : ∀ {d : Draft} {id : NodeId} {plans : List (List PlacePlan)}, d ∈ w.drafts →
    (d.postOrder d.nodes.size id).mapM (planAdjoints ⟨d, w.catalog⟩) = .ok plans →
    ∃ s, plans.flatten.forM DraftM.applyPlan ⟨d, w.catalog⟩ = .ok () s

theorem Sound.once (h : w.Sound) {id id' : NodeId} {info info' : PlaceInfo}
    (hk : w.drafts[k]? = some d) (hk' : w.drafts[k']? = some d') (hp : d.placeAt? id = some info)
    (hp' : d'.placeAt? id' = some info') (hm : info.member.id = info'.member.id) :
    k = k' ∧ id = id' := by
  have hrec := (h.recorded info.member.id ⟨d.root, id⟩).2
    ⟨d, List.mem_of_getElem? hk, rfl, by rw [hp]; rfl⟩
  have hrec' := (h.recorded info.member.id ⟨d'.root, id'⟩).2
    ⟨d', List.mem_of_getElem? hk', rfl, by rw [hp', hm]; rfl⟩
  rw [hrec, Option.some.injEq, Placement.mk.injEq] at hrec'
  refine ⟨(List.getElem?_inj ?_ h.roots).1 ?_, hrec'.2⟩
  · rw [List.length_map]
    exact (List.getElem?_eq_some_iff.1 hk).1
  · rw [List.getElem?_map, List.getElem?_map, hk, hk']
    exact congrArg some hrec'.1

/-- However fields are declared and drafts begun, and whatever is declared on them in turn, members
are placed once, where they are recorded, and declarations are carried out as a whole or not at
all. -/
theorem Reachable.accounted_for (h : w.Reachable) : w.Accounted := by
  have hw := h.sound
  constructor
  · exact hw.roots
  · exact hw.once
  · exact hw.recorded
  · intro d target id groups o s hd huses hs
    have hatomic := DraftM.ends_declare_atomic (hw.registered hd) target huses
    rw [DraftM.Ends, hs] at hatomic
    exact hatomic.2 groups o rfl
  · intro k d id decl e s hk huses hs
    have hatomic := DraftM.ends_declare_atomic (hw.registered (List.mem_of_getElem? hk)) id huses
    rw [DraftM.Ends, hs] at hatomic
    rw [show s = _ from hatomic]
    exact set_self hk
  · intro d target q ms o plan hd hq hms hplan
    have hends := DraftM.ends_applyPlan_planPlace (hw.registered hd) hq hms hplan
    obtain ⟨_, s, hs, -⟩ := hends.exists_ok
    exact ⟨s, hs⟩
  · intro d id plans hd hplans
    obtain ⟨_, s, hs, -⟩ := (DraftM.ends_applyPlans_lazyGrad (hw.registered hd) hplans).exists_ok
    exact ⟨s, hs⟩

end Workshop

theorem FieldGroup.mem_membersOf_one {fs : List Field} {m : Member} :
    m ∈ FieldGroup.membersOf (fs.map .one) ↔ ∃ f ∈ fs, m ∈ f.members := by
  induction fs with
  | nil => simp [FieldGroup.membersOf]
  | cons f fs ih => simp [FieldGroup.membersOf, FieldGroup.members, ih]

theorem Workshop.fields_declare (w : Workshop) (k : Nat) (id : NodeId) (decl : Declaration) :
    (w.declare k id decl).fields = w.fields := by
  unfold declare
  split <;> rfl

/-- The fields of a workshop can be placed in it. -/
theorem Workshop.uses_fields {w : Workshop} {fs : List Field} (h : w.fields = fs)
    (o : PlaceOptions) : (Declaration.place (fs.map .one) o).Uses w.Knows := by
  intro m hm
  obtain ⟨f, hf, hm⟩ := FieldGroup.mem_membersOf_one.1 hm
  exact ⟨f, h ▸ hf, Or.inl hm⟩

namespace Sample

/-- Two numbers with gradients. -/
def pair : FieldDecl := ⟨"v", .single, .vector 2, true⟩

/-- Two drafts for the members of one field. -/
def drafts : Workshop :=
  (((⟨.empty, [], []⟩ : Workshop).declareField pair).newDraft .padded).newDraft .packed

theorem reachable_drafts : drafts.Reachable :=
  ((Workshop.Reachable.start.declareField pair).newDraft .padded).newDraft .packed

/-- The first draft gets the members, and then their gradients; in between, the second one asks for
the members in vain. -/
def workshop : Workshop :=
  let place := .place (drafts.fields.map .one) ⟨none, false⟩
  (((drafts.declare 0 0 (.node (.dense [0] (.uniform 4)))).declare 0 1 place).declare 1 0
    place).declare 0 0 .lazyGrad

theorem reachable_workshop : workshop.Reachable := by
  refine (((reachable_drafts.declare 0 0 ?_).declare 0 1 ?_).declare 1 0 ?_).declare 0 0 ?_
  · trivial
  · exact Workshop.uses_fields (Workshop.fields_declare ..) _
  · exact Workshop.uses_fields
      ((Workshop.fields_declare ..).trans (Workshop.fields_declare ..)) _
  · trivial

/-- The ids of the gradients come first, their nodes last. -/
theorem accounted_workshop : workshop.Accounted ∧ (List.range 4).map workshop.catalog.placement? =
    [some ⟨0, 4⟩, some ⟨0, 5⟩, some ⟨0, 2⟩, some ⟨0, 3⟩] :=
  ⟨reachable_workshop.accounted_for, by decide +kernel⟩

end Sample

end SparseLayout
