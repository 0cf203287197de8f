import SparseLayout.Proofs.Draft.Place

namespace SparseLayout

open Draft (Node)

/-- The member of a declared field, or the gradient of one. -/
def Member.Declared (m : Member) : Prop :=
  ∃ decl c f c', Catalog.declare decl c = .ok f c' ∧
    (m ∈ f.members ∨ ∃ p ∈ f.members, p.adjoint? = some m)

theorem FieldDecl.check_ok {decl : FieldDecl} {u : Unit} (h : decl.check = .ok u) :
    decl.dtype.check = .ok () ∧ (decl.adjoint = true → decl.dtype.isReal = true) := by
  unfold FieldDecl.check at h
  obtain ⟨_, hd, h⟩ := exists_of_bind h
  split at h
  · cases h
  split at h
  · cases h
  · rename_i hr
    exact ⟨hd, fun ha => by simpa [ha] using hr⟩

theorem Catalog.components_dtype {c : Catalog} {decl : FieldDecl} {name : String} {k : Component}
    (h : k ∈ (c.components decl name).1) : k.dtype = decl.dtype := by
  unfold components at h
  obtain ⟨i, -, rfl⟩ := List.mem_map.1 h
  rfl

/-- A declared field has members of its type; they have gradients only where the type is real. -/
theorem Catalog.declare_members {decl : FieldDecl} {c c' : Catalog} {f : Field}
    (h : Catalog.declare decl c = .ok f c') : decl.dtype.check = .ok () ∧
      ∀ m ∈ f.members, m.dtype = decl.dtype ∧ ∀ a, m.adjoint? = some a →
        a.dtype = decl.dtype ∧ decl.dtype.isReal = true ∧ a.adjoint? = none := by
  unfold Catalog.declare at h
  split at h
  · cases h
  rename_i hcheck
  obtain ⟨hd, hreal⟩ := FieldDecl.check_ok hcheck
  refine ⟨hd, ?_⟩
  split at h
  · rename_i hadj
    cases h
    intro m hm
    obtain ⟨p, hp, a, ha, rfl⟩ : ∃ p ∈ (Catalog.components (c.components decl
        (adjointName decl.name)).2 decl decl.name).1, ∃ a ∈ (c.components decl
        (adjointName decl.name)).1, m = ⟨p, .primal (some a)⟩ := by
      obtain ⟨i, hi, rfl⟩ := List.getElem_of_mem hm
      rw [List.getElem_zipWith]
      exact ⟨_, List.getElem_mem _, _, List.getElem_mem _, rfl⟩
    refine ⟨Catalog.components_dtype hp, ?_⟩
    intro a' ha'
    cases ha'
    exact ⟨Catalog.components_dtype ha, hreal hadj, rfl⟩
  · cases h
    intro m hm
    obtain ⟨p, hp, rfl⟩ := List.mem_map.1 hm
    refine ⟨Catalog.components_dtype hp, ?_⟩
    intro a ha
    cases ha

theorem DataType.not_isQuant_of_isReal {t : DataType} (h : t.isReal = true) :
    t.isQuant = false ∧ t.check = .ok () := by
  cases t <;> first | exact ⟨rfl, rfl⟩ | cases h

theorem Member.valid_of_real {m : Member} (h : m.dtype.isReal = true) (ha : m.adjoint? = none) :
    m.Valid := by
  refine ⟨(DataType.not_isQuant_of_isReal h).2, ?_⟩
  intro a ha'
  rw [ha] at ha'
  cases ha'

theorem Member.Declared.valid {m : Member} (h : m.Declared) : m.Valid := by
  obtain ⟨decl, c, f, c', hdecl, hm⟩ := h
  obtain ⟨hd, hall⟩ := Catalog.declare_members hdecl
  rcases hm with hm | ⟨p, hp, ha⟩
  · obtain ⟨ht, hadj⟩ := hall m hm
    refine ⟨ht ▸ hd, ?_⟩
    intro a ha
    obtain ⟨hta, hreal, hnone⟩ := hadj a ha
    exact ⟨hta ▸ hreal, hnone⟩
  · obtain ⟨hta, hreal, hnone⟩ := (hall p hp).2 m ha
    exact Member.valid_of_real (hta ▸ hreal) hnone

/-- Only members of declared fields are placed. -/
def Declaration.OfFields : Declaration → Prop
  | .place groups _ => ∀ m ∈ FieldGroup.membersOf groups, m.Declared
  | _ => True

/-- What a declaration on node `id` that is carried out does to the words. -/
def Declaration.Fills (decl : Declaration) (d d' : Draft) (id : NodeId) : Prop :=
  match decl with
  | .place groups o => d.Fills d' id (FieldGroup.membersOf groups) o.shared
  | _ => d.Keeps d'

theorem of_mapM {α β ε : Type} {f : α → Except ε β} {l : List α} {bs : List β}
    (h : l.mapM f = .ok bs) : ∀ b ∈ bs, ∃ a ∈ l, f a = .ok b := by
  induction l generalizing bs with
  | nil =>
    cases h
    exact fun b hb => absurd hb List.not_mem_nil
  | cons a l ih =>
    rw [List.mapM_cons] at h
    obtain ⟨b₀, hb₀, h⟩ := exists_of_bind h
    obtain ⟨bs₀, hbs₀, h⟩ := exists_of_bind h
    cases h
    intro b hb
    rcases List.mem_cons.1 hb with rfl | hb
    · exact ⟨a, List.mem_cons_self, hb₀⟩
    · obtain ⟨a', ha', hf⟩ := ih hbs₀ b hb
      exact ⟨a', List.mem_cons_of_mem _ ha', hf⟩

/-- A gradient has a real type, so a plan to place one is for a container of whole bytes. -/
theorem planAdjoints_bytes {s : Drafting} (h : s.draft.Good) {container : NodeId}
    {plans : List PlacePlan} (hplans : planAdjoints s container = .ok plans) :
    ∀ plan ∈ plans, plan.Bytes s.draft := by
  intro plan hplan
  obtain ⟨⟨offsets, adjoint⟩, hmem, hp⟩ := of_mapM hplans plan hplan
  obtain ⟨id, hid, hsome⟩ := List.mem_filterMap.1 hmem
  -- a plan comes from a child of the container that is a place with an adjoint
  simp only [bind, Option.bind] at hsome
  cases hm : s.draft.nodes[id]? with
  | none => simp [hm] at hsome
  | some m =>
  rw [hm] at hsome
  cases hinfo : m.kind.place? with
  | none => simp [hinfo] at hsome
  | some info =>
  simp only [hinfo] at hsome
  cases hadj : info.member.adjoint? with
  | none => simp [hadj] at hsome
  | some a =>
  simp only [hadj] at hsome
  split at hsome
  · cases hsome
  cases hsome
  cases hq : s.draft.nodes[container]? with
  | none => simp [hq] at hp
  | some q =>
  simp only [hq] at hp
  have hkind : m.kind = .place info := by
    cases hk : m.kind <;> rw [hk] at hinfo <;> cases hinfo
    rfl
  rw [Draft.children_of_some hq] at hid
  obtain ⟨-, m', hm', -, -, hadm, -⟩ := h.grown.child hq hid
  rw [hm, Option.some.injEq] at hm'
  subst hm'
  rw [hkind] at hadm
  -- an adjoint has a real type, which no bit container admits
  obtain ⟨hreal, hnone⟩ := hadm.2.1.2 _ hadj
  have hvalid := Member.valid_of_real hreal hnone
  rcases planPlace_ok hp with ⟨hne, -⟩ | ⟨offsets', b, -, -, -, hbits, rfl⟩
  · cases hne
  · obtain ⟨hplace, hquant⟩ := planBits_admits hbits
    have hb : q.kind.type.isBitLevel = false := by
      rw [← hquant _ List.mem_cons_self]
      exact (DataType.not_isQuant_of_isReal hreal).1
    refine ⟨of_decide_eq_true, q, hq, hb, ?_⟩
    intro i hi
    have hmem := (of_mem_placeInfos hi).1
    rw [List.mem_singleton] at hmem
    exact ⟨hplace, hmem ▸ hvalid, hquant _ (hmem ▸ List.mem_cons_self)⟩

namespace DraftM

variable {s : Drafting}

/-- Plans made together stay plans for containers of whole bytes while they are carried out. -/
theorem ends_applyPlans {plans : List PlacePlan} (h : s.draft.Good)
    (hp : ∀ plan ∈ plans, plan.Bytes s.draft) :
    Ends (plans.forM applyPlan) s (fun _ s' => s'.draft.Good ∧ s.draft.Keeps s'.draft)
      fun s' => s'.draft.Good ∧ s.draft.Keeps s'.draft := by
  induction plans generalizing s with
  | nil => exact ends_pure ⟨h, .refl _ _⟩
  | cons plan rest ih =>
    refine Ends.bind ((ends_applyPlan_bytes h (hp plan List.mem_cons_self)).mono ?_ fun s' hs => hs)
    intro _ s' hs
    refine (ih hs.1 fun p hmem => (hp p (List.mem_cons_of_mem _ hmem)).mono hs.2).mono ?_ ?_
    · exact fun _ s'' hs' => ⟨hs'.1, hs.2.trans hs'.2⟩
    · exact fun s'' hs' => ⟨hs'.1, hs.2.trans hs'.2⟩

theorem ends_lazyGrad (id : NodeId) (h : s.draft.Good) :
    Ends (lazyGrad id) s (fun _ s' => s'.draft.Good ∧ s.draft.Keeps s'.draft)
      fun s' => s'.draft.Good ∧ s.draft.Keeps s'.draft := by
  unfold lazyGrad
  apply Ends.bind
  refine ends_node ?_ fun _ => ⟨h, .refl _ _⟩
  intro _ _
  apply Ends.bind
  apply ends_get
  apply Ends.bind
  refine ends_check ?_ ⟨h, .refl _ _⟩
  intro plans hplans
  refine ends_applyPlans h ?_
  intro plan hplan
  obtain ⟨ps, hps, hmem⟩ := List.mem_flatten.1 hplan
  obtain ⟨container, -, hc⟩ := of_mapM hplans ps hps
  exact planAdjoints_bytes h hc plan hmem

theorem ends_extend (id : NodeId) (decl : Structural) (h : s.draft.Good) :
    Ends (extend id decl) s (fun _ s' => s'.draft.Good ∧ s.draft.Keeps s'.draft)
      fun s' => s'.draft.Good ∧ s.draft.Keeps s'.draft := by
  unfold extend
  apply Ends.bind
  refine ends_node ?_ fun _ => ⟨h, .refl _ _⟩
  intro q hq
  cases hk : decl.kind q.kind.type with
  | error e => exact ends_throw ⟨h, .refl _ _⟩
  | ok kind =>
    obtain ⟨hacc, hmakes⟩ := Structural.kind_makes hk
    have hb := (not_isBitLevel_of_acceptsChildren hacc).1
    exact ends_push hq ⟨h.push hq (hmakes.admitted hacc) hmakes.valid hb,
      h.grown.keepsBut_push hq (Or.inl hb) _⟩

/-- A declaration keeps a draft good, also where it is refused. It changes no word unless it places
members in a bit container. -/
theorem ends_declare (id : NodeId) {decl : Declaration} (hd : decl.OfFields) (h : s.draft.Good) :
    Ends (declare id decl) s
      (fun _ s' => s'.draft.Good ∧ decl.Fills s.draft s'.draft id)
        fun s' => s'.draft.Good ∧ s.draft.Keeps s'.draft := by
  cases decl with
  | node decl => exact ends_extend id decl h
  | place groups o =>
    exact Ends.bind ((ends_place h fun m hm => (hd m hm).valid).mono (fun _ _ hs => hs) fun _ hs => hs)
  | lazyGrad => exact Ends.bind ((ends_lazyGrad id h).mono (fun _ _ hs => hs) fun _ hs => hs)

end DraftM

/-- Trees that declarations can make, each from a new one. What a declaration changed before it was
refused stays. -/
inductive Draft.Built : Draft → Prop
  | new (root : RootId) (packing : Packing) : Built (.new root packing)
  | declared {d : Draft} {c : Catalog} {id id' : NodeId} {decl : Declaration} {s : Drafting} :
    Built d → decl.OfFields → DraftM.declare id decl ⟨d, c⟩ = .ok id' s → Built s.draft
  | refused {d : Draft} {c : Catalog} {id : NodeId} {decl : Declaration} {e : BuildError}
      {s : Drafting} :
    Built d → decl.OfFields → DraftM.declare id decl ⟨d, c⟩ = .error e s → Built s.draft

namespace Draft

theorem good_new (root : RootId) (packing : Packing) : (new root packing).Good := by
  have only {id : NodeId} {n : Node} (hn : (new root packing).nodes[id]? = some n) :
      id = 0 ∧ n = .root := by
    obtain ⟨hlt, he⟩ := Array.getElem?_eq_some_iff.1 hn
    have hid : id = 0 := Nat.lt_one_iff.1 hlt
    subst hid
    exact ⟨rfl, he.symm⟩
  refine ⟨⟨rfl, ?_, ?_, ?_⟩, ⟨?_, ?_⟩⟩
  · intro id c n hn hc
    rw [(only hn).2] at hc
    cases hc
  · intro id n hn h0
    exact absurd (only hn).1 h0
  · intro id n hn
    rw [(only hn).2]
    exact List.nodup_nil
  · intro id n width hn hk
    rw [(only hn).2] at hk
    cases hk
  · intro id n ds width hn hk
    rw [(only hn).2] at hk
    cases hk

theorem Built.good {d : Draft} (h : d.Built) : d.Good := by
  induction h with
  | new root packing => exact good_new root packing
  | @declared d c id id' decl s _ hd heq ih =>
    have hends := DraftM.ends_declare (s := ⟨d, c⟩) id hd ih
    unfold DraftM.Ends at hends
    rw [heq] at hends
    exact hends.1
  | @refused d c id decl e s _ hd heq ih =>
    have hends := DraftM.ends_declare (s := ⟨d, c⟩) id hd ih
    unfold DraftM.Ends at hends
    rw [heq] at hends
    exact hends.1

/-- What a declaration on a tree that was built does to the words. -/
theorem Built.fills {d : Draft} {c : Catalog} {id id' : NodeId} {decl : Declaration} {s : Drafting}
    (h : d.Built) (hd : decl.OfFields) (hs : DraftM.declare id decl ⟨d, c⟩ = .ok id' s) :
    decl.Fills d s.draft id := by
  have hends := DraftM.ends_declare (s := ⟨d, c⟩) id hd h.good
  unfold DraftM.Ends at hends
  rw [hs] at hends
  exact hends.2

theorem Built.keeps {d : Draft} {c : Catalog} {id : NodeId} {decl : Declaration} {e : BuildError}
    {s : Drafting} (h : d.Built) (hd : decl.OfFields)
    (hs : DraftM.declare id decl ⟨d, c⟩ = .error e s) : d.Keeps s.draft := by
  have hends := DraftM.ends_declare (s := ⟨d, c⟩) id hd h.good
  unfold DraftM.Ends at hends
  rw [hs] at hends
  exact hends.2

theorem word?_new (root : RootId) (packing : Packing) (id : NodeId) :
    (new root packing).word? id = none := by
  cases hw : (new root packing).word? id with
  | none => rfl
  | some w =>
    obtain ⟨n, hn, hb, -⟩ := word?_eq_some_iff.1 hw
    obtain ⟨hlt, rfl⟩ := Array.getElem?_eq_some_iff.1 hn
    obtain rfl : id = 0 := Nat.lt_one_iff.1 hlt
    cases hb

end Draft

end SparseLayout
