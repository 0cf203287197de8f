import SparseLayout.Proofs.Draft.Effect
import SparseLayout.Proofs.Draft.Structured
import Mathlib.Logic.Relation

namespace SparseLayout

open Draft (Node)

namespace Draft

variable {d : Draft} {id c c' x y : NodeId} {n : Node} {height : Nat}

/-- One edge up. -/
def Up (d : Draft) (x y : NodeId) : Prop := d.parent? x = some y

theorem rightUnique_up (d : Draft) : Relator.RightUnique d.Up :=
  fun _ _ _ hb hc => Option.some.inj (hb.symm.trans hc)

theorem Grown.up_child (h : d.Grown) (hn : d.nodes[id]? = some n) (hc : c ∈ n.children) :
    d.Up c id ∧ id < c := by
  obtain ⟨hlt, m, hm, hp, -⟩ := h.child hn hc
  exact ⟨by rw [Up, parent?, hm, Option.bind_some, hp], hlt⟩

theorem Grown.lt_of_up (h : d.Grown) (hup : d.Up x y) : y < x := by
  unfold Up at hup
  cases hn : d.nodes[x]? with
  | none => simp [parent?, hn] at hup
  | some n =>
    rcases h.parent?_cases hn with ⟨-, hp⟩ | ⟨p, q, hp, hlt, -⟩
    · rw [hp] at hup
      cases hup
    · rw [hp, Option.some.injEq] at hup
      exact hup ▸ hlt

theorem Grown.le_of_up (h : d.Grown) (hup : Relation.ReflTransGen d.Up x y) : y ≤ x := by
  induction hup with
  | refl => exact Nat.le_refl _
  | tail _ hstep ih => exact Nat.le_trans (Nat.le_of_lt (h.lt_of_up hstep)) ih

/-- No child of a node lies below another one. -/
theorem Grown.eq_of_up (h : d.Grown) (hn : d.nodes[id]? = some n) (hc : c ∈ n.children)
    (hc' : c' ∈ n.children) (hup : Relation.ReflTransGen d.Up c c') : c = c' := by
  rcases Relation.ReflTransGen.cases_head hup with he | ⟨p, hp, hrest⟩
  · exact he
  · obtain ⟨hpc, -⟩ := h.up_child hn hc
    rw [d.rightUnique_up hp hpc] at hrest
    exact absurd (h.le_of_up hrest) (Nat.not_le_of_lt (h.up_child hn hc').2)

/-- A node lies below one child of its ancestor only. -/
theorem Grown.child_unique (h : d.Grown) (hn : d.nodes[id]? = some n) (hc : c ∈ n.children)
    (hc' : c' ∈ n.children) (hx : Relation.ReflTransGen d.Up x c)
    (hx' : Relation.ReflTransGen d.Up x c') : c = c' := by
  rcases Relation.ReflTransGen.total_of_right_unique d.rightUnique_up hx hx' with hup | hup
  · exact h.eq_of_up hn hc hc' hup
  · exact (h.eq_of_up hn hc' hc hup).symm

theorem postOrder_succ (d : Draft) (height : Nat) (id : NodeId) :
    d.postOrder (height + 1) id = [] ∨ ∃ n, d.nodes[id]? = some n ∧
      d.postOrder (height + 1) id = n.children.flatMap (d.postOrder height) ++ [id] := by
  rw [postOrder]
  cases d.nodes[id]? with
  | none => exact Or.inl rfl
  | some n =>
    dsimp only
    split
    · exact Or.inl rfl
    · exact Or.inr ⟨n, rfl, rfl⟩

theorem Grown.up_of_mem_postOrder (h : d.Grown) (hx : x ∈ d.postOrder height id) :
    Relation.ReflTransGen d.Up x id := by
  induction height generalizing id with
  | zero => cases hx
  | succ height ih =>
    rcases d.postOrder_succ height id with hnil | ⟨n, hn, hcons⟩
    · rw [hnil] at hx
      cases hx
    · rw [hcons, List.mem_append, List.mem_flatMap, List.mem_singleton] at hx
      rcases hx with ⟨c, hc, hx⟩ | rfl
      · exact .tail (ih hx) (h.up_child hn hc).1
      · exact .refl

/-- Every container of a subtree is listed once. -/
theorem Grown.nodup_postOrder (h : d.Grown) (height : Nat) (id : NodeId) :
    (d.postOrder height id).Nodup := by
  induction height generalizing id with
  | zero => exact List.nodup_nil
  | succ height ih =>
    rcases d.postOrder_succ height id with hnil | ⟨n, hn, hcons⟩
    · rw [hnil]
      exact List.nodup_nil
    rw [hcons, List.nodup_append]
    refine ⟨List.nodup_flatMap.2 ⟨fun c _ => ih c, ?_⟩, List.nodup_singleton id, ?_⟩
    · refine (h.nodup hn).imp_of_mem fun {c c'} hc hc' hne => ?_
      intro x hx hx'
      exact hne (h.child_unique hn hc hc' (h.up_of_mem_postOrder hx) (h.up_of_mem_postOrder hx'))
    · intro x hx y hy he
      obtain ⟨c, hc, hx⟩ := List.mem_flatMap.1 hx
      have hle := h.le_of_up (h.up_of_mem_postOrder hx)
      rw [he, List.mem_singleton.1 hy] at hle
      exact absurd hle (Nat.not_le_of_lt (h.up_child hn hc).2)

theorem of_mem_children (hc : c ∈ d.children id) : ∃ n, d.nodes[id]? = some n ∧ c ∈ n.children := by
  unfold children at hc
  split at hc
  · exact ⟨_, ‹_›, hc⟩
  · cases hc

/-- Different nodes have different children. -/
theorem Grown.nodup_children (h : d.Grown) {ids : List NodeId} (hids : ids.Nodup) :
    (ids.flatMap d.children).Nodup := by
  refine List.nodup_flatMap.2 ⟨fun id _ => ?_, hids.imp fun {id id'} hne c hc hc' => hne ?_⟩
  · unfold children
    split
    · exact h.nodup ‹_›
    · exact List.nodup_nil
  · obtain ⟨n, hn, hmem⟩ := of_mem_children hc
    obtain ⟨n', hn', hmem'⟩ := of_mem_children hc'
    exact d.rightUnique_up (h.up_child hn hmem).1 (h.up_child hn' hmem').1

end Draft

/-- What a plan places is what it was asked to, under the node it was asked to, which is a new one
below the root where that is the root. -/
theorem planBits_members {node : Node} {ms : List Member} {shared : Bool} {b : BitPlan}
    (h : planBits node ms shared = .ok b) (hne : ms ≠ []) (offsets : List Int32) :
    (placeInfos offsets ms b.fields).map (·.member) = ms := by
  by_cases hb : node.kind.type.isBitLevel = true
  · have hstart (width : UInt32) (_ : node.kind = .bitStruct width) :
        node.bitsUsed = .ofNat node.bitsUsed.toNat := UInt32.ofNat_toNat.symm
    exact (planBits_ok h hb hne hstart offsets).1
  · rcases planBits_cases h with ⟨width, hk, -⟩ | ⟨ds, width, hk, -⟩ | ⟨-, -, hbytes⟩
    · exact absurd (by rw [hk]; rfl) hb
    · exact absurd (by rw [hk]; rfl) hb
    · rw [(planBytes_ok hbytes).2, placeInfos, List.zipWith_map_right, List.zipWith_self,
        List.map_map]
      exact List.map_id' ms

theorem planPlace_members {c : Catalog} {target : NodeId} {node : Node} {ms : List Member}
    {o : PlaceOptions} {plan : PlacePlan} (h : planPlace c target node ms o = .ok plan) :
    plan.members = ms ∧ plan.target = target ∧
      (ms ≠ [] → plan.implicitDense = decide (target = 0)) ∧ c.Fresh ms := by
  rcases planPlace_ok h with ⟨rfl, -, rfl⟩ | ⟨offsets, b, hne, hfresh, -, hbits, rfl⟩
  · exact ⟨rfl, rfl, fun hne => absurd rfl hne, List.nodup_nil,
      fun m hm => absurd hm List.not_mem_nil⟩
  · exact ⟨planBits_members hbits hne offsets, rfl, fun _ => rfl, (checkFresh_ok hfresh).1⟩

theorem flatMap_mapM {α β γ ε : Type} {f : α → Except ε β} {g : β → List γ} {k : α → List γ}
    {l : List α} {bs : List β} (hfg : ∀ a b, f a = .ok b → g b = k a) (h : l.mapM f = .ok bs) :
    bs.flatMap g = l.flatMap k := by
  induction l generalizing bs with
  | nil =>
    cases h
    rfl
  | cons a l ih =>
    rw [List.mapM_cons] at h
    obtain ⟨b, hb, h⟩ := exists_of_bind h
    obtain ⟨bs', hbs, h⟩ := exists_of_bind h
    cases h
    rw [List.flatMap_cons, List.flatMap_cons, hfg a b hb, ih hbs]

/-- The offsets and the adjoint of a placed member, if it has one that is not placed. -/
def pendingAt (s : Drafting) (id : NodeId) : Option (List Int32 × Member) := do
  let info ← (← s.draft.nodes[id]?).kind.place?
  let adjoint ← info.member.adjoint?
  if s.catalog.isPlaced adjoint then none else some (info.indexOffsets, adjoint)

theorem of_pendingAt {s : Drafting} {id : NodeId} {offsets : List Int32} {a : Member}
    (h : pendingAt s id = some (offsets, a)) : ∃ info, s.draft.placeAt? id = some info ∧
      info.member.adjoint? = some a ∧ s.catalog.isPlaced a = false := by
  unfold pendingAt at h
  unfold Draft.placeAt?
  simp only [Option.bind_eq_bind, Option.bind_eq_some_iff] at h
  obtain ⟨n, hn, info, hinfo, adjoint, hadj, hif⟩ := h
  split at hif
  · cases hif
  · rename_i hfree
    cases hif
    exact ⟨info, by rw [hn, Option.bind_some, hinfo], hadj, Bool.eq_false_iff.2 hfree⟩

/-- The plans for a list of containers place their pending adjoints. -/
theorem planAdjoints_members {s : Drafting} {ids : List NodeId} {plans : List (List PlacePlan)}
    (h : ids.mapM (planAdjoints s) = .ok plans) : plans.flatten.flatMap (·.members) =
      ((ids.flatMap s.draft.children).filterMap (pendingAt s)).map (·.2) := by
  have hone (id : NodeId) (ps : List PlacePlan) (hp : planAdjoints s id = .ok ps) :
      ps.flatMap (·.members) = ((s.draft.children id).filterMap (pendingAt s)).map (·.2) := by
    rw [← List.flatMap_singleton' (((s.draft.children id).filterMap (pendingAt s)).map (·.2)),
      List.flatMap_map]
    refine flatMap_mapM ?_ hp
    rintro ⟨offsets, adjoint⟩ plan hplan
    dsimp only at hplan
    split at hplan
    · cases hplan
    · exact (planPlace_members hplan).1
  rw [List.filterMap_flatMap, List.map_flatMap, List.flatten_eq_flatMap, List.flatMap_assoc]
  exact flatMap_mapM hone h

end SparseLayout
