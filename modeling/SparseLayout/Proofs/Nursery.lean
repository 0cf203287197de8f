import SparseLayout.Proofs.Builder
import SparseLayout.Proofs.Workshop

/-!
A forest that grows through its builders. Whatever is called, in any order and with any outcome, the
trees of the forest are those of the builders that were finalized with success, in this order; its
pending roots are those of the builders that are open; and a member is found in the forest where a
builder with a finished tree placed it.
-/

namespace SparseLayout

/-- A forest with the builders that were made for it, oldest first; a builder that was dropped
leaves a gap. The drafts are those of all builders, as they were when these last had them. -/
structure Nursery extends Workshop where
  forest : Forest
  builders : List (Option Builder)

namespace Nursery

/-- A call and its outcome. -/
inductive Event
  | fieldDeclared
  | built
  | declared (b : Nat) (r : Except BuildError NodeId)
  | finalized (b : Nat) (r : Except BuildError Handle)
  | dropped (b : Nat)
  | destroyed (id : TreeId) (r : Except Fault Unit)

namespace Event

/-- A builder that was finalized with success, with the root of its tree. -/
def finish? : Event → Option (Nat × Handle)
  | finalized b (.ok root) => some (b, root)
  | _ => none

/-- A builder that was finalized, with success or not. -/
def attempt? : Event → Option Nat
  | finalized b _ => some b
  | _ => none

/-- A tree that was destroyed. -/
def destroyed? : Event → Option TreeId
  | destroyed id (.ok _) => some id
  | _ => none

end Event

def finishes (es : List Event) : List (Nat × Handle) := es.filterMap Event.finish?

def attempts (es : List Event) : List Nat := es.filterMap Event.attempt?

def destroyed (es : List Event) : List TreeId := es.filterMap Event.destroyed?

/-- A builder after a call on it, with its draft if it still has one. -/
def put (s : Nursery) (b : Nat) (builder : Builder) : Nursery :=
  { s with
    builders := s.builders.set b (some builder)
    drafts := builder.draft?.elim s.drafts (s.drafts.set b) }

/-- One call. Builders that were dropped are called no more. -/
inductive Step : Nursery → Event → Nursery → Prop
  | declareField {s : Nursery} (decl : FieldDecl) :
    Step s .fieldDeclared { s with toWorkshop := s.declareField decl }
  | build {s : Nursery} {builder : Builder} {forest : Forest} {catalog : Catalog} :
    Builder.new s.forest s.catalog = (builder, forest, catalog) →
    Step s .built { s with
      forest, catalog
      builders := s.builders ++ [some builder]
      drafts := s.drafts ++ builder.draft?.toList }
  | declare {s : Nursery} {b : Nat} {builder builder' : Builder} {node : Option NodeId}
      {decl : Declaration} {r : Except BuildError NodeId} {catalog : Catalog} :
    s.builders[b]? = some (some builder) → decl.Uses s.Knows →
    ending (Builder.declare node decl (builder, s.catalog)) = (r, builder', catalog) →
    Step s (.declared b r) { s.put b builder' with catalog }
  | finalize {s : Nursery} {b : Nat} {builder builder' : Builder} {warn compileOnly : Bool}
      {r : Except BuildError Handle} {forest : Forest} :
    s.builders[b]? = some (some builder) →
    ending (Builder.finalize warn compileOnly (builder, s.forest)) = (r, builder', forest) →
    Step s (.finalized b r) { s.put b builder' with forest }
  | drop {s : Nursery} {b : Nat} {builder : Builder} : s.builders[b]? = some (some builder) →
    Step s (.dropped b)
      { s with forest := builder.drop s.forest, builders := s.builders.set b none }
  | destroy {s : Nursery} {id : TreeId} {r : Except Fault Unit} {forest : Forest} :
    ending (Forest.destroy id s.forest) = (r, forest) → Step s (.destroyed id r) { s with forest }

/-- What has happened since a forest was new, when nothing had been declared. -/
inductive History : Nursery → List Event → Prop
  | start {config : Config} {forest : Forest} : Forest.new config = .ok forest →
    History ⟨⟨.empty, [], []⟩, forest, []⟩ []
  | step {s s' : Nursery} {es : List Event} {e : Event} : History s es → Step s e s' →
    History s' (es ++ [e])

/-- The root of a builder that is open. -/
def openRoot? (b : Option Builder) : Option RootId := (b.bind (·.draft?)).map (·.root)

/-- Each open builder has a draft, whose root is pending; the others were finalized or dropped. -/
structure Tends (builders : List (Option Builder)) (drafts : List Draft) (attempts : List Nat)
    (pending : List RootId) : Prop where
  length : builders.length = drafts.length
  building : ∀ {b : Nat} {builder : Builder} {d : Draft}, builders[b]? = some (some builder) →
    builder.draft? = some d → drafts[b]? = some d
  attempted : ∀ {b : Nat} {builder : Builder}, builders[b]? = some (some builder) →
    (builder.draft? = none ↔ b ∈ attempts)
  attempts_lt : ∀ b ∈ attempts, b < builders.length
  pending_eq : pending = builders.filterMap openRoot?
  pending_nodup : pending.Nodup

/-- The trees are those that were compiled from the drafts of the finalized builders. -/
structure Records (trees : Array Forest.Tree) (drafts : List Draft)
    (finishes : List (Nat × Handle)) (destroyed : List TreeId) : Prop where
  size : trees.size = finishes.length
  tree : ∀ {i b : Nat} {root : Handle}, finishes[i]? = some (b, root) → ∃ tree d,
    trees[i]? = some tree ∧ root = tree.layout.rootHandle ∧ tree.layout.tree = i ∧
      (tree.destroyed = true ↔ i ∈ destroyed) ∧ drafts[b]? = some d ∧ tree.layout.NodesOf d
  destroyed_lt : ∀ i ∈ destroyed, i < trees.size

section Lists

variable {α β : Type} {l : List α} {b : Nat} {a x : α} {g : α → Option β}

theorem filterMap_set_eq (hb : l[b]? = some a) (hx : g x = g a) :
    (l.set b x).filterMap g = l.filterMap g := by
  induction l generalizing b with
  | nil => rfl
  | cons c l ih =>
    cases b with
    | zero =>
      rw [List.getElem?_cons_zero, Option.some.injEq] at hb
      rw [List.set_cons_zero, List.filterMap_cons, List.filterMap_cons, hx, hb]
    | succ b =>
      rw [List.getElem?_cons_succ] at hb
      rw [List.set_cons_succ, List.filterMap_cons, List.filterMap_cons, ih hb]

theorem filterMap_set_erase [BEq β] [LawfulBEq β] {r : β} (hb : l[b]? = some a) (ha : g a = some r)
    (hx : g x = none) (hnd : (l.filterMap g).Nodup) :
    (l.set b x).filterMap g = (l.filterMap g).erase r := by
  induction l generalizing b with
  | nil => cases hb
  | cons c l ih =>
    cases b with
    | zero =>
      rw [List.getElem?_cons_zero, Option.some.injEq] at hb
      rw [List.set_cons_zero, List.filterMap_cons_none hx, hb, List.filterMap_cons_some ha,
        List.erase_cons_head]
    | succ b =>
      rw [List.getElem?_cons_succ] at hb
      rw [List.set_cons_succ]
      cases hc : g c with
      | none =>
        rw [List.filterMap_cons_none hc] at hnd ⊢
        rw [List.filterMap_cons_none hc]
        exact ih hb hnd
      | some r' =>
        rw [List.filterMap_cons_some hc] at hnd ⊢
        rw [List.filterMap_cons_some hc]
        obtain ⟨hnot, hnd⟩ := List.nodup_cons.1 hnd
        have hmem : r ∈ l.filterMap g := List.mem_filterMap.2 ⟨a, List.mem_of_getElem? hb, ha⟩
        rw [ih hb hnd, List.erase_cons_tail]
        rw [beq_iff_eq]
        exact fun he => hnot (he ▸ hmem)

end Lists

namespace Tends

variable {builders : List (Option Builder)} {drafts : List Draft} {attempts : List Nat}
  {pending : List RootId} {b : Nat} {builder builder' : Builder} {d d' : Draft}

theorem openRoot?_some (h : builder.draft? = some d) : openRoot? (some builder) = some d.root := by
  rw [openRoot?, Option.bind_some, h, Option.map_some]

theorem openRoot?_closed (h : builder.draft? = none) : openRoot? (some builder) = none := by
  rw [openRoot?, Option.bind_some, h, Option.map_none]

theorem mem_pending (h : Tends builders drafts attempts pending) (hb : builders[b]? =
    some (some builder)) (hd : builder.draft? = some d) : d.root ∈ pending := by
  rw [h.pending_eq]
  exact List.mem_filterMap.2 ⟨_, List.mem_of_getElem? hb, openRoot?_some hd⟩

/-- Pending roots are those of drafts. -/
theorem exists_draft (h : Tends builders drafts attempts pending) {r : RootId} (hr : r ∈ pending) :
    ∃ d ∈ drafts, d.root = r := by
  rw [h.pending_eq] at hr
  obtain ⟨o, ho, hroot⟩ := List.mem_filterMap.1 hr
  obtain ⟨b, hb⟩ := List.mem_iff_getElem?.1 ho
  obtain ⟨d, hd, rfl⟩ := Option.map_eq_some_iff.1 hroot
  obtain ⟨builder, rfl, hd⟩ := Option.bind_eq_some_iff.1 hd
  exact ⟨d, List.mem_of_getElem? (h.building hb hd), rfl⟩

theorem lt_length (hb : builders[b]? = some (some builder)) : b < builders.length :=
  (List.getElem?_eq_some_iff.1 hb).1

theorem start : Tends [] [] [] [] := by
  refine ⟨rfl, ?_, ?_, ?_, rfl, List.nodup_nil⟩
  · intro b builder d hb
    cases hb
  · intro b builder hb
    cases hb
  · intro b hb
    cases hb

theorem append (h : Tends builders drafts attempts pending) (hd : builder.draft? = some d)
    (hfresh : d.root ∉ pending) :
    Tends (builders ++ [some builder]) (drafts ++ [d]) attempts (pending ++ [d.root]) := by
  -- a position in the longer list is an old one or the last
  have cases_append {b : Nat} {x : Option Builder}
      (hb : (builders ++ [some builder])[b]? = some x) :
      builders[b]? = some x ∨ b = builders.length ∧ x = some builder := by
    rw [List.getElem?_append] at hb
    split at hb
    · exact Or.inl hb
    · rw [List.getElem?_singleton] at hb
      split at hb
      · exact Or.inr ⟨by omega, (Option.some.inj hb).symm⟩
      · cases hb
  refine ⟨?length, ?building, ?attempted, ?attempts_lt, ?pending_eq, ?pending_nodup⟩
  case length =>
    rw [List.length_append, List.length_append, h.length]
    rfl
  case building =>
    intro b builder' d' hb hd'
    rcases cases_append hb with hb | ⟨rfl, he⟩
    · have hat := h.building hb hd'
      rw [List.getElem?_append_left (List.getElem?_eq_some_iff.1 hat).1, hat]
    · cases he
      rw [hd, Option.some.injEq] at hd'
      rw [h.length, List.getElem?_concat_length, hd']
  case attempted =>
    intro b builder' hb
    rcases cases_append hb with hb | ⟨rfl, he⟩
    · exact h.attempted hb
    · cases he
      refine iff_of_false (fun hnone => ?_) fun hmem => Nat.lt_irrefl _ (h.attempts_lt _ hmem)
      rw [hd] at hnone
      cases hnone
  case attempts_lt =>
    intro b hb
    rw [List.length_append]
    exact Nat.lt_succ_of_lt (h.attempts_lt b hb)
  case pending_eq =>
    rw [List.filterMap_append, ← h.pending_eq, List.filterMap_cons_some (openRoot?_some hd)]
    rfl
  case pending_nodup =>
    exact List.nodup_append.2 ⟨h.pending_nodup, List.nodup_singleton _, by
      rintro r hr _ hr' rfl
      exact hfresh (List.mem_singleton.1 hr' ▸ hr)⟩

/-- A draft may change as long as it keeps its root. -/
theorem change (h : Tends builders drafts attempts pending)
    (hb : builders[b]? = some (some builder))
    (hd : builder.draft? = some d) (hd' : builder'.draft? = some d') (hr : d'.root = d.root) :
    Tends (builders.set b (some builder')) (drafts.set b d') attempts pending := by
  have hlt := lt_length hb
  refine ⟨?length, ?building, ?attempted, ?attempts_lt, ?pending_eq, h.pending_nodup⟩
  case length => rw [List.length_set, List.length_set, h.length]
  case building =>
    intro k x dx hk hx
    rw [List.getElem?_set] at hk ⊢
    split at hk
    · rename_i he
      rw [Option.some.injEq, Option.some.injEq] at hk
      rw [if_pos he, if_pos (h.length ▸ hlt), ← hx, ← hk, hd']
    · rename_i he
      rw [if_neg he]
      exact h.building hk hx
  case attempted =>
    intro k x hk
    rw [List.getElem?_set] at hk
    split at hk
    · rename_i he
      rw [Option.some.injEq, Option.some.injEq] at hk
      rw [← hk, hd', ← he, ← h.attempted hb, hd]
      exact iff_of_false nofun nofun
    · exact h.attempted hk
  case attempts_lt =>
    rw [List.length_set]
    exact h.attempts_lt
  case pending_eq =>
    rw [h.pending_eq, filterMap_set_eq hb]
    rw [openRoot?_some hd', openRoot?_some hd, hr]

/-- A builder closes: it was finalized, or dropped. -/
theorem close (h : Tends builders drafts attempts pending) (hb : builders[b]? = some (some builder))
    (hd : builder.draft? = some d) {o : Option Builder} {more : List Nat}
    (ho : o = none ∧ more = [] ∨
      ∃ builder', o = some builder' ∧ builder'.draft? = none ∧ more = [b]) :
    Tends (builders.set b o) drafts (attempts ++ more) (pending.erase d.root) := by
  have hlt := lt_length hb
  have hclosed : openRoot? o = none := by
    rcases ho with ⟨rfl, -⟩ | ⟨builder', rfl, hd', -⟩
    · rfl
    · exact openRoot?_closed hd'
  -- a dropped builder is no attempt, a finalized one is one more
  have hmore {k : Nat} (hk : k ∈ more) : k = b := by
    rcases ho with ⟨-, rfl⟩ | ⟨-, -, -, rfl⟩
    · cases hk
    · exact List.mem_singleton.1 hk
  refine ⟨?length, ?building, ?attempted, ?attempts_lt, ?pending_eq, h.pending_nodup.erase _⟩
  case length => rw [List.length_set, h.length]
  case building =>
    intro k x dx hk hx
    rw [List.getElem?_set] at hk
    split at hk
    · rw [Option.some.injEq] at hk
      rw [hk, openRoot?, Option.bind_some, hx] at hclosed
      cases hclosed
    · exact h.building hk hx
  case attempted =>
    intro k x hk
    rw [List.getElem?_set] at hk
    rw [List.mem_append]
    split at hk
    · rename_i he
      rw [Option.some.injEq] at hk
      rcases ho with ⟨rfl, -⟩ | ⟨builder', rfl, hd', rfl⟩
      · cases hk
      · cases hk
        exact iff_of_true hd' (Or.inr (he ▸ List.mem_singleton_self _))
    · rename_i he
      rw [h.attempted hk]
      exact ⟨Or.inl, fun hmem => hmem.resolve_right fun hk => he (hmore hk).symm⟩
  case attempts_lt =>
    intro k hk
    rw [List.length_set]
    rcases List.mem_append.1 hk with hk | hk
    · exact h.attempts_lt k hk
    · exact hmore hk ▸ hlt
  case pending_eq =>
    rw [h.pending_eq, filterMap_set_erase hb (openRoot?_some hd) hclosed
      (h.pending_eq ▸ h.pending_nodup)]

/-- What was finalized may be dropped, or finalized again in vain. -/
theorem closed (h : Tends builders drafts attempts pending)
    (hb : builders[b]? = some (some builder))
    (hd : builder.draft? = none) :
    Tends (builders.set b none) drafts attempts pending ∧
      Tends builders drafts (attempts ++ [b]) pending := by
  have hmem := (h.attempted hb).1 hd
  have hiff (k : Nat) : k ∈ attempts ++ [b] ↔ k ∈ attempts := by
    rw [List.mem_append, List.mem_singleton]
    exact ⟨fun hk => hk.elim id fun he => he ▸ hmem, Or.inl⟩
  have of_set {k : Nat} {x : Builder} (hk : (builders.set b none)[k]? = some (some x)) :
      builders[k]? = some (some x) := by
    rw [List.getElem?_set] at hk
    split at hk
    · split at hk <;> cases hk
    · exact hk
  constructor
  · refine ⟨?length, fun hk => h.building (of_set hk), fun hk => h.attempted (of_set hk),
      ?attempts_lt, ?pending_eq, h.pending_nodup⟩
    case length => rw [List.length_set, h.length]
    case attempts_lt =>
      rw [List.length_set]
      exact h.attempts_lt
    case pending_eq =>
      rw [h.pending_eq, filterMap_set_eq hb]
      rw [openRoot?_closed hd]
      rfl
  · exact ⟨h.length, h.building, fun hk => (h.attempted hk).trans (hiff _).symm,
      fun k hk => h.attempts_lt k ((hiff k).1 hk), h.pending_eq, h.pending_nodup⟩

end Tends

namespace Records

variable {trees : Array Forest.Tree} {drafts drafts' : List Draft}
  {finishes : List (Nat × Handle)} {destroyed : List TreeId}

theorem start : Records #[] [] [] [] := by
  refine ⟨rfl, ?_, ?_⟩
  · intro i b root hi
    cases hi
  · intro i hi
    cases hi

/-- Drafts of builders without a tree may change. -/
theorem mono (h : Records trees drafts finishes destroyed)
    (hd : ∀ b root d, (b, root) ∈ finishes → drafts[b]? = some d → drafts'[b]? = some d) :
    Records trees drafts' finishes destroyed := by
  refine ⟨h.size, fun {i b root} hi => ?_, h.destroyed_lt⟩
  obtain ⟨tree, d, htree, hroot, hid, hdestroyed, hdraft, hnodes⟩ := h.tree hi
  exact ⟨tree, d, htree, hroot, hid, hdestroyed,
    hd b root d (List.mem_of_getElem? hi) hdraft, hnodes⟩

/-- A tree joins the others. -/
theorem push (h : Records trees drafts finishes destroyed) {b : Nat} {d : Draft}
    (hd : drafts[b]? = some d) {t : Layout} (ht : t.NodesOf d) (hid : t.tree = trees.size)
    (store : Option Store) : Records (trees.push ⟨t, store, false⟩) drafts
      (finishes ++ [(b, t.rootHandle)]) destroyed := by
  refine ⟨?_, ?_, ?_⟩
  · rw [Array.size_push, List.length_append, h.size]
    rfl
  · intro i b' root hi
    rw [List.getElem?_append] at hi
    split at hi
    · rename_i hlt
      obtain ⟨tree, d', htree, hrest⟩ := h.tree hi
      refine ⟨tree, d', ?_, hrest⟩
      rw [Array.getElem?_push, if_neg (Nat.ne_of_lt (h.size ▸ hlt)), htree]
    · rw [List.getElem?_singleton] at hi
      split at hi
      · cases hi
        have he : i = trees.size := by
          rw [h.size]
          omega
        refine ⟨_, d, by rw [Array.getElem?_push, if_pos he], rfl, hid.trans he.symm, ?_, hd, ht⟩
        exact iff_of_false nofun fun hmem => Nat.ne_of_lt (h.destroyed_lt i hmem) he
      · cases hi
  · intro i hi
    rw [Array.size_push]
    exact Nat.lt_succ_of_lt (h.destroyed_lt i hi)

/-- A tree loses its storage. -/
theorem destroy (h : Records trees drafts finishes destroyed) {id : TreeId} {tree : Forest.Tree}
    (hid : trees[id]? = some tree) : Records
      (trees.set! id { tree with store := none, destroyed := true }) drafts finishes
      (destroyed ++ [id]) := by
  have hlt : id < trees.size := (Array.getElem?_eq_some_iff.1 hid).1
  rw [Array.set!_eq_setIfInBounds]
  refine ⟨?_, ?_, ?_⟩
  · rw [Array.size_setIfInBounds, h.size]
  · intro i b root hi
    obtain ⟨tree', d, htree, hroot, htid, hdestroyed, hd, hnodes⟩ := h.tree hi
    rw [Array.getElem?_setIfInBounds]
    by_cases he : id = i
    · subst he
      rw [hid, Option.some.injEq] at htree
      subst htree
      refine ⟨{ tree with store := none, destroyed := true }, d, by rw [if_pos rfl, if_pos hlt],
        hroot, htid, ?_, hd, hnodes⟩
      exact iff_of_true rfl (List.mem_append_right _ (List.mem_singleton_self _))
    · refine ⟨tree', d, by rw [if_neg he, htree], hroot, htid, ?_, hd, hnodes⟩
      rw [hdestroyed, List.mem_append, List.mem_singleton]
      exact ⟨Or.inl, fun hmem => hmem.resolve_right fun h => he h.symm⟩
  · intro i hi
    rw [Array.size_setIfInBounds]
    rcases List.mem_append.1 hi with hi | hi
    · exact h.destroyed_lt i hi
    · exact List.mem_singleton.1 hi ▸ hlt

end Records

end Nursery

end SparseLayout
