import SparseLayout.Proofs.Nursery.History
import SparseLayout.Proofs.Store.Served
import SparseLayout.Proofs.Store.Session

namespace SparseLayout

namespace Forest

variable {α : Type} {f f' : Forest} {h : Handle} {tree : Tree} {store : Store}

/-- The handle, if it is one of this forest's, is of the tree that it names. -/
def Issued (f : Forest) (h : Handle) : Prop :=
  ∀ {tree}, f.trees[h.layout.tree]? = some tree → tree.layout.root = h.layout.root →
    tree.layout = h.layout

/-- The handle is accepted, and is of a tree with this storage. -/
structure Opens (f : Forest) (h : Handle) (tree : Tree) (store : Store) : Prop where
  tree_eq : f.trees[h.layout.tree]? = some tree
  root_eq : tree.layout.root = h.layout.root
  store_eq : tree.store = some store

/-- An operation on a storage is refused, or changes this storage alone. -/
theorem withStore_cases (h : Handle) (op : StoreM α) (f : Forest) :
    (∃ e, withStore h op f = .error e f) ∨ ∃ tree store, f.Opens h tree store ∧
      ending (withStore h op f) =
        ((ending (op store)).1, f.setStore h.layout.tree tree (ending (op store)).2) := by
  unfold withStore
  dsimp only
  cases htree : f.trees[h.layout.tree]? with
  | none => exact .inl ⟨_, rfl⟩
  | some tree =>
    dsimp only
    by_cases hroot : tree.layout.root = h.layout.root
    · rw [if_neg (not_not_intro hroot)]
      split
      · exact .inl ⟨_, rfl⟩
      · cases hstore : tree.store with
        | none => exact .inl ⟨_, rfl⟩
        | some store =>
          refine .inr ⟨tree, store, ⟨htree, hroot, hstore⟩, ?_⟩
          dsimp only
          cases op store <;> rfl
    · rw [if_pos hroot]
      exact .inl ⟨_, rfl⟩

theorem setStore_self (h : f.Opens handle tree store) :
    f.setStore handle.layout.tree tree store = f := by
  obtain ⟨hlt, hget⟩ := Array.getElem?_eq_some_iff.1 h.tree_eq
  have htree : { tree with store := some store } = tree := by rw [← h.store_eq]
  rw [setStore, htree, Array.set!_eq_setIfInBounds, Array.setIfInBounds_def, dif_pos hlt, ← hget,
    Array.set_getElem_self]

/-- What is done with the storage of a tree through a handle: a call, or a question. -/
inductive Use (h : Handle) (f : Forest) : Forest → Prop
  | perform (a : Action) : Use h f (ending (perform h a f)).2
  | look {α : Type} (g : Store → Except Fault α) :
    Use h f (ending (withStore h (StoreM.look g) f)).2

theorem Use.cases (hu : Use h f f') : f' = f ∨ ∃ tree store a, f.Opens h tree store ∧
    f' = f.setStore h.layout.tree tree (ending (Action.run h.layout h.node a store)).2 := by
  cases hu with
  | perform a =>
    rw [perform_eq]
    rcases withStore_cases h (a.run h.layout h.node) f with ⟨e, he⟩ | ⟨tree, store, ho, he⟩
    · exact .inl (by rw [he]; rfl)
    · exact .inr ⟨tree, store, a, ho, by rw [he]⟩
  | look g =>
    refine .inl ?_
    rcases withStore_cases h (StoreM.look g) f with ⟨e, he⟩ | ⟨tree, store, ho, he⟩
    · rw [he]
      rfl
    · have hsame : (ending (StoreM.look g store)).2 = store := by
        unfold StoreM.look
        cases g store <;> rfl
      rw [he, hsame]
      exact setStore_self ho

/-- The storages have pools that only served, and hold what their trees say that they hold. -/
structure Sound (f : Forest) : Prop where
  config : f.config.check = .ok ()
  served : ∀ {i : Nat} {tree : Tree} {store : Store}, f.trees[i]? = some tree →
    tree.store = some store → store.Served f.config
  represents : ∀ {i : Nat} {tree : Tree} {store : Store}, f.trees[i]? = some tree →
    tree.store = some store → tree.layout.WellFormed → ∃ g, store.Represents tree.layout g

namespace Sound

theorem new {c : Config} (h : Forest.new c = .ok f) : f.Sound := by
  unfold Forest.new at h
  cases hc : c.check with
  | error e =>
    rw [hc] at h
    cases h
  | ok u =>
    rw [hc] at h
    cases h
    refine ⟨hc, ?_, ?_⟩
    · intro i tree store hi
      cases hi
    · intro i tree store hi
      cases hi

theorem of_trees (hf : f.Sound) (hc : f'.config = f.config) (ht : f'.trees = f.trees) :
    f'.Sound := by
  refine ⟨hc ▸ hf.config, fun {i tree store} hi hs => ?_, fun {i tree store} hi hs => ?_⟩
  · rw [hc]
    exact hf.served (ht ▸ hi) hs
  · exact hf.represents (ht ▸ hi) hs

/-- A new tree has a new storage, or none. -/
theorem push (hf : f.Sound) {t : Layout} {o : Option Store} (ho : f.newStore t = .ok o)
    (hc : f'.config = f.config) (ht : f'.trees = f.trees.push ⟨t, o, false⟩) : f'.Sound := by
  have hnew {store : Store} (hs : o = some store) : Store.new t f.config = .ok store := by
    unfold newStore at ho
    split at ho
    · cases ho
      cases hs
    · cases hst : Store.new t f.config with
      | error e =>
        rw [hst] at ho
        cases ho
      | ok st =>
        rw [hst] at ho
        cases ho
        cases hs
        rfl
  refine ⟨hc ▸ hf.config, fun {i tree store} hi hs => ?_, fun {i tree store} hi hs hw => ?_⟩
  · rw [ht, Array.getElem?_push] at hi
    rw [hc]
    split at hi
    · cases hi
      exact Store.served_new (hnew hs)
    · exact hf.served hi hs
  · rw [ht, Array.getElem?_push] at hi
    split at hi
    · cases hi
      exact ⟨_, Store.represents_new hw hf.config (hnew hs)⟩
    · exact hf.represents hi hs hw

/-- One tree gets another storage, or loses it. -/
theorem replace (hf : f.Sound) (id : TreeId) {tree : Tree}
    (hs : ∀ {store}, tree.store = some store → store.Served f.config ∧
      (tree.layout.WellFormed → ∃ g, store.Represents tree.layout g)) :
    Sound { f with trees := f.trees.set! id tree } := by
  have hcases {i : Nat} {u : Tree} (hu : (f.trees.set! id tree)[i]? = some u) :
      u = tree ∨ f.trees[i]? = some u := by
    rw [Array.set!_eq_setIfInBounds, Array.getElem?_setIfInBounds] at hu
    split at hu
    · split at hu
      · exact .inl (Option.some.inj hu).symm
      · cases hu
    · exact .inr hu
  refine ⟨hf.config, fun {i u store} hu hst => ?_, fun {i u store} hu hst hw => ?_⟩
  · rcases hcases hu with rfl | hu
    · exact (hs hst).1
    · exact hf.served hu hst
  · rcases hcases hu with rfl | hu
    · exact (hs hst).2 hw
    · exact hf.represents hu hst hw

/-- A draft is finished, or its root is at most used up. -/
theorem finish (hf : f.Sound) (d : Draft) (compileOnly : Bool) :
    (ending (Forest.finish d compileOnly f)).2.Sound := by
  by_cases hp : d.root ∈ f.pending
  · rw [finish_eq hp]
    cases d.compile f.trees.size compileOnly with
    | error cause => exact hf.of_trees rfl rfl
    | ok t =>
      dsimp only
      cases ho : f.newStore t with
      | error shortage => exact hf.of_trees rfl rfl
      | ok o => exact hf.push ho rfl rfl
  · have hclose : closeRoot d f = .error (.invalid (.notPending d.root)) f := by
      unfold closeRoot isPending
      rw [if_neg (by simpa using hp)]
    change (ending (EStateM.bind (closeRoot d) _ f)).2.Sound
    unfold EStateM.bind
    rw [hclose]
    exact hf

end Sound

end Forest

/-- The node of a handle is one of its tree. -/
theorem Handle.has_node (h : Handle) (ht : h.layout.WellFormed) : h.layout.Has h.node :=
  ht.has (Array.getElem?_eq_getElem h.isLt)

/-- However a call ends, the storage still holds what its tree says. -/
theorem Store.Represents.exists_run {t : Layout} {s : Store} {g : Contents} {n : Layout.Node}
    (hg : s.Represents t g) (ht : t.WellFormed) (hn : t.Has n) (a : Action) :
    ∃ g', (ending (a.run t n s)).2.Represents t g' := by
  have hends := hg.endsAs_run ht hn a
  rw [Store.Represents.EndsAs, Store.Represents.EndsShowing, StoreM.Ends] at hends
  cases hrun : a.run t n s with
  | ok ans s' =>
    rw [hrun] at hends
    obtain ⟨v, -, g', hg', -⟩ := hends
    exact ⟨g', hg'⟩
  | error e s' =>
    rw [hrun] at hends
    cases e with
    | outside => exact hends.elim
    | refused e =>
      rcases hends with ⟨-, v, -, g', hg', -⟩ | ⟨-, x, -, g', hg', -⟩
      · exact ⟨g', hg'⟩
      · exact ⟨g', hg'⟩

namespace Nursery

variable {s s' : Nursery} {es : List Event} {e : Event}

/-- The states that a forest can come to with its builders, while the cells of its trees are used
through their handles. -/
inductive Lived : Nursery → Prop
  | start {config : Config} {forest : Forest} : Forest.new config = .ok forest →
    Lived ⟨⟨.empty, [], []⟩, forest, []⟩
  | step {s s' : Nursery} {e : Event} : Lived s → Step s e s' → Lived s'
  | use {s : Nursery} {h : Handle} {forest : Forest} : Lived s → s.forest.Issued h →
    Forest.Use h s.forest forest → Lived { s with forest }

theorem History.lived (h : History s es) : s.Lived := by
  induction h with
  | start hnew => exact .start hnew
  | step _ hs ih => exact ih.step hs

/-- The storage of a tree plays no part in the records. -/
theorem Records.replace {trees : Array Forest.Tree} {drafts : List Draft}
    {finishes : List (Nat × Handle)} {destroyed : List TreeId} {id : TreeId} {tree : Forest.Tree}
    (h : Records trees drafts finishes destroyed) (hid : trees[id]? = some tree)
    (store : Option Store) :
    Records (trees.set! id { tree with store }) drafts finishes destroyed := by
  have hlt : id < trees.size := (Array.getElem?_eq_some_iff.1 hid).1
  rw [Array.set!_eq_setIfInBounds]
  refine ⟨?_, fun {i b root} hi => ?_, ?_⟩
  · rw [Array.size_setIfInBounds, h.size]
  · obtain ⟨u, d, hu, hrest⟩ := h.tree hi
    rw [Array.getElem?_setIfInBounds]
    by_cases he : id = i
    · subst he
      rw [hid, Option.some.injEq] at hu
      subst hu
      exact ⟨{ tree with store }, d, by rw [if_pos rfl, if_pos hlt], hrest⟩
    · exact ⟨u, d, by rw [if_neg he, hu], hrest⟩
  · rw [Array.size_setIfInBounds]
    exact h.destroyed_lt

theorem Sound.use (hs : s.Sound es) {h : Handle} {f : Forest} (hu : Forest.Use h s.forest f) :
    Sound { s with forest := f } es := by
  rcases hu.cases with rfl | ⟨tree, store, a, ho, rfl⟩
  · exact hs
  · exact ⟨hs.workshop, hs.tends, hs.records.replace ho.tree_eq _, hs.finishes_nodup⟩

end Nursery

namespace Forest.Sound

variable {f f' : Forest}

theorem use (hf : f.Sound) {h : Handle} (hi : f.Issued h) (hu : Use h f f') : f'.Sound := by
  rcases hu.cases with rfl | ⟨tree, store, a, ho, rfl⟩
  · exact hf
  · refine hf.replace _ fun {st} hst => ?_
    cases hst
    refine ⟨StoreM.serving_run _ _ a store (hf.served ho.tree_eq ho.store_eq), fun hw => ?_⟩
    obtain ⟨g, hg⟩ := hf.represents ho.tree_eq ho.store_eq hw
    rw [hi ho.tree_eq ho.root_eq] at hw hg ⊢
    exact hg.exists_run hw (h.has_node hw) a

theorem finalize (hf : f.Sound) {b b' : Builder} {warn compileOnly : Bool}
    {r : Except BuildError Handle}
    (hr : ending (Builder.finalize warn compileOnly (b, f)) = (r, b', f')) : f'.Sound := by
  unfold Builder.finalize at hr
  cases hb : b.state with
  | finalized root =>
    simp only [hb] at hr
    cases hr
    exact hf
  | building d =>
    have hfin := hf.finish d compileOnly
    simp only [hb] at hr
    cases hrun : Forest.finish d compileOnly f with
    | ok root f₁ =>
      rw [hrun] at hr hfin
      cases hr
      exact hfin
    | error e f₁ =>
      rw [hrun] at hr hfin
      cases hr
      exact hfin

theorem step {s s' : Nursery} {e : Nursery.Event} (hf : s.forest.Sound)
    (hs : Nursery.Step s e s') : s'.forest.Sound := by
  cases hs with
  | declareField decl => exact hf
  | build hb =>
    cases hb
    exact hf.of_trees rfl rfl
  | declare hb huses hr => exact hf
  | finalize hb hr => exact hf.finalize hr
  | @drop b builder hb =>
    change (builder.drop s.forest).Sound
    unfold Builder.drop
    split
    · exact hf.of_trees rfl rfl
    · exact hf
  | @destroy id r forest hr =>
    rcases destroy_cases id s.forest with ⟨tree, htree, -, he⟩ | ⟨e, he⟩
    · rw [he] at hr
      cases hr
      exact hf.replace _ fun hst => nomatch hst
    · rw [he] at hr
      cases hr
      exact hf

end Forest.Sound

namespace Nursery

/-- Whatever has happened, the forest agrees with its builders, and its storages are sound. -/
theorem Lived.sound {s : Nursery} (h : s.Lived) : s.forest.Sound ∧ ∃ es, s.Sound es := by
  induction h with
  | start hnew =>
    exact ⟨.new hnew, _, sound_start hnew⟩
  | step _ hs ih =>
    obtain ⟨hf, es, hse⟩ := ih
    exact ⟨hf.step hs, _, hse.step hs⟩
  | use _ hi hu ih =>
    obtain ⟨hf, es, hse⟩ := ih
    exact ⟨hf.use hi hu, es, hse.use hu⟩

end Nursery

end SparseLayout
