import SparseLayout.Builder
import SparseLayout.Proofs.Draft.Effect
import SparseLayout.Proofs.Draft.Sample
import SparseLayout.Proofs.Draft.Sound

namespace SparseLayout

/-- The result of an operation, and the state that it leaves, also where it fails. -/
def ending {ε σ α : Type} : EStateM.Result ε σ α → Except ε α × σ
  | .ok a s => (.ok a, s)
  | .error e s => (.error e, s)

namespace Forest

variable {f : Forest} {d : Draft}

theorem finish_eq (h : d.root ∈ f.pending) (compileOnly : Bool) :
    finish d compileOnly f =
      match d.compile f.trees.size compileOnly with
      | .error e => .error e (f.discard d.root)
      | .ok t =>
        match f.newStore t with
        | .error shortage => .error (.outOfMemory shortage) (f.discard d.root)
        | .ok store => .ok t.rootHandle
          { f.discard d.root with trees := f.trees.push ⟨t, store, false⟩ } := by
  have hclose : closeRoot d f = .ok () (f.discard d.root) := by
    unfold closeRoot isPending
    rw [if_pos (decide_eq_true h)]
  change EStateM.bind (closeRoot d) _ f = _
  unfold EStateM.bind
  rw [hclose]
  change (match d.compile f.trees.size compileOnly with
      | .error e => throw e
      | .ok layout =>
        match f.newStore layout with
        | .error shortage => throw (.outOfMemory shortage)
        | .ok store => do
          set { f.discard d.root with trees := f.trees.push ⟨layout, store, false⟩ }
          return layout.rootHandle : EStateM BuildError Forest Handle) (f.discard d.root) = _
  cases d.compile f.trees.size compileOnly with
  | error e => rfl
  | ok t =>
    dsimp only
    cases f.newStore t <;> rfl

/-- A pending root is used up, whether the tree is finished or not. -/
theorem finish_cases (h : d.root ∈ f.pending) (compileOnly : Bool) :
    (∃ e, finish d compileOnly f = .error e (f.discard d.root)) ∨
      ∃ t store, d.compile f.trees.size compileOnly = .ok t ∧
        finish d compileOnly f = .ok t.rootHandle
          { f.discard d.root with trees := f.trees.push ⟨t, store, false⟩ } := by
  rw [finish_eq h]
  cases d.compile f.trees.size compileOnly with
  | error e => exact Or.inl ⟨_, rfl⟩
  | ok t =>
    dsimp only
    cases f.newStore t with
    | error shortage => exact Or.inl ⟨_, rfl⟩
    | ok store => exact Or.inr ⟨t, store, rfl, rfl⟩

/-- The tree is destroyed, or the forest stays as it is. -/
theorem destroy_cases (id : TreeId) (f : Forest) :
    (∃ tree, f.trees[id]? = some tree ∧ tree.destroyed = false ∧ destroy id f =
      .ok () { f with trees := f.trees.set! id { tree with store := none, destroyed := true } }) ∨
      ∃ e, destroy id f = .error e f := by
  unfold destroy
  cases htree : f.trees[id]? with
  | none => exact Or.inr ⟨_, rfl⟩
  | some tree =>
    dsimp only
    by_cases hd : tree.destroyed = true
    · rw [if_pos hd]
      exact Or.inr ⟨_, rfl⟩
    · rw [if_neg hd]
      exact Or.inl ⟨tree, rfl, Bool.eq_false_iff.2 hd, rfl⟩

end Forest

namespace Builder

variable {b : Builder} {d : Draft} {f : Forest} {c : Catalog}

theorem state_of_open (h : b.draft? = some d) : b.state = .building d := by
  unfold draft? at h
  split at h
  · cases h
    assumption
  · cases h

theorem state_of_closed (h : b.draft? = none) : ∃ root, b.state = .finalized root := by
  unfold draft? at h
  split at h
  · cases h
  · exact ⟨_, ‹_›⟩

/-- What was finalized accepts no declaration. -/
theorem declare_of_closed (h : b.draft? = none) (node : Option NodeId) (decl : Declaration) :
    declare node decl (b, c) = .error .finalized (b, c) := by
  obtain ⟨root, hs⟩ := state_of_closed h
  simp only [declare, hs]

/-- What was finalized is not finalized again. -/
theorem finalize_of_closed (h : b.draft? = none) (warn compileOnly : Bool) :
    finalize warn compileOnly (b, f) = .error .finalized (b, f) := by
  obtain ⟨root, hs⟩ := state_of_closed h
  simp only [finalize, hs]

/-- An open builder hands declarations on to its draft. -/
theorem declare_of_open (h : b.draft? = some d) (node : Option NodeId) (decl : Declaration) :
    let s := Drafting.after ⟨d, c⟩ (node.getD 0) decl
    ∃ r b', ending (declare node decl (b, c)) = (r, b', s.catalog) ∧ b'.draft? = some s.draft := by
  simp only [declare, state_of_open h, Drafting.after]
  cases DraftM.declare (node.getD 0) decl ⟨d, c⟩ <;> exact ⟨_, _, rfl, rfl⟩

/-- An open builder is closed when it is finalized, and its root is used up. -/
theorem finalize_of_open (h : b.draft? = some d) (hp : d.root ∈ f.pending)
    (warn compileOnly : Bool) : ∃ b', b'.draft? = none ∧
      ((∃ e, finalize warn compileOnly (b, f) = .error e (b', f.discard d.root)) ∨
        ∃ t store, d.compile f.trees.size compileOnly = .ok t ∧
          finalize warn compileOnly (b, f) = .ok t.rootHandle
            (b', { f.discard d.root with trees := f.trees.push ⟨t, store, false⟩ })) := by
  simp only [finalize, state_of_open h]
  rcases Forest.finish_cases hp compileOnly with ⟨e, he⟩ | ⟨t, store, ht, he⟩
  · rw [he]
    exact ⟨_, rfl, Or.inl ⟨e, rfl⟩⟩
  · rw [he]
    exact ⟨_, rfl, Or.inr ⟨t, store, ht, rfl⟩⟩

theorem drop_of_open (h : b.draft? = some d) : b.drop f = f.discard d.root := by
  rw [drop, state_of_open h]

theorem drop_of_closed (h : b.draft? = none) : b.drop f = f := by
  obtain ⟨root, hs⟩ := state_of_closed h
  rw [drop, hs]

end Builder

end SparseLayout
