import SparseLayout.Forest

namespace SparseLayout

/-- An operation on a node, at an index expression of the node or, for lists, of its parent. -/
inductive Action
  | activate (idx : List Int32)
  | deactivate (idx : List Int32)
  | deactivateAll
  | write (idx : List Int32) (v : Scalar)
  | append (idx : List Int32) (v : Scalar)
  | read (idx : List Int32)
  | isActive (idx : List Int32)
  | length (idx : List Int32)

structure Call where
  node : Layout.Node
  action : Action

inductive Answer
  | done
  | value (v : Scalar)
  | flag (b : Bool)
  | count (n : UInt32)
  deriving DecidableEq

/-- Works at the coordinates of an index expression of a node. -/
def StoreM.atIndex (space : Except AccessError Layout.Node) (idx : List Int32)
    (op : Coords → StoreM α) : StoreM α := do
  let space ← look fun _ => refuse space
  let c ← look fun _ => refuse (space.resolve idx)
  op c

/-- The operation on the storage of the node's tree. -/
def Action.run (t : Layout) (n : Layout.Node) : Action → StoreM Answer
  | activate idx => StoreM.atIndex (.ok n) idx fun c => do
    StoreM.activate t n c
    return .done
  | deactivate idx => StoreM.atIndex (.ok n) idx fun c => do
    StoreM.deactivate t n c
    return .done
  | deactivateAll => do
    StoreM.deactivateAll t n
    return .done
  | write idx v => StoreM.atIndex (.ok n) idx fun c => do
    StoreM.write t n c v
    return .done
  | append idx v => StoreM.atIndex (t.parentNode n) idx fun c => do
    return .count (← StoreM.append t n c v)
  | read idx => StoreM.atIndex (.ok n) idx fun c => do
    return .value (← StoreM.look fun s => s.read t n c)
  | isActive idx => StoreM.atIndex (.ok n) idx fun c => do
    return .flag (← StoreM.look fun s => s.isActive t n c)
  | length idx => StoreM.atIndex (t.parentNode n) idx fun c => do
    return .count (← StoreM.look fun s => s.length t n c)

def Call.run (t : Layout) (c : Call) : StoreM Answer := c.action.run t c.node

/-- The results of operations done one after the other, and the state that they leave. -/
def runs {ε σ α : Type} : List (EStateM ε σ α) → σ → List (Except ε α) × σ
  | [], s => ([], s)
  | m :: rest, s =>
    match m s with
    | .ok a s => (.ok a :: (runs rest s).1, (runs rest s).2)
    | .error e s => (.error e :: (runs rest s).1, (runs rest s).2)

/-- A run of operations on a storage. -/
def Store.session (t : Layout) (calls : List Call) (s : Store) :
    List (Except Fault Answer) × Store := runs (calls.map (·.run t)) s

namespace Forest

/-- The operation in a forest, through the handle of the node. -/
def perform (h : Handle) : Action → ForestM Answer
  | .activate idx => do
    activate h idx
    return .done
  | .deactivate idx => do
    deactivate h idx
    return .done
  | .deactivateAll => do
    deactivateAll h
    return .done
  | .write idx v => do
    write h idx v
    return .done
  | .append idx v => return .count (← append h idx v)
  | .read idx => return .value (← read h idx)
  | .isActive idx => return .flag (← isActive h idx)
  | .length idx => return .count (← length h idx)

theorem withStore_bind {α β : Type} (h : Handle) (op : StoreM α) (f : α → β) :
    (do return f (← withStore h op)) = withStore h (do return f (← op)) := by
  funext s
  change EStateM.bind (withStore h op) (fun a => pure (f a)) s =
    withStore h (EStateM.bind op fun a => pure (f a)) s
  unfold withStore EStateM.bind
  dsimp only
  cases s.trees[h.layout.tree]? with
  | none => rfl
  | some tree =>
    dsimp only
    by_cases hroot : tree.layout.root ≠ h.layout.root
    · simp only [if_pos hroot]
    · simp only [if_neg hroot]
      by_cases hd : tree.destroyed = true
      · simp only [if_pos hd]
      · simp only [if_neg hd]
        cases tree.store with
        | none => rfl
        | some store =>
          dsimp only
          cases op store <;> rfl

theorem withCell_bind {α β : Type} (h : Handle) (space : Except AccessError Layout.Node)
    (idx : List Int32) (op : Coords → StoreM α) (f : α → β) :
    (do return f (← withCell h space idx op)) =
      withStore h (StoreM.atIndex space idx fun c => do return f (← op c)) := by
  rw [withCell, withStore_bind]
  unfold StoreM.atIndex
  simp only [bind_assoc]

/-- An operation in a forest works on the storage of one tree. -/
theorem perform_eq (h : Handle) (a : Action) :
    perform h a = withStore h (a.run h.layout h.node) := by
  cases a with
  | activate idx | deactivate idx | write idx v =>
    exact withCell_bind h _ idx _ fun _ => Answer.done
  | deactivateAll => exact withStore_bind h _ fun _ => Answer.done
  | append idx v | length idx => exact withCell_bind h _ idx _ Answer.count
  | read idx => exact withCell_bind h _ idx _ Answer.value
  | isActive idx => exact withCell_bind h _ idx _ Answer.flag

end Forest

end SparseLayout
