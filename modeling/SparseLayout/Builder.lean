import SparseLayout.Draft.Placement
import SparseLayout.Forest

namespace SparseLayout

namespace Builder

/-- What a builder noticed without failing. -/
inductive Warning
  | emptyFinalize
  | deactivateAllBeforeFinalize
  deriving DecidableEq

def Warning.text : Warning → String
  | emptyFinalize => "finalizing an empty fields builder"
  | deactivateAllBeforeFinalize => "deactivate_all called before finalize; ignored"

inductive State
  | building (draft : Draft)
  /-- With the root of the tree, if finalizing succeeded. -/
  | finalized (root : Option Handle)

end Builder

structure Builder where
  state : Builder.State
  /-- Whether nothing was declared on the root yet. -/
  isEmpty : Bool
  warnings : List Builder.Warning

namespace Builder

/-- A builder for a new tree of a forest. -/
def new (f : Forest) (c : Catalog) : Builder × Forest × Catalog :=
  let (draft, f, c) := f.createRoot f.config.packing c
  (⟨.building draft, true, []⟩, f, c)

def draft? (b : Builder) : Option Draft :=
  match b.state with
  | .building draft => some draft
  | .finalized _ => none

def root? (b : Builder) : Option Handle :=
  match b.state with
  | .building _ => none
  | .finalized root => root

def isFinalized (b : Builder) : Bool := b.draft?.isNone

/-- Carries out a declaration on the root, or on a node named by its number. -/
def declare (node : Option NodeId) (d : Declaration) :
    EStateM BuildError (Builder × Catalog) NodeId := fun (b, c) =>
  match b.state with
  | .finalized _ => .error .finalized (b, c)
  | .building draft =>
    match DraftM.declare (node.getD 0) d ⟨draft, c⟩ with
    | .ok id s =>
      .ok id ({ b with state := .building s.draft, isEmpty := b.isEmpty && node.isSome },
        s.catalog)
    | .error e s => .error e ({ b with state := .building s.draft }, s.catalog)

/-- The builder with a warning where it ends without a declaration. -/
def warnEmpty (b : Builder) (draft : Draft) : Builder :=
  if b.isEmpty && draft.nodes.size ≤ 1 then { b with warnings := b.warnings ++ [.emptyFinalize] }
  else b

/-- Finishes the tree and returns its root. -/
def finalize (warn compileOnly : Bool) : EStateM BuildError (Builder × Forest) Handle :=
  fun (b, f) =>
    match b.state with
    | .finalized _ => .error .finalized (b, f)
    | .building draft =>
      let b := if warn then b.warnEmpty draft else b
      match Forest.finish draft compileOnly f with
      | .ok root f => .ok root ({ b with state := .finalized (some root) }, f)
      | .error e f => .error e ({ b with state := .finalized none }, f)

/-- Deactivates every cell of the finished tree. -/
def deactivateAll : EStateM Fault (Builder × Forest) Unit := fun (b, f) =>
  match b.state with
  | .building _ =>
    .ok () ({ b with warnings := b.warnings ++ [.deactivateAllBeforeFinalize] }, f)
  | .finalized none => .ok () (b, f)
  | .finalized (some root) =>
    match Forest.deactivateAll root f with
    | .ok () f => .ok () (b, f)
    | .error e f => .error e (b, f)

/-- The forest after a builder is dropped: a tree under construction is pending no longer. -/
def drop (b : Builder) (f : Forest) : Forest :=
  match b.state with
  | .building draft => f.discard draft.root
  | .finalized _ => f

end Builder

end SparseLayout
