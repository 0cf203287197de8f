import SparseLayout.Proofs.Conversion
import SparseLayout.Proofs.Store.Perform

/-!
A sparse store without memory: which cells are in use, how long lists are, and what was stored in
places. Nothing in it depends on how a tree is laid out.
-/

namespace SparseLayout

open Layout (Node)
open Layout.Node (around digit)

namespace Layout

/-- The node whose cells hold the containers of `n`. -/
def outer (t : Layout) (n : Node) : Node := (n.parent.bind (t.nodes[·]?)).getD t.rootNode

/-- `n` is `k` or lies below it. -/
def isBelow (t : Layout) (k n : Node) : Bool := k.id ∈ t.path n.id

/-- The coordinates of an element of the list of `n` in the cell of its parent at `c`. -/
def Node.elementCoords (n : Node) (c : Coords) (e : Nat) : Coords :=
  match n.kind with
  | .dynamic axis dim _ => c.set axis (c.get axis * dim.toUInt64 + .ofNat e) axis.isLt
  | _ => c

end Layout

/-- A cell is known by the number of its node and its coordinates, a list by the number of its node
and the coordinates of the cell around it. -/
structure Reference where
  /-- Pointer and bitmasked cells in use. -/
  on : NodeId → Coords → Bool
  length : NodeId → Coords → Nat
  /-- What was stored in a place, if it was not forgotten. -/
  value : NodeId → Coords → Option Scalar

namespace Reference

def empty : Reference := ⟨fun _ _ => false, fun _ _ => 0, fun _ _ => none⟩

def setOn (r : Reference) (i : NodeId) (c : Coords) : Reference :=
  { r with on := fun j d => r.on j d || (j = i ∧ d = c) }

def setLength (r : Reference) (i : NodeId) (c : Coords) (len : Nat) : Reference :=
  { r with length := fun j d => if j = i ∧ d = c then len else r.length j d }

def store (r : Reference) (i : NodeId) (c : Coords) (v : Scalar) : Reference :=
  { r with value := fun j d => if j = i ∧ d = c then some v else r.value j d }

theorem on_setOn (r : Reference) (i : NodeId) (c : Coords) (j : NodeId) (d : Coords) :
    (r.setOn i c).on j d = (r.on j d || (j = i ∧ d = c)) := rfl

theorem length_setLength (r : Reference) (i : NodeId) (c : Coords) (len : Nat) (j : NodeId)
    (d : Coords) : (r.setLength i c len).length j d =
      if j = i ∧ d = c then len else r.length j d := rfl

theorem value_store (r : Reference) (i : NodeId) (c : Coords) (x : Scalar) (j : NodeId)
    (d : Coords) : (r.store i c x).value j d =
      if j = i ∧ d = c then some x else r.value j d := rfl

/-- The cell of `m` around the cell of `n` at `c` is put to use; a list gets as long as to have
it. -/
def raise (t : Layout) (n : Node) (c : Coords) (r : Reference) (m : Node) : Reference :=
  match m.kind with
  | .pointer _ | .bitmasked _ => r.setOn m.id (around n m c)
  | .dynamic axis .. =>
    let p := around n (t.outer m) c
    r.setLength m.id p (max (r.length m.id p) ((digit n m axis c).toNat + 1))
  | _ => r

/-- All cells on the way to the cell of `n` at `c` are put to use. -/
def activate (t : Layout) (n : Node) (c : Coords) (r : Reference) : Reference :=
  (t.branch n.id).foldl (raise t n c) r

/-- Whether the cell of `m` around the cell of `n` at `c` is in use. -/
def holds (t : Layout) (n : Node) (c : Coords) (r : Reference) (m : Node) : Bool :=
  match m.kind with
  | .pointer _ | .bitmasked _ => r.on m.id (around n m c)
  | .dynamic axis .. => (digit n m axis c).toNat < r.length m.id (around n (t.outer m) c)
  | _ => true

/-- Whether all cells on the way to the cell of `n` at `c` are in use. -/
def active (t : Layout) (n : Node) (c : Coords) (r : Reference) : Bool :=
  (t.branch n.id).all (r.holds t n c)

/-- Cells are taken out of use: `gone m p d` tells of the cells of `m`, or of its list, in the
cell of `p` at `d`. The values that `lost` tells of are forgotten. -/
def remove (t : Layout) (gone : Node → Node → Coords → Bool) (lost : Node → Coords → Bool)
    (r : Reference) : Reference where
  on i c := r.on i c && !(t.nodes[i]?).any fun m => gone m m c
  length i c := if (t.nodes[i]?).any fun m => gone m (t.outer m) c then 0 else r.length i c
  value i c := if (t.nodes[i]?).any fun m => lost m c then none else r.value i c

/-- The cells of `n` in the cell of `q` at `d` are removed with everything below them. -/
def clear (t : Layout) (n q : Node) (d : Coords) (r : Reference) : Reference :=
  r.remove t (fun m p c => t.isBelow n m && (around p q c = d))
    fun m c => t.isBelow n m && (around m q c = d)

/-- One cell is deactivated, or a whole list. A bitmasked cell that is not in use stays as it is:
unless whole nodes were deactivated before, there is nothing below it. -/
def deactivate (t : Layout) (n : Node) (c : Coords) (r : Reference) : Reference :=
  match n.kind with
  | .dynamic .. => r.clear t n (t.outer n) (around n (t.outer n) c)
  | .bitmasked _ => if r.on n.id c then r.clear t n n c else r
  | _ => r.clear t n n c

/-- All cells of a node are deactivated with everything below them; values are forgotten below the
pointer cells and lists among these. -/
def deactivateAll (t : Layout) (n : Node) (r : Reference) : Reference :=
  r.remove t (fun m _ _ => t.isBelow n m) fun m _ =>
    (t.branch m.id).any fun l => (l.type = .pointer ∨ l.type = .dynamic) && t.isBelow n l

/-- What an operation does, and its result. A value is converted to the type of its member, and a
place that is not in use, or in which nothing was stored, has the zero of its type. -/
noncomputable def perform (t : Layout) (n : Node) : Action → EStateM AccessError Reference Answer
  | .activate idx => atIndex (.ok n) idx fun _ c r => .ok .done (r.activate t n c)
  | .deactivate idx => atIndex (.ok n) idx fun _ c r =>
    if n.type.isSparse then .ok .done (r.deactivate t n c)
    else .error (n.wrongKind .deactivate) r
  | .deactivateAll => fun r => .ok .done (r.deactivateAll t n)
  | .write idx x => atIndex (.ok n) idx fun _ c r =>
    match n.accessType .write with
    | .error e => .error e r
    | .ok d => .ok .done ((r.activate t n c).store n.id c (x.convert d))
  | .append idx x => atIndex (t.parentNode n) idx fun p c r =>
    match n.listCapacity .append with
    | .error e => .error e r
    | .ok dim =>
      match t.onlyPlace? n with
      | none => .error (n.wrongKind .append) r
      | some m =>
        match m.accessType .append with
        | .error e => .error e r
        | .ok d =>
          let r := r.activate t p c
          let len := r.length n.id c
          if dim.toNat ≤ len then .error (.listFull dim) r
          else .ok (.count (.ofNat len)) ((r.setLength n.id c (len + 1)).store m.id
            (n.elementCoords c len) (x.convert d))
  | .read idx => atIndex (.ok n) idx fun _ c r =>
    match n.accessType .read with
    | .error e => .error e r
    | .ok d =>
      .ok (.value (if r.active t n c then (r.value n.id c).getD d.zero else d.zero)) r
  | .isActive idx => atIndex (.ok n) idx fun _ c r => .ok (.flag (r.active t n c)) r
  | .length idx => atIndex (t.parentNode n) idx fun _ c r =>
    match n.listCapacity .length with
    | .error e => .error e r
    | .ok _ => .ok (.count (.ofNat (r.length n.id c))) r

/-- The results of a run of calls, and the store that it leaves. -/
noncomputable def session (t : Layout) (calls : List Call) (r : Reference) :
    List (Except AccessError Answer) × Reference :=
  runs (calls.map fun c => perform t c.node c.action) r

theorem session_ok {t : Layout} {c : Call} {cs : List Call} {r r' : Reference} {a : Answer}
    (h : perform t c.node c.action r = .ok a r') :
    r.session t (c :: cs) = (.ok a :: (r'.session t cs).1, (r'.session t cs).2) := by
  unfold session
  rw [List.map_cons, runs, h]

theorem session_error {t : Layout} {c : Call} {cs : List Call} {r r' : Reference}
    {e : AccessError} (h : perform t c.node c.action r = .error e r') :
    r.session t (c :: cs) = (.error e :: (r'.session t cs).1, (r'.session t cs).2) := by
  unfold session
  rw [List.map_cons, runs, h]

end Reference

end SparseLayout
