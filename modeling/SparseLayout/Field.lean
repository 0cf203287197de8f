import SparseLayout.Error
import SparseLayout.Member

namespace SparseLayout

abbrev NodeId := Nat

/-- Tells a tree's root apart from every other root, from before the tree is compiled. -/
abbrev RootId := Nat

/-- The place node that stores a member. -/
structure Placement where
  root : RootId
  node : NodeId
  deriving DecidableEq

/-- Shape of the member list of a field; matrices are row-major. -/
inductive MemberShape
  | scalar
  | vector (n : UInt32)
  | matrix (n m : UInt32)
  deriving DecidableEq

namespace MemberShape

/-- Number of members, stopping at the largest 32-bit word. -/
def count : MemberShape → UInt32
  | scalar => 1
  | vector n => n
  | matrix n m => .ofNat (min (n.toNat * m.toNat) (UInt32.size - 1))

def memberName (base : String) (k : Nat) : MemberShape → String
  | scalar => base
  | vector _ => s!"{base}[{k}]"
  | matrix _ m => s!"{base}[{k / m.toNat}, {k % m.toNat}]"

end MemberShape

structure FieldDecl where
  name : String
  dtype : DataType
  shape : MemberShape
  /-- Whether the field has an adjoint field for gradients. -/
  adjoint : Bool
  deriving DecidableEq

structure Field where
  name : String
  dtype : DataType
  shape : MemberShape
  members : List Member
  deriving DecidableEq

/-- Name of the adjoint of a field. -/
def adjointName (name : String) : String := name ++ ".grad"

/-- The field of the members' adjoints. -/
def Field.adjoint? (f : Field) : Option Field :=
  match f.members.filterMap (·.adjoint?) with
  | [] => none
  | members => some { f with name := adjointName f.name, members }

/-- Quantized integers have 1 to 32 bits, quantized floats 1 to 32 digit bits and 1 to 8 exponent
bits. -/
def DataType.check : DataType → Except InvalidArgument Unit
  | quantInt bits _ =>
    if 1 ≤ bits ∧ bits ≤ 32 then .ok () else .error (.quantIntWidth bits)
  | quantFloat digits exponent =>
    if 1 ≤ digits ∧ digits ≤ 32 ∧ 1 ≤ exponent ∧ exponent ≤ 8 then .ok ()
    else .error (.quantFloatWidths digits exponent)
  | _ => .ok ()

/-- A declaration has a valid type and a member, and asks for gradients of real types only. -/
def FieldDecl.check (decl : FieldDecl) : Except InvalidArgument Unit := do
  decl.dtype.check
  if decl.shape.count = 0 then .error (.noMembers decl.name)
  else if decl.adjoint ∧ ¬ decl.dtype.isReal then .error (.adjointType decl.name decl.dtype)
  else .ok ()

/-- Member and root ids given out so far, and the placement of every member. -/
structure Catalog where
  placements : Array (Option Placement)
  roots : Nat

namespace Catalog

def empty : Catalog := ⟨#[], 0⟩

def placement? (c : Catalog) (id : MemberId) : Option Placement := c.placements[id]?.join

def isPlaced (c : Catalog) (m : Member) : Bool := (c.placement? m.id).isSome

/-- Whether every member of a field is placed. -/
def holdsField (c : Catalog) (f : Field) : Bool := f.members.all c.isPlaced

/-- Records the placement of a member that has none. -/
def bind (m : Member) (p : Placement) : EStateM BuildError Catalog Unit := fun c =>
  if c.isPlaced m then .error (.invalid (.memberPlaced m.name)) c
  else .ok () { c with placements := c.placements.set! m.id (some p) }

/-- Binding a member records its placement, and no other. -/
theorem placement?_bind {m : Member} {p : Placement} {c d : Catalog}
    (hm : m.id < c.placements.size) (h : bind m p c = .ok () d) (id : MemberId) :
    d.placement? id = if id = m.id then some p else c.placement? id := by
  unfold bind at h
  split at h
  · cases h
  · cases h
    unfold placement?
    simp only [Array.set!_eq_setIfInBounds, Array.getElem?_setIfInBounds]
    grind

theorem bind_eq_ok_iff {m : Member} {p : Placement} {c : Catalog} :
    (∃ d, bind m p c = .ok () d) ↔ c.isPlaced m = false := by
  unfold bind
  split <;> simp_all

/-- A root id that was never given out before. -/
def newRoot (c : Catalog) : RootId × Catalog := (c.roots, { c with roots := c.roots + 1 })

/-- Components with fresh ids, for a field of this name. -/
def components (c : Catalog) (decl : FieldDecl) (name : String) : List Component × Catalog :=
  let count := decl.shape.count.toNat
  let first := c.placements.size
  ((List.range count).map fun k => ⟨first + k, decl.shape.memberName name k, decl.dtype⟩,
    { c with placements := c.placements ++ .replicate count none })

/-- A field as declared, with a fresh id for every member and for its adjoint. -/
def declare (decl : FieldDecl) : EStateM BuildError Catalog Field := fun c =>
  match decl.check with
  | .error cause => .error (.invalid cause) c
  | .ok () =>
    if decl.adjoint then
      let (adjoints, c) := c.components decl (adjointName decl.name)
      let (primals, c) := c.components decl decl.name
      let members := primals.zipWith (fun p a => ⟨p, .primal (some a)⟩) adjoints
      .ok ⟨decl.name, decl.dtype, decl.shape, members⟩ c
    else
      let (primals, c) := c.components decl decl.name
      .ok ⟨decl.name, decl.dtype, decl.shape, primals.map fun p => ⟨p, .primal none⟩⟩ c

end Catalog

/-- What one placement places: a field, or a list of such. -/
inductive FieldGroup
  | one (field : Field)
  | many (groups : List FieldGroup)

mutual

/-- The members of a group in order, lists flattened. -/
def FieldGroup.members : FieldGroup → List Member
  | .one field => field.members
  | .many groups => FieldGroup.membersOf groups

def FieldGroup.membersOf : List FieldGroup → List Member
  | [] => []
  | g :: rest => g.members ++ FieldGroup.membersOf rest

end

end SparseLayout
