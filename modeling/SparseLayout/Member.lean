import SparseLayout.DataType

namespace SparseLayout

abbrev MemberId := Nat

/-- One scalar component: its id, name and element type. -/
structure Component where
  id : MemberId
  name : String
  dtype : DataType
  deriving DecidableEq

/-- A primal component may have an adjoint, which stores its gradient. -/
inductive Role
  | primal (adjoint : Option Component)
  | adjoint
  deriving DecidableEq

structure Member extends Component where
  role : Role
  deriving DecidableEq

namespace Member

def isPrimal (m : Member) : Bool :=
  match m.role with
  | .primal _ => true
  | .adjoint => false

def adjoint? (m : Member) : Option Member :=
  match m.role with
  | .primal a => a.map (⟨·, .adjoint⟩)
  | .adjoint => none

def text (m : Member) : String := m.name ++ ": " ++ m.dtype.text

end Member

end SparseLayout
