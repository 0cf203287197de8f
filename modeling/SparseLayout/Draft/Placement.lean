import SparseLayout.Draft.Structure

namespace SparseLayout

/-- Index offsets of a placement: one for every index, or one per index. -/
inductive Offset
  | uniform (offset : Int32)
  | perIndex (offsets : List Int32)
  deriving DecidableEq

structure PlaceOptions where
  offset : Option Offset
  /-- Whether the members, all quantized floats, share one exponent. -/
  shared : Bool
  deriving DecidableEq

/-- The offsets of a node with that many indices. -/
def PlaceOptions.offsets (o : PlaceOptions) (indices : Nat) :
    Except InvalidArgument (List Int32) :=
  match o.offset with
  | none => .ok []
  | some (.uniform v) => .ok (.replicate indices v)
  | some (.perIndex vs) =>
    if vs.length = indices then .ok vs else .error (.offsetCount vs.length indices)

/-- The bits of a placed member; none outside bit containers. -/
structure BitField where
  bitOffset : Option UInt32
  sharedExponent : Option SharedExponent
  deriving DecidableEq

/-- Bit fields for new members of a node, and the node's bit accounting after them. -/
structure BitPlan where
  fields : List BitField
  bitsUsed : UInt32
  exponentGroups : UInt32
  deriving DecidableEq

/-- A placement that was found valid. -/
structure PlacePlan where
  target : NodeId
  /-- Whether the members go under a new dense node without axes, as those placed on a root do. -/
  implicitDense : Bool
  infos : List PlaceInfo
  bitsUsed : UInt32
  exponentGroups : UInt32
  deriving DecidableEq

/-- No member repeats one that was seen, and none is placed already. -/
def checkFresh (c : Catalog) (seen : List MemberId) : List Member → Except InvalidArgument Unit
  | [] => .ok ()
  | m :: rest =>
    if m.id ∈ seen then .error (.memberTwice m.name)
    else if c.isPlaced m then .error (.memberPlaced m.name)
    else checkFresh c (m.id :: seen) rest

def checkQuant (container : NodeType) (ms : List Member) : Except InvalidArgument Unit :=
  match ms.find? (! ·.dtype.isQuant) with
  | some m => .error (.quantOnly container m.name m.dtype)
  | none => .ok ()

/-- The sum of two counts of bits; none where it is too large for one. -/
def checkedAdd (a b : UInt32) : Option UInt32 :=
  if a.toNat + b.toNat < UInt32.size then some (a + b) else none

theorem checkedAdd_eq_some_iff {a b c : UInt32} :
    checkedAdd a b = some c ↔ c.toNat = a.toNat + b.toNat := by
  unfold checkedAdd
  split <;> rename_i h
  · rw [Option.some.injEq, ← UInt32.toNat_inj, UInt32.toNat_add, Nat.mod_eq_of_lt h]
    exact eq_comm
  · have hc := c.toNat_lt
    exact iff_of_false nofun fun he => h (he ▸ hc)

/-- Bits of members side by side. -/
def plainBits (ms : List Member) : Option UInt32 :=
  ms.foldlM (fun n m => checkedAdd n m.dtype.bits) 0

/-- Bits of the exponent that quantized floats have in common, and of their digits side by side.
`width` is the exponent's width if it is known already, and `digits` are counted before. -/
def sharedBits : Option UInt8 → UInt32 → List Member → Except BuildError (UInt32 × UInt32)
  | width, digits, [] => .ok ((width.map (·.toUInt32)).getD 0, digits)
  | width, digits, m :: rest =>
    match m.dtype with
    | .quantFloat own exponent =>
      if width.all (· = exponent) then do
        sharedBits (some exponent) (← unchecked (checkedAdd digits own.toUInt32)) rest
      else .error (.invalid .sharedWidth)
    | t => .error (.invalid (.sharedType m.name t))

/-- Members side by side at their full width, from `cursor` on. -/
def packPlain : UInt32 → List Member → List BitField
  | _, [] => []
  | cursor, m :: rest => ⟨some cursor, none⟩ :: packPlain (cursor + m.dtype.bits) rest

/-- Digits side by side from `cursor` on, behind one exponent that the first member owns. -/
def packShared (group bitOffset bits : UInt32) : Bool → UInt32 → List Member → List BitField
  | _, _, [] => []
  | owner, cursor, m :: rest =>
    ⟨some cursor, some ⟨group, bitOffset, bits, owner⟩⟩ ::
      packShared group bitOffset bits false (cursor + m.dtype.digitBits) rest

/-- Bits for members added to a bit struct, after those in use. -/
def planStruct (width : UInt32) (node : Draft.Node) (ms : List Member) (shared : Bool) :
    Except BuildError BitPlan := do
  checked (checkQuant .bitStruct ms)
  let start := node.bitsUsed
  if shared then
    let (exponent, digits) ← sharedBits none 0 ms
    let needed ← unchecked (checkedAdd digits exponent)
    let stop ← unchecked (checkedAdd start needed)
    if stop > width then .error (.invalid (.structFull width needed start))
    else return ⟨packShared node.exponentGroups start exponent true (start + exponent) ms, stop,
      node.exponentGroups + 1⟩
  else
    let needed ← unchecked (plainBits ms)
    let stop ← unchecked (checkedAdd start needed)
    if stop > width then .error (.invalid (.structFull width needed start))
    else return ⟨packPlain start ms, stop, node.exponentGroups⟩

/-- Bits for the one member of a bit array, all of whose elements fit the word. -/
def planArray (width : UInt32) (node : Draft.Node) (ms : List Member) (shared : Bool) :
    Except BuildError BitPlan :=
  if shared then .error (.invalid .sharedParent)
  else
    match ms, node.children with
    | [m], [] => do
      checked (checkQuant .bitArray ms)
      let bits := m.dtype.bits.toUInt64
      let cells ← unchecked node.index.paddedCells
      let total ← unchecked (checkedMul cells bits)
      if total > width.toUInt64 then .error (.invalid (.arrayFull width cells bits))
      else return ⟨[⟨some 0, none⟩], total.toUInt32, node.exponentGroups⟩
    | _, _ => .error (.invalid .arrayMembers)

/-- Whole-byte members take no bits. -/
def planBytes (node : Draft.Node) (ms : List Member) (shared : Bool) :
    Except BuildError BitPlan :=
  if shared then .error (.invalid .sharedParent)
  else
    match ms.find? (·.dtype.isQuant) with
    | some m => .error (.invalid (.quantParent m.name m.dtype))
    | none => .ok ⟨ms.map fun _ => ⟨none, none⟩, node.bitsUsed, node.exponentGroups⟩

def planBits (node : Draft.Node) (ms : List Member) (shared : Bool) :
    Except BuildError BitPlan :=
  match node.kind with
  | .place _ => .error (.invalid .underPlace)
  | .bitStruct width => planStruct width node ms shared
  | .bitArray _ width => planArray width node ms shared
  | _ => planBytes node ms shared

/-- A plan to place members, in order, under node `target`. -/
def planPlace (c : Catalog) (target : NodeId) (node : Draft.Node) (ms : List Member)
    (o : PlaceOptions) : Except BuildError PlacePlan :=
  if ms.isEmpty then
    if o.shared then .error (.invalid .sharedEmpty)
    else .ok ⟨target, false, [], node.bitsUsed, node.exponentGroups⟩
  else do
    checked (checkFresh c [] ms)
    let offsets ← checked (o.offsets node.index.arity)
    let bits ← planBits node ms o.shared
    let infos := ms.zipWith (fun m b => ⟨m, offsets, b.bitOffset, b.sharedExponent⟩) bits.fields
    return ⟨target, target = 0, infos, bits.bitsUsed, bits.exponentGroups⟩

namespace DraftM

/-- Adds one place node per entry and binds its member to it. -/
def placeAll (target : NodeId) : List PlaceInfo → DraftM Unit
  | [] => pure ()
  | info :: rest => do
    let node ← push target (.place info)
    fun s =>
      match Catalog.bind info.member ⟨s.draft.root, node⟩ s.catalog with
      | .ok () catalog => placeAll target rest { s with catalog }
      | .error e catalog => .error e { s with catalog }

/-- Carries out a plan. -/
def applyPlan (plan : PlacePlan) : DraftM Unit := do
  if ! plan.infos.isEmpty then
    let target ← if plan.implicitDense then push plan.target (.dense []) else pure plan.target
    placeAll target plan.infos
    modify fun s =>
      { s with draft := s.draft.setBits target plan.bitsUsed plan.exponentGroups }

/-- Places every member of the groups under a node. -/
def place (target : NodeId) (groups : List FieldGroup) (o : PlaceOptions) : DraftM Unit := do
  let node ← node target
  let plan ← check (planPlace (← get).catalog target node (FieldGroup.membersOf groups) o)
  applyPlan plan

end DraftM

/-- Placed primals with an adjoint that is not placed, among the children of a node: the offsets
of each, with its adjoint. -/
def pendingAdjoints (s : Drafting) (container : NodeId) : List (List Int32 × Member) :=
  (s.draft.children container).filterMap fun id => do
    let info ← (← s.draft.nodes[id]?).kind.place?
    let adjoint ← info.member.adjoint?
    if s.catalog.isPlaced adjoint then none else some (info.indexOffsets, adjoint)

/-- Plans to place the pending adjoints under a node, each beside its primal. -/
def planAdjoints (s : Drafting) (container : NodeId) : Except BuildError (List PlacePlan) :=
  (pendingAdjoints s container).mapM fun (offsets, adjoint) =>
    match s.draft.nodes[container]? with
    | none => .error (.invalid (.noNode container))
    | some node =>
      let offset := if offsets.isEmpty then none else some (.perIndex offsets)
      planPlace s.catalog container node [adjoint] ⟨offset, false⟩

namespace DraftM

/-- Places the pending adjoints of a subtree, each beside its primal with the same offsets. All
plans are made before any of them is carried out. -/
def lazyGrad (id : NodeId) : DraftM Unit := do
  let _ ← node id
  let s ← get
  let plans ← check ((s.draft.postOrder s.draft.nodes.size id).mapM (planAdjoints s))
  plans.flatten.forM applyPlan

end DraftM

/-- What is declared on one node. -/
inductive Declaration
  | node (s : Structural)
  | place (groups : List FieldGroup) (options : PlaceOptions)
  | lazyGrad

/-- Carries out a declaration on a node; the result is the new node, or the node itself where
members were placed. -/
def DraftM.declare (id : NodeId) : Declaration → DraftM NodeId
  | .node s => extend id s
  | .place groups options => do
    place id groups options
    return id
  | .lazyGrad => do
    lazyGrad id
    return id

end SparseLayout
