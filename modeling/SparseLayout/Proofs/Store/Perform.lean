import SparseLayout.Proofs.Calls
import SparseLayout.Proofs.Resolve
import SparseLayout.Proofs.Store.Operations

/-!
Operations as functions of views. A call does to a storage what it does to the view of its
contents, unless memory runs out on the way; then it may have activated some of the cells that it
was to reach.
-/

namespace SparseLayout

open Layout (Node)
open Layout.Node (number)
open StoreM (Ends never)

/-- Works at the coordinates of an index expression of a node, on a state of any kind. -/
def atIndex {σ : Type} (space : Except AccessError Node) (idx : List Int32)
    (op : Node → Coords → EStateM AccessError σ Answer) : EStateM AccessError σ Answer := fun v =>
  match space with
  | .error e => .error e v
  | .ok p =>
    match p.resolve idx with
    | .error e => .error e v
    | .ok c => op p c v

/-- Operations that only look at cells and lists. -/
def Action.looks : Action → Bool
  | .read _ | .isActive _ | .length _ => true
  | _ => false

namespace View

/-- The key of the word that holds the value of a place. -/
def keyOf (t : Layout) (n : Node) (c : Coords) : Position × Node :=
  wordKey n (t.place n c n).tail

theorem snd_keyOf (t : Layout) (n : Node) (c : Coords) :
    (keyOf t n c).2 = n ∨ (keyOf t n c).2.type.isBitLevel = true := by
  unfold keyOf wordKey
  split
  · split
    · exact Or.inr ‹_›
    · exact Or.inl rfl
  · exact Or.inl rfl

open Classical in
/-- What an operation does to a view, and its result. -/
noncomputable def perform (t : Layout) (n : Node) : Action → EStateM AccessError View Answer
  | .activate idx => atIndex (.ok n) idx fun _ c v => .ok .done (v.activate (t.place n c n))
  | .deactivate idx => atIndex (.ok n) idx fun _ c v =>
    if n.type.isSparse then .ok .done (v.deactivate n (number n n c) (t.place n c n).tail)
    else .error (n.wrongKind .deactivate) v
  | .deactivateAll => fun v =>
    if v.Countable t (t.parentBranch n) [] then .ok .done (v.deactivateAll n)
    else .error (.panic .capacity) v
  | .write idx x => atIndex (.ok n) idx fun _ c v =>
    match n.accessType .write with
    | .error e => .error e v
    | .ok d =>
      match t.valueSlot n c with
      | .error e => .error e v
      | .ok slot =>
        let key := keyOf t n c
        .ok .done ((v.activate (t.place n c n)).setWord key.1 key.2
          (d.intoSlot slot (v.word key.1 key.2) x))
  | .append idx x => atIndex (t.parentNode n) idx fun p c v =>
    match n.listCapacity .append with
    | .error e => .error e v
    | .ok dim =>
      match t.onlyPlace? n with
      | none => .error (n.wrongKind .append) v
      | some m =>
        match m.accessType .append with
        | .error e => .error e v
        | .ok d =>
          let q := t.place p c p
          let len := (v.activate q).length q n
          if dim.toNat ≤ len then .error (.listFull dim) (v.activate q)
          else .ok (.count (.ofNat len)) (((v.activate q).setLength q n (len + 1)).setWord
            ((n, len) :: q) m ((d.encode x).toNat % 256 ^ m.bytes.toNat))
  | .read idx => atIndex (.ok n) idx fun _ c v =>
    match n.accessType .read with
    | .error e => .error e v
    | .ok d =>
      match t.valueSlot n c with
      | .error e => .error e v
      | .ok slot =>
        let key := keyOf t n c
        .ok (.value (if v.Active t (t.place n c n) then d.inSlot slot (v.word key.1 key.2)
          else d.zero)) v
  | .isActive idx => atIndex (.ok n) idx fun _ c v =>
    .ok (.flag (decide (v.Active t (t.place n c n)))) v
  | .length idx => atIndex (t.parentNode n) idx fun p c v =>
    match n.listCapacity .length with
    | .error e => .error e v
    | .ok _ => .ok (.count (.ofNat (v.length (t.place p c p) n))) v

end View

namespace Layout

theorem Node.of_accessType {n : Node} {op : Operation} {d : DataType}
    (h : n.accessType op = .ok d) :
    ∃ info, n.kind = .place info ∧ info.member.dtype.checkAccess = .ok () ∧ d = info.member.dtype := by
  unfold Node.accessType at h
  split at h
  · rename_i info hk
    obtain ⟨_, hd, h⟩ := exists_of_bind h
    cases h
    exact ⟨info, hk, hd, rfl⟩
  · cases h

theorem Node.of_listCapacity {n : Node} {op : Operation} {dim : UInt32}
    (h : n.listCapacity op = .ok dim) : ∃ axis chunk, n.kind = .dynamic axis dim chunk := by
  unfold Node.listCapacity at h
  split at h
  · rename_i axis dim' chunk hk
    cases h
    exact ⟨axis, chunk, hk⟩
  · cases h

variable {t : Layout} {p n : Node}

theorem of_parentNode (ht : t.WellFormed) (hn : t.Has n) (h : t.parentNode n = .ok p) :
    t.Has p ∧ n ∈ t.childNodes p := by
  by_cases h0 : n.id = 0
  · rw [hn.eq_of_id ht.has_root (h0.trans ht.root_id.symm), parentNode, ht.root_parent] at h
    cases h
  · obtain ⟨q, hq, hnq⟩ := ht.exists_parent hn h0
    rw [ht.parentNode_eq hq hnq, Except.ok.injEq] at h
    exact h ▸ ⟨hq, hnq⟩

theorem WellFormed.tail_place (ht : t.WellFormed) (hp : t.Has p) (hn : n ∈ t.childNodes p)
    (target : Node) (c : Coords) : (t.place target c n).tail = t.place target c p := by
  rw [ht.place_child target c hp hn]
  rfl

theorem WellFormed.keyOf_eq (ht : t.WellFormed) (hp : t.Has p) (hn : n ∈ t.childNodes p)
    (c : Coords) : View.keyOf t n c = wordKey n (t.place n c p) := by
  rw [View.keyOf, ht.tail_place hp hn]

theorem WellFormed.exists_valueSlot (ht : t.WellFormed) (hp : t.Has p) (hn : n ∈ t.childNodes p)
    {info : PlaceInfo} (hk : n.kind = .place info) (c : Coords) :
    ∃ slot, t.valueSlot n c = .ok slot := by
  have hl := ht.locates_place n c (ht.has_child hn)
  rw [ht.place_of_place hp hn hk] at hl
  obtain ⟨slot, hs, -⟩ := ht.valueSlot_eq hl hk c
  exact ⟨slot, hs⟩

end Layout

/-- The position of a cell that coordinates within the shape of its node name. -/
def Layout.Named (t : Layout) (x : Position) : Prop :=
  ∃ n c, t.Has n ∧ n.Addressable ∧ n.Within c ∧ x = t.place n c n

theorem Layout.Named.suffix {t : Layout} {x y : Position} (ht : t.WellFormed) (h : t.Named y)
    (hx : x <:+ y) : t.Named x := by
  obtain ⟨n, c, hn, ha, hc, rfl⟩ := h
  obtain ⟨m, hm, rfl⟩ := (ht.suffix_place hn).1 hx
  exact ⟨m, Node.around n m c, hm.has hn, (hm.exists_side ht.toCharted ha).1, hm.around_within ht.toCharted hn ha hc,
    ((Layout.Above.refl m).place_around ht.toCharted hm hn ha c).symm⟩

namespace View

variable {t : Layout} {n : Node} {v v' : View}

/-- All the ways in which an operation ends on a view. A list that turns out to be full is found
only after the way to it was activated; any other refusal comes before anything is done. -/
inductive Performs (t : Layout) (n : Node) (v : View) :
    Action → EStateM.Result AccessError View Answer → Prop
  | refused (a : Action) (e : AccessError) : Performs t n v a (.error e v)
  | looked {a : Action} (ha : a.looks = true) (ans : Answer) : Performs t n v a (.ok ans v)
  | activate {idx : List Int32} {c : Coords} (hc : n.resolve idx = .ok c) :
    Performs t n v (.activate idx) (.ok .done (v.activate (t.place n c n)))
  | deactivate {idx : List Int32} {c : Coords} (hc : n.resolve idx = .ok c)
    (hs : n.type.isSparse = true) : Performs t n v (.deactivate idx)
      (.ok .done (v.deactivate n (number n n c) (t.place n c n).tail))
  | deactivateAll (hcount : v.Countable t (t.parentBranch n) []) :
    Performs t n v .deactivateAll (.ok .done (v.deactivateAll n))
  | write {idx : List Int32} {x : Scalar} {c : Coords} {d : DataType} {slot : ValueSlot}
    (hc : n.resolve idx = .ok c) (hd : n.accessType .write = .ok d)
    (hs : t.valueSlot n c = .ok slot) : Performs t n v (.write idx x)
      (.ok .done ((v.activate (t.place n c n)).setWord (keyOf t n c).1 (keyOf t n c).2
        (d.intoSlot slot (v.word (keyOf t n c).1 (keyOf t n c).2) x)))
  | full {idx : List Int32} {x : Scalar} {p : Node} {c : Coords} {dim : UInt32}
    (hp : t.parentNode n = .ok p) (hc : p.resolve idx = .ok c) :
    Performs t n v (.append idx x) (.error (.listFull dim) (v.activate (t.place p c p)))
  | append {idx : List Int32} {x : Scalar} {p m : Node} {c : Coords} {axis : Axis}
    {dim chunk : UInt32} {len w : Nat} (hp : t.parentNode n = .ok p) (hc : p.resolve idx = .ok c)
    (hk : n.kind = .dynamic axis dim chunk) (hm : t.onlyPlace? n = some m)
    (hlen : (v.activate (t.place p c p)).length (t.place p c p) n = len) (hlt : len < dim.toNat) :
    Performs t n v (.append idx x) (.ok (.count (.ofNat len))
      (((v.activate (t.place p c p)).setLength (t.place p c p) n (len + 1)).setWord
        ((n, len) :: t.place p c p) m w))

/-- It is enough to look at the coordinates that an index expression resolves to. -/
theorem performs_atIndex {a : Action} {space : Except AccessError Node} {idx : List Int32}
    {f : Node → Coords → EStateM AccessError View Answer}
    (hf : ∀ p c, space = .ok p → p.resolve idx = .ok c → Performs t n v a (f p c v)) :
    Performs t n v a (SparseLayout.atIndex space idx f v) := by
  unfold SparseLayout.atIndex
  cases space with
  | error e => exact .refused a e
  | ok p =>
    cases hc : p.resolve idx with
    | error e =>
      simp only [hc]
      exact .refused a e
    | ok c =>
      simp only [hc]
      exact hf p c rfl hc

theorem performs_append (idx : List Int32) (x : Scalar) :
    Performs t n v (.append idx x) (perform t n (.append idx x) v) := by
  unfold perform
  refine performs_atIndex fun p c hp hc => ?_
  dsimp only
  cases hdim : n.listCapacity .append with
  | error e => exact .refused _ e
  | ok dim =>
  obtain ⟨axis, chunk, hk⟩ := Node.of_listCapacity hdim
  cases hm : t.onlyPlace? n with
  | none => exact .refused _ _
  | some m =>
  dsimp only
  cases hd : m.accessType .append with
  | error e => exact .refused _ e
  | ok d =>
  dsimp only
  split
  · exact .full hp hc
  · exact .append hp hc hk hm rfl (Nat.lt_of_not_le ‹_›)

/-- An operation on a view ends in one of these ways. -/
theorem performs (a : Action) : Performs t n v a (perform t n a v) := by
  cases a with
  | activate idx =>
    unfold perform
    refine performs_atIndex fun p c hp hc => ?_
    cases hp
    exact .activate hc
  | deactivate idx =>
    unfold perform
    refine performs_atIndex fun p c hp hc => ?_
    cases hp
    split
    · exact .deactivate hc ‹_›
    · exact .refused _ _
  | deactivateAll =>
    simp only [perform]
    split
    · exact .deactivateAll ‹_›
    · exact .refused _ _
  | write idx x =>
    unfold perform
    refine performs_atIndex fun p c hp hc => ?_
    cases hp
    dsimp only
    cases hd : n.accessType .write with
    | error e => exact .refused _ e
    | ok d =>
    dsimp only
    cases hs : t.valueSlot n c with
    | error e => exact .refused _ e
    | ok slot => exact .write hc hd hs
  | append idx x => exact performs_append idx x
  | read idx =>
    unfold perform
    refine performs_atIndex fun p c hp hc => ?_
    split
    · exact .refused _ _
    · split
      · exact .refused _ _
      · exact .looked rfl _
  | isActive idx =>
    unfold perform
    exact performs_atIndex fun p c hp hc => .looked rfl _
  | length idx =>
    unfold perform
    refine performs_atIndex fun p c hp hc => ?_
    split
    · exact .refused _ _
    · exact .looked rfl _

end View

/-- The positions of the cells that an operation is to put to use. -/
inductive Action.Targets (t : Layout) (n : Node) : Action → Position → Prop
  | activate {idx : List Int32} {c : Coords} (hc : n.resolve idx = .ok c) :
    Targets t n (.activate idx) (t.place n c n)
  | write {idx : List Int32} {x : Scalar} {c : Coords} (hc : n.resolve idx = .ok c) :
    Targets t n (.write idx x) (t.place n c n)
  | append {idx : List Int32} {x : Scalar} {p : Node} {c : Coords} (hp : t.parentNode n = .ok p)
    (hc : p.resolve idx = .ok c) : Targets t n (.append idx x) (t.place p c p)

theorem Action.Targets.named {t : Layout} {n : Node} {a : Action} {x : Position} (ht : t.WellFormed)
    (hn : t.Has n) (h : a.Targets t n x) : t.Named x := by
  cases h with
  | @activate idx c hc | @write idx _ c hc =>
    obtain ⟨ha, hw⟩ := ht.of_resolve hn hc
    exact ⟨n, c, hn, ha, hw, rfl⟩
  | @append idx _ p c hp hc =>
    obtain ⟨hp, -⟩ := Layout.of_parentNode ht hn hp
    obtain ⟨ha, hw⟩ := ht.of_resolve hp hc
    exact ⟨p, c, hp, ha, hw, rfl⟩

namespace Store.Represents

variable {s : Store} {t : Layout} {g : Contents} {n : Node}

theorem ends_atIndex {α : Type} {space : Except AccessError Node} {idx : List Int32}
    {op : Coords → StoreM α} {ok : α → Store → Prop} {no : AccessError → Store → Prop}
    (hspace : ∀ e, space = .error e → no e s)
    (hidx : ∀ p e, space = .ok p → p.resolve idx = .error e → no e s)
    (hop : ∀ p c, space = .ok p → p.resolve idx = .ok c → Ends (op c) s ok no) :
    Ends (StoreM.atIndex space idx op) s ok no := by
  unfold StoreM.atIndex
  cases space with
  | error e => exact hspace e rfl
  | ok p =>
    refine Ends.bind (StoreM.ends_look rfl ?_)
    cases hc : p.resolve idx with
    | error e => exact Ends.bind (StoreM.ends_look_refused rfl (hidx p e rfl hc))
    | ok c => exact Ends.bind (StoreM.ends_look rfl (hop p c rfl hc))

variable (ht : t.WellFormed) (h : s.Represents t g) (hn : t.Has n)

/-- The operation ends as the view says, in a storage of which `shows` tells the view; where it is
refused, the storage stays as it was. Or it runs out of memory on the way to one of `targets`. -/
def EndsShowing (t : Layout) (g : Contents) (shows : View → Store → Prop) (targets : Position → Prop)
    (s : Store) (m : StoreM Answer) (p : EStateM AccessError View Answer) : Prop :=
  Ends m s (fun ans s' => ∃ v, p g.view = .ok ans v ∧ shows v s')
    (fun e s' => (s' = s ∧ ∃ v, p g.view = .error e v ∧ shows v s') ∨
      e.IsShortage ∧ ∃ x, targets x ∧ s'.FallsShort t g x)

/-- The operation ends as the view says, and lists that had no chunks to spare have none. -/
def EndsAs (t : Layout) (g : Contents) (targets : Position → Prop) (s : Store)
    (m : StoreM Answer) (p : EStateM AccessError View Answer) : Prop :=
  EndsShowing t g (fun v s' => s'.Shows t v g.Tight) targets s m p

theorem EndsShowing.mono {shows shows' : View → Store → Prop} {targets : Position → Prop}
    {m : StoreM Answer} {p : EStateM AccessError View Answer}
    (h : EndsShowing t g shows targets s m p) (himp : ∀ v s', shows v s' → shows' v s') :
    EndsShowing t g shows' targets s m p := by
  refine StoreM.Ends.mono h ?_ ?_
  · rintro ans s' ⟨v, hv, hs⟩
    exact ⟨v, hv, himp v s' hs⟩
  · rintro e s' (⟨hsame, v, hv, hs⟩ | hshort)
    · exact Or.inl ⟨hsame, v, hv, himp v s' hs⟩
    · exact Or.inr hshort

theorem shows_self (h : s.Represents t g) : s.Shows t g.view g.Tight := ⟨g, h, rfl, id⟩

theorem extends_self (h : s.Represents t g) : s.Extends t g g.view :=
  ⟨g, h, rfl, .refl g, .refl g⟩

/-- It is enough to look at the coordinates that an index expression resolves to. -/
theorem endsShowing_atIndex {shows : View → Store → Prop} {targets : Position → Prop}
    (hself : shows g.view s) {space : Except AccessError Node} {idx : List Int32}
    {op : Coords → StoreM Answer} {f : Node → Coords → EStateM AccessError View Answer}
    (hop : ∀ p c, space = .ok p → p.resolve idx = .ok c →
      EndsShowing t g shows targets s (op c) (f p c)) :
    EndsShowing t g shows targets s (StoreM.atIndex space idx op)
      (SparseLayout.atIndex space idx f) := by
  have refused {e : AccessError} (he : SparseLayout.atIndex space idx f g.view = .error e g.view) :
      (s = s ∧ ∃ v, SparseLayout.atIndex space idx f g.view = .error e v ∧ shows v s) ∨
        e.IsShortage ∧ ∃ x, targets x ∧ s.FallsShort t g x :=
    Or.inl ⟨rfl, _, he, hself⟩
  refine ends_atIndex ?_ ?_ ?_
  · intro e he
    apply refused
    simp only [SparseLayout.atIndex, he]
  · intro p e hp he
    apply refused
    simp only [SparseLayout.atIndex, hp, he]
  · intro p c hp hc
    have := hop p c hp hc
    unfold EndsShowing at this
    simpa only [SparseLayout.atIndex, hp, hc] using this

theorem endsAs_atIndex (h : s.Represents t g) {targets : Position → Prop}
    {space : Except AccessError Node} {idx : List Int32} {op : Coords → StoreM Answer}
    {f : Node → Coords → EStateM AccessError View Answer}
    (hop : ∀ p c, space = .ok p → p.resolve idx = .ok c → EndsAs t g targets s (op c) (f p c)) :
    EndsAs t g targets s (StoreM.atIndex space idx op) (SparseLayout.atIndex space idx f) :=
  endsShowing_atIndex h.shows_self hop

theorem ends_done {α : Type} {m : StoreM α} {ok : Answer → Store → Prop}
    {no : AccessError → Store → Prop} (h : Ends m s (fun _ s' => ok .done s') no) :
    Ends (do let _ ← m; return .done) s ok no :=
  Ends.bind (h.imp fun _ _ hs => StoreM.ends_pure hs)

include ht h hn

theorem endsShowing_activate (idx : List Int32) :
    EndsShowing t g (fun v s' => s'.Extends t g v) (Action.Targets t n (.activate idx)) s
      (Action.run t n (.activate idx)) (View.perform t n (.activate idx)) := by
  unfold Action.run View.perform
  refine endsShowing_atIndex h.extends_self fun p c hp hc => ?_
  cases hp
  refine ends_done ((h.activate ht hn c).mono ?_ ?_)
  · exact fun _ s' hs => ⟨_, rfl, hs⟩
  · exact fun e s' ⟨he, hshort⟩ => Or.inr ⟨he, _, .activate hc, hshort⟩

theorem endsAs_deactivate (idx : List Int32) :
    EndsAs t g (Action.Targets t n (.deactivate idx)) s (Action.run t n (.deactivate idx))
      (View.perform t n (.deactivate idx)) := by
  unfold Action.run View.perform
  refine h.endsAs_atIndex fun p c hp hc => ?_
  cases hp
  unfold EndsAs EndsShowing
  by_cases hs : n.type.isSparse = true
  · obtain ⟨p, hp, hnp⟩ := ht.ne_root_of_kind hn (by
      intro hk
      rw [Node.type, hk] at hs
      cases hs)
    simp only [hs, if_true, ht.tail_place hp hnp]
    refine ends_done ((h.deactivate ht hp hnp hs c).mono ?_ fun _ _ => False.elim)
    exact fun _ s' h' => ⟨_, rfl, h.shows_deactivate h'⟩
  · simp only [hs]
    unfold StoreM.deactivate
    rw [Bool.eq_false_iff.2 hs]
    exact ends_done (Ends.bind (StoreM.ends_throw (Or.inl ⟨rfl, _, rfl, h.shows_self⟩)))

theorem endsAs_deactivateAll :
    EndsAs t g (Action.Targets t n .deactivateAll) s (Action.run t n .deactivateAll)
      (View.perform t n .deactivateAll) := by
  unfold Action.run View.perform EndsAs EndsShowing
  by_cases hcount : g.view.Countable t (t.parentBranch n) []
  · simp only [if_pos hcount]
    refine ends_done ((h.deactivateAll ht hn hcount).mono ?_ fun _ _ => False.elim)
    exact fun _ s' h' => ⟨_, rfl, shows_deactivateAll h'⟩
  · simp only [if_neg hcount]
    refine ends_done (Ends.of_error (h.deactivateAll_crowded ht hn hcount) ?_)
    exact Or.inl ⟨rfl, _, rfl, h.shows_self⟩

theorem endsShowing_write (idx : List Int32) (x : Scalar) :
    EndsShowing t g (fun v s' => s'.Extends t g v) (Action.Targets t n (.write idx x)) s
      (Action.run t n (.write idx x)) (View.perform t n (.write idx x)) := by
  unfold Action.run View.perform
  refine endsShowing_atIndex h.extends_self fun p c hp hc => ?_
  cases hp
  unfold EndsShowing
  cases hd : n.accessType .write with
  | error e =>
    unfold StoreM.write
    exact ends_done (Ends.bind (StoreM.ends_look_refused (by rw [hd]; rfl)
      (Or.inl ⟨rfl, _, rfl, h.extends_self⟩)))
  | ok d =>
    obtain ⟨info, hk, hacc, rfl⟩ := Node.of_accessType hd
    obtain ⟨p, hp, hnp⟩ := ht.ne_root_of_kind hn (by rw [hk]; simp)
    obtain ⟨slot, hslot⟩ := ht.exists_valueSlot hp hnp hk c
    simp only [hslot, ht.keyOf_eq hp hnp]
    refine ends_done ((h.write ht hp hnp hk hacc hslot x rfl).mono ?_ ?_)
    · exact fun _ s' hs => ⟨_, rfl, hs⟩
    · exact fun e s' ⟨he, hshort⟩ => Or.inr ⟨he, _, .write hc, hshort⟩

theorem endsShowing_append (idx : List Int32) (x : Scalar) :
    EndsShowing t g (fun v s' => s'.Extends t g v) (Action.Targets t n (.append idx x)) s
      (Action.run t n (.append idx x)) (View.perform t n (.append idx x)) := by
  unfold Action.run View.perform
  refine endsShowing_atIndex h.extends_self fun p c hspace hc => ?_
  obtain ⟨hp, hnp⟩ := Layout.of_parentNode ht hn hspace
  have refused {e : AccessError} :
      (s = s ∧ ∃ v, EStateM.Result.error (α := Answer) e g.view = .error e v ∧
        s.Extends t g v) ∨
      e.IsShortage ∧ ∃ y, Action.Targets t n (.append idx x) y ∧ s.FallsShort t g y :=
    Or.inl ⟨rfl, _, rfl, h.extends_self⟩
  unfold EndsShowing
  -- the checks come before any change, in this order
  cases hdim : n.listCapacity .append with
  | error e =>
    unfold StoreM.append
    exact Ends.bind (Ends.bind (StoreM.ends_look_refused (by rw [hdim]; rfl) refused))
  | ok dim =>
  obtain ⟨axis, chunk, hk⟩ := Node.of_listCapacity hdim
  cases hm : t.onlyPlace? n with
  | none =>
    unfold StoreM.append
    refine Ends.bind (Ends.bind (StoreM.ends_look (by rw [hdim]; rfl) ?_))
    simp only [hm]
    exact StoreM.ends_throw refused
  | some m =>
  dsimp only
  cases hd : m.accessType .append with
  | error e =>
    unfold StoreM.append
    refine Ends.bind (Ends.bind (StoreM.ends_look (by rw [hdim]; rfl) ?_))
    simp only [hm]
    exact Ends.bind (StoreM.ends_look_refused (by rw [hd]; rfl) refused)
  | ok d =>
  obtain ⟨info, hmk, hacc, rfl⟩ := Node.of_accessType hd
  dsimp only
  generalize hlen : (g.view.activate (t.place p c p)).length (t.place p c p) n = len
  -- the list is full once its length with the cell in use is the capacity
  refine Ends.bind ((h.append ht hp hnp hk hm hmk hacc c x rfl hlen).mono ?_ ?_)
  · rintro l s' ⟨hl, hlt, hs⟩
    refine StoreM.ends_pure ⟨_, ?_, hs⟩
    rw [if_neg (Nat.not_le.2 hlt), ← hl, UInt32.ofNat_toNat]
  · rintro e s' (⟨rfl, hle, hsame, hs⟩ | ⟨he, hshort⟩)
    · exact Or.inl ⟨hsame, _, by rw [if_pos hle], hs⟩
    · exact Or.inr ⟨he, _, .append hspace hc, hshort⟩

theorem endsAs_read (idx : List Int32) :
    EndsAs t g (Action.Targets t n (.read idx)) s (Action.run t n (.read idx))
      (View.perform t n (.read idx)) := by
  unfold Action.run View.perform
  refine h.endsAs_atIndex fun p c hp hc => ?_
  cases hp
  unfold EndsAs EndsShowing
  cases hd : n.accessType .read with
  | error e =>
    refine Ends.bind (StoreM.ends_look_refused (e := e) ?_ (Or.inl ⟨rfl, _, rfl, h.shows_self⟩))
    unfold Store.read
    rw [hd]
    rfl
  | ok d =>
    obtain ⟨info, hk, hacc, rfl⟩ := Node.of_accessType hd
    obtain ⟨p, hp, hnp⟩ := ht.ne_root_of_kind hn (by rw [hk]; simp)
    obtain ⟨slot, hslot⟩ := ht.exists_valueSlot hp hnp hk c
    obtain ⟨hon, hoff⟩ := h.read ht hp hnp hk hacc hslot
    simp only [hslot, ht.keyOf_eq hp hnp]
    by_cases hact : g.Active t (t.place n c n)
    · refine Ends.bind (StoreM.ends_look (hon hact) (StoreM.ends_pure ⟨_, ?_, h.shows_self⟩))
      rw [if_pos (h.sound.active_iff.1 hact)]
      rfl
    · refine Ends.bind (StoreM.ends_look (hoff hact) (StoreM.ends_pure ⟨_, ?_, h.shows_self⟩))
      rw [if_neg fun hv => hact (h.sound.active_iff.2 hv)]

open Classical in
theorem endsAs_isActive (idx : List Int32) :
    EndsAs t g (Action.Targets t n (.isActive idx)) s (Action.run t n (.isActive idx))
      (View.perform t n (.isActive idx)) := by
  unfold Action.run View.perform
  refine h.endsAs_atIndex fun p c hp hc => ?_
  cases hp
  obtain ⟨b, hb, hiff⟩ := h.isActive ht hn c
  refine Ends.bind (StoreM.ends_look hb (StoreM.ends_pure ⟨_, ?_, h.shows_self⟩))
  rw [h.sound.active_iff] at hiff
  refine congrArg (fun b => EStateM.Result.ok (Answer.flag b) g.view) ?_
  cases b with
  | true => exact decide_eq_true (hiff.1 rfl)
  | false => exact decide_eq_false fun hv => Bool.false_ne_true (hiff.2 hv)

theorem endsAs_length (idx : List Int32) :
    EndsAs t g (Action.Targets t n (.length idx)) s (Action.run t n (.length idx))
      (View.perform t n (.length idx)) := by
  unfold Action.run View.perform
  refine h.endsAs_atIndex fun p c hp hc => ?_
  obtain ⟨hp, hnp⟩ := Layout.of_parentNode ht hn hp
  unfold EndsAs EndsShowing
  cases hdim : n.listCapacity .length with
  | error e =>
    refine Ends.bind (StoreM.ends_look_refused (e := e) ?_ (Or.inl ⟨rfl, _, rfl, h.shows_self⟩))
    unfold Store.length
    rw [hdim]
    rfl
  | ok dim =>
    obtain ⟨axis, chunk, hk⟩ := Node.of_listCapacity hdim
    obtain ⟨len, hlen, hl⟩ := h.length ht hp hnp hk c
    refine Ends.bind (StoreM.ends_look hlen (StoreM.ends_pure ⟨_, ?_, h.shows_self⟩))
    change EStateM.Result.ok (Answer.count (.ofNat (g.length (t.place p c p) n))) g.view = _
    rw [← hl, UInt32.ofNat_toNat]

/-- A call on a node of the tree does to the storage what it does to the view. -/
theorem endsAs_run (a : Action) :
    EndsAs t g (a.Targets t n) s (a.run t n) (View.perform t n a) := by
  cases a with
  | activate idx => exact (h.endsShowing_activate ht hn idx).mono fun _ _ => Extends.shows
  | deactivate idx => exact h.endsAs_deactivate ht hn idx
  | deactivateAll => exact h.endsAs_deactivateAll ht hn
  | write idx x => exact (h.endsShowing_write ht hn idx x).mono fun _ _ => Extends.shows
  | append idx x => exact (h.endsShowing_append ht hn idx x).mono fun _ _ => Extends.shows
  | read idx => exact h.endsAs_read ht hn idx
  | isActive idx => exact h.endsAs_isActive ht hn idx
  | length idx => exact h.endsAs_length ht hn idx

end Store.Represents

end SparseLayout
