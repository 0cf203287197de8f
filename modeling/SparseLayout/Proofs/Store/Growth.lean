import SparseLayout.Proofs.Store.Commute
import SparseLayout.Proofs.Store.Failure

namespace SparseLayout

open Layout (Node)
open Layout.Node (around number)

/-- Activating, writing and appending put cells to use. -/
def Action.enlarges : Action → Bool
  | .activate _ | .write .. | .append .. => true
  | _ => false

/-- The operation ends in the storage that it started in, with a result or refused. -/
def StoreM.Looks {α : Type} (m : StoreM α) (s : Store) : Prop :=
  (∃ a, m s = .ok a s) ∨ ∃ e, m s = .error (.refused e) s

/-- The address of the cell of a node at an index. -/
def StoreM.cellAddress (t : Layout) (n : Node) (idx : List Int32) : StoreM Address :=
  atIndex (.ok n) idx fun c => look fun s => s.address t n c

/-- The cell of `m` at `d` lies on the way to the cell of `n` at `c`, or it is an element, in a list
on that way, up to the one on it. -/
def Layout.OnWay (t : Layout) (n : Node) (c : Coords) (m : Node) (d : Coords) : Prop :=
  t.Above m n ∧ (d = around n m c ∨ m.type = .dynamic ∧
    around m (t.outer m) d = around n (t.outer m) c ∧ number m m d ≤ number n m c)

/-- A call may put the cell of `m` at `d` to use: it lies on the way to the cell addressed, where
the element that is appended to a list is the one with the number that the call returned. -/
def Call.Opens (t : Layout) (call : Call) (ans : Answer) (m : Node) (d : Coords) : Prop :=
  match call.action with
  | .activate idx | .write idx _ => ∃ c, call.node.resolve idx = .ok c ∧ t.OnWay call.node c m d
  | .append idx _ => ∃ p c, t.parentNode call.node = .ok p ∧ p.resolve idx = .ok c ∧
      (t.OnWay p c m d ∨ m = call.node ∧ around m p d = c ∧
        ∃ k : UInt32, ans = .count k ∧ number m m d = k.toNat)
  | _ => False

/-- From one storage to the next, cells in use stay in use where they are and all but the one
written read the same; the sparse cells that come into use are among those told. -/
structure Store.Enlarged (s s' : Store) (t : Layout) (written : Option (Node × Coords))
    (opens : Node → Coords → Prop) : Prop where
  active : ∀ {m d}, t.Has m → s.isActive t m d = .ok true →
    s'.isActive t m d = .ok true ∧ s'.address t m d = s.address t m d
  read : ∀ {m d}, t.HasCell m d → s.isActive t m d = .ok true → written ≠ some (m, d) →
    s'.read t m d = s.read t m d
  opened : ∀ {m d}, t.HasCell m d → m.type.isSparse = true → s.isActive t m d = .ok false →
    s'.isActive t m d = .ok true → opens m d

variable {t : Layout} {g g' : Contents} {v v' : View} {m n p : Node} {c d : Coords}
  {q x : Position} {i k : Nat} {idx : List Int32}

namespace StoreM

variable {α β : Type} {f : StoreM α} {s : Store}

theorem Looks.bind {h : α → StoreM β} (hf : f.Looks s)
    (hh : ∀ a, f s = .ok a s → (h a).Looks s) : (f >>= h).Looks s := by
  change Looks (EStateM.bind f h) s
  unfold Looks EStateM.bind
  rcases hf with ⟨a, ha⟩ | ⟨e, he⟩
  · rw [ha]
    exact hh a ha
  · rw [he]
    exact Or.inr ⟨e, rfl⟩

theorem looks_pure (a : α) : Looks (pure a) s := Or.inl ⟨a, rfl⟩

/-- Looking fails only where it is refused. -/
theorem looks_look {f : Store → Except Fault α} (h : f s ≠ .error .outside) : (look f).Looks s := by
  unfold Looks look
  cases hf : f s with
  | ok a => exact Or.inl ⟨a, rfl⟩
  | error e =>
    cases e with
    | outside => exact absurd hf h
    | refused e => exact Or.inr ⟨e, rfl⟩

theorem of_look_refuse {r : Except AccessError α} {a : α}
    (h : look (fun _ => refuse r) s = .ok a s) : r = .ok a := by
  unfold look at h
  cases r with
  | error e => cases h
  | ok b =>
    cases h
    rfl

theorem looks_refuse (r : Except AccessError α) : Looks (look fun _ => refuse r) s :=
  looks_look (by cases r <;> simp [refuse, Except.mapError])

theorem looks_atIndex {space : Except AccessError Node} {op : Coords → StoreM α}
    (h : ∀ p c, space = .ok p → p.resolve idx = .ok c → (op c).Looks s) :
    (atIndex space idx op).Looks s := by
  unfold atIndex
  refine Looks.bind (looks_refuse space) fun p hp => ?_
  exact Looks.bind (looks_refuse _) fun c hc => h p c (of_look_refuse hp) (of_look_refuse hc)

end StoreM

namespace Store.Represents

variable {s : Store} (ht : t.WellFormed) (h : s.Represents t g) (hn : t.Has n)
include ht h hn

theorem looks_isActive (idx : List Int32) : (Call.run t ⟨n, .isActive idx⟩).Looks s := by
  refine StoreM.looks_atIndex fun p c _ _ => ?_
  obtain ⟨b, hb, -⟩ := h.isActive ht hn c
  exact (StoreM.looks_look (by rw [hb]; simp)).bind fun _ _ => StoreM.looks_pure _

theorem looks_cellAddress (idx : List Int32) : (StoreM.cellAddress t n idx).Looks s := by
  refine StoreM.looks_atIndex fun p c _ _ => StoreM.looks_look ?_
  by_cases ha : g.Active t (t.place n c n)
  · obtain ⟨a, haddr, -⟩ := h.address_of_active ht ha
    rw [haddr]
    simp
  · rw [h.address_of_not_active ht hn ha]
    simp

theorem looks_read (idx : List Int32) : (Call.run t ⟨n, .read idx⟩).Looks s := by
  refine StoreM.looks_atIndex fun p c _ _ => ?_
  refine StoreM.Looks.bind (StoreM.looks_look ?_) fun _ _ => StoreM.looks_pure _
  cases hd : n.accessType .read with
  | error e =>
    rw [read_refused hd]
    simp
  | ok dtype =>
    obtain ⟨slot, -, hon, hoff⟩ := h.shows_self.read ht hn hd c
    by_cases ha : g.view.Active t (t.place n c n)
    · rw [hon ha]
      simp
    · rw [hoff ha]
      simp

theorem looks_length (idx : List Int32) : (Call.run t ⟨n, .length idx⟩).Looks s := by
  refine StoreM.looks_atIndex fun p c hspace _ => ?_
  obtain ⟨hp, hnp⟩ := Layout.of_parentNode ht hn hspace
  refine StoreM.Looks.bind (StoreM.looks_look ?_) fun _ _ => StoreM.looks_pure _
  cases hdim : n.listCapacity .length with
  | error e =>
    unfold Store.length
    rw [hdim]
    simp [refuse, Except.mapError, bind, Except.bind]
  | ok dim =>
    obtain ⟨axis, chunk, hk⟩ := Node.of_listCapacity hdim
    obtain ⟨len, hlen, -⟩ := h.length ht hp hnp hk c
    rw [hlen]
    simp

/-- Where a cell was activated it is in use and has an address, and activating it again does
nothing. -/
theorem activated {s' : Store} {ans : Answer} (hc : n.resolve idx = .ok c)
    (hrun : Call.run t ⟨n, .activate idx⟩ s = .ok ans s') :
    s'.isActive t n c = .ok true ∧ (∃ a, s'.address t n c = .ok a) ∧
      Call.run t ⟨n, .activate idx⟩ s' = .ok .done s' := by
  have hends := h.endsShowing_activate ht hn idx
  rw [EndsShowing, StoreM.Ends, show Action.run t n (.activate idx) = Call.run t ⟨n, .activate idx⟩
    from rfl, hrun] at hends
  obtain ⟨v, hv, g', h', rfl, -, -⟩ := hends
  simp only [View.perform, atIndex, hc, EStateM.Result.ok.injEq] at hv
  have ha : g'.Active t (t.place n c n) := by
    rw [h'.sound.active_iff, ← hv.2]
    exact View.active_activate _ (ht.locates_place n c hn)
  obtain ⟨a, haddr, -⟩ := h'.address_of_active ht ha
  refine ⟨(h'.isActive_eq_true_iff ht hn).2 ha, ⟨a, haddr⟩, ?_⟩
  obtain ⟨cell, hloc, -⟩ := h'.locate_of_active ht ha
  rw [← lookup_branch] at hloc
  -- the way to the cell is walked once more, and every level of it is there
  apply StoreM.Ends.eq_ok
  refine ends_atIndex (fun _ he => by cases he) (fun p e hp he => ?_) fun p d hp hd => ?_
  · cases hp
    rw [hc] at he
    cases he
  · cases hp
    rw [hc, Except.ok.injEq] at hd
    subst hd
    refine ends_done (StoreM.Ends.bind (StoreM.ends_get (StoreM.Ends.bind ?_)))
    exact StoreM.Ends.of_ok (StoreM.reach_of_lookup hloc) (StoreM.ends_pure ⟨rfl, rfl⟩)

end Store.Represents

namespace View

/-- A list that got longer is on the way to the cell that was activated. -/
theorem length_of_activate (h : i < (v.activate x).length q m) :
    i < v.length q m ∨ ∃ k, (m, k) :: q <:+ x ∧ i ≤ k := by
  induction x with
  | nil => exact Or.inl h
  | cons y x ih =>
    obtain ⟨n, k⟩ := y
    have tail (h : i < (v.activate x).length q m) :
        i < v.length q m ∨ ∃ j, (m, j) :: q <:+ (n, k) :: x ∧ i ≤ j :=
      (ih h).imp_right fun ⟨j, hs, hj⟩ => ⟨j, hs.trans (List.suffix_cons _ _), hj⟩
    rw [View.activate, raise] at h
    cases hc : n.container <;> simp only [hc] at h
    case dynamic =>
      split at h
      · rename_i he
        obtain ⟨rfl, rfl⟩ := he
        rcases Nat.lt_or_ge i ((v.activate q).length q m) with hlt | hge
        · exact tail hlt
        · exact Or.inr ⟨k, List.suffix_rfl, by omega⟩
      · exact tail h
    all_goals exact tail h

/-- A level that was raised is on the way to the cell that was activated; of a list, the elements up
to the one on the way. -/
theorem on_of_on_activate (h : (v.activate x).On m i q) : v.On m i q ∨ (m, i) :: q <:+ x ∨
    (∃ axis cap bytes, m.container = .dynamic axis cap bytes) ∧ ∃ k, (m, k) :: q <:+ x ∧ i ≤ k := by
  unfold On at *
  cases hc : m.container with
  | pointer | bitmasked _ =>
    simp only [hc] at h ⊢
    exact (on_of_activate h).imp_right Or.inl
  | dynamic axis cap bytes =>
    simp only [hc] at h ⊢
    exact (length_of_activate h).imp_right fun h => Or.inr ⟨⟨axis, cap, bytes, rfl⟩, h⟩
  | _ => exact Or.inl trivial

/-- What an operation that puts cells to use does to a view. -/
inductive Enlarges (t : Layout) (n : Node) (v : View) : Action → Answer → View → Prop
  | activate {idx : List Int32} {c : Coords} (hc : n.resolve idx = .ok c) :
    Enlarges t n v (.activate idx) .done (v.activate (t.place n c n))
  | write {idx : List Int32} {x : Scalar} {c : Coords} {d : DataType} {slot : ValueSlot}
    (hc : n.resolve idx = .ok c) (hd : n.accessType .write = .ok d)
    (hs : t.valueSlot n c = .ok slot) :
    Enlarges t n v (.write idx x) .done ((v.activate (t.place n c n)).setWord (keyOf t n c).1
      (keyOf t n c).2 (d.intoSlot slot (v.word (keyOf t n c).1 (keyOf t n c).2) x))
  | append {idx : List Int32} {x : Scalar} {p m : Node} {c : Coords} {axis : Axis}
    {dim chunk : UInt32} {len w : Nat} (hp : t.parentNode n = .ok p) (hc : p.resolve idx = .ok c)
    (hk : n.kind = .dynamic axis dim chunk)
    (hlen : (v.activate (t.place p c p)).length (t.place p c p) n = len) (hlt : len < dim.toNat) :
    Enlarges t n v (.append idx x) (.count (.ofNat len))
      (((v.activate (t.place p c p)).setLength (t.place p c p) n (len + 1)).setWord
        ((n, len) :: t.place p c p) m w)

theorem enlarges_of_perform {a : Action} {ans : Answer} (ha : a.enlarges = true)
    (h : View.perform t n a v = .ok ans v') : Enlarges t n v a ans v' := by
  have hperforms : Performs t n v a _ := performs a
  rw [h] at hperforms
  cases hperforms with
  | activate hc => exact .activate hc
  | write hc hd hs => exact .write hc hd hs
  | append hp hc hk hm hlen hlt => exact .append hp hc hk hlen hlt
  | looked hlooks => cases a <;> simp [Action.looks, Action.enlarges] at ha hlooks
  | deactivate | deactivateAll => cases ha

end View

namespace Layout

/-- Sparse cells that come before, or at, a cell on the way to another. -/
theorem OnWay.of_suffix (ht : t.WellFormed) (hc : t.HasCell n c) (hm : t.HasCell m d)
    (hsp : m.type.isSparse = true) (hs : (m, k) :: t.place m d (t.outer m) <:+ t.place n c n)
    (hk : number m m d = k ∨ m.type = .dynamic ∧ number m m d ≤ k) : t.OnWay n c m d := by
  obtain ⟨hp, hmp⟩ := ht.child_outer hm.has (Node.kind_ne_root_of_sparse hsp)
  obtain ⟨l, hl, he⟩ := (ht.suffix_place hc.has).1 hs
  obtain rfl : m = l := by
    have hnode := congrArg t.nodeAt he
    rwa [ht.nodeAt_place n c (hl.has hc.has)] at hnode
  have hpm := Above.child hp hmp
  rw [ht.place_child n c hp hmp, List.cons.injEq, Prod.mk.injEq] at he
  obtain ⟨⟨-, rfl⟩, hplace⟩ := he
  refine ⟨hl, hk.imp (fun hk => ?_) fun ⟨hd, hk⟩ => ⟨hd, ?_, hk⟩⟩
  · -- the cell is the one on the way
    refine ht.place_self_inj hm.has (ht.not_isWord_of_sparse hm.has hsp) hm.addressable hm.inside
      (hc.around ht hl).inside ?_
    rw [(Above.refl m).place_around ht.toCharted hl hc.has hc.addressable, ht.place_child m d hp hmp,
      ht.place_child n c hp hmp, hk, hplace]
  · -- the list is the one on the way
    have hw : ¬ (t.outer m).isWord := by
      refine ht.not_isWord_of_child hp hmp fun info hk => ?_
      rw [Node.not_sparse_of_place hk] at hsp
      cases hsp
    refine ht.place_self_inj hp hw (hm.around ht hpm).addressable (hm.around ht hpm).inside
      (hc.around ht (hpm.trans hl)).inside ?_
    rw [(Above.refl _).place_around ht.toCharted hpm hm.has hm.addressable, hplace,
      (Above.refl _).place_around ht.toCharted (hpm.trans hl) hc.has hc.addressable]

end Layout

namespace View

/-- A sparse cell that activating another one puts to use is on the way to it. -/
theorem onWay_of_activate (ht : t.WellFormed) (hc : t.HasCell n c) (hm : t.HasCell m d)
    (hsp : m.type.isSparse = true) (hoff : ¬ v.On m (number m m d) (t.place m d (t.outer m)))
    (hon : (v.activate (t.place n c n)).On m (number m m d) (t.place m d (t.outer m))) :
    t.OnWay n c m d := by
  rcases on_of_on_activate hon with hon | hs | ⟨⟨axis, cap, bytes, hcont⟩, k, hs, hk⟩
  · exact absurd hon hoff
  · exact .of_suffix ht hc hm hsp hs (Or.inl rfl)
  · exact .of_suffix ht hc hm hsp hs (Or.inr ⟨ht.type_of_dynamic hm.has hcont, hk⟩)

/-- A sparse cell that an operation puts to use is among those that it opens. -/
theorem Enlarges.opens (ht : t.WellFormed) (hn : t.Has n) {a : Action} {ans : Answer}
    (h : v.Enlarges t n a ans v') (hm : t.HasCell m d) (hsp : m.type.isSparse = true)
    (hoff : ¬ v.On m (number m m d) (t.place m d (t.outer m)))
    (hon : v'.On m (number m m d) (t.place m d (t.outer m))) :
    Call.Opens t ⟨n, a⟩ ans m d := by
  cases h with
  | @activate idx c hc => exact ⟨c, hc, onWay_of_activate ht (.of_resolve ht hn hc) hm hsp hoff hon⟩
  | @write idx x c dtype slot hc hd hs =>
    exact ⟨c, hc, onWay_of_activate ht (.of_resolve ht hn hc) hm hsp hoff hon⟩
  | @append idx x p l c axis dim chunk len w hp hc hk hlen hlt =>
    obtain ⟨hphas, hnp⟩ := Layout.of_parentNode ht hn hp
    have hcell := Layout.HasCell.of_resolve ht hphas hc
    refine ⟨p, c, hp, hc, ?_⟩
    by_cases hact : (v.activate (t.place p c p)).On m (number m m d) (t.place m d (t.outer m))
    · exact Or.inl (onWay_of_activate ht hcell hm hsp hoff hact)
    -- the list has one element more, which is the last one
    obtain ⟨cap, bytes, hcont⟩ := ht.container_of_dynamic hn hk
    have hlist : t.place m d (t.outer m) = t.place p c p ∧ m = n := by
      by_contra hne
      refine hact ?_
      unfold On at hon ⊢
      simpa only [setWord, setLength, if_neg hne] using hon
    obtain ⟨hplace, rfl⟩ := hlist
    rw [Layout.outer_eq ht hphas hnp] at hplace hon hact
    have hdim := dim.toNat_lt
    rw [hplace, On, hcont] at hact hon
    simp only [setWord, setLength, and_self, if_true] at hon hact
    have hpm := Layout.Above.child hphas hnp
    have hw : ¬ p.isWord := ht.not_isWord_of_child hphas hnp (by rw [hk]; simp)
    refine Or.inr ⟨rfl, ?_, _, rfl, ?_⟩
    · refine ht.place_self_inj hphas hw hcell.addressable (hm.around ht hpm).inside hcell.inside ?_
      rw [(Layout.Above.refl p).place_around ht.toCharted hpm hm.has hm.addressable, hplace]
    · rw [UInt32.toNat_ofNat', Nat.mod_eq_of_lt (by omega)]
      omega

/-- An operation that puts cells to use changes no value but the one written. -/
theorem Enlarges.value (ht : t.WellFormed) (hn : t.Has n) {a : Action} {ans : Answer}
    (h : v.Enlarges t n a ans v') (hm : t.HasCell m d) (hon : v.Active t (t.place m d m))
    (hne : Call.written? ⟨n, a⟩ ≠ some (m, d)) {e : DataType} {slot : ValueSlot}
    (he : m.accessType .read = .ok e) (hslot : t.valueSlot m d = .ok slot) :
    e.inSlot slot (v'.word (keyOf t m d).1 (keyOf t m d).2) =
      e.inSlot slot (v.word (keyOf t m d).1 (keyOf t m d).2) := by
  cases h with
  | activate hc => rw [word_activate]
  | @write idx x c dtype slot' hc hd hs =>
    obtain ⟨-, ha, hw⟩ := Layout.HasCell.of_resolve ht hn hc
    rw [word_setWord, word_activate]
    split
    · rename_i hkey
      -- another value in the word that was written
      have hother : (m, d) ≠ (n, c) := by
        rintro hsame
        refine hne ?_
        simp only [Call.written?, hd, hc, hsame]
      rw [← hkey.1, ← hkey.2]
      obtain ⟨hread, hread', bytes, o, o', rfl, rfl, hle, hle', h8, hapart⟩ :=
        ht.slots_of_shared hn hm.has ha hw hm.inside hd he hs hslot hother
          (Prod.ext hkey.1 hkey.2)
      exact DataType.inSlot_intoSlot_apart hread hread' hle hle' h8 hapart _ _
    · rfl
  | @append idx x p l c axis dim chunk len w hp hc hk hlen hlt =>
    obtain ⟨cap, bytes, hcont⟩ := ht.container_of_dynamic hn hk
    rw [word_setWord, if_neg, setLength, word_activate]
    rintro ⟨hkey, -⟩
    -- the new element was not in use, so no value in use lies in it
    have hs := keyOf_suffix t m d
    rw [hkey] at hs
    have hlong := (active_iff.1 hon).2 n len _ hs
    rw [length_activate_of_suffix _ List.suffix_rfl] at hlen
    rw [On, hcont] at hlong
    exact absurd hlong (by simp [hlen])

end View

namespace Contents

/-- A sparse cell that its container has in use lies in cells in use. -/
theorem Sound.active_of_on (ht : t.WellFormed) (hs : g.Sound t) (hl : t.Locates ((m, i) :: q))
    (hsp : m.type.isSparse = true) (hon : g.On m i q) : g.Active t ((m, i) :: q) := by
  refine ⟨?_, hl.2.1, hl.2.2, hon⟩
  unfold On at hon
  rcases (ht.isSparse_iff (ht.has_child hl.2.1)).1 hsp with hc | ⟨o, hc⟩ | ⟨axis, cap, bytes, hc⟩ <;>
    simp only [hc] at hon
  · exact (hs.block_on hon).1
  · exact (hs.mask_on hon).1
  · exact hs.active_of_length (n := m) (Nat.lt_of_le_of_lt (Nat.zero_le i) hon)

end Contents

namespace Store

variable {s s' : Store}

namespace Represents

variable (ht : t.WellFormed) (h : s.Represents t g)
include ht h

/-- Two storages answer reads alike where they hold the same value. -/
theorem read_eq (h' : s'.Represents t g') (hn : t.Has n) (ha : g.Active t (t.place n c n))
    (ha' : g'.Active t (t.place n c n))
    (hvalue : ∀ {e slot}, n.accessType .read = .ok e → t.valueSlot n c = .ok slot →
      e.inSlot slot (g'.word (View.keyOf t n c).1 (View.keyOf t n c).2) =
        e.inSlot slot (g.word (View.keyOf t n c).1 (View.keyOf t n c).2)) :
    s'.read t n c = s.read t n c := by
  cases hd : n.accessType .read with
  | error e => rw [read_refused hd, read_refused hd]
  | ok dtype =>
    obtain ⟨slot, hslot, hon, -⟩ := h.shows_self.read ht hn hd c
    obtain ⟨slot', hslot', hon', -⟩ := h'.shows_self.read ht hn hd c
    rw [hslot, Except.ok.injEq] at hslot'
    subst hslot'
    rw [hon (h.sound.active_iff.1 ha), hon' (h'.sound.active_iff.1 ha')]
    exact congrArg Except.ok (hvalue hd hslot)

/-- What an operation that puts cells to use does to a storage. -/
theorem enlarged (hn : t.Has n) {a : Action} (ha : a.enlarges = true) {ans : Answer}
    (hrun : Call.run t ⟨n, a⟩ s = .ok ans s') :
    s.Enlarged s' t (Call.written? ⟨n, a⟩) (Call.Opens t ⟨n, a⟩ ans) := by
  have hends : EndsShowing t g (fun v s' => s'.Extends t g v) (a.Targets t n) s (a.run t n)
      (View.perform t n a) := by
    cases a with
    | activate idx => exact h.endsShowing_activate ht hn idx
    | write idx x => exact h.endsShowing_write ht hn idx x
    | append idx x => exact h.endsShowing_append ht hn idx x
    | _ => cases ha
  rw [EndsShowing, StoreM.Ends, show a.run t n = Call.run t ⟨n, a⟩ from rfl, hrun] at hends
  obtain ⟨v, hv, g', h', rfl, hle, -⟩ := hends
  have henl := View.enlarges_of_perform ha hv
  constructor
  · intro m d hm hon
    have hact := (h.isActive_eq_true_iff ht hm).1 hon
    obtain ⟨a, haddr, hstart⟩ := h.address_of_active ht hact
    obtain ⟨a', haddr', hstart'⟩ := h'.address_of_active ht (hle.active hact)
    refine ⟨(h'.isActive_eq_true_iff ht hm).2 (hle.active hact), ?_⟩
    rw [haddr, haddr', Address.ext_toNat (hstart'.trans
      ((hle.cellStart_eq h.sound hact).trans hstart.symm))]
  · intro m d hm hon hne
    have hact := (h.isActive_eq_true_iff ht hm.has).1 hon
    exact h.read_eq ht h' hm.has hact (hle.active hact) fun he hslot =>
      henl.value ht hn hm (h.sound.active_iff.1 hact) hne he hslot
  -- whatever a sparse container has in use lies in cells in use, so the cell was not in use because
  -- its own container did not have it
  · intro m d hm hsp hoff hon
    have hact := (h'.isActive_eq_true_iff ht hm.has).1 hon
    have hnot := (h.isActive_eq_false_iff ht hm.has).1 hoff
    obtain ⟨hp, hmp⟩ := ht.child_outer hm.has (Node.kind_ne_root_of_sparse hsp)
    have hl := ht.locates_place m d hm.has
    rw [ht.place_child m d hp hmp] at hact hnot hl
    refine henl.opens ht hn hm hsp (fun hon => hnot ?_) (h'.sound.on_iff.1 hact.2.2.2)
    exact h.sound.active_of_on ht hl hsp (h.sound.on_iff.2 hon)

end Represents

variable {s₀ : Store} {hist : List Call}

/-- After any run, looking at cells and lists leaves the storage as it is. A cell that was activated
is in use and has an address, and activating it again does nothing. Activating, writing and appending
keep cells in use where they are, change no value but the one written, and put to use only sparse
cells on the way to the one addressed and the elements before it. -/
theorem session_enlarged (h : t.Starts s₀) (hh : t.Calls hist) (hs : (s₀.session t hist).2 = s)
    (hn : t.Has n) :
    (∀ idx, (Call.run t ⟨n, .isActive idx⟩).Looks s ∧ (StoreM.cellAddress t n idx).Looks s ∧
      (Call.run t ⟨n, .read idx⟩).Looks s ∧ (Call.run t ⟨n, .length idx⟩).Looks s) ∧
    (∀ idx c ans s', n.resolve idx = .ok c → Call.run t ⟨n, .activate idx⟩ s = .ok ans s' →
      s'.isActive t n c = .ok true ∧ (∃ a, s'.address t n c = .ok a) ∧
        Call.run t ⟨n, .activate idx⟩ s' = .ok .done s') ∧
    ∀ a ans s', a.enlarges = true → Call.run t ⟨n, a⟩ s = .ok ans s' →
      s.Enlarged s' t (Call.written? ⟨n, a⟩) (Call.Opens t ⟨n, a⟩ ans) := by
  have ht := h.wellFormed
  obtain ⟨rs, v, -, -, g, hg, -, -⟩ := h.shows.session ht hh
  rw [hs] at hg
  refine ⟨fun idx => ?_, fun idx c ans s' => hg.activated ht hn,
    fun a ans s' ha hrun => hg.enlarged ht hn ha hrun⟩
  exact ⟨hg.looks_isActive ht hn idx, hg.looks_cellAddress ht hn idx, hg.looks_read ht hn idx,
    hg.looks_length ht hn idx⟩

/-- Beside a value under a pointer cell, a list grows to three elements: the value stays where it is,
the second element comes into use with the third, and activating the third again does nothing. -/
theorem session_enlarged_sample :
    let t := Sample.layout
    let s := (Sample.store.session t [⟨Sample.node 3, .write [1, 3] (.int 42)⟩]).2
    (StoreM.cellAddress t (Sample.node 3) [1, 3]).Looks s ∧
    ∃ s' c, Call.run t ⟨Sample.node 4, .activate [2]⟩ s = .ok .done s' ∧
      Call.run t ⟨Sample.node 4, .activate [2]⟩ s' = .ok .done s' ∧
      s'.address t (Sample.node 3) Sample.cell = s.address t (Sample.node 3) Sample.cell ∧
      s'.read t (Sample.node 3) Sample.cell = .ok (.int 42) ∧
      (Sample.node 4).resolve [1] = .ok c ∧
        Call.Opens t ⟨Sample.node 4, .activate [2]⟩ .done (Sample.node 4) c := by
  intro t s
  have hh : t.Calls [⟨Sample.node 3, .write [1, 3] (.int 42)⟩] := by
    unfold Layout.Calls
    decide +kernel
  have ht := Sample.starts.wellFormed
  have hn : t.Has (Sample.node 4) := by decide +kernel
  have hm : t.Has (Sample.node 3) := by decide +kernel
  obtain ⟨-, hagain, hgrown⟩ := session_enlarged Sample.starts hh rfl hn
  obtain ⟨hlooks, -, -⟩ := session_enlarged Sample.starts hh rfl hm
  refine ⟨(hlooks [1, 3]).2.1, ?_⟩
  have hdone : (Call.run t ⟨Sample.node 4, .activate [2]⟩ s matches .ok .done _) = true := by
    decide +kernel
  have hcell : t.HasCell (Sample.node 3) Sample.cell :=
    .of_resolve ht hm (eq_ok_get (r := (Sample.node 3).resolve [1, 3]) _)
  have helement := eq_ok_get (r := (Sample.node 4).resolve [1]) (by decide +kernel)
  split at hdone
  · rename_i s' hrun
    have hlarger := hgrown (.activate [2]) .done s' rfl hrun
    have hs' : (s.session t [⟨Sample.node 4, .activate [2]⟩]).2 = s' := by
      rw [session_ok hrun]
      rfl
    have hon : s.isActive t (Sample.node 3) Sample.cell = .ok true := by decide +kernel
    refine ⟨s', _, hrun, (hagain [2] _ .done s' (eq_ok_get (by decide +kernel)) hrun).2.2,
      (hlarger.active hm hon).2, ?_, helement, ?_⟩
    · rw [hlarger.read hcell hon (by simp [Call.written?])]
      decide +kernel
    · refine hlarger.opened (.of_resolve ht hn helement) (by decide +kernel) (by decide +kernel) ?_
      rw [← hs']
      decide +kernel
  · cases hdone

end Store

end SparseLayout
