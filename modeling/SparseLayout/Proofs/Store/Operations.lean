import SparseLayout.Proofs.Layout.Slot
import SparseLayout.Proofs.Store.Deactivate
import SparseLayout.Proofs.Store.Reach
import SparseLayout.Proofs.Store.Slots

namespace SparseLayout

open Layout (Node Datum Part)
open Layout.Node (addressSlot number)
open StoreM (Ends never)

theorem Layout.Node.accessType_of_place {n : Node} {info : PlaceInfo} (hk : n.kind = .place info)
    (hd : info.member.dtype.checkAccess = .ok ()) (op : Operation) :
    n.accessType op = .ok info.member.dtype := by
  unfold Node.accessType
  rw [hk]
  simp only [hd, bind, Except.bind, pure, Except.pure]

/-- The storage holds contents with this view; where `tight`, lists have just the chunks that
their elements need. -/
def Store.Shows (s : Store) (t : Layout) (v : View) (tight : Prop) : Prop :=
  ∃ g, s.Represents t g ∧ g.view = v ∧ (tight → g.Tight)

/-- The storage holds contents with this view in which all that was in use is where it was, and no
list has gained chunks that it does not need. -/
def Store.Extends (s : Store) (t : Layout) (g : Contents) (v : View) : Prop :=
  ∃ g', s.Represents t g' ∧ g'.view = v ∧ g.Le g' ∧ g.Thrifty g'

theorem Store.Extends.shows {s : Store} {t : Layout} {g : Contents} {v : View}
    (h : s.Extends t g v) : s.Shows t v g.Tight := by
  obtain ⟨g', hg', hv, -, hthrifty⟩ := h
  exact ⟨g', hg', hv, hthrifty.tight⟩

namespace View

open Classical in
/-- One cell is deactivated with all that is below it; of a list, every element. -/
noncomputable def deactivate (v : View) (n : Node) (k : Nat) (q : Position) : View :=
  match n.container with
  | .pointer => v.forget (Position.From ((n, k) :: q))
  | .bitmasked _ =>
    if v.on ((n, k) :: q) then (v.forget (Position.From ((n, k) :: q))).wipe ((n, k) :: q) else v
  | .dynamic .. => v.forget (q.Inside n)
  | _ => v

/-- All cells of a node are deactivated with all that is below them; of the root, all below it. -/
noncomputable def deactivateAll (v : View) (n : Node) : View :=
  if n.id = 0 then v.forget (Position.Below []) else v.forget {y | ∃ k, (n, k) ∈ y}

end View

namespace Contents

open Classical in
/-- One cell is taken out of use with all that is below it; of a list, every element. Of a cell that
stays where it is, the words are cleared. -/
noncomputable def deactivate (g : Contents) (n : Node) (k : Nat) (q : Position) : Contents :=
  match n.container with
  | .pointer => g.forget (Position.From ((n, k) :: q))
  | .bitmasked _ =>
    if g.On n k q then (g.forget (Position.From ((n, k) :: q))).wipe ((n, k) :: q) else g
  | .dynamic .. => g.forget (q.Inside n)
  | _ => g

/-- All cells of a node are taken out of use with all that is below them; of the root, all below it.
-/
noncomputable def deactivateAll (g : Contents) (n : Node) : Contents :=
  if n.id = 0 then g.forget (Position.Below []) else g.forget {y | ∃ k, (n, k) ∈ y}

variable {t : Layout} {g : Contents} {n : Node} {k : Nat} {q : Position}

theorem Sound.view_deactivate (hs : g.Sound t) (n : Node) (k : Nat) (q : Position) :
    (g.deactivate n k q).view = g.view.deactivate n k q := by
  have hon := hs.on_iff (n := n) (k := k) (p := q)
  unfold deactivate View.deactivate
  cases hc : n.container with
  | pointer | dynamic => exact g.view_forget _
  | bitmasked m =>
    have hon : g.On n k q ↔ g.view.on ((n, k) :: q) = true := by rw [hon, View.On, hc]
    dsimp only
    by_cases h : g.On n k q
    · rw [if_pos h, if_pos (hon.1 h), view_wipe, view_forget]
    · rw [if_neg h, if_neg fun he => h (hon.2 he)]
  | _ => rfl

theorem Tight.deactivate (h : g.Tight) : (g.deactivate n k q).Tight := by
  unfold Contents.deactivate
  cases n.container with
  | pointer | dynamic => exact h.forget
  | bitmasked m =>
    dsimp only
    split
    · exact h.forget
    · exact h
  | _ => exact h

theorem view_deactivateAll (g : Contents) (n : Node) :
    (g.deactivateAll n).view = g.view.deactivateAll n := by
  unfold deactivateAll View.deactivateAll
  split <;> exact g.view_forget _

theorem Tight.deactivateAll (h : g.Tight) : (g.deactivateAll n).Tight := by
  unfold Contents.deactivateAll
  split <;> exact h.forget

/-- Nothing is in use inside a cell that is not active. -/
theorem Sound.deactivate_eq_self (hs : g.Sound t) (ha : ¬ g.Active t q) (k : Nat) :
    g.deactivate n k q = g := by
  have off {y : Position} (hy : g.Keyed y) (hx : ∃ k, (n, k) :: q <:+ y) : False := by
    obtain ⟨k, hx⟩ := hx
    exact ha (hs.active_around hy hx)
  unfold deactivate
  cases hc : n.container with
  | pointer => exact forget_eq_self hs fun y hy hyx => off hy ⟨k, hyx⟩
  | bitmasked m =>
    refine if_neg fun hon => ?_
    simp only [On, hc] at hon
    exact off (y := (n, k) :: q) (Or.inl hon) ⟨k, List.suffix_rfl⟩
  | dynamic axis cap bytes => exact forget_eq_self hs fun y hy hyx => off hy hyx
  | _ => rfl

end Contents

/-- The way to the cell around a container is that to its node without the last step. -/
theorem Store.lookup_parentBranch (s : Store) {t : Layout} (ht : t.WellFormed) {p n : Node}
    (hp : t.Has p) (hn : n ∈ t.childNodes p) (c : Coords) :
    s.lookup n c (t.parentBranch n) s.root = s.locate (t.place n c p) := by
  rw [ht.parentBranch_eq hp hn, lookup_branch]

namespace Store.Represents

variable {s : Store} {t : Layout} {g : Contents} {p n : Node} {info : PlaceInfo}

section

variable (ht : t.WellFormed) (h : s.Represents t g)

include ht h

theorem isActive (hn : t.Has n) (c : Coords) :
    ∃ b, s.isActive t n c = .ok b ∧ (b = true ↔ g.Active t (t.place n c n)) := by
  have hl := ht.locates_place n c hn
  unfold Store.isActive
  rw [lookup_branch]
  by_cases ha : g.Active t (t.place n c n)
  · obtain ⟨a, hloc, -⟩ := h.locate_of_active ht ha
    rw [hloc]
    exact ⟨true, rfl, iff_of_true rfl ha⟩
  · rw [h.locate_of_not_active ht hl ha]
    exact ⟨false, rfl, iff_of_false Bool.false_ne_true ha⟩

theorem isActive_eq_true_iff (hn : t.Has n) {c : Coords} :
    s.isActive t n c = .ok true ↔ g.Active t (t.place n c n) := by
  obtain ⟨b, hb, hiff⟩ := h.isActive ht hn c
  rw [hb, Except.ok.injEq, hiff]

theorem isActive_eq_false_iff (hn : t.Has n) {c : Coords} :
    s.isActive t n c = .ok false ↔ ¬ g.Active t (t.place n c n) := by
  obtain ⟨b, hb, hiff⟩ := h.isActive ht hn c
  rw [hb, Except.ok.injEq, ← hiff, Bool.not_eq_true]

theorem address_of_active {c : Coords} (ha : g.Active t (t.place n c n)) :
    ∃ a, s.address t n c = .ok a ∧ a.toNat = g.cellStart (t.place n c n) := by
  obtain ⟨a, hloc, hstart⟩ := h.locate_of_active ht ha
  refine ⟨a, ?_, hstart⟩
  unfold Store.address
  rw [lookup_branch, hloc]
  rfl

theorem address_of_not_active (hn : t.Has n) {c : Coords}
    (ha : ¬ g.Active t (t.place n c n)) : s.address t n c = .error (.refused .inactive) := by
  unfold Store.address
  rw [lookup_branch, h.locate_of_not_active ht (ht.locates_place n c hn) ha]
  rfl

/-- A list has its length; one in a cell that is not active has no elements. -/
theorem length (hp : t.Has p) (hn : n ∈ t.childNodes p) {axis : Axis} {dim chunk : UInt32}
    (hk : n.kind = .dynamic axis dim chunk) (c : Coords) :
    ∃ len, s.length t n c = .ok len ∧ len.toNat = g.length (t.place p c p) n := by
  obtain ⟨cap, bytes, hc⟩ := ht.container_of_dynamic (ht.has_child hn) hk
  have hnode := ht.nodeAt_place p c hp
  unfold Store.length Node.listCapacity
  rw [hk, ht.parentNode_eq hp hn]
  simp only [refuse, Except.mapError, bind, Except.bind, lookup_branch]
  by_cases ha : g.Active t (t.place p c p)
  · obtain ⟨cell, hloc, hstart⟩ := h.locate_of_active ht ha
    have hn' : n ∈ t.childNodes (t.nodeAt (t.place p c p)) := hnode.symm ▸ hn
    obtain ⟨len, hlen, hl⟩ := h.listLength ht ha hn' (h.toNat_slot ht ha hn' hstart) hc
    rw [hloc]
    exact ⟨len, hlen, hl⟩
  · rw [h.locate_of_not_active ht (ht.locates_place p c hp) ha]
    refine ⟨0, rfl, ?_⟩
    have hchunks : g.chunks (t.place p c p) n = [] := by
      by_contra hne
      exact ha (h.sound.chunks_on hne).1
    have hle := h.sound.length_le (t.place p c p) n
    rw [hchunks, List.length_nil, Nat.mul_zero] at hle
    exact (Nat.le_zero.1 hle).symm

/-- What a place holds is read from its word; a place in a cell that is not active holds zero. -/
theorem read (hp : t.Has p) (hn : n ∈ t.childNodes p) (hk : n.kind = .place info)
    (hd : info.member.dtype.checkAccess = .ok ()) {c : Coords} {slot : ValueSlot}
    (hslot : t.valueSlot n c = .ok slot) :
    (g.Active t (t.place n c n) → s.read t n c = .ok (info.member.dtype.inSlot slot
      (g.word (wordKey n (t.place n c p)).1 (wordKey n (t.place n c p)).2))) ∧
    (¬ g.Active t (t.place n c n) → s.read t n c = .ok info.member.dtype.zero) := by
  have hhas := ht.has_child hn
  have hplace := ht.place_of_place hp hn hk n c
  have hl := ht.locates_place n c hhas
  unfold Store.read Node.accessType
  rw [hk]
  simp only [hd, refuse, Except.mapError, bind, Except.bind, pure, Except.pure, lookup_branch]
  constructor
  · intro ha
    obtain ⟨cell, hloc, hstart⟩ := h.locate_of_active ht ha
    rw [hplace] at ha hl hstart
    obtain ⟨slot', hs', hbytes⟩ := ht.valueSlot_eq hl hk c
    rw [hslot, Except.ok.injEq] at hs'
    subst hs'
    obtain ⟨hf, hword⟩ := ha.word ht h.sound hk
    obtain ⟨w, hw, hv⟩ := h.load ht hf (hstart.trans hword.symm) hbytes
    have hw' : UInt64.ofNat (g.word (wordKey n (t.place n c p)).1 (wordKey n (t.place n c p)).2) =
        w := by
      change w.toNat = g.word _ _ at hv
      rw [← hv, UInt64.ofNat_toNat]
    rw [hloc]
    simp only [hslot, hw]
    unfold DataType.inSlot
    rw [hw']
    cases slot.bitOffset <;> rfl
  · intro ha
    rw [h.locate_of_not_active ht hl ha]

end

theorem value_setWord {w : Nat} {q : Position} {f : Datum} (hf : f ≠ .part q n .word) :
    (g.setWord q n w).value f = g.value f := by
  cases f with
  | link r m i => rfl
  | part r m f =>
    cases f with
    | word =>
      refine if_neg ?_
      rintro ⟨rfl, rfl⟩
      exact hf rfl
    | _ => rfl

/-- A word in memory is replaced by another. -/
theorem putWord (ht : t.WellFormed) (h : s.Represents t g) {q : Position} {a : Address}
    (hf : g.HasDatum t (.part q n .word)) (ha : a.toNat = g.datumStart (.part q n .word))
    {len : Nat} (hlen : len = n.bytes.toNat) (w : UInt64) :
    Ends (StoreM.put a len w) s
      (fun _ s => s.Represents t (g.setWord q n (w.toNat % 256 ^ n.bytes.toNat))) never := by
  refine h.put ht hf ha hlen (g.base_setWord q n _) ?_ (fun _ hne => value_setWord hne) ?_
  · exact h.sound.setWord hf (Nat.mod_lt _ (Nat.pow_pos (by decide)))
  · exact (if_pos ⟨rfl, rfl⟩).symm

/-- A value is stored in the word of its place. -/
theorem putValue (ht : t.WellFormed) (h : s.Represents t g) {q : Position} {a : Address}
    (hf : g.HasDatum t (.part q n .word)) (ha : a.toNat = g.datumStart (.part q n .word))
    {slot : ValueSlot} (hslot : slot.bytes = n.bytes.toNat) (d : DataType) (v : Scalar) :
    Ends (StoreM.putValue d slot a v) s
      (fun _ s => s.Represents t (g.setWord q n (d.intoSlot slot (g.word q n) v))) never := by
  unfold StoreM.putValue DataType.intoSlot
  rw [hslot]
  cases slot.bitOffset with
  | none => exact h.putWord ht hf ha rfl (d.encode v)
  | some offset =>
    obtain ⟨w, hw, hv⟩ := h.load ht hf ha (show n.bytes.toNat = _ from rfl)
    have hw' : UInt64.ofNat (g.word q n) = w := by
      change w.toNat = g.word q n at hv
      rw [← hv, UInt64.ofNat_toNat]
    rw [hw']
    exact Ends.bind (StoreM.ends_look hw (h.putWord ht hf ha rfl (d.insert w offset v)))

section

variable (ht : t.WellFormed) (h : s.Represents t g)

include ht h

theorem activate (hn : t.Has n) (c : Coords) :
    Ends (StoreM.activate t n c) s
      (fun _ s' => s'.Extends t g (g.view.activate (t.place n c n)))
      (fun e s' => e.IsShortage ∧ s'.FallsShort t g (t.place n c n)) := by
  unfold StoreM.activate
  refine Ends.bind (StoreM.ends_get (Ends.bind ?_))
  refine (h.reach ht n c hn).imp ?_
  rintro _ s' ⟨g', h', hle, hthrifty, -, -, hview⟩
  exact StoreM.ends_pure ⟨g', h', hview, hle, hthrifty⟩

/-- A write activates the cell of the place and changes nothing but the word of the place. -/
theorem write (hp : t.Has p) (hn : n ∈ t.childNodes p) (hk : n.kind = .place info)
    (hd : info.member.dtype.checkAccess = .ok ()) {c : Coords} {slot : ValueSlot}
    (hslot : t.valueSlot n c = .ok slot) (v : Scalar) {q : Position} {m : Node}
    (hkey : wordKey n (t.place n c p) = (q, m)) :
    Ends (StoreM.write t n c v) s
      (fun _ s' => s'.Extends t g ((g.view.activate (t.place n c n)).setWord q m
        (info.member.dtype.intoSlot slot (g.word q m) v)))
      (fun e s' => e.IsShortage ∧ s'.FallsShort t g (t.place n c n)) := by
  have hhas := ht.has_child hn
  have hplace := ht.place_of_place hp hn hk n c
  have hdtype : refuse (n.accessType .write) = .ok info.member.dtype := by
    rw [Node.accessType_of_place hk hd]
    rfl
  have hslot' : refuse (t.valueSlot n c) = .ok slot := by rw [hslot]; rfl
  unfold StoreM.write
  refine Ends.bind (StoreM.ends_look hdtype ?_)
  refine Ends.bind (StoreM.ends_get (Ends.bind ?_))
  refine (h.reach ht n c hhas).imp ?_
  rintro cell s' ⟨g', h', hle, hthrifty, ha, hcell, hview⟩
  refine Ends.bind (StoreM.ends_look hslot' ?_)
  rw [hplace] at ha hcell
  obtain ⟨slot', hs', hbytes⟩ := ht.valueSlot_eq ha.locates hk c
  rw [hslot, Except.ok.injEq] at hs'
  subst hs'
  obtain ⟨hf, hword⟩ := ha.word ht h'.sound hk
  rw [hkey] at hf hword hbytes
  refine ((h'.putValue ht hf (hcell.trans hword.symm) hbytes _ v).total).imp ?_
  intro _ s' h'
  refine ⟨_, h', ?_, hle.trans (Contents.le_setWord _ _ _ _), hthrifty⟩
  have hw : g'.word q m = g.word q m := by
    change g'.view.word q m = _
    rw [hview, View.word_activate]
    rfl
  rw [Contents.view_setWord, hview, hw]

/-- The list in an active cell grows by one element, and a word is stored there. -/
theorem pushElement {x : Position} (hx : g.Active t x) (hn : n ∈ t.childNodes (t.nodeAt x))
    {slot : Address} (hslot : slot.toNat = g.cellStart x + n.offset.toNat) {axis : Axis}
    {cap : UInt32} {bytes : UInt64} (hc : n.container = .dynamic axis cap bytes) {m : Node}
    (hm : m ∈ t.childNodes n) (hmk : m.kind = .place info) (hbits : n.type.isBitLevel = false)
    {l : UInt32} (hl : l.toNat = g.length x n) (hsucc : l.toNat + 1 < 2 ^ 32) (w : UInt64) :
    Ends (do
      StoreM.growList n slot (l + 1)
      let element ← StoreM.look (·.element n slot l.toUInt64)
      StoreM.put (element.add m.offset) m.cellSize.toNat w
      return l) s
      (fun l' s' => l' = l ∧ s'.Extends t g ((g.view.setLength x n (l.toNat + 1)).setWord
        ((n, l.toNat) :: x) m (w.toNat % 256 ^ m.bytes.toNat)))
      (fun e s' => e.IsShortage ∧ ∃ g', s'.Represents t g' ∧ g.Stuck g') := by
  have hadd : (l + 1).toNat = l.toNat + 1 := by
    rw [UInt32.toNat_add]
    exact Nat.mod_eq_of_lt hsucc
  refine Ends.bind ((growList ht hn hc h hx hslot (l + 1)).imp ?_)
  rintro _ s' ⟨g', h', hle, hthrifty, hview⟩
  rw [hadd, Nat.max_eq_right (by omega)] at hview
  have hlen : g'.length x n = l.toNat + 1 := by
    change g'.view.length x n = _
    rw [hview]
    exact if_pos ⟨rfl, rfl⟩
  have hx' := hle.active hx
  have hslot' : slot.toNat = g'.cellStart x + n.offset.toNat := by
    rw [hslot, hle.cellStart_eq h.sound hx]
  have hcover := h'.sound.length_le x n
  have hl64 : l.toUInt64.toNat = l.toNat := UInt32.toNat_toUInt64 l
  obtain ⟨a, hel, hstart⟩ := h'.element ht hx' hn hslot' hc (e := l.toUInt64) (by omega)
  rw [hl64] at hstart
  refine Ends.bind (StoreM.ends_look hel ?_)
  -- the new element and the place in it are active
  have hplace := ht.place_container (ht.has_child hm) hmk
  have hm' : g'.Active t ((m, 0) :: (n, l.toNat) :: x) := by
    refine ⟨⟨hx', hn, by simp [Node.Numbers, hc], ?_⟩, hm, ?_, ?_⟩
    · simp only [Contents.On, hc]
      omega
    · simp [Node.Numbers, hplace]
    · simp [Contents.On, hplace]
  obtain ⟨hf, hword⟩ := hm'.word ht h'.sound hmk
  rw [show wordKey m ((n, l.toNat) :: x) = ((n, l.toNat) :: x, m) from
    Layout.wordKey_of_bytes (t := t) m hbits] at hf hword
  have haddr := h'.toNat_slot ht hm'.1 hm hstart
  have hcell : g'.cellStart ((m, 0) :: (n, l.toNat) :: x) =
      g'.cellStart ((n, l.toNat) :: x) + m.offset.toNat := by
    have hi : m.isInline := by simp [Node.isInline, hplace]
    unfold Contents.cellStart
    rw [Layout.region_inline hi, Layout.offset_inline hi]
    omega
  have hsize := (ht.scalar_bytes (ht.has_child hn) hm hmk hbits).1
  refine Ends.bind ((h'.putWord ht hf (haddr.trans (hcell.symm.trans hword.symm))
    hsize w).total.imp ?_)
  intro _ s'' h''
  refine StoreM.ends_pure ⟨rfl, _, h'', ?_, hle.trans (Contents.le_setWord _ _ _ _), hthrifty⟩
  rw [Contents.view_setWord, hview]

/-- An element is appended to the list of `n` in the cell of its parent, unless the list is full. -/
theorem append (hp : t.Has p) (hn : n ∈ t.childNodes p) {axis : Axis} {dim chunk : UInt32}
    (hk : n.kind = .dynamic axis dim chunk) {m : Node} (hm : t.onlyPlace? n = some m)
    (hmk : m.kind = .place info) (hd : info.member.dtype.checkAccess = .ok ()) (c : Coords)
    (v : Scalar) {x : Position} (hx : t.place p c p = x) {len : Nat}
    (hlen : (g.view.activate x).length x n = len) :
    Ends (StoreM.append t n c v) s
      (fun l s' => l.toNat = len ∧ len < dim.toNat ∧
        s'.Extends t g (((g.view.activate x).setLength x n (len + 1)).setWord ((n, len) :: x) m
          ((info.member.dtype.encode v).toNat % 256 ^ m.bytes.toNat)))
      (fun e s' => (e = .listFull dim ∧ dim.toNat ≤ len ∧ s' = s ∧
          s'.Extends t g (g.view.activate x)) ∨
        e.IsShortage ∧ s'.FallsShort t g x) := by
  have hhas := ht.has_child hn
  obtain ⟨cap, bytes, hc⟩ := ht.container_of_dynamic hhas hk
  obtain ⟨hmn, hbits⟩ := Layout.onlyPlace hk hm
  have hdtype : refuse (m.accessType .append) = .ok info.member.dtype := by
    rw [Node.accessType_of_place hmk hd]
    rfl
  have hdim : refuse (n.listCapacity .append) = .ok dim := by
    unfold Node.listCapacity
    rw [hk]
    rfl
  have hparent : refuse (t.parentNode n) = .ok p := by rw [ht.parentNode_eq hp hn]; rfl
  unfold StoreM.append
  refine Ends.bind (StoreM.ends_look hdim ?_)
  simp only [hm]
  refine Ends.bind (StoreM.ends_look hdtype ?_)
  refine Ends.bind (StoreM.ends_look hparent ?_)
  refine Ends.bind (StoreM.ends_get (Ends.bind ?_))
  -- on the way to a cell in use nothing changes
  have hstay {cell : Address} {s₁ : Store}
      (hrun : StoreM.reach p c (t.branch p.id) s.root s = .ok cell s₁) (ha : g.Active t x) :
      s₁ = s := by
    obtain ⟨a, hloc, -⟩ := h.locate_of_active ht ha
    rw [← hx, ← lookup_branch] at hloc
    rw [StoreM.reach_of_lookup hloc] at hrun
    cases hrun
    rfl
  refine ((h.reach ht p c hp).and_of_ok fun _ _ => hstay).mono ?_ ?_
  · rintro cell s₁ ⟨⟨g₁, h₁, hle, hthrifty, ha, hcell, hview⟩, hsame⟩
    rw [hx] at ha hcell hview
    have hn' : n ∈ t.childNodes (t.nodeAt x) := by rwa [← hx, ht.nodeAt_place p c hp]
    have hslot := h₁.toNat_slot ht ha hn' hcell
    obtain ⟨l, hl, hl'⟩ := h₁.listLength ht ha hn' hslot hc
    have hlv : l.toNat = len := by
      rw [hl', ← hlen, ← hview]
      rfl
    refine Ends.bind (StoreM.ends_look hl ?_)
    by_cases hfull : dim ≤ l
    · simp only [hfull, if_true]
      have hlong : dim.toNat ≤ len := hlv ▸ UInt32.le_iff_toNat_le.1 hfull
      -- a list that is full has elements, so it lies in a cell that was in use before
      have hbefore : g.Active t x := by
        have hpos := (ht.division hhas (d := ⟨axis, dim⟩) (by rw [hk]; exact List.mem_singleton.2 rfl)).2.1
        refine h.sound.active_of_length (n := n) ?_
        rw [View.length_activate_of_suffix _ List.suffix_rfl] at hlen
        exact Nat.lt_of_lt_of_le hpos (hlong.trans (Nat.le_of_eq hlen.symm))
      exact Ends.bind (StoreM.ends_throw (Or.inl ⟨rfl, hlong, hsame hbefore,
        g₁, h₁, hview, hle, hthrifty⟩))
    · simp only [hfull, if_false]
      have hlt : len < dim.toNat := by
        rw [UInt32.le_iff_toNat_le] at hfull
        omega
      have hdimlt := dim.toNat_lt
      refine (pushElement ht h₁ ha hn' hslot hc hmn hmk hbits hl' (by omega)
        (info.member.dtype.encode v)).mono ?_ ?_
      · rintro _ s₂ ⟨rfl, g₂, h₂, hview₂, hle₂, hthrifty₂⟩
        rw [hlv, hview] at hview₂
        exact ⟨hlv, hlt, g₂, h₂, hview₂, hle.trans hle₂, hthrifty.trans hthrifty₂⟩
      · rintro e s₂ ⟨he, g₂, h₂, hstuck⟩
        exact Or.inr ⟨he, g₂, h₂, hle.trans hstuck.le, x, List.suffix_rfl, hstuck.view.trans hview⟩
  · rintro e s' ⟨he, hshort⟩
    exact Or.inr ⟨he, hx ▸ hshort⟩

/-- The addressed cell of a container in an active cell is released. -/
theorem releaseOne {q : Position} {slot : Address} (ha : g.Active t q)
    (hn : n ∈ t.childNodes (t.nodeAt q)) (hs : n.type.isSparse = true)
    (hslot : slot.toNat = g.cellStart q + n.offset.toNat) (c : Coords) :
    Ends (StoreM.releaseOne t n c slot) s
      (fun _ s' => s'.Represents t (g.deactivate n (number n n c) q)) never := by
  have hhas := ht.has_child hn
  have hnum := ht.numbers_number hhas n c
  unfold StoreM.releaseOne
  rcases (ht.isSparse_iff hhas).1 hs with hc | ⟨m, hc⟩ | ⟨axis, cap, bytes, hc⟩
  · have hk : number n n c = (Node.linear n n c).toNat := by simp only [number, hc]
    rw [hk] at hnum ⊢
    simp only [Node.Numbers, Contents.deactivate, hc] at hnum ⊢
    exact StoreM.ends_releaseEntry ht (StoreM.releaseBelow_releases ht n) h ha hn hslot hc hnum
  · have hk : number n n c = (Node.linear n n c).toNat := by simp only [number, hc]
    rw [hk] at hnum ⊢
    simp only [Node.Numbers, Contents.deactivate, hc] at hnum ⊢
    obtain ⟨w, hw, hv, hbit⟩ := h.loadMask ht ha hn hslot hc hnum
    have hon : g.On n (Node.linear n n c).toNat q ↔ ¬ w &&& maskBit (Node.linear n n c) = 0 := by
      rw [hbit, not_not]
      simp only [Contents.On, hc]
    refine Ends.bind (StoreM.ends_look hw ?_)
    by_cases hset : w &&& maskBit (Node.linear n n c) = 0
    · rw [if_neg fun he => hon.1 he hset, if_neg (not_not.2 hset)]
      exact StoreM.ends_pure h
    · rw [if_pos (hon.2 hset), if_pos hset]
      exact h.releaseBitmasked ht ha hn hslot hc hnum (hon.2 hset) hv
  · simp only [Contents.deactivate, hc]
    exact StoreM.releaseContainer_clears ht hhas h ha hn hslot

theorem deactivate (hp : t.Has p) (hn : n ∈ t.childNodes p) (hs : n.type.isSparse = true)
    (c : Coords) :
    Ends (StoreM.deactivate t n c) s
      (fun _ s' => s'.Represents t (g.deactivate n (number n n c) (t.place n c p))) never := by
  have hlookup := s.lookup_parentBranch ht hp hn c
  have hl := ht.locates_place n c hp
  have hn' : n ∈ t.childNodes (t.nodeAt (t.place n c p)) := by rwa [ht.nodeAt_place n c hp]
  unfold StoreM.deactivate
  rw [hs]
  by_cases ha : g.Active t (t.place n c p)
  · obtain ⟨cell, hloc, hcell⟩ := h.locate_of_active ht ha
    refine Ends.bind (StoreM.ends_look (hlookup.trans hloc) ?_)
    exact h.releaseOne ht ha hn' hs (h.toNat_slot ht ha hn' hcell) c
  · refine Ends.bind (StoreM.ends_look (hlookup.trans (h.locate_of_not_active ht hl ha)) ?_)
    exact StoreM.ends_pure ((h.sound.deactivate_eq_self ha _).symm ▸ h)

omit ht in
/-- The view after a cell was deactivated. -/
theorem shows_deactivate {s' : Store} {k : Nat} {q : Position}
    (h' : s'.Represents t (g.deactivate n k q)) : s'.Shows t (g.view.deactivate n k q) g.Tight :=
  ⟨_, h', h.sound.view_deactivate n k q, Contents.Tight.deactivate⟩

omit ht h in
/-- The view after all cells of a node were deactivated. -/
theorem shows_deactivateAll {s' : Store} (h' : s'.Represents t (g.deactivateAll n)) :
    s'.Shows t (g.view.deactivateAll n) g.Tight :=
  ⟨_, h', g.view_deactivateAll n, Contents.Tight.deactivateAll⟩

/-- All cells of a node are released in every active cell of its parent. -/
theorem deactivateAll (hn : t.Has n) (hcount : g.view.Countable t (t.parentBranch n) []) :
    Ends (StoreM.deactivateAll t n) s (fun _ s' => s'.Represents t (g.deactivateAll n)) never := by
  unfold StoreM.deactivateAll Contents.deactivateAll
  refine Ends.bind (StoreM.ends_get ?_)
  by_cases h0 : n.id = 0
  · -- below the root there is one container, in the root cell
    have hroot : s.root.toNat = g.cellStart [] := by rw [← h.root_eq]; rfl
    simp only [h0, if_true]
    exact StoreM.releaseBelow_releases ht t.rootNode h (x := []) trivial rfl hroot
  · obtain ⟨p, hp, hnp⟩ := ht.exists_parent hn h0
    simp only [h0, if_false]
    rw [ht.parentBranch_eq hp hnp] at hcount
    obtain ⟨as, has, qs, -, hqs, hall⟩ := h.slots_root ht hp hnp hcount
    refine Ends.bind (StoreM.ends_look has ?_)
    refine (h.releaseAll ht hn (l := (t.branch p.id).length) (hqs.imp ?_)).imp ?_
    · rintro a q ⟨hq, hal, hnq, ha⟩
      exact ⟨hq, by simpa using hal.length_eq, hnq, ha⟩
    · intro _ s' h'
      -- a key in a cell of the node lies in one of the containers that were found
      rwa [Contents.forget_congr h.sound (E := {y | ∃ k, (n, k) ∈ y})] at h'
      intro y hy
      constructor
      · rintro ⟨q, -, k, hs⟩
        exact ⟨k, hs.subset List.mem_cons_self⟩
      · rintro ⟨k, hk⟩
        obtain ⟨r, q, rfl⟩ := List.append_of_mem hk
        have hs : (n, k) :: q <:+ r ++ (n, k) :: q := List.suffix_append _ _
        have hl := (h.sound.locates_of_keyed hy).suffix hs
        have hq : g.Active t q := h.sound.active_around hy hs
        have hpq : t.nodeAt q = p := ht.parent_unique (hl.1.has ht) hp hl.2.1 hnp
        have hal := hl.1.along ht
        rw [hpq] at hal
        refine ⟨q, hall ?_ q hq hal, k, hs⟩
        intro m hm
        obtain ⟨j, q', hq'⟩ := hal.exists_suffix hm
        exact h.sound.not_isWord_of_keyed ht hy
          (x := (m, j) :: q') (hq'.trans ((List.suffix_cons _ _).trans hs))

/-- Nothing is released before all containers are found. -/
theorem deactivateAll_crowded (hn : t.Has n)
    (hcrowd : ¬ g.view.Countable t (t.parentBranch n) []) :
    StoreM.deactivateAll t n s = .error (.refused (.panic .capacity)) s := by
  have h0 : n.id ≠ 0 := by
    intro h0
    rw [ht.parentBranch_root hn h0] at hcrowd
    exact hcrowd trivial
  obtain ⟨p, hp, hnp⟩ := ht.exists_parent hn h0
  rw [ht.parentBranch_eq hp hnp] at hcrowd
  rcases h.slots_root_cases ht hp hnp with ⟨_, _, hcount, _⟩ | ⟨he, -⟩
  · exact absurd hcount hcrowd
  · apply Ends.eq_error
    unfold StoreM.deactivateAll
    refine Ends.bind (StoreM.ends_get ?_)
    rw [if_neg h0]
    exact Ends.bind (StoreM.ends_look_refused he ⟨rfl, rfl⟩)

end

end Store.Represents

end SparseLayout
