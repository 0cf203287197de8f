import SparseLayout.Proofs.Layout.Cell
import SparseLayout.Proofs.Store.Session

namespace SparseLayout

open Layout (Node)
open Layout.Node (around digit linear)
open StoreM (Ends)

namespace StoreM

variable {α β : Type} {f : StoreM α} {s s' : Store}

theorem bind_of_ok {a : α} (h : f s = .ok a s') (k : α → StoreM β) : (f >>= k) s = k a s' := by
  change EStateM.bind f k s = _
  rw [EStateM.bind, h]

theorem bind_of_error {e : Fault} (h : f s = .error e s') (k : α → StoreM β) :
    (f >>= k) s = .error e s' := by
  change EStateM.bind f k s = _
  rw [EStateM.bind, h]

theorem look_bind {g : Store → Except Fault α} {a : α} (h : g s = .ok a) (k : α → StoreM β) :
    (look g >>= k) s = k a s :=
  bind_of_ok (by rw [look, h]) k

/-- The way to a cell is told by the digits that its levels read. -/
theorem reachCell_congr {target target' n : Node} {c c' : Coords}
    (h : ∀ a, digit target n a c = digit target' n a c') :
    reachCell target c n = reachCell target' c' n := by
  have hlinear : linear target n c = linear target' n c' := by
    unfold linear
    simp only [h]
  funext slot
  unfold reachCell
  simp only [hlinear, h]

theorem reach_congr {target target' : Node} {c c' : Coords} {ns : List Node}
    (h : ∀ n ∈ ns, ∀ a, digit target n a c = digit target' n a c') :
    reach target c ns = reach target' c' ns := by
  induction ns with
  | nil => rfl
  | cons n ns ih =>
    funext cell
    unfold reach
    rw [reachCell_congr (h n List.mem_cons_self), ih fun m hm => h m (List.mem_cons_of_mem n hm)]

/-- A cell is reached by the coordinates of any cell in it. -/
theorem reach_around {t : Layout} (ht : t.Charted) {m n : Node} (h : t.Above m n) (hn : t.Has n)
    (ha : n.Addressable) (c : Coords) :
    reach m (around n m c) (t.branch m.id) = reach n c (t.branch m.id) := by
  refine reach_congr fun k hk a => ?_
  have hkm : t.Above k m := (ht.above_iff (h.has hn)).2 (Or.inr hk)
  exact hkm.digit_around ht h hn ha c a

/-- The list at `slot` grows to have one element more than `len`, and a word is stored in it. -/
def storeElement (n m : Node) (slot : Address) (len : UInt32) (w : UInt64) : StoreM Unit := do
  growList n slot (len + 1)
  let element ← look (·.element n slot len.toUInt64)
  put (element.add m.offset) m.cellSize.toNat w

end StoreM

variable {t : Layout} {g : Contents} {n m r : Node} {axis : Axis} {dim chunk len : UInt32}
  {dtype : DataType} {q : Coords} {s : Store}

/-- The coordinates of the element behind the last one. -/
theorem Layout.Node.elementCoords_eq (hk : n.kind = .dynamic axis dim chunk) :
    n.elementCoords q len.toNat =
      q.set axis (q.get axis * dim.toUInt64 + len.toUInt64) axis.isLt := by
  have hlen : UInt64.ofNat len.toNat = len.toUInt64 := UInt64.toNat_inj.1 (by
    rw [UInt64.toNat_ofNat', UInt32.toNat_toUInt64]
    exact Nat.mod_eq_of_lt (Nat.lt_trans len.toNat_lt (by decide)))
  unfold elementCoords
  rw [hk, hlen]

namespace Store.Represents

section

variable (ht : t.WellFormed) (h : s.Represents t g) (hr : t.Has r) (hn : n ∈ t.childNodes r)
  (hk : n.kind = .dynamic axis dim chunk) (hlen : s.length t n q = .ok len)

include ht h hr hn hk hlen

/-- Reaching the cell around a list does not change how long it is. -/
theorem listLength_of_reach {cell : Address} {s' : Store}
    (hrun : StoreM.reach r q (t.branch r.id) s.root s = .ok cell s') :
    s'.listLength (cell.add n.offset) = .ok len := by
  obtain ⟨cap, bytes, hc⟩ := ht.container_of_dynamic (ht.has_child hn) hk
  have hreach := h.reach ht r q hr
  rw [Ends, hrun] at hreach
  obtain ⟨g', h', -, -, ha, hcell, hview⟩ := hreach
  have hn' : n ∈ t.childNodes (t.nodeAt (t.place r q r)) := by rwa [ht.nodeAt_place r q hr]
  obtain ⟨l, hl, hl'⟩ := h'.listLength ht ha hn' (h'.toNat_slot ht ha hn' hcell) hc
  obtain ⟨l', hl'', hv⟩ := h.length ht hr hn hk q
  rw [hlen, Except.ok.injEq] at hl''
  subst hl''
  have hkept : g'.length (t.place r q r) n = g.length (t.place r q r) n := by
    change g'.view.length _ n = _
    rw [hview, View.length_activate_of_suffix _ List.suffix_rfl]
    rfl
  rw [hl, UInt32.toNat_inj.1 (hl'.trans (hkept.trans hv.symm))]

end

/-- What an append does where the list is not full. -/
theorem append_eq (ht : t.WellFormed) (h : s.Represents t g) (hr : t.Has r)
    (hn : n ∈ t.childNodes r) (hk : n.kind = .dynamic axis dim chunk)
    (hlen : s.length t n q = .ok len) (hm : t.onlyPlace? n = some m)
    (hd : m.accessType .append = .ok dtype) (v : Scalar) :
    StoreM.append t n q v s = (do
      let cell ← StoreM.reach r q (t.branch r.id) s.root
      if dim ≤ len then throw (Fault.refused (.listFull dim))
      StoreM.storeElement n m (cell.add n.offset) len (dtype.encode v)
      return len) s := by
  have hdim : refuse (n.listCapacity .append) = .ok dim := by
    unfold Node.listCapacity
    rw [hk]
    rfl
  unfold StoreM.append
  rw [StoreM.look_bind hdim]
  simp only [hm]
  rw [StoreM.look_bind (a := dtype) (by rw [hd]; rfl),
    StoreM.look_bind (a := r) (by rw [ht.parentNode_eq hr hn]; rfl)]
  change (StoreM.reach r q (t.branch r.id) s.root >>= _) s = _
  cases hrun : StoreM.reach r q (t.branch r.id) s.root s with
  | error e s' => rw [StoreM.bind_of_error hrun, StoreM.bind_of_error hrun]
  | ok cell s' =>
    rw [StoreM.bind_of_ok hrun, StoreM.bind_of_ok hrun,
      StoreM.look_bind (h.listLength_of_reach ht hr hn hk hlen hrun)]
    unfold StoreM.storeElement
    simp only [bind_assoc]

/-- Writing to the element behind the last one walks to the cell around the list and makes the
element. -/
theorem write_eq (ht : t.WellFormed) (h : s.Represents t g) (hr : t.Has r)
    (hn : n ∈ t.childNodes r) (hk : n.kind = .dynamic axis dim chunk)
    (hlen : s.length t n q = .ok len) (hm : t.onlyPlace? n = some m)
    (hd : m.accessType .write = .ok dtype) (ha : m.Addressable) (hq : r.Within q)
    (hlt : len < dim) (v : Scalar) :
    StoreM.write t m (n.elementCoords q len.toNat) v s = (do
      let cell ← StoreM.reach r q (t.branch r.id) s.root
      StoreM.storeElement n m (cell.add n.offset) len (dtype.encode v)) s := by
  obtain ⟨info, hmk, hacc, rfl⟩ := Node.of_accessType hd
  obtain ⟨hmn, hbits⟩ := Layout.onlyPlace hk hm
  have hnhas := ht.has_child hn
  have hmhas := ht.has_child hmn
  have hrm := (Layout.Above.child hr hn).trans (Layout.Above.child hnhas hmn)
  obtain ⟨cap, bytes, hc⟩ := ht.container_of_dynamic hnhas hk
  obtain ⟨hdigit, haround⟩ :=
    (ht.element_iff hr hn hk hmn hmk ha hq (UInt32.lt_iff_toNat_lt.1 hlt)).2 rfl
  obtain ⟨-, ⟨-, -, hslot⟩ | ⟨hb, -⟩⟩ := ht.slot_cases hnhas hmn hmk hacc
  swap
  · rw [hbits] at hb
    cases hb
  generalize n.elementCoords q len.toNat = c at *
  have he : digit m n axis c = len.toUInt64 := by
    apply UInt64.toNat_inj.1
    rw [hdigit, UInt32.toNat_toUInt64]
  have hsucc : (len.toUInt64 + 1).toUInt32 = len + 1 := by
    rw [UInt64.toUInt32_add, UInt32.toUInt32_toUInt64]
    rfl
  unfold StoreM.write
  rw [StoreM.look_bind (a := info.member.dtype) (by rw [hd]; rfl)]
  -- up to the cell around the list, the coordinates of the element lead where `q` does
  change (StoreM.reach m c (t.branch m.id) s.root >>= _) s = _
  rw [ht.branch_child hnhas hmn, ht.branch_child hr hn, StoreM.reach_append, StoreM.reach_append,
    ← StoreM.reach_around ht.toCharted hrm hmhas ha c, haround]
  simp only [bind_assoc]
  cases hrun : StoreM.reach r q (t.branch r.id) s.root s with
  | error e s' => rw [StoreM.bind_of_error hrun, StoreM.bind_of_error hrun]
  | ok cell s' =>
    rw [StoreM.bind_of_ok hrun, StoreM.bind_of_ok hrun]
    -- from there the list grows to the element, whose only place holds the value
    have hsize := (ht.scalar_bytes hnhas hmn hmk hbits).1
    have hplace (slot : Address) : StoreM.reachCell m c m slot = pure slot := by
      unfold StoreM.reachCell
      rw [ht.place_container hmhas hmk]
    have hvalue : StoreM.look (fun _ => refuse (t.valueSlot m c)) =
        pure ⟨m.bytes.toNat, none⟩ := by
      rw [hslot c]
      rfl
    simp only [hplace, hvalue, pure_bind]
    unfold StoreM.storeElement StoreM.reachCell
    simp only [hc, he, bind_assoc]
    rw [StoreM.look_bind (h.listLength_of_reach ht hr hn hk hlen hrun), if_pos (UInt64.le_refl _)]
    simp only [hsucc, bind_assoc, hsize]
    rfl

/-- A full list takes no element. -/
theorem append_full (ht : t.WellFormed) (h : s.Represents t g) (hr : t.Has r)
    (hn : n ∈ t.childNodes r) (hk : n.kind = .dynamic axis dim chunk)
    (hlen : s.length t n q = .ok dim) (hm : t.onlyPlace? n = some m)
    (hd : m.accessType .append = .ok dtype) (v : Scalar) :
    StoreM.append t n q v s = .error (.refused (.listFull dim)) s := by
  obtain ⟨len, hl, hv⟩ := h.length ht hr hn hk q
  rw [hlen, Except.ok.injEq] at hl
  subst hl
  -- the list has elements, so the cell around it is in use and is reached without a change
  have hpos := (ht.division (ht.has_child hn) (d := ⟨axis, dim⟩)
    (by rw [hk]; exact List.mem_singleton.2 rfl)).2.1
  have hact : g.Active t (t.place r q r) := h.sound.active_of_length (n := n) (hv ▸ hpos)
  obtain ⟨cell, hloc, -⟩ := h.locate_of_active ht hact
  rw [← lookup_branch] at hloc
  rw [h.append_eq ht hr hn hk hlen hm hd v, StoreM.bind_of_ok (StoreM.reach_of_lookup hloc),
    if_pos (UInt32.le_refl dim)]
  rfl

end Store.Represents

namespace Store

variable {s₀ : Store} {hist : List Call}

/-- After any run, appending to a list with room does what writing to the element behind its last one
does, and gives the number of that element; a list with as many elements as it can hold takes none. -/
theorem append_eq_write (h : t.Starts s₀) (hh : t.Calls hist) (hs : (s₀.session t hist).2 = s)
    (hn : t.Has n) (hk : n.kind = .dynamic axis dim chunk) (hm : t.onlyPlace? n = some m)
    (hd : m.accessType .read = .ok dtype) (ha : m.Addressable) (hr : t.parentNode n = .ok r)
    (hq : r.Within q) (hlen : s.length t n q = .ok len) (v : Scalar) :
    (len < dim →
      (do let _ ← StoreM.append t n q v; return ()) s =
        StoreM.write t m (q.set axis (q.get axis * dim.toUInt64 + len.toUInt64) axis.isLt) v s ∧
      ∀ l s', StoreM.append t n q v s = .ok l s' → l = len) ∧
    (len = dim → StoreM.append t n q v s = .error (.refused (.listFull dim)) s) := by
  have ht := h.wellFormed
  obtain ⟨rs, w, -, -, g, hg, -, -⟩ := h.shows.session ht hh
  rw [hs] at hg
  obtain ⟨hrhas, hnr⟩ := Layout.of_parentNode ht hn hr
  obtain ⟨info, hmk, hacc, rfl⟩ := Node.of_accessType hd
  have access := Node.accessType_of_place hmk hacc
  refine ⟨fun hlt => ?_, ?_⟩
  · have happend := hg.append_eq ht hrhas hnr hk hlen hm (access .append) v
    simp only [if_neg (UInt32.not_le.2 hlt), ← bind_assoc] at happend
    rw [← Node.elementCoords_eq hk, hg.write_eq ht hrhas hnr hk hlen hm (access .write) ha hq hlt v]
    -- both do the same, and the append then gives the old length
    generalize (StoreM.reach r q (t.branch r.id) s.root >>= fun cell =>
      StoreM.storeElement n m (cell.add n.offset) len (info.member.dtype.encode v)) = f at happend ⊢
    cases hf : f s with
    | ok a s₁ =>
      rw [StoreM.bind_of_ok hf] at happend
      refine ⟨StoreM.bind_of_ok happend _, fun l s' hrun => ?_⟩
      cases happend.symm.trans hrun
      rfl
    | error e s₁ =>
      rw [StoreM.bind_of_error hf] at happend
      refine ⟨StoreM.bind_of_error happend _, fun l s' hrun => ?_⟩
      cases happend.symm.trans hrun
  · rintro rfl
    exact hg.append_full ht hrhas hnr hk hlen hm (access .append) v

/-- A list with one element gets its second by an append or by a write to it; with five elements it
is full. -/
theorem append_eq_write_sample :
    let t := Sample.layout
    let one := (Sample.store.session t [⟨Sample.node 5, .write [0] (.int 1)⟩]).2
    let full := (Sample.store.session t [⟨Sample.node 5, .write [4] (.int 1)⟩]).2
    let q : Coords := .replicate axisCount 0
    (do let _ ← StoreM.append t (Sample.node 4) q (.int 9); return ()) one =
        StoreM.write t (Sample.node 5) (q.set 2 1) (.int 9) one ∧
      (∀ l s', StoreM.append t (Sample.node 4) q (.int 9) one = .ok l s' → l = 1) ∧
      StoreM.append t (Sample.node 4) q (.int 9) full = .error (.refused (.listFull 5)) full := by
  intro t one full q
  have hh (k : Int32) (hk : k = 0 ∨ k = 4) :
      t.Calls [⟨Sample.node 5, .write [k] (.int 1)⟩] := by
    rcases hk with rfl | rfl <;> unfold Layout.Calls <;> decide +kernel
  have hn : t.Has (Sample.node 4) := by decide +kernel
  have hk : (Sample.node 4).kind = .dynamic 2 5 2 := by decide +kernel
  have hm : t.onlyPlace? (Sample.node 4) = some (Sample.node 5) := by decide +kernel
  have hd : (Sample.node 5).accessType .read = .ok (.int .w32) := by decide +kernel
  have ha : (Sample.node 5).Addressable := by
    unfold Node.Addressable
    decide +kernel
  have hr : t.parentNode (Sample.node 4) = .ok t.rootNode := by decide +kernel
  have hq : t.rootNode.Within q := by
    unfold Node.Within
    decide +kernel
  have hone : one.length t (Sample.node 4) q = .ok 1 := by decide +kernel
  have hfull : full.length t (Sample.node 4) q = .ok 5 := by decide +kernel
  obtain ⟨hagree, hlast⟩ := (append_eq_write Sample.starts (hh 0 (Or.inl rfl)) rfl hn hk hm hd ha hr
    hq hone (.int 9)).1 (by decide)
  have hc : q.set 2 1 = q.set 2 (q.get 2 * 5 + 1) := by decide +kernel
  exact ⟨hc ▸ hagree, hlast, (append_eq_write Sample.starts (hh 4 (Or.inr rfl)) rfl hn hk hm hd ha hr
    hq hfull (.int 9)).2 rfl⟩

end Store

end SparseLayout
