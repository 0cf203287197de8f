import SparseLayout.Proofs.Contents.Commute
import SparseLayout.Proofs.Layout.Cell
import SparseLayout.Proofs.Store.Charges
import SparseLayout.Proofs.Store.Reactivation

/-!
Writes to different cells and activations, in either order. On views they commute, since activating
joins cells to those in use and different values lie in different bits. Storages that show the same
view may hold their blocks elsewhere, but they hold as many: each node has a block for each pointer
cell in use, and a list has the chunks that it had before or those that its elements need.
-/

namespace SparseLayout

open Layout (Node)

/-- Writes and activations put cells to use and give nothing back. -/
def Action.grows : Action → Bool
  | .activate _ | .write .. => true
  | _ => false

/-- The place and the cell of it that a call writes; calls that are refused write none. -/
def Call.written? (c : Call) : Option (Node × Coords) :=
  match c.action with
  | .write idx _ =>
    match c.node.accessType .write, c.node.resolve idx with
    | .ok _, .ok coords => some (c.node, coords)
    | _, _ => none
  | _ => none

/-- The view after a call, whether or not the call is refused. -/
noncomputable def View.after (t : Layout) (v : View) (c : Call) : View :=
  match View.perform t c.node c.action v with
  | .ok _ v' | .error _ v' => v'

variable {t : Layout} {m n : Node} {c d : Coords} {e e' : DataType} {slot slot' : ValueSlot}

/-- Values of different cells that share a word are stored in either order. -/
theorem Layout.WellFormed.intoSlot_comm (ht : t.WellFormed) (hn : t.Has n) (hm : t.Has m)
    (ha : n.Addressable) (hc : n.Within c) (hd : m.Within d)
    (he : n.accessType .write = .ok e) (he' : m.accessType .write = .ok e')
    (hs : t.valueSlot n c = .ok slot) (hs' : t.valueSlot m d = .ok slot')
    (hne : (m, d) ≠ (n, c)) (hkey : View.keyOf t m d = View.keyOf t n c) (w : Nat) (x y : Scalar) :
    e'.intoSlot slot' (e.intoSlot slot w x) y = e.intoSlot slot (e'.intoSlot slot' w y) x := by
  obtain ⟨hread, hread', bytes, o, o', rfl, rfl, hle, hle', h8, hapart⟩ :=
    ht.slots_of_shared hn hm ha hc hd he he' hs hs' hne hkey
  have hpos := hread.pos
  have hpos' := hread'.pos
  exact DataType.intoSlot_intoSlot (by omega) (by omega) h8 hapart w x y

/-- What a call that only puts cells to use does to the views of a tree. -/
inductive Call.Does (t : Layout) (c : Call) : Prop
  /-- It activates the cells on the way to a position; if it is refused, none. -/
  | activates (x : Position) (h : ∀ v, View.after t v c = v.activate x)
  /-- It activates the cell of a place and stores a value there. -/
  | stores (d : Coords) (e : DataType) (slot : ValueSlot) (y : Scalar)
    (written : c.written? = some (c.node, d)) (access : c.node.accessType .write = .ok e)
    (place : t.valueSlot c.node d = .ok slot) (addressable : c.node.Addressable)
    (inside : c.node.Within d)
    (h : ∀ v, View.after t v c = (v.activate (t.place c.node d c.node)).mapWord
      (View.keyOf t c.node d) fun w => e.intoSlot slot w y)

theorem Call.does (ht : t.WellFormed) {c : Call} (hn : t.Has c.node)
    (hg : c.action.grows = true) : c.Does t := by
  obtain ⟨n, action⟩ := c
  -- a refused call does to a view what activating the root cell does
  have refused (h : ∀ v, View.after t v ⟨n, action⟩ = v) : Call.Does t ⟨n, action⟩ :=
    .activates [] h
  cases action with
  | activate idx =>
    unfold View.after View.perform atIndex at refused
    cases hc : n.resolve idx with
    | error err => exact refused fun v => by simp only [hc]
    | ok d =>
      refine .activates (t.place n d n) fun v => ?_
      simp only [View.after, View.perform, atIndex, hc]
  | write idx y =>
    unfold View.after View.perform atIndex at refused
    cases hc : n.resolve idx with
    | error err => exact refused fun v => by simp only [hc]
    | ok d =>
    cases he : n.accessType .write with
    | error err => exact refused fun v => by simp only [hc, he]
    | ok e =>
    cases hs : t.valueSlot n d with
    | error err => exact refused fun v => by simp only [hc, he, hs]
    | ok slot =>
      obtain ⟨ha, hw⟩ := ht.of_resolve hn hc
      refine .stores d e slot y ?_ he hs ha hw fun v => ?_
      · simp only [Call.written?, he, hc]
      · simp only [View.after, View.perform, atIndex, hc, he, hs, View.mapWord,
          View.word_activate]
  | _ => cases hg

namespace View

variable {calls calls' : List Call} {v : View}

/-- Two calls that do not write the same cell commute. -/
theorem after_comm (ht : t.WellFormed) {a b : Call} (ha : t.Has a.node) (hb : t.Has b.node)
    (hga : a.action.grows = true) (hgb : b.action.grows = true)
    (hne : ∀ cell, a.written? = some cell → b.written? ≠ some cell) (v : View) :
    after t (after t v a) b = after t (after t v b) a := by
  cases Call.does ht ha hga with
  | activates x hx =>
    cases Call.does ht hb hgb with
    | activates y hy => simp only [hx, hy, activate_activate v x y]
    | stores d e slot z _ _ _ _ _ hy =>
      simp only [hx, hy, activate_mapWord, activate_activate v x]
  | stores c e slot y hwritten he hs hadr hc hx =>
    cases Call.does ht hb hgb with
    | activates x hy => simp only [hx, hy, activate_mapWord, activate_activate v x]
    | stores d e' slot' z hwritten' he' hs' _ hd hy =>
      have hcell : (b.node, d) ≠ (a.node, c) := by
        intro he
        exact hne _ hwritten (hwritten'.trans (congrArg some he))
      simp only [hx, hy, activate_mapWord]
      rw [activate_activate]
      refine mapWord_mapWord (fun hkey w => ?_) _
      exact ht.intoSlot_comm ha hb hadr hc hd he he' hs hs' hcell hkey.symm w y z

/-- Runs of calls that write no cell twice end in one view, whatever their order. -/
theorem foldl_after_perm (ht : t.WellFormed) (hc : t.Calls calls)
    (hg : ∀ call ∈ calls, call.action.grows = true)
    (hw : (calls.filterMap Call.written?).Nodup) (hp : calls.Perm calls') (v : View) :
    calls.foldl (after t) v = calls'.foldl (after t) v := by
  refine hp.foldl_eq' (fun a ha b hb v => ?_) v
  have hdisjoint : calls.Pairwise fun a b =>
      ∀ cell, a.written? = some cell → b.written? ≠ some cell :=
    (List.pairwise_filterMap.1 hw).imp fun hne cell h h' => hne cell h cell h' rfl
  by_cases hab : a = b
  · rw [hab]
  · -- of two calls in the list, the earlier one writes another cell than the later one
    have : Std.Symm fun a b : Call =>
        ∀ cell, a.written? = some cell → b.written? ≠ some cell :=
      ⟨fun _ _ hne cell h h' => hne cell h' h⟩
    exact after_comm ht (hc a ha) (hc b hb) (hg a ha) (hg b hb)
      (hdisjoint.forall ha hb hab) v

end View

namespace Contents

variable {g g' : Contents}

theorem Sound.tightOver_self (h : g.Sound t) : g.TightOver fun p n => (g.chunks p n).length := by
  intro p n
  have hle := h.length_le p n
  rcases Nat.eq_zero_or_pos n.capacity with h0 | hpos
  · rw [h0, Nat.div_zero, Nat.max_zero]
  · refine (Nat.max_eq_left (Nat.lt_succ_iff.1 ((Nat.div_lt_iff_lt_mul hpos).2 ?_))).symm
    rw [Nat.succ_mul, Nat.mul_comm]
    omega

/-- The regions in use are known from the view and the numbers of chunks. -/
theorem Sound.base_isSome (h : g.Sound t) (h' : g'.Sound t) (hv : g.view = g'.view)
    (hc : ∀ p n, (g.chunks p n).length = (g'.chunks p n).length) {r : Region}
    (hr : (g.base r).isSome) : (g'.base r).isSome := by
  cases r with
  | root => rfl
  | chunk p n i =>
    have hi : i < (g.chunks p n).length := by simpa [base] using hr
    simpa [base] using hc p n ▸ hi
  | block x =>
    cases x with
    | nil => simp [base, h.block_nil] at hr
    | cons y p =>
      obtain ⟨n, k⟩ := y
      obtain ⟨-, -, -, hcon⟩ := h.block_on hr
      have hon : g'.On n k p := by
        rw [h'.on_iff, ← hv, ← h.on_iff]
        simp only [On, hcon]
        exact hr
      simpa only [On, hcon, base] using hon

end Contents

namespace Store

variable {s s' s₀ : Store} {g g' : Contents} {calls calls' hist : List Call}

theorem Represents.liveBlocks_eq (h : s.Represents t g) (h' : s'.Represents t g')
    (hv : g.view = g'.view) (hc : ∀ p n, (g.chunks p n).length = (g'.chunks p n).length)
    (hn : t.Has n) (hb : n.blockBytes?.isSome) : s.liveBlocks n.id = s'.liveBlocks n.id := by
  obtain ⟨b, hblocks, -, hcount, -⟩ := h.owns.blocks hn hb
  obtain ⟨b', hblocks', -, hcount', -⟩ := h'.owns.blocks hn hb
  have hregions : regionsOf g.base n = regionsOf g'.base n := by
    ext r
    exact and_congr_left fun _ => ⟨h.sound.base_isSome h'.sound hv hc,
      h'.sound.base_isSome h.sound hv.symm fun p n => (hc p n).symm⟩
  rw [liveBlocks_of_blocks hblocks, liveBlocks_of_blocks hblocks']
  rw [hregions, hcount'] at hcount
  exact_mod_cast hcount.symm

/-- The storages answer alike and hold as much, though maybe elsewhere. -/
structure Alike (t : Layout) (s s' : Store) : Prop where
  isActive : ∀ {n}, t.Has n → ∀ c, s.isActive t n c = s'.isActive t n c
  read : ∀ {n}, t.Has n → ∀ c, s.read t n c = s'.read t n c
  length : ∀ {n}, t.Has n → ∀ c, s.length t n c = s'.length t n c
  live : ∀ {n}, t.Has n → s.liveBlocks n.id = s'.liveBlocks n.id
  used : s.pool.used = s'.pool.used

theorem read_refused {err : AccessError} (h : n.accessType .read = .error err) (s : Store)
    (c : Coords) : s.read t n c = .error (.refused err) := by
  unfold Store.read
  rw [h]
  rfl

/-- What the storage answers is told by its view. -/
theorem Represents.answers_eq (ht : t.WellFormed) (h : s.Represents t g) (h' : s'.Represents t g')
    (hv : g.view = g'.view) (hn : t.Has n) (c : Coords) :
    s.isActive t n c = s'.isActive t n c ∧ s.read t n c = s'.read t n c ∧
      s.length t n c = s'.length t n c := by
  -- each answer is read off the view in the same way for both
  have hs : s.Shows t g.view False := ⟨g, h, rfl, False.elim⟩
  have hs' : s'.Shows t g.view False := ⟨g', h', hv.symm, False.elim⟩
  refine ⟨?_, ?_, ?_⟩
  · obtain ⟨b, hb, hiff⟩ := hs.isActive_iff ht hn c
    obtain ⟨b', hb', hiff'⟩ := hs'.isActive_iff ht hn c
    rw [hb, hb', Bool.eq_iff_iff.2 (hiff.trans hiff'.symm)]
  · cases hd : n.accessType .read with
    | error err => rw [read_refused hd, read_refused hd]
    | ok d =>
      obtain ⟨slot, hslot, hon, hoff⟩ := hs.read ht hn hd c
      obtain ⟨slot', hslot', hon', hoff'⟩ := hs'.read ht hn hd c
      rw [hslot, Except.ok.injEq] at hslot'
      subst hslot'
      by_cases hact : g.view.Active t (t.place n c n)
      · rw [hon hact, hon' hact]
      · rw [hoff hact, hoff' hact]
  · cases hdim : n.listCapacity .length with
    | error err =>
      unfold Store.length
      rw [hdim]
      rfl
    | ok dim =>
      obtain ⟨axis, chunk, hk⟩ := Node.of_listCapacity hdim
      obtain ⟨p, hp, hnp⟩ := ht.ne_root_of_kind hn (by rw [hk]; simp)
      obtain ⟨len, hlen, hl⟩ := h.length ht hp hnp hk c
      obtain ⟨len', hlen', hl'⟩ := h'.length ht hp hnp hk c
      have hlength : g.length (t.place p c p) n = g'.length (t.place p c p) n :=
        congrArg (fun v => v.length (t.place p c p) n) hv
      rw [hlen, hlen', UInt32.toNat_inj.1 (hl.trans (hlength.trans hl'.symm))]

theorem charged_run (ht : t.WellFormed) {call : Call} (hn : t.Has call.node)
    (hg : call.action.grows = true) : StoreM.Charged t (call.run t) := by
  obtain ⟨n, action⟩ := call
  cases action with
  | activate idx =>
    exact StoreM.charged_atIndex fun c =>
      (StoreM.charged_activate ht.toBranching hn c).bind fun _ => StoreM.charged_pure _
  | write idx x =>
    exact StoreM.charged_atIndex fun c =>
      (StoreM.charged_write ht.toBranching hn c x).bind fun _ => StoreM.charged_pure _
  | _ => cases hg

/-- A call that puts cells to use does so in the view, or runs out of memory. -/
theorem Represents.ends_run (ht : t.WellFormed) (h : s.Represents t g) {call : Call}
    (hn : t.Has call.node) (hg : call.action.grows = true) :
    StoreM.Ends (call.run t) s (fun _ s' => s'.Extends t g (View.after t g.view call))
      (fun e s' => e.IsShortage ∨ s'.Extends t g (View.after t g.view call)) := by
  have hends : EndsShowing t g (fun v s' => s'.Extends t g v)
      (call.action.Targets t call.node) s (call.run t) (View.perform t call.node call.action) := by
    obtain ⟨n, action⟩ := call
    cases action with
    | activate idx => exact h.endsShowing_activate ht hn idx
    | write idx x => exact h.endsShowing_write ht hn idx x
    | _ => cases hg
  unfold View.after
  refine StoreM.Ends.mono hends ?_ ?_
  · rintro ans s' ⟨v, hv, hs⟩
    rwa [hv]
  · rintro e s' (⟨-, v, hv, hs⟩ | ⟨he, -⟩)
    · exact Or.inr (by rwa [hv])
    · exact Or.inl he

/-- A run of calls that put cells to use leaves the view that they lead to, adds no chunks that
lists do not need, and asks the pool for new blocks only. -/
theorem Represents.session_grows (ht : t.WellFormed) (h : s.Represents t g) (hc : t.Calls calls)
    (hg : ∀ call ∈ calls, call.action.grows = true) (hmem : ¬ RanOut (s.session t calls).1) :
    (s.session t calls).2.Extends t g (calls.foldl (View.after t) g.view) ∧
      s.Charges t (s.session t calls).2 := by
  -- the contents that the storage has come to are carried from call to call
  induction calls generalizing s g with
  | nil => exact ⟨h.extends_self, .refl s t⟩
  | cons call calls ih =>
    have hends := h.ends_run ht (hc call List.mem_cons_self) (hg call List.mem_cons_self)
    have hcharged := charged_run ht (hc call List.mem_cons_self) (hg call List.mem_cons_self) s
    -- the rest of the run starts from the view after the call
    have rest {s' : Store} {r : Except Fault Answer}
        (hrun : s.session t (call :: calls) =
          (r :: (s'.session t calls).1, (s'.session t calls).2))
        (hext : s'.Extends t g (View.after t g.view call)) (hch : s.Charges t s') :
        (s.session t (call :: calls)).2.Extends t g
            ((call :: calls).foldl (View.after t) g.view) ∧
          s.Charges t (s.session t (call :: calls)).2 := by
      obtain ⟨g', hg', hv, hle, hthrifty⟩ := hext
      have hmem' : ¬ RanOut (s'.session t calls).1 := by
        rintro ⟨shortage, hs⟩
        exact hmem ⟨shortage, by rw [hrun]; exact List.mem_cons_of_mem _ hs⟩
      obtain ⟨⟨g'', hg'', hv', hle', hthrifty'⟩, hch'⟩ := ih hg'
        (fun c hm => hc c (List.mem_cons_of_mem _ hm))
        (fun c hm => hg c (List.mem_cons_of_mem _ hm)) hmem'
      rw [hrun, List.foldl_cons, ← hv]
      exact ⟨⟨g'', hg'', hv', hle.trans hle', hthrifty.trans hthrifty'⟩, hch.trans hch'⟩
    unfold StoreM.Ends at hends
    cases hrun : call.run t s with
    | ok a s' =>
      rw [hrun] at hends hcharged
      exact rest (session_ok hrun) hends hcharged
    | error e s' =>
      rw [hrun] at hends hcharged
      cases e with
      | outside => exact hends.elim
      | refused e =>
        rcases hends with ⟨shortage, rfl⟩ | hext
        · refine absurd ⟨shortage, ?_⟩ hmem
          rw [session_error hrun]
          exact List.mem_cons_self
        · exact rest (session_error hrun) hext hcharged

/-- Two storages that grew out of one to the same view are alike: whatever blocks they took, they
took as many. -/
theorem Represents.alike (ht : t.WellFormed) (h : s.Represents t g) {s₁ s₂ : Store} {v : View}
    (h₁ : s₁.Extends t g v) (h₂ : s₂.Extends t g v) (hcharges₁ : s.Charges t s₁)
    (hcharges₂ : s.Charges t s₂) : Alike t s₁ s₂ := by
  obtain ⟨g₁, hg₁, hv₁, -, hthrifty₁⟩ := h₁
  obtain ⟨g₂, hg₂, hv₂, -, hthrifty₂⟩ := h₂
  have hview : g₁.view = g₂.view := hv₁.trans hv₂.symm
  have hchunks (p : Position) (n : Node) :
      (g₁.chunks p n).length = (g₂.chunks p n).length := by
    have hlength : g₁.length p n = g₂.length p n := congrArg (fun v => v.length p n) hview
    calc (g₁.chunks p n).length
        = max (g.chunks p n).length ((g₁.length p n + n.capacity - 1) / n.capacity) :=
          hthrifty₁ _ h.sound.tightOver_self p n
      _ = max (g.chunks p n).length ((g₂.length p n + n.capacity - 1) / n.capacity) := by
          rw [hlength]
      _ = (g₂.chunks p n).length := (hthrifty₂ _ h.sound.tightOver_self p n).symm
  have hlive {n : Node} (hn : t.Has n) (hb : n.blockBytes?.isSome) :
      s₁.liveBlocks n.id = s₂.liveBlocks n.id := hg₁.liveBlocks_eq hg₂ hview hchunks hn hb
  have answers {n : Node} (hn : t.Has n) (c : Coords) := hg₁.answers_eq ht hg₂ hview hn c
  constructor
  · exact fun hn c => (answers hn c).1
  · exact fun hn c => (answers hn c).2.1
  · exact fun hn c => (answers hn c).2.2
  · intro n hn
    by_cases hb : n.blockBytes?.isSome
    · exact hlive hn hb
    · -- a node without blocks keeps its entry
      have hid : ∀ m, t.Has m → m.blockBytes?.isSome → m.id ≠ n.id :=
        fun m hm hmb he => hb (hm.eq_of_id hn he ▸ hmb)
      unfold liveBlocks
      rw [hcharges₁.others hid, hcharges₂.others hid]
  · refine hcharges₁.used_eq hcharges₂ ?_ fun n hn hb => hlive hn hb
    intro n hn hb
    obtain ⟨b, hblocks, -, -, htotal⟩ := h.owns.blocks hn hb
    exact ⟨b, hblocks, htotal⟩

/-- Writes and activations that write no cell twice lead to storages alike in whichever two orders
they are done, if memory does not run out. -/
theorem session_comm (h : t.Starts s₀) (hh : t.Calls hist) (hs : (s₀.session t hist).2 = s)
    (hc : t.Calls calls) (hg : ∀ call ∈ calls, call.action.grows = true)
    (hw : (calls.filterMap Call.written?).Nodup) (hp : calls.Perm calls')
    (hmem : ¬ RanOut (s.session t calls).1) (hmem' : ¬ RanOut (s.session t calls').1) :
    Alike t (s.session t calls).2 (s.session t calls').2 := by
  have ht := h.wellFormed
  obtain ⟨rs, v, -, -, g, hrep, -, -⟩ := h.shows.session ht hh
  rw [hs] at hrep
  have hc' : t.Calls calls' := fun c hm => hc c (hp.mem_iff.2 hm)
  have hg' : ∀ call ∈ calls', call.action.grows = true := fun c hm => hg c (hp.mem_iff.2 hm)
  obtain ⟨hext, hcharges⟩ := hrep.session_grows ht hc hg hmem
  obtain ⟨hext', hcharges'⟩ := hrep.session_grows ht hc' hg' hmem'
  -- both runs start from the contents of `s`, and their views are one
  rw [View.foldl_after_perm ht hc hg hw hp g.view] at hext
  exact hrep.alike ht hext hext' hcharges hcharges'

theorem not_ranOut_of_ok {rs : List (Except Fault Answer)} (h : rs.all Except.isOk = true) :
    ¬ RanOut rs := by
  rintro ⟨shortage, hs⟩
  cases List.all_eq_true.1 h _ hs

/-- Two pointer cells are put to use in either order in blocks that were given back. The storages
are alike, though a cell lies elsewhere. -/
theorem session_comm_sample :
    let s := (Sample.store.session Sample.layout [⟨Sample.node 3, .write [1, 3] (.int 42)⟩,
      ⟨Sample.node 3, .write [0, 2] (.int 7)⟩, ⟨Sample.node 1, .deactivateAll⟩]).2
    let calls : List Call := [⟨Sample.node 3, .write [1, 3] (.int 1)⟩,
      ⟨Sample.node 5, .write [2] (.int 2)⟩, ⟨Sample.node 3, .activate [1, 1]⟩,
      ⟨Sample.node 3, .write [0, 0] (.int 3)⟩]
    Alike Sample.layout (s.session Sample.layout calls).2
        (s.session Sample.layout calls.reverse).2 ∧
      ((s.session Sample.layout calls).2.address Sample.layout (Sample.node 3)
          Sample.cell).toOption ≠
        ((s.session Sample.layout calls.reverse).2.address Sample.layout (Sample.node 3)
          Sample.cell).toOption := by
  intro s calls
  have hh : Sample.layout.Calls [⟨Sample.node 3, .write [1, 3] (.int 42)⟩,
      ⟨Sample.node 3, .write [0, 2] (.int 7)⟩, ⟨Sample.node 1, .deactivateAll⟩] := by
    unfold Layout.Calls
    decide +kernel
  have hc : Sample.layout.Calls calls := by
    unfold Layout.Calls
    decide +kernel
  have hw : (calls.filterMap Call.written?).Nodup := by decide +kernel
  refine ⟨?_, by decide +kernel⟩
  exact session_comm Sample.starts hh rfl hc (by decide +kernel) hw
    (List.reverse_perm calls).symm (not_ranOut_of_ok (by decide +kernel))
    (not_ranOut_of_ok (by decide +kernel))

end Store

end SparseLayout
