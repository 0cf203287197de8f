import SparseLayout.Proofs.Encoding
import SparseLayout.Proofs.Store.Steps

namespace SparseLayout

open Layout (Node)

variable {t : Layout} {v v' : View} {p q x : Position} {k l m n : Node} {i j : Nat}
  {info : PlaceInfo} {D : Set Position}

namespace Layout

/-- Deactivating all cells of `k` takes cells of `n` out of use, but gives back no memory around
them: from `k` down to `n` there are sparse nodes, and all of them are bitmasked. -/
def Retains (t : Layout) (k n : Node) : Prop :=
  (∃ l, t.Above k l ∧ t.Above l n ∧ l.type.isSparse = true) ∧
    ∀ l, t.Above k l → t.Above l n → l.type.isSparse = true → l.type = .bitmasked

theorem Locates.retains_iff (ht : t.WellFormed) (hk : t.Has k) (hl : t.Locates ((n, i) :: q)) :
    t.Retains k n ↔ (∃ l, t.Above k l ∧ t.Above l n ∧ l.type.isSparse = true) ∧
      ¬ (Position.region ((n, i) :: q)).In k.cellsBelow := by
  have hn := ht.has_child hl.2.1
  rw [hl.region_in_cellsBelow ht hk, Retains]
  refine and_congr_right fun _ => ⟨?_, ?_⟩
  · rintro hall ⟨l, hln, hi, hkl⟩
    have hsp := ht.sparse_of_not_isInline (hln.has hn) hi
    exact hi ((ht.isInline_of_sparse (hln.has hn) hsp).2 (hall l hkl hln hsp))
  · intro hno l hkl hln hsp
    by_contra hty
    exact hno ⟨l, hln, fun hi => hty ((ht.isInline_of_sparse (hln.has hn) hsp).1 hi), hkl⟩

end Layout

namespace View

theorem region_wordKey (ht : t.WellFormed) (hl : t.Locates ((n, 0) :: q))
    (hk : n.kind = .place info) :
    (wordKey n q).1.region = Position.region ((n, 0) :: q) := (ht.word_datum hl hk).2.1

/-- A place is in use where its word is. -/
theorem active_wordKey (ht : t.WellFormed) (hl : t.Locates ((n, 0) :: q))
    (hk : n.kind = .place info) :
    v.Active t (wordKey n q).1 ↔ v.Active t ((n, 0) :: q) := by
  have hn : v.Active t ((n, 0) :: q) ↔ v.Active t q := by
    refine ⟨fun h => h.1, fun h => ⟨h, hl.2.1, hl.2.2, ?_⟩⟩
    simp [On, ht.place_container (ht.has_child hl.2.1) hk]
  rw [hn]
  rcases ht.wordKey_cases hl with he | ⟨b, he, hb⟩
  · rw [he]
  · have hq := hl.1
    rw [he] at hq
    conv_rhs => rw [he]
    refine ⟨fun h => ⟨h, hq.2.1, hq.2.2, ?_⟩, fun h => h.1⟩
    rcases (ht.typed (ht.has_child hq.2.1)).isBitLevel_iff.1 hb with hc | hc <;> simp [On, hc]

/-- The words of places that are not in use are zero. -/
def Clean (v : View) (t : Layout) (n : Node) : Prop :=
  ∀ q, t.Locates ((n, 0) :: q) → ¬ v.Active t ((n, 0) :: q) →
    v.word (wordKey n q).1 (wordKey n q).2 = 0

theorem Clean.mono (h : v.Clean t n) (hle : v.Le v') (hw : v'.word = v.word) : v'.Clean t n := by
  intro q hl ha
  rw [hw]
  exact h q hl fun hv => ha (hle.active hv)

/-- A word may change where the cell around it is in use. -/
theorem Clean.setWord (ht : t.WellFormed) (hk : n.kind = .place info) (h : v.Clean t n)
    (hp : v.Active t p) (m : Node) (w : Nat) : (v.setWord p m w).Clean t n := by
  intro q hl ha
  rw [active_setWord] at ha
  have hne : ¬ ((wordKey n q).1 = p ∧ (wordKey n q).2 = m) := by
    rintro ⟨rfl, -⟩
    exact ha ((active_wordKey ht hl hk).1 hp)
  simp only [View.setWord, if_neg hne]
  exact h q hl ha

/-- Words stay zero where cells that are lost give back their memory. -/
theorem Clean.forget (ht : t.WellFormed) (hk : n.kind = .place info) (h : v.Clean t n)
    (hD : Closed D) (hlost : ∀ q, t.Locates ((n, 0) :: q) → ∀ l j p, (l, j) :: p <:+ (n, 0) :: q →
      l.type.isSparse = true → (l, j) :: p ∈ D → (Position.region ((n, 0) :: q)).In D) :
    (v.forget D).Clean t n := by
  intro q hl ha
  simp only [View.forget]
  split
  · rfl
  rename_i hr
  refine h q hl fun hv => ha ?_
  rw [active_forget ht hD]
  refine ⟨hv, fun l j p hs hsp hx => hr ?_⟩
  rw [region_wordKey ht hl hk]
  exact hlost q hl l j p hs hsp hx

/-- The words in a cell are zeroed with it. -/
theorem Clean.forget_wipe (ht : t.WellFormed) (hk : n.kind = .place info) (h : v.Clean t n)
    (hD : Closed x.From) : ((v.forget x.From).wipe x).Clean t n := by
  intro r hl ha
  rw [active_wipe] at ha
  simp only [View.wipe, View.forget]
  split
  · rfl
  split
  · rfl
  rename_i hnot _
  refine h r hl fun hv => ha ((active_forget ht hD).2 ⟨hv, ?_⟩)
  intro l j p hs hsp hx
  exact hnot (List.IsSuffix.trans hx (ht.suffix_wordKey hl hk hs hsp))

/-- Deactivating one cell leaves no word behind. -/
theorem Clean.deactivate (ht : t.WellFormed) (hk : n.kind = .place info) (h : v.Clean t n)
    (hl : t.Has l) (hs : l.type.isSparse = true) (j : Nat) (q : Position) :
    (v.deactivate l j q).Clean t n := by
  unfold View.deactivate
  rcases (ht.isSparse_iff hl).1 hs with hc | ⟨b, hc⟩ | ⟨axis, c, b, hc⟩
  · simp only [hc]
    refine h.forget ht hk (closed_from (by simp [hc])) fun r _ l' j' p' hs' _ hx => ?_
    exact (region_in_from_iff hc).2 (List.IsSuffix.trans hx hs')
  · simp only [hc]
    split
    · exact h.forget_wipe ht hk (closed_from (by simp [hc]))
    · exact h
  · simp only [hc]
    refine h.forget ht hk (closed_inside q l) fun r _ l' j' p' hs' _ hx => ?_
    obtain ⟨i, hi⟩ := hx
    exact (region_in_inside_iff (by simp [Layout.Node.isInline, hc])).2 ⟨i, hi.trans hs'⟩

/-- Deactivating all cells of a node leaves no word behind, unless the node retains words. -/
theorem Clean.deactivateAll (ht : t.WellFormed) (hn : n.kind = .place info) (h : v.Clean t n)
    (hk : t.Has k) (hr : ¬ t.Retains k n) : (v.deactivateAll k).Clean t n := by
  rw [deactivateAll_eq]
  refine h.forget ht hn (closed_cellsBelow k) fun r hl l j p hs hsp hx => ?_
  have hkl := ((hl.suffix hs).mem_cellsBelow ht hk).1 hx
  have hln : t.Above l n := (hl.above_iff ht).2 ⟨(l, j) :: p, hs, rfl⟩
  by_contra hno
  exact hr ((hl.retains_iff ht hk).2 ⟨⟨l, hkl, hln, hsp⟩, hno⟩)

/-- Every step keeps the words of places that are not in use zero, unless it deactivates all cells
of a node that retains them. -/
theorem Clean.step (ht : t.WellFormed) (hk : n.kind = .place info) {call : Call}
    (hstep : View.Step t call v v')
    (hr : ∀ k, call = ⟨k, .deactivateAll⟩ → ¬ t.Retains k n) (h : v.Clean t n) :
    v'.Clean t n := by
  cases hstep with
  | stay => exact h
  | activate => exact h.mono (le_activate _ _) (word_activate _ _)
  | @write _ _ m q info' w hx hk' =>
    have ha := active_activate v (hx.locates ht)
    rw [← active_wordKey ht (hx.locates ht) hk'] at ha
    exact (h.mono (le_activate _ _) (word_activate _ _)).setWord ht hk ha _ w
  | @append _ _ l m x axis dim chunk len w hx hl hlk hm hlen =>
    obtain ⟨cap, bytes, hc⟩ := ht.container_of_dynamic (ht.has_child hl) hlk
    have hle : (v.activate x).Le ((v.activate x).setLength x l (len + 1)) :=
      le_setLength (Nat.le_of_lt (Nat.lt_succ_of_le (Nat.le_of_eq hlen)))
    have ha := hle.active (active_activate v (hx.locates ht))
    have hel : ((v.activate x).setLength x l (len + 1)).Active t ((l, len) :: x) := by
      refine ⟨ha, hl, ?_, ?_⟩
      · simp [Layout.Node.Numbers, hc]
      · simp [On, hc, View.setLength]
    exact ((h.mono (le_activate _ _) (word_activate _ _)).mono hle rfl).setWord ht hk hel m w
  | @deactivate _ _ l j q hx hs =>
    exact h.deactivate ht hk (ht.has_child (hx.locates ht).2.1) hs j q
  | @deactivateAll _ k hkhas => exact h.deactivateAll ht hk hkhas (hr k rfl)

theorem clean_empty (t : Layout) (n : Node) : View.empty.Clean t n := fun _ _ _ => rfl

/-- The cells of a node that retains words are lost, and their words stay. -/
theorem deactivateAll_retains (ht : t.WellFormed) (hk : t.Has k) (hr : t.Retains k n)
    (hn : n.kind = .place info) (hl : t.Locates ((n, 0) :: q)) :
    ¬ (v.deactivateAll k).Active t ((n, 0) :: q) ∧
      (v.deactivateAll k).word (wordKey n q).1 (wordKey n q).2 =
        v.word (wordKey n q).1 (wordKey n q).2 := by
  obtain ⟨⟨l, hkl, hln, hsp⟩, hregion⟩ := (hl.retains_iff ht hk).1 hr
  rw [deactivateAll_eq]
  constructor
  · rw [active_forget ht (closed_cellsBelow k)]
    rintro ⟨-, hnot⟩
    obtain ⟨j, p, hs⟩ := hl.exists_cell ht hln (ht.ne_root_of_sparse hsp)
    exact hnot l j p hs hsp (((hl.suffix hs).mem_cellsBelow ht hk).2 hkl)
  · exact if_neg (region_wordKey ht hl hn ▸ hregion)

end View

namespace Store

variable {s₀ s : Store} {calls : List Call} {d : DataType}

/-- What a place reads, by the view of the storage. -/
theorem Shows.read (ht : t.WellFormed) {tight : Prop} (h : s.Shows t v tight) (hn : t.Has n)
    (hd : n.accessType .read = .ok d) (c : Coords) : ∃ slot, t.valueSlot n c = .ok slot ∧
      (v.Active t (t.place n c n) → s.read t n c = .ok (d.inSlot slot
        (v.word (View.keyOf t n c).1 (View.keyOf t n c).2))) ∧
      (¬ v.Active t (t.place n c n) → s.read t n c = .ok d.zero) := by
  obtain ⟨g, hg, rfl, -⟩ := h
  obtain ⟨info, hk, hacc, rfl⟩ := Node.of_accessType hd
  obtain ⟨p, hp, hnp⟩ := ht.ne_root_of_kind hn (by rw [hk]; simp)
  obtain ⟨slot, hslot⟩ := ht.exists_valueSlot hp hnp hk c
  refine ⟨slot, hslot, ?_⟩
  rw [ht.keyOf_eq hp hnp, ← hg.sound.active_iff]
  exact hg.read ht hp hnp hk hacc hslot

theorem Shows.isActive_iff (ht : t.WellFormed) {tight : Prop} (h : s.Shows t v tight)
    (hn : t.Has n) (c : Coords) : ∃ b, s.isActive t n c = .ok b ∧
      (b = true ↔ v.Active t (t.place n c n)) := by
  obtain ⟨g, hg, rfl, -⟩ := h
  rw [← hg.sound.active_iff]
  exact hg.isActive ht hn c

theorem Shows.activate (ht : t.WellFormed) {tight : Prop} (h : s.Shows t v tight)
    (hn : t.Has n) {s' : Store} (hs : StoreM.activate t n c s = .ok () s') :
    s'.Shows t (v.activate (t.place n c n)) False := by
  obtain ⟨g, hg, rfl, -⟩ := h
  have hends := hg.activate ht hn c
  rw [StoreM.Ends, hs] at hends
  exact hends.shows.mono False.elim

/-- A place for which no word was left behind holds zero when it is put to use. -/
theorem Shows.read_clean (ht : t.WellFormed) {tight : Prop} (h : s.Shows t v tight) (hn : t.Has n)
    (hd : n.accessType .read = .ok d) (hclean : v.Clean t n) {c : Coords}
    (hoff : ¬ v.Active t (t.place n c n)) {s' : Store} (hs' : StoreM.activate t n c s = .ok () s') :
    s'.read t n c = .ok d.zero := by
  obtain ⟨info, hk, hacc, rfl⟩ := Node.of_accessType hd
  obtain ⟨p, hp, hnp⟩ := ht.ne_root_of_kind hn (by rw [hk]; simp)
  have hl := ht.locates_place n c hn
  obtain ⟨slot, -, hread, -⟩ := (h.activate ht hn hs').read ht hn hd c
  rw [hread (View.active_activate v hl), View.word_activate, ht.keyOf_eq hp hnp]
  rw [ht.place_of_place hp hnp hk] at hl hoff
  rw [hclean _ hl hoff]
  exact congrArg Except.ok (DataType.inSlot_zero hacc slot)

/-- Where a node retains words, a place goes out of use with it and comes back with its value. -/
theorem Shows.read_retained (ht : t.WellFormed) {tight : Prop} (h : s.Shows t v tight)
    (hn : t.Has n) (hd : n.accessType .read = .ok d) (hkhas : t.Has k) (hr : t.Retains k n)
    {c : Coords} (ha : v.Active t (t.place n c n)) :
    ∃ s', StoreM.deactivateAll t k s = .ok () s' ∧ s'.isActive t n c = .ok false ∧
      ∀ s'', StoreM.activate t n c s' = .ok () s'' → s''.read t n c = s.read t n c := by
  obtain ⟨info, hk, -, rfl⟩ := Node.of_accessType hd
  obtain ⟨p, hp, hnp⟩ := ht.ne_root_of_kind hn (by rw [hk]; simp)
  have hl := ht.locates_place n c hn
  have hplace := ht.place_of_place hp hnp hk n c
  obtain ⟨g, hg, rfl, -⟩ := id h
  have hcount : g.view.Countable t (t.parentBranch k) [] := by
    obtain ⟨⟨l, hkl, hln, hsp⟩, -⟩ := hr
    exact hg.countable_of_bytes ht hkhas fun hroot =>
      hkl.bytes_pos ht (hln.has hn) hroot (ht.bytes_pos_of_sparse (hln.has hn) hsp)
  obtain ⟨_, s', hrun, h'⟩ := (hg.deactivateAll ht hkhas hcount).exists_ok
  have hshows := Represents.shows_deactivateAll h'
  obtain ⟨hoff, hword⟩ := View.deactivateAll_retains (v := g.view) ht hkhas hr hk (hplace ▸ hl)
  rw [← hplace] at hoff
  obtain ⟨b, hb, hbiff⟩ := hshows.isActive_iff ht hn c
  refine ⟨s', hrun, ?_, ?_⟩
  · rw [hb, Bool.eq_false_iff.2 fun h => hoff (hbiff.1 h)]
  · intro s'' hs''
    obtain ⟨slot, hslot, hread, -⟩ := h.read ht hn hd c
    obtain ⟨slot', hslot', hread', -⟩ := (hshows.activate ht hn hs'').read ht hn hd c
    rw [hslot, Except.ok.injEq] at hslot'
    subst hslot'
    rw [hread ha, hread' (View.active_activate _ hl), View.word_activate, ht.keyOf_eq hp hnp, hword]

/-- A cell that is activated anew holds zero, unless all cells of a node around it were deactivated
where that retains words. In that case the next activation brings the old value back. -/
theorem read_reactivated (h : t.Starts s₀) (hc : t.Calls calls) (hn : t.Has n)
    (hd : n.accessType .read = .ok d) (c : Coords) (hs : (s₀.session t calls).2 = s) :
    ((∀ k, ⟨k, .deactivateAll⟩ ∈ calls → ¬ t.Retains k n) →
      s.isActive t n c = .ok false →
        ∀ s', StoreM.activate t n c s = .ok () s' → s'.read t n c = .ok d.zero) ∧
    ∀ k, t.Has k → t.Retains k n → s.isActive t n c = .ok true →
      ∃ s', StoreM.deactivateAll t k s = .ok () s' ∧ s'.isActive t n c = .ok false ∧
        ∀ s'', StoreM.activate t n c s' = .ok () s'' → s''.read t n c = s.read t n c := by
  have ht := h.wellFormed
  obtain ⟨rs, v, hruns, -, hshows⟩ := h.shows.session ht hc
  rw [hs] at hshows
  obtain ⟨info, hk, -, rfl⟩ := Node.of_accessType hd
  obtain ⟨b, hb, hbiff⟩ := hshows.isActive_iff ht hn c
  constructor
  · intro hall hoff s' hs'
    -- no call of the run leaves a word behind
    have hclean : v.Clean t n := by
      refine hruns.induction ht hc (motive := fun v => v.Clean t n) ?_ (View.clean_empty t n)
      intro call hcall v v' hstep hv
      refine hv.step ht hk hstep ?_
      rintro k rfl
      exact hall k hcall
    rw [hoff, Except.ok.injEq] at hb
    refine hshows.read_clean ht hn hd hclean (fun ha => ?_) hs'
    rw [← hb] at hbiff
    exact Bool.false_ne_true (hbiff.2 ha)
  · intro k hkhas hr hon
    rw [hon, Except.ok.injEq] at hb
    exact hshows.read_retained ht hn hd hkhas hr (hbiff.1 hb.symm)

/-- Deactivating all pointer cells clears a member below them; deactivating all bitmasked cells
brings its value back. -/
theorem read_reactivated_sample :
    (∃ s', StoreM.activate Sample.layout (Sample.node 3) Sample.cell
        (Sample.store.session Sample.layout [⟨Sample.node 3, .write [1, 3] (.int 42)⟩,
          ⟨Sample.node 1, .deactivateAll⟩]).2 = .ok () s' ∧
      s'.read Sample.layout (Sample.node 3) Sample.cell = .ok (.int 0)) ∧
    ∃ s', StoreM.deactivateAll Sample.layout (Sample.node 2) (Sample.store.session Sample.layout
        [⟨Sample.node 3, .write [1, 3] (.int 42)⟩]).2 = .ok () s' ∧
      s'.isActive Sample.layout (Sample.node 3) Sample.cell = .ok false ∧
      ∀ s'', StoreM.activate Sample.layout (Sample.node 3) Sample.cell s' = .ok () s'' →
        s''.read Sample.layout (Sample.node 3) Sample.cell = .ok (.int 42) := by
  have above {i j : Nat} (hp : Sample.layout.Has (Sample.node i))
      (hn : Sample.node j ∈ Sample.layout.childNodes (Sample.node i)) :
      Sample.layout.Above (Sample.node i) (Sample.node j) := .child hp hn
  have h12 := above (i := 1) (j := 2) (by decide +kernel) (by decide +kernel)
  have h23 := above (i := 2) (j := 3) (by decide +kernel) (by decide +kernel)
  have hn : Sample.layout.Has (Sample.node 3) := by decide +kernel
  have hd : (Sample.node 3).accessType .read = .ok (.int .w32) := by decide +kernel
  constructor
  · obtain ⟨hzero, -⟩ := read_reactivated Sample.starts
      (show Sample.layout.Calls [⟨Sample.node 3, .write [1, 3] (.int 42)⟩,
        ⟨Sample.node 1, .deactivateAll⟩] by unfold Layout.Calls; decide +kernel)
      hn hd Sample.cell rfl
    have hok : (StoreM.activate Sample.layout (Sample.node 3) Sample.cell
        (Sample.store.session Sample.layout [⟨Sample.node 3, .write [1, 3] (.int 42)⟩,
          ⟨Sample.node 1, .deactivateAll⟩]).2 matches .ok ..) = true := by decide +kernel
    cases hs : StoreM.activate Sample.layout (Sample.node 3) Sample.cell
        (Sample.store.session Sample.layout [⟨Sample.node 3, .write [1, 3] (.int 42)⟩,
          ⟨Sample.node 1, .deactivateAll⟩]).2 with
    | error e s => rw [hs] at hok; cases hok
    | ok u s' =>
      refine ⟨s', rfl, hzero ?_ (by decide +kernel) s' hs⟩
      intro k hk hr
      obtain rfl : k = Sample.node 1 := by simpa using hk
      have hty := hr.2 (Sample.node 1) (.refl _) (h12.trans h23) (by decide +kernel)
      exact absurd hty (by decide +kernel)
  · obtain ⟨-, hkeep⟩ := read_reactivated Sample.starts
      (show Sample.layout.Calls [⟨Sample.node 3, .write [1, 3] (.int 42)⟩] by
        unfold Layout.Calls; decide +kernel) hn hd Sample.cell rfl
    have hretains : Sample.layout.Retains (Sample.node 2) (Sample.node 3) := by
      refine ⟨⟨Sample.node 2, .refl _, h23, by decide +kernel⟩, ?_⟩
      intro l h2l hl3 hs
      have ht := Sample.starts.wellFormed
      have hall : ∀ l ∈ Sample.layout.branch (Sample.node 3).id, (Sample.node 2).id ≤ l.id →
          l.type.isSparse = true → l.type = .bitmasked := by decide +kernel
      rcases (ht.above_iff hn).1 hl3 with rfl | hmem
      · rw [ht.not_sparse_root] at hs
        cases hs
      · exact hall l hmem (h2l.id_le ht.toBranching) hs
    obtain ⟨s', hs', hoff, hread⟩ := hkeep (Sample.node 2) (by decide +kernel) hretains
      (by decide +kernel)
    refine ⟨s', hs', hoff, fun s'' hs'' => ?_⟩
    rw [hread s'' hs'']
    decide +kernel

end Store

end SparseLayout
