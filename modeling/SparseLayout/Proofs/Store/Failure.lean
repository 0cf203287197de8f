import SparseLayout.Proofs.Store.Frame

namespace SparseLayout

open Layout (Node)
open StoreM (Ends)

variable {t : Layout} {g g' : Contents} {m n p : Node} {c d : Coords} {x : Position}

namespace Store

variable {s s' : Store}

/-- What was in use before is as it was, and no list is shorter. -/
structure Spares (s s' : Store) (t : Layout) : Prop where
  cells : ∀ {m d}, t.HasCell m d → s.isActive t m d = .ok true → s.SameCell s' t m d
  lengths : ∀ {m d len}, t.Has m → s.length t m d = .ok len →
    ∃ len', s'.length t m d = .ok len' ∧ len ≤ len'

namespace Represents

variable (ht : t.WellFormed) (h : s.Represents t g) (hs : s'.FallsShort t g x)

include ht h hs

theorem spares : s.Spares s' t := by
  obtain ⟨g', h', hle, q, -, hview⟩ := hs
  constructor
  · -- cells on the way to `x` may have come into use, none that was in use got a new word
    intro m d hd hon
    have ha := (h.isActive_eq_true_iff ht hd.has).1 hon
    refine h.sameCell ht h' hd.has (iff_of_true (hle.active ha) ha)
      (fun ha => hle.cellStart_eq h.sound ha) fun _ => ?_
    change g'.view.word _ _ = _
    rw [hview, View.word_activate]
    rfl
  · intro m d len hm hlen
    cases hdim : m.listCapacity .length with
    | error e =>
      unfold Store.length at hlen
      rw [hdim] at hlen
      cases hlen
    | ok dim =>
      obtain ⟨axis, chunk, hk⟩ := Node.of_listCapacity hdim
      obtain ⟨hp, hmp⟩ := ht.child_outer hm (by rw [hk]; simp)
      obtain ⟨l, hl, hv⟩ := h.length ht hp hmp hk d
      obtain ⟨l', hl', hv'⟩ := h'.length ht hp hmp hk d
      rw [hlen, Except.ok.injEq] at hl
      subst hl
      refine ⟨l', hl', UInt32.le_iff_toNat_le.2 ?_⟩
      rw [hv, hv']
      exact hle.length _ m

/-- Lists in the cell that was not reached, or not grown, have their old length. -/
theorem length_eq_of_fallsShort (hp : t.Has p) (hn : n ∈ t.childNodes p)
    (hx : x = t.place p c p) : s'.length t n c = s.length t n c := by
  obtain ⟨g', h', -, q, hq, hview⟩ := hs
  refine h.length_eq ht h' (ht.has_child hn) fun _ => ?_
  rw [Layout.outer_eq ht hp hn, ← hx]
  change g'.view.length x n = _
  rw [hview, View.length_activate_of_suffix _ hq]
  rfl

end Represents

variable {s₀ : Store} {hist : List Call} {call : Call} {e : Fault}

/-- After any run, a call that fails leaves the storage as it was, unless it ran out of memory. Then
cells in use stay in use where they were and read the same, no list is shorter, and one that was to
be appended to has its old length. -/
theorem session_fails (h : t.Starts s₀) (hh : t.Calls hist) (hs : (s₀.session t hist).2 = s)
    (hn : t.Has call.node) (hrun : call.run t s = .error e s') : ∃ error, e = .refused error ∧
      (¬ error.IsShortage → s' = s) ∧
      (error.IsShortage → s.Spares s' t ∧
        ∀ idx v p c, call.action = .append idx v → t.parentNode call.node = .ok p →
          p.resolve idx = .ok c → s'.length t call.node c = s.length t call.node c) := by
  have ht := h.wellFormed
  obtain ⟨rs, v, -, -, g, hg, -, -⟩ := h.shows.session ht hh
  rw [hs] at hg
  have hends := hg.endsAs_run ht hn call.action
  rw [Represents.EndsAs, Represents.EndsShowing, Ends, show call.action.run t call.node = call.run t
    from rfl, hrun] at hends
  cases e with
  | outside => exact hends.elim
  | refused error =>
    refine ⟨error, rfl, ?_⟩
    -- a refused call ended before its first change, or short of memory on its way to a cell
    rcases hends with ⟨rfl, -⟩ | ⟨hshort, x, hx, hfalls⟩
    · refine ⟨fun _ => rfl, fun _ => ⟨⟨fun _ _ => ⟨rfl, rfl, rfl⟩, ?_⟩, fun _ _ _ _ _ _ _ => rfl⟩⟩
      exact fun _ hlen => ⟨_, hlen, UInt32.le_refl _⟩
    · refine ⟨fun hno => absurd hshort hno, fun _ => ⟨hg.spares ht hfalls, ?_⟩⟩
      intro idx v p c ha hp hc
      obtain ⟨hphas, hnp⟩ := Layout.of_parentNode ht hn hp
      refine hg.length_eq_of_fallsShort ht hfalls hphas hnp ?_
      rw [ha] at hx
      cases hx with
      | append hp' hc' =>
        rw [hp, Except.ok.injEq] at hp'
        subst hp'
        rw [hc, Except.ok.injEq] at hc'
        rw [hc']

end Store

/-- A storage of one segment of 64 bytes. -/
def Sample.cramped : Store :=
  (Store.new layout ⟨.padded, 64, 1⟩).toOption.get (by decide +kernel)

theorem Sample.starts_cramped : layout.Starts cramped :=
  ⟨_, ⟨.padded, 64, 1⟩, 0, built, wellSized, eq_ok_get _, by decide +kernel, eq_ok_get _⟩

/-- A full list takes no element and nothing changes. Where there is room for one block only, no
list starts beside a pointer cell, and the value in the cell stays. -/
theorem Store.session_fails_sample :
    let t := Sample.layout
    let append : Call := ⟨Sample.node 4, .append [] (.int 9)⟩
    let full := (Sample.store.session t [⟨Sample.node 5, .write [4] (.int 1)⟩]).2
    let cramped := (Sample.cramped.session t [⟨Sample.node 3, .write [1, 3] (.int 42)⟩]).2
    append.run t full = .error (.refused (.listFull 5)) full ∧
    ∃ shortage s' c, append.run t cramped = .error (.refused (.outOfMemory shortage)) s' ∧
      s'.read t (Sample.node 3) Sample.cell = .ok (.int 42) ∧ t.rootNode.resolve [] = .ok c ∧
        s'.length t (Sample.node 4) c = .ok 0 := by
  intro t append full cramped
  have hn : t.Has append.node := by decide +kernel
  constructor
  · have hh : t.Calls [⟨Sample.node 5, .write [4] (.int 1)⟩] := by
      unfold Layout.Calls
      decide +kernel
    have hfull : (append.run t full matches .error (.refused (.listFull 5)) _) = true := by
      decide +kernel
    split at hfull
    · rename_i s' hrun
      obtain ⟨error, he, hsame, -⟩ := session_fails Sample.starts hh rfl hn hrun
      cases he
      rw [hrun, hsame fun ⟨_, h⟩ => by cases h]
    · cases hfull
  · have hh : t.Calls [⟨Sample.node 3, .write [1, 3] (.int 42)⟩] := by
      unfold Layout.Calls
      decide +kernel
    have hshort : (append.run t cramped matches .error (.refused (.outOfMemory _)) _) = true := by
      decide +kernel
    split at hshort
    · rename_i shortage s' hrun
      obtain ⟨error, he, -, hkept⟩ := session_fails Sample.starts_cramped hh rfl hn hrun
      cases he
      obtain ⟨hspares, hlength⟩ := hkept ⟨shortage, rfl⟩
      have hroot := eq_ok_get (r := t.rootNode.resolve []) (by decide +kernel)
      have hcell : t.HasCell (Sample.node 3) Sample.cell :=
        .of_resolve Sample.starts.wellFormed (by decide +kernel)
          (eq_ok_get (r := (Sample.node 3).resolve [1, 3]) _)
      refine ⟨shortage, s', _, hrun, ?_, hroot, ?_⟩
      · rw [(hspares.cells hcell (by decide +kernel)).read]
        decide +kernel
      · rw [hlength [] (.int 9) t.rootNode _ rfl (by decide +kernel) hroot]
        decide +kernel
    · cases hshort

end SparseLayout
