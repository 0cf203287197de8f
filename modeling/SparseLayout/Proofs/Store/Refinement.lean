import SparseLayout.Proofs.Reference.Forget
import SparseLayout.Proofs.Reference.Nested
import SparseLayout.Proofs.Store.Accounts

namespace SparseLayout

open Layout (Node)
open Layout.Node (around number)

variable {t : Layout} {v v' : View} {r : Reference} {n : Node}

/-- An operation on a view and one on a store have the same result and leave them alike. -/
inductive Mirrored (t : Layout) :
    EStateM.Result AccessError View Answer → EStateM.Result AccessError Reference Answer → Prop
  | ok {v : View} {r : Reference} (a : Answer) (h : Mirrors t v r) : Mirrored t (.ok a v) (.ok a r)
  | error {v : View} {r : Reference} (e : AccessError) (h : Mirrors t v r) :
    Mirrored t (.error e v) (.error e r)

theorem mirrors_empty (t : Layout) : Mirrors t .empty .empty := by
  refine ⟨fun _ _ _ _ => rfl, fun _ _ _ _ _ => rfl, ?_⟩
  intro n c info slot _ _ _ _ hd _
  exact DataType.inSlot_zero hd slot

namespace Mirrors

/-- It is enough to look at the coordinates that an index expression resolves to. -/
theorem atIndex (h : Mirrors t v r) {space : Except AccessError Node} {idx : List Int32}
    {f : Node → Coords → EStateM AccessError View Answer}
    {g : Node → Coords → EStateM AccessError Reference Answer}
    (hop : ∀ p c, space = .ok p → p.resolve idx = .ok c → Mirrored t (f p c v) (g p c r)) :
    Mirrored t (SparseLayout.atIndex space idx f v) (SparseLayout.atIndex space idx g r) := by
  unfold SparseLayout.atIndex
  cases space with
  | error e => exact .error e h
  | ok p =>
    cases hc : p.resolve idx with
    | error e =>
      simp only [hc]
      exact .error e h
    | ok c =>
      simp only [hc]
      exact hop p c rfl hc

variable (ht : t.WellFormed) (h : Mirrors t v r) (hn : t.Has n)
include ht h hn

theorem performWrite (idx : List Int32) (x : Scalar) :
    Mirrored t (View.perform t n (.write idx x) v) (Reference.perform t n (.write idx x) r) := by
  unfold View.perform Reference.perform
  refine h.atIndex fun p c hp hc => ?_
  cases hp
  obtain ⟨ha, hw⟩ := ht.of_resolve hn hc
  dsimp only
  cases hd : n.accessType .write with
  | error e => exact .error e h
  | ok d =>
    obtain ⟨info, hk, hacc, rfl⟩ := Node.of_accessType hd
    obtain ⟨p, hp, hnp⟩ := ht.ne_root_of_kind hn (by rw [hk]; simp)
    obtain ⟨slot, hslot⟩ := ht.exists_valueSlot hp hnp hk c
    simp only [hslot]
    rw [← View.word_activate v (t.place n c n)]
    exact .ok .done ((h.activate ht hn ha hw).write ht hn ha hw hk hacc hslot x)

theorem performAppend (idx : List Int32) (x : Scalar) :
    Mirrored t (View.perform t n (.append idx x) v) (Reference.perform t n (.append idx x) r) := by
  unfold View.perform Reference.perform
  refine h.atIndex fun p c hp hc => ?_
  obtain ⟨hp, hnp⟩ := Layout.of_parentNode ht hn hp
  obtain ⟨ha, hw⟩ := ht.of_resolve hp hc
  dsimp only
  cases hdim : n.listCapacity .append with
  | error e => exact .error e h
  | ok dim =>
  obtain ⟨axis, chunk, hk⟩ := Node.of_listCapacity hdim
  cases hm : t.onlyPlace? n with
  | none => exact .error _ h
  | some m =>
  dsimp only
  cases hd : m.accessType .append with
  | error e => exact .error e h
  | ok d =>
  obtain ⟨info, hmk, hacc, rfl⟩ := Node.of_accessType hd
  have hnd : n.type = .dynamic := by
    rw [Node.type, hk]
    rfl
  have hact := h.activate ht hp ha hw
  dsimp only
  rw [hact.length hp hnp ha hw hnd]
  split
  · exact .error _ hact
  · rename_i hlen
    exact .ok _ ((hact.setLength ht hp hnp hnd hw _).writeElement ht hp hnp hk
      (Layout.onlyPlace hk hm).1 hmk hacc hw (Nat.lt_of_not_le hlen) x)

theorem performRead (idx : List Int32) :
    Mirrored t (View.perform t n (.read idx) v) (Reference.perform t n (.read idx) r) := by
  unfold View.perform Reference.perform
  refine h.atIndex fun p c hp hc => ?_
  cases hp
  obtain ⟨ha, hw⟩ := ht.of_resolve hn hc
  dsimp only
  cases hd : n.accessType .read with
  | error e => exact .error e h
  | ok d =>
    obtain ⟨info, hk, hacc, rfl⟩ := Node.of_accessType hd
    obtain ⟨p, hp, hnp⟩ := ht.ne_root_of_kind hn (by rw [hk]; simp)
    obtain ⟨slot, hslot⟩ := ht.exists_valueSlot hp hnp hk c
    simp only [hslot]
    rw [h.value hn ha hw hk hacc hslot]
    by_cases hact : v.Active t (t.place n c n)
    · rw [if_pos hact, if_pos ((h.active_iff ht hn ha hw).1 hact)]
      exact .ok _ h
    · rw [if_neg hact, if_neg fun hr => hact ((h.active_iff ht hn ha hw).2 hr)]
      exact .ok _ h

theorem performLength (idx : List Int32) :
    Mirrored t (View.perform t n (.length idx) v) (Reference.perform t n (.length idx) r) := by
  unfold View.perform Reference.perform
  refine h.atIndex fun p c hp hc => ?_
  obtain ⟨hp, hnp⟩ := Layout.of_parentNode ht hn hp
  obtain ⟨ha, hw⟩ := ht.of_resolve hp hc
  cases hdim : n.listCapacity .length with
  | error e => exact .error e h
  | ok dim =>
    obtain ⟨axis, chunk, hk⟩ := Node.of_listCapacity hdim
    have hnd : n.type = .dynamic := by
      rw [Node.type, hk]
      rfl
    dsimp only
    rw [h.length hp hnp ha hw hnd]
    exact .ok _ h

open Classical in
/-- An operation does to a store what it does to a view of the same cells, unless these are too many
to be listed. -/
theorem perform (a : Action) (hcap : a = .deactivateAll → ∀ v',
    View.perform t n a v ≠ .error (.panic .capacity) v') :
    Mirrored t (View.perform t n a v) (Reference.perform t n a r) := by
  cases a with
  | activate idx =>
    unfold View.perform Reference.perform
    refine h.atIndex fun p c hp hc => ?_
    cases hp
    obtain ⟨ha, hw⟩ := ht.of_resolve hn hc
    exact .ok _ (h.activate ht hn ha hw)
  | deactivate idx =>
    unfold View.perform Reference.perform
    refine h.atIndex fun p c hp hc => ?_
    cases hp
    obtain ⟨ha, hw⟩ := ht.of_resolve hn hc
    split
    · rename_i hs
      exact .ok _ (h.deactivate ht hn hs ha hw)
    · exact .error _ h
  | deactivateAll =>
    have hcap := hcap rfl v
    simp only [View.perform, Reference.perform] at hcap ⊢
    split
    · exact .ok _ (h.deactivateAll ht hn)
    · rename_i hcount
      exact absurd (if_neg hcount) hcap
  | write idx x => exact h.performWrite ht hn idx x
  | append idx x => exact h.performAppend ht hn idx x
  | read idx => exact h.performRead ht hn idx
  | isActive idx =>
    unfold View.perform Reference.perform
    refine h.atIndex fun p c hp hc => ?_
    cases hp
    obtain ⟨ha, hw⟩ := ht.of_resolve hn hc
    have hiff := h.active_iff ht hn ha hw
    cases hact : r.active t n c with
    | true =>
      rw [decide_eq_true (hiff.2 hact)]
      exact .ok _ h
    | false =>
      rw [decide_eq_false fun hv => Bool.false_ne_true (hact ▸ hiff.1 hv)]
      exact .ok _ h
  | length idx => exact h.performLength ht hn idx

omit hn in
/-- A run in which no call runs out of memory, and none lists too many cells, has the results that
it has on the store. -/
theorem runs {calls : List Call} {rs : List (Except AccessError Answer)}
    (hruns : View.Runs t v calls rs v') (hc : t.Calls calls) (hs : ¬ Short rs)
    (hcap : (∀ c ∈ calls, c.action ≠ .deactivateAll) ∨ .error (.panic .capacity) ∉ rs) :
    (r.session t calls).1 = rs ∧ Mirrors t v' (r.session t calls).2 := by
  induction hruns generalizing r with
  | nil v => exact ⟨rfl, h⟩
  | @ok v₀ v₁ v₂ c cs a rs hp _ ih =>
    have hstep := h.perform ht (hc c List.mem_cons_self) c.action fun _ v' => by
      rw [hp]
      simp
    rw [hp] at hstep
    generalize hr : Reference.perform t c.node c.action r = res at hstep
    cases hstep with
    | @ok _ r₁ _ h₁ =>
      obtain ⟨hres, hm⟩ := ih h₁ (fun c hmem => hc c (List.mem_cons_of_mem _ hmem))
        (fun hs' => hs hs'.cons) (hcap.imp (fun h c hm => h c (List.mem_cons_of_mem _ hm))
          fun h hm => h (List.mem_cons_of_mem _ hm))
      rw [Reference.session_ok hr]
      exact ⟨congrArg _ hres, hm⟩
  | @refused v₀ v₁ v₂ c cs e rs hp _ ih =>
    have hstep := h.perform ht (hc c List.mem_cons_self) c.action fun ha v' he => by
      rw [hp, EStateM.Result.error.injEq] at he
      rcases hcap with hall | hno
      · exact hall c List.mem_cons_self ha
      · exact hno (he.1 ▸ List.mem_cons_self)
    rw [hp] at hstep
    generalize hr : Reference.perform t c.node c.action r = res at hstep
    cases hstep with
    | @error _ r₁ _ h₁ =>
      obtain ⟨hres, hm⟩ := ih h₁ (fun c hmem => hc c (List.mem_cons_of_mem _ hmem))
        (fun hs' => hs hs'.cons) (hcap.imp (fun h c hm => h c (List.mem_cons_of_mem _ hm))
          fun h hm => h (List.mem_cons_of_mem _ hm))
      rw [Reference.session_error hr]
      exact ⟨congrArg _ hres, hm⟩
  | short he _ _ _ => exact absurd ⟨_, List.mem_cons_self, he⟩ hs

end Mirrors

namespace Store

variable {s : Store} {calls : List Call}

/-- What a storage shows after a run in which no call ran out of memory, and none had too many cells
to list, and the results of the run, are those of a store without memory. -/
theorem session_mirrors (h : t.Starts s) (hc : t.Calls calls) (hr : ¬ RanOut (s.session t calls).1)
    (hcap : (∀ c ∈ calls, c.action ≠ .deactivateAll) ∨ ¬ Crowded (s.session t calls).1) :
    (s.session t calls).1 = (Reference.empty.session t calls).1.map (·.mapError .refused) ∧
      ∃ v tight, (s.session t calls).2.Shows t v tight ∧ v.Named t ∧
        Mirrors t v (Reference.empty.session t calls).2 := by
  have ht := h.wellFormed
  obtain ⟨rs, v, hruns, hres, hshows⟩ := h.shows.session ht hc
  have hs : ¬ Short rs := by
    rw [hres, ranOut_iff] at hr
    exact hr
  rw [hres, crowded_iff] at hcap
  obtain ⟨hrs, hm⟩ := (mirrors_empty t).runs ht hruns hc hs hcap
  refine ⟨by rw [hres, hrs], v, _, hshows, ?_, hm⟩
  exact hruns.induction ht (motive := fun v => v.Named t) hc
    (fun _ _ _ _ hstep hn => hn.step ht hstep) (View.named_empty t)

/-- Every result of a run in which no call runs out of memory is that of a store without memory,
where deactivating a cell or a list removes it with everything below. -/
theorem session_refines (h : t.Starts s) (hc : t.Calls calls)
    (hall : ∀ c ∈ calls, c.action ≠ .deactivateAll) (hr : ¬ RanOut (s.session t calls).1) :
    (s.session t calls).1 = (Reference.empty.session t calls).1.map (·.mapError .refused) ∧
      ∀ n, t.Has n → ∀ c, Reference.Agree t ((Reference.empty.session t calls).2.deactivate t n c)
        ((Reference.empty.session t calls).2.cut t n c) :=
  ⟨(session_mirrors h hc hr (.inl hall)).1,
    fun _ hn => (Reference.session_nested h.wellFormed hc hall).agree_cut h.wellFormed hn⟩

/-- A value is read back until its cell is deactivated, and a list of five elements takes no
sixth. -/
theorem session_refines_sample :
    let calls : List Call := [⟨Sample.node 3, .write [1, 3] (.int 42)⟩, ⟨Sample.node 3, .read [1, 3]⟩,
      ⟨Sample.node 2, .deactivate [1, 3]⟩, ⟨Sample.node 3, .isActive [1, 3]⟩,
      ⟨Sample.node 3, .read [1, 3]⟩, ⟨Sample.node 5, .write [3] (.int 7)⟩,
      ⟨Sample.node 4, .append [] (.int 8)⟩, ⟨Sample.node 4, .append [] (.int 9)⟩,
      ⟨Sample.node 5, .read [4]⟩, ⟨Sample.node 4, .length []⟩]
    Sample.layout.Calls calls ∧ ¬ RanOut (Sample.store.session Sample.layout calls).1 ∧
      (Sample.store.session Sample.layout calls).1 =
        (Reference.empty.session Sample.layout calls).1.map (·.mapError .refused) ∧
      (Reference.empty.session Sample.layout calls).1 = [.ok .done, .ok (.value (.int 42)),
        .ok .done, .ok (.flag false), .ok (.value (.int 0)), .ok .done, .ok (.count 4),
        .error (.listFull 5), .ok (.value (.int 8)), .ok (.count 5)] := by
  intro calls
  have hc : Sample.layout.Calls calls := by
    unfold Layout.Calls
    decide +kernel
  have hstore : (Sample.store.session Sample.layout calls).1 = [.ok .done, .ok (.value (.int 42)),
      .ok .done, .ok (.flag false), .ok (.value (.int 0)), .ok .done, .ok (.count 4),
      .error (.refused (.listFull 5)), .ok (.value (.int 8)), .ok (.count 5)] := by
    decide +kernel
  have hr : ¬ RanOut (Sample.store.session Sample.layout calls).1 := by
    rw [hstore]
    rintro ⟨shortage, hs⟩
    simp at hs
  exact ⟨hc, hr, (session_refines Sample.starts hc (by simp [calls]) hr).1, by decide +kernel⟩

end Store

end SparseLayout
