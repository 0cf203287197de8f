import SparseLayout.Store

namespace SparseLayout

namespace StoreM

variable {α β : Type} {m : StoreM α} {s : Store} {ok ok' : α → Store → Prop}
  {no no' : AccessError → Store → Prop}

/-- Run on `s`, the operation ends with a result and a storage that satisfy `ok`, or with a refusal
and a storage that satisfy `no`. -/
def Ends (m : StoreM α) (s : Store) (ok : α → Store → Prop) (no : AccessError → Store → Prop) :
    Prop :=
  match m s with
  | .ok a s => ok a s
  | .error (.refused e) s => no e s
  | .error .outside _ => False

/-- No refusal. -/
def never : AccessError → Store → Prop := fun _ _ => False

theorem Ends.mono (h : Ends m s ok no) (hok : ∀ a s, ok a s → ok' a s)
    (hno : ∀ e s, no e s → no' e s) : Ends m s ok' no' := by
  unfold Ends at *
  split at h
  · exact hok _ _ h
  · exact hno _ _ h
  · exact h.elim

theorem Ends.imp (h : Ends m s ok no) (hok : ∀ a s, ok a s → ok' a s) : Ends m s ok' no :=
  h.mono hok fun _ _ hn => hn

/-- An operation that is never refused, where refusals do not matter. -/
theorem Ends.total (h : Ends m s ok never) : Ends m s ok no := h.mono (fun _ _ ha => ha) fun _ _ => False.elim

/-- What is known of the result of the computation holds as well. -/
theorem Ends.and_of_ok {P : α → Store → Prop} (h : Ends m s ok no)
    (hP : ∀ a s', m s = .ok a s' → P a s') : Ends m s (fun a s => ok a s ∧ P a s) no := by
  unfold Ends at *
  split at h
  · exact ⟨h, hP _ _ ‹_›⟩
  · exact h
  · exact h

/-- An operation that is never refused has a result. -/
theorem Ends.exists_ok (h : Ends m s ok never) : ∃ a s', m s = .ok a s' ∧ ok a s' := by
  unfold Ends at h
  split at h
  · exact ⟨_, _, ‹_›, h⟩
  · exact h.elim
  · exact h.elim

/-- What the computation does satisfies what is known of it. -/
theorem Ends.of_ok {a : α} {s' : Store} (h : m s = .ok a s') (ha : ok a s') : Ends m s ok no := by
  unfold Ends
  rw [h]
  exact ha

theorem Ends.of_error {e : AccessError} {s' : Store} (h : m s = .error (.refused e) s')
    (he : no e s') : Ends m s ok no := by
  unfold Ends
  rw [h]
  exact he

theorem Ends.eq_ok {a : α} {s' : Store} (h : Ends m s (fun b s₁ => b = a ∧ s₁ = s') never) :
    m s = .ok a s' := by
  obtain ⟨_, _, hrun, rfl, rfl⟩ := h.exists_ok
  exact hrun

theorem Ends.eq_error {e : AccessError} {s' : Store}
    (h : Ends m s (fun _ _ => False) (fun e' s₁ => e' = e ∧ s₁ = s')) :
    m s = .error (.refused e) s' := by
  unfold Ends at h
  split at h
  · exact h.elim
  · obtain ⟨rfl, rfl⟩ := h
    assumption
  · exact h.elim

theorem Ends.bind {f : α → StoreM β} {ok : β → Store → Prop}
    (h : Ends m s (fun a s => Ends (f a) s ok no) no) : Ends (m >>= f) s ok no := by
  unfold Ends at h
  change match EStateM.bind m f s with
    | .ok a s => ok a s
    | .error (.refused e) s => no e s
    | .error .outside _ => False
  unfold EStateM.bind
  split at h
  · rename_i a s' he
    rw [he]
    exact h
  · rename_i e s' he
    rw [he]
    exact h
  · exact h.elim

theorem ends_pure {a : α} (h : ok a s) : Ends (pure a) s ok no := h

theorem ends_get {ok : Store → Store → Prop} (h : ok s s) : Ends get s ok no := h

theorem ends_throw {e : AccessError} (h : no e s) :
    Ends (throw (.refused e)) s ok no := h

theorem ends_modify {f : Store → Store} {ok : PUnit → Store → Prop} (h : ok ⟨⟩ (f s)) :
    Ends (modify f) s ok no := h

theorem ends_look {f : Store → Except Fault α} {a : α} (hf : f s = .ok a) (h : ok a s) :
    Ends (look f) s ok no := by
  unfold Ends look
  rw [hf]
  exact h

theorem ends_look_refused {f : Store → Except Fault α} {e : AccessError}
    (hf : f s = .error (.refused e)) (h : no e s) : Ends (look f) s ok no := by
  unfold Ends look
  rw [hf]
  exact h

theorem ends_put {a : Address} {n : Nat} {w : UInt64} {ok : PUnit → Store → Prop}
    (hh : s.pool.holds a n) (h : ok ⟨⟩ { s with pool := s.pool.store a n w }) :
    Ends (put a n w) s ok no := by
  unfold Ends put
  rw [if_pos hh]
  exact h

theorem ends_zero {a : Address} {len : Nat} {ok : PUnit → Store → Prop}
    (hh : s.pool.holds a len) (h : ok ⟨⟩ { s with pool := s.pool.zero a len }) :
    Ends (zero a len) s ok no := by
  unfold Ends zero
  rw [if_pos hh]
  exact h

/-- A loop over a list keeps an invariant about the entries that are done. -/
theorem ends_forM {l : List β} {f : β → StoreM PUnit} (I : List β → Store → Prop) (h0 : I [] s)
    (hstep : ∀ done x rest s, l = done ++ x :: rest → I done s →
      Ends (f x) s (fun _ s => I (done ++ [x]) s) no) :
    Ends (l.forM f) s (fun _ s => I l s) no := by
  -- by induction on what is left
  suffices h : ∀ rest done s, l = done ++ rest → I done s →
      Ends (rest.forM f) s (fun _ s => I l s) no from h l [] s rfl h0
  intro rest
  induction rest with
  | nil =>
    intro done s hl hi
    rw [List.append_nil] at hl
    exact ends_pure (hl ▸ hi)
  | cons x rest ih =>
    intro done s hl hi
    refine Ends.bind ((hstep done x rest s hl hi).imp ?_)
    intro _ s hi
    exact ih (done ++ [x]) s (by simp [hl]) hi

/-- A loop over the first numbers. -/
theorem ends_range {n : Nat} {f : Nat → StoreM PUnit} (I : Nat → Store → Prop) (h0 : I 0 s)
    (hstep : ∀ i < n, ∀ s, I i s → Ends (f i) s (fun _ s => I (i + 1) s) no) :
    Ends ((List.range n).forM f) s (fun _ s => I n s) no := by
  refine (ends_forM (fun done s => I done.length s) h0 ?_).imp fun _ s hi => by simpa using hi
  intro done x rest s hl hi
  have hlen := congrArg List.length hl
  have hx : (List.range n)[done.length]? = some x := by simp [hl]
  simp only [List.length_range, List.length_append, List.length_cons] at hlen
  rw [List.getElem?_range (by omega), Option.some.injEq] at hx
  subst hx
  simpa using hstep done.length (by omega) s hi

end StoreM

end SparseLayout
