import SparseLayout.Proofs.Contents.View

namespace SparseLayout

open Layout (Node)

namespace View

variable {v v' : View} {p q x y : Position} {n m : Node} {k j : Nat}

theorem eq_of_same (hon : ∀ x, v.on x = true ↔ v'.on x = true)
    (hlength : ∀ p n, v.length p n = v'.length p n) (hword : v.word = v'.word) : v = v' := by
  cases v
  cases v'
  simp only [View.mk.injEq]
  exact ⟨funext fun x => Bool.eq_iff_iff.2 (hon x), funext fun p => funext (hlength p), hword⟩

/-- Raising a cell joins it to the pointer and bitmasked cells in use. -/
theorem on_raise_iff (v : View) (n : Node) (k : Nat) (p x : Position) :
    (v.raise n k p).on x = true ↔ v.on x = true ∨
      (n.container = .pointer ∨ ∃ m, n.container = .bitmasked m) ∧ x = (n, k) :: p := by
  have update : Function.update v.on ((n, k) :: p) true x = true ↔
      v.on x = true ∨ x = (n, k) :: p := by
    rw [Function.update_apply]
    split <;> simp_all
  unfold raise
  cases hc : n.container with
  | pointer | bitmasked => simpa using update
  | _ => simp

/-- The length that a list needs to have an element. -/
def reached (n : Node) (k : Nat) : Nat :=
  match n.container with
  | .dynamic .. => k + 1
  | _ => 0

/-- Raising an element of a list makes the list at least that long. -/
theorem length_raise (v : View) (n : Node) (k : Nat) (p q : Position) (m : Node) :
    (v.raise n k p).length q m =
      if q = p ∧ m = n then max (v.length q m) (reached n k) else v.length q m := by
  unfold raise reached
  cases n.container <;> simp

theorem raise_raise (v : View) (n m : Node) (k j : Nat) (p q : Position) :
    (v.raise n k p).raise m j q = (v.raise m j q).raise n k p := by
  apply eq_of_same
  · intro x
    simp only [on_raise_iff]
    exact or_right_comm
  · intro x l
    simp only [length_raise]
    by_cases hq : x = q ∧ l = m
    · by_cases hp : x = p ∧ l = n
      · simp only [if_pos hq, if_pos hp]
        omega
      · simp only [if_pos hq, if_neg hp]
    · simp only [if_neg hq]
  · simp only [word_raise]

theorem activate_raise (v : View) (n : Node) (k : Nat) (p x : Position) :
    (v.raise n k p).activate x = (v.activate x).raise n k p := by
  induction x with
  | nil => rfl
  | cons y x ih => rw [activate, activate, ih, raise_raise]

/-- Cells are activated in either order. -/
theorem activate_activate (v : View) (x y : Position) :
    (v.activate x).activate y = (v.activate y).activate x := by
  induction y with
  | nil => rfl
  | cons z y ih => rw [activate, activate, activate_raise, ih]

/-- The view with one word changed. -/
def mapWord (v : View) (key : Position × Node) (f : Nat → Nat) : View :=
  v.setWord key.1 key.2 (f (v.word key.1 key.2))

theorem word_mapWord (v : View) (key : Position × Node) (f : Nat → Nat) (q : Position) (m : Node) :
    (v.mapWord key f).word q m = if (q, m) = key then f (v.word q m) else v.word q m := by
  unfold mapWord
  rw [word_setWord]
  by_cases h : (q, m) = key
  · subst h
    simp
  · rw [if_neg h, if_neg fun he => h (Prod.ext he.1 he.2)]

/-- Activating a cell leaves the words alone. -/
theorem activate_mapWord (v : View) (key : Position × Node) (f : Nat → Nat) (x : Position) :
    (v.mapWord key f).activate x = (v.activate x).mapWord key f := by
  have raise (w : View) (n : Node) (k : Nat) (p : Position) :
      (w.mapWord key f).raise n k p = (w.raise n k p).mapWord key f := by
    unfold View.raise
    cases n.container <;> rfl
  induction x with
  | nil => rfl
  | cons y x ih => rw [activate, activate, ih, raise]

/-- Two words change in either order, and so does one word by changes that do not interfere. -/
theorem mapWord_mapWord {key key' : Position × Node} {f f' : Nat → Nat}
    (h : key = key' → ∀ w, f' (f w) = f (f' w)) (v : View) :
    (v.mapWord key f).mapWord key' f' = (v.mapWord key' f').mapWord key f := by
  refine eq_of_same (fun _ => Iff.rfl) (fun _ _ => rfl) ?_
  ext q m
  simp only [word_mapWord]
  by_cases hk : (q, m) = key
  · by_cases hk' : (q, m) = key'
    · rw [if_pos hk, if_pos hk', if_pos hk, if_pos hk']
      exact h (hk.symm.trans hk') _
    · simp only [if_pos hk, if_neg hk']
  · simp only [if_neg hk]

end View

end SparseLayout
