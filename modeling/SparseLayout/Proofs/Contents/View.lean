import SparseLayout.Proofs.Contents.Forget

namespace SparseLayout

open Layout (Node)

structure View where
  /-- Pointer and bitmasked cells in use. -/
  on : Position → Bool
  length : Position → Node → Nat
  word : Position → Node → Nat

theorem ceilDiv_zero (c : Nat) : (0 + c - 1) / c = 0 := by
  rcases Nat.eq_zero_or_pos c with rfl | hc
  · rfl
  · exact Nat.div_eq_of_lt (by omega)

theorem ceilDiv_max (a b c : Nat) :
    (max a b + c - 1) / c = max ((a + c - 1) / c) ((b + c - 1) / c) := by
  rcases Nat.le_total a b with h | h
  · rw [Nat.max_eq_right h, Nat.max_eq_right (Nat.div_le_div_right (by omega))]
  · rw [Nat.max_eq_left h, Nat.max_eq_left (Nat.div_le_div_right (by omega))]

theorem le_mul_ceilDiv (a : Nat) {c : Nat} (hc : 0 < c) : a ≤ c * ((a + c - 1) / c) := by
  have := Nat.div_add_mod (a + c - 1) c
  have := Nat.mod_lt (a + c - 1) hc
  omega

namespace Contents

def view (g : Contents) : View where
  on x := g.mask x || (g.block x).isSome
  length := g.length
  word := g.word

/-- Every list has just the chunks that its elements need. -/
def Tight (g : Contents) : Prop :=
  ∀ p n, (g.chunks p n).length = (g.length p n + n.capacity - 1) / n.capacity

/-- Every list has just the chunks that its elements need, or as many as it had before if those are
more. -/
def TightOver (had : Position → Node → Nat) (g : Contents) : Prop :=
  ∀ p n, (g.chunks p n).length = max (had p n) ((g.length p n + n.capacity - 1) / n.capacity)

/-- No list gained chunks that its elements do not need. -/
def Thrifty (g g' : Contents) : Prop := ∀ had, g.TightOver had → g'.TightOver had

theorem Thrifty.refl (g : Contents) : g.Thrifty g := fun _ h => h

theorem Thrifty.trans {g g' g'' : Contents} (h : g.Thrifty g') (h' : g'.Thrifty g'') :
    g.Thrifty g'' := fun had hg => h' had (h had hg)

theorem tightOver_zero {g : Contents} : g.TightOver (fun _ _ => 0) ↔ g.Tight := by
  simp only [TightOver, Tight, Nat.zero_max]

theorem Thrifty.tight {g g' : Contents} (h : g.Thrifty g') (hg : g.Tight) : g'.Tight :=
  tightOver_zero.1 (h _ (tightOver_zero.2 hg))

end Contents

namespace View

/-- A cell of a container is put to use: a list grows until it has the element. -/
def raise (v : View) (n : Node) (k : Nat) (p : Position) : View :=
  match n.container with
  | .pointer | .bitmasked _ => { v with on := Function.update v.on ((n, k) :: p) true }
  | .dynamic .. =>
    { v with length := fun q m =>
        if q = p ∧ m = n then max (v.length q m) (k + 1) else v.length q m }
  | _ => v

/-- All cells on the way to a position are put to use. -/
def activate (v : View) : Position → View
  | [] => v
  | (n, k) :: p => (v.activate p).raise n k p

def On (v : View) (n : Node) (k : Nat) (p : Position) : Prop :=
  match n.container with
  | .pointer | .bitmasked _ => v.on ((n, k) :: p) = true
  | .dynamic .. => k < v.length p n
  | _ => True

/-- The cell and all cells around it are in use. -/
def Active (v : View) (t : Layout) : Position → Prop
  | [] => True
  | (n, k) :: p => v.Active t p ∧ n ∈ t.childNodes (t.nodeAt p) ∧ n.Numbers k ∧ v.On n k p

open Classical in
/-- The view without the cells of `D`. -/
noncomputable def forget (v : View) (D : Set Position) : View where
  on x := if x ∈ D then false else v.on x
  length p n := if (n, 0) :: p ∈ D then 0 else v.length p n
  word p n := if p.region.In D then 0 else v.word p n

open Classical in
/-- The view with the words of a cell and of the cells below it zero. -/
noncomputable def wipe (v : View) (x : Position) : View :=
  { v with word := fun p n => if x <:+ p then 0 else v.word p n }

def setWord (v : View) (p : Position) (n : Node) (w : Nat) : View :=
  { v with word := fun q m => if q = p ∧ m = n then w else v.word q m }

def setLength (v : View) (p : Position) (n : Node) (len : Nat) : View :=
  { v with length := fun q m => if q = p ∧ m = n then len else v.length q m }

theorem word_setWord (v : View) (p : Position) (n : Node) (w : Nat) (q : Position) (m : Node) :
    (v.setWord p n w).word q m = if q = p ∧ m = n then w else v.word q m := rfl

theorem length_setLength (v : View) (p : Position) (n : Node) (len : Nat) (q : Position)
    (m : Node) : (v.setLength p n len).length q m = if q = p ∧ m = n then len else v.length q m :=
  rfl

theorem setLength_eq_self (v : View) (p : Position) (n : Node) :
    v.setLength p n (v.length p n) = v := by
  unfold setLength
  congr 1
  ext q m
  split
  · rename_i he
    rw [he.1, he.2]
  · rfl

/-- Putting an element to use lengthens its list only. -/
theorem raise_dynamic (v : View) {n : Node} {axis : Axis} {c : UInt32} {b : UInt64}
    (hc : n.container = .dynamic axis c b) (k : Nat) (p : Position) :
    v.raise n k p = v.setLength p n (max (v.length p n) (k + 1)) := by
  unfold raise setLength
  simp only [hc]
  congr 1
  ext q m
  split
  · rename_i he
    rw [he.1, he.2]
  · rfl

theorem word_raise (v : View) (n : Node) (k : Nat) (p : Position) :
    (v.raise n k p).word = v.word := by
  unfold raise
  cases n.container <;> rfl

/-- Activating cells writes no word. -/
theorem word_activate (v : View) (p : Position) : (v.activate p).word = v.word := by
  induction p with
  | nil => rfl
  | cons x p ih => exact (word_raise _ _ _ _).trans ih

theorem length_raise_of_ne (v : View) (n : Node) (k : Nat) {p q : Position} (h : q ≠ p) (m : Node) :
    (v.raise n k p).length q m = v.length q m := by
  unfold raise
  cases n.container with
  | dynamic => exact if_neg fun he => h he.1
  | _ => rfl

/-- Activating cells on the way to a cell does not touch the lists in it. -/
theorem length_activate_of_suffix (v : View) {p q : Position} (h : p <:+ q) (m : Node) :
    (v.activate p).length q m = v.length q m := by
  induction p with
  | nil => rfl
  | cons x p ih =>
    refine (length_raise_of_ne _ _ _ ?_ m).trans (ih ((List.suffix_cons _ _).trans h))
    rintro rfl
    exact absurd h.length_le (Nat.not_succ_le_self _)

end View

namespace Contents

variable {t : Layout} {g : Contents} {p : Position} {n : Node} {k : Nat}

theorem view_setMask (g : Contents) (x : Position) :
    (g.setMask x true).view = { g.view with on := Function.update g.view.on x true } := by
  unfold view setMask
  congr 1
  ext1 y
  by_cases h : y = x
  · subst h
    simp
  · simp [h]

theorem view_setBlock (g : Contents) (x : Position) (a : Address) :
    (g.setBlock x a).view = { g.view with on := Function.update g.view.on x true } := by
  unfold view setBlock
  congr 1
  ext1 y
  by_cases h : y = x
  · subst h
    simp
  · simp [h]

/-- Nothing changes where the cell is in use already. -/
theorem raise_eq_self (hon : g.On n k p) : g.view.raise n k p = g.view := by
  unfold On at hon
  cases hc : n.container with
  | pointer =>
    simp only [View.raise, hc] at hon ⊢
    have : g.view.on ((n, k) :: p) = true := by simp [view, hon]
    rw [← this, Function.update_eq_self]
  | bitmasked m =>
    simp only [View.raise, hc] at hon ⊢
    have : g.view.on ((n, k) :: p) = true := by simp [view, hon]
    rw [← this, Function.update_eq_self]
  | dynamic axis c b =>
    simp only [hc] at hon
    have hmax : max (g.view.length p n) (k + 1) = g.view.length p n := Nat.max_eq_left hon
    rw [View.raise_dynamic _ hc, hmax, View.setLength_eq_self]
  | _ => simp only [View.raise, hc]

theorem view_forget (g : Contents) (D : Set Position) :
    (g.forget D).view = g.view.forget D := by
  unfold view forget View.forget
  congr 1
  ext x
  by_cases h : x ∈ D <;> simp [h]

theorem view_wipe (g : Contents) (x : Position) : (g.wipe x).view = g.view.wipe x := rfl

theorem view_setLength (g : Contents) (p : Position) (n : Node) (len : Nat) :
    (g.setLength p n len).view = g.view.setLength p n len := rfl

theorem view_setWord (g : Contents) (p : Position) (n : Node) (w : Nat) :
    (g.setWord p n w).view = g.view.setWord p n w := rfl

theorem Tight.forget {D : Set Position} (h : g.Tight) : (g.forget D).Tight := by
  intro p n
  simp only [Contents.forget]
  split
  · exact (ceilDiv_zero _).symm
  · exact h p n

/-- Use is known by the view. -/
theorem Sound.on_iff (hs : g.Sound t) : g.On n k p ↔ g.view.On n k p := by
  unfold On View.On
  cases hc : n.container with
  | pointer =>
    have hm : g.mask ((n, k) :: p) = false := by
      rw [Bool.eq_false_iff]
      intro hm
      obtain ⟨-, -, -, m, hm⟩ := hs.mask_on hm
      simp [hc] at hm
    simp [view, hm]
  | bitmasked m =>
    have hb : (g.block ((n, k) :: p)).isSome = false := by
      rw [Bool.eq_false_iff]
      intro hb
      obtain ⟨-, -, -, hp⟩ := hs.block_on hb
      simp [hc] at hp
    simp [view, hb]
  | _ => rfl

theorem Sound.active_iff (hs : g.Sound t) : g.Active t p ↔ g.view.Active t p := by
  induction p with
  | nil => exact Iff.rfl
  | cons x p ih =>
    obtain ⟨n, k⟩ := x
    exact and_congr ih (and_congr Iff.rfl (and_congr Iff.rfl hs.on_iff))

end Contents

end SparseLayout
