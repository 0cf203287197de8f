import SparseLayout.Proofs.Contents
import Mathlib.Data.Set.Lattice

namespace SparseLayout

open Layout (Node Datum Part)

/-- The region is given up with the cells of `D`. -/
def Region.In (D : Set Position) : Region → Prop
  | .root => False
  | .block x => x ∈ D
  | .chunk p n _ => (n, 0) :: p ∈ D

/-- With a cell all cells below it, and with an element all elements of its list. -/
structure Closed (D : Set Position) : Prop where
  below : ∀ {x y : Position}, x ∈ D → x <:+ y → y ∈ D
  list : ∀ {n : Node} {j k : Nat} {p : Position} {axis : Axis} {c : UInt32} {b : UInt64},
    n.container = .dynamic axis c b → (n, j) :: p ∈ D → (n, k) :: p ∈ D

namespace Position

/-- The cell at a position, and the cells below it. -/
def From (x : Position) : Set Position := {y | x <:+ y}

/-- The cells below the one at a position. -/
def Below (x : Position) : Set Position := {y | x <:+ y ∧ y ≠ x}

/-- The cells of a container, and the cells below them. -/
def Inside (p : Position) (n : Node) : Set Position := {y | ∃ k, (n, k) :: p <:+ y}

end Position

variable {t : Layout} {g g' : Contents} {D E : Set Position} {p q x y : Position} {n m : Node}
  {k j : Nat}

theorem closed_below (x : Position) : Closed x.Below := by
  constructor
  · rintro y z ⟨hs, hne⟩ hyz
    refine ⟨hs.trans hyz, ?_⟩
    rintro rfl
    exact hne (hyz.eq_of_length_le hs.length_le)
  · rintro n j k p axis c b hc ⟨hs, hne⟩
    rcases List.suffix_cons_iff.1 hs with he | hs
    · exact absurd he.symm hne
    · refine ⟨hs.trans (List.suffix_cons _ _), ?_⟩
      intro he
      have hlen := hs.length_le
      rw [← he, List.length_cons] at hlen
      omega

theorem closed_from (h : ∀ axis c b, n.container ≠ .dynamic axis c b) :
    Closed (Position.From ((n, k) :: p)) := by
  constructor
  · exact fun hx hxy => List.IsSuffix.trans hx hxy
  · intro m i j q axis c b hc hs
    rcases List.suffix_cons_iff.1 hs with he | hs
    · cases he
      exact absurd hc (h axis c b)
    · exact hs.trans (List.suffix_cons _ _)

theorem closed_cells (h : ∀ axis c b, n.container ≠ .dynamic axis c b) (K : Set Nat) :
    Closed {y : Position | ∃ k ∈ K, (n, k) :: p <:+ y} := by
  constructor
  · rintro x y ⟨k, hk, hs⟩ hxy
    exact ⟨k, hk, hs.trans hxy⟩
  · rintro m i j q axis c b hc ⟨k, hk, hs⟩
    exact ⟨k, hk, (closed_from h).list hc hs⟩

theorem closed_inside (p : Position) (n : Node) : Closed (p.Inside n) := by
  constructor
  · rintro x y ⟨k, hk⟩ hxy
    exact ⟨k, hk.trans hxy⟩
  · rintro m i j q axis c b hc ⟨k, hs⟩
    rcases List.suffix_cons_iff.1 hs with he | hs
    · cases he
      exact ⟨j, List.suffix_rfl⟩
    · exact ⟨k, hs.trans (List.suffix_cons _ _)⟩

/-- The region of a cell that stays is not given up. -/
theorem Closed.not_region (hD : Closed D) (hp : p ∉ D) : ¬ p.region.In D := by
  cases hr : p.region with
  | root => exact id
  | block x => exact fun hx => hp (hD.below hx (Layout.suffix_of_region_block hr))
  | chunk q n i =>
    obtain ⟨k, hs, -, axis, c, b, hc⟩ := Layout.suffix_of_region_chunk hr
    exact fun hx => hp (hD.below (hD.list hc hx) hs)

namespace Contents

open Classical in
/-- The contents without the cells of `D`. -/
noncomputable def forget (g : Contents) (D : Set Position) : Contents where
  root := g.root
  mask x := if x ∈ D then false else g.mask x
  block x := if x ∈ D then none else g.block x
  chunks p n := if (n, 0) :: p ∈ D then [] else g.chunks p n
  length p n := if (n, 0) :: p ∈ D then 0 else g.length p n
  word p n := if p.region.In D then 0 else g.word p n

open Classical in
theorem base_forget (g : Contents) (D : Set Position) (r : Region) :
    (g.forget D).base r = if r.In D then none else g.base r := by
  cases r with
  | root => exact (if_neg id).symm
  | block x => rfl
  | chunk p n i =>
    by_cases h : Region.In D (.chunk p n i)
    · have h' : (n, 0) :: p ∈ D := h
      rw [if_pos h]
      simp only [base, forget, if_pos h', List.getElem?_nil]
    · have h' : (n, 0) :: p ∉ D := h
      rw [if_neg h]
      simp only [base, forget, if_neg h']

theorem base_forget_of_notIn (g : Contents) {r : Region} (h : ¬ r.In D) :
    (g.forget D).base r = g.base r := by
  rw [base_forget, if_neg h]

theorem isSome_base_forget {r : Region} (h : ((g.forget D).base r).isSome) :
    ¬ r.In D ∧ (g.base r).isSome := by
  rw [base_forget] at h
  split at h
  · cases h
  · exact ⟨‹_›, h⟩

theorem forget_empty (g : Contents) : g.forget ∅ = g := by
  have hr (r : Region) : ¬ r.In ∅ := by
    cases r <;> exact id
  simp [forget, hr]

theorem forget_forget (g : Contents) (D E : Set Position) :
    (g.forget D).forget E = g.forget (D ∪ E) := by
  have hr (r : Region) : r.In (D ∪ E) ↔ r.In D ∨ r.In E := by
    cases r <;> simp [Region.In]
  unfold forget
  simp only [hr, Set.mem_union]
  congr 1 <;> ext <;> grind

/-- What is in use after forgetting stays in place. -/
theorem start_forget (g : Contents) {r : Region} (h : ¬ r.In D) :
    (g.forget D).start r = g.start r := by
  rw [start, base_forget_of_notIn g h, start]

theorem cellStart_forget (g : Contents) (hD : Closed D) (hp : p ∉ D) :
    (g.forget D).cellStart p = g.cellStart p := by
  rw [cellStart, start_forget g (hD.not_region hp), cellStart]

theorem On.of_forget (h : (g.forget D).On n k p) : g.On n k p := by
  unfold On at *
  cases hc : n.container with
  | pointer =>
    simp only [hc, forget] at h ⊢
    split at h
    · cases h
    · exact h
  | bitmasked m =>
    simp only [hc, forget] at h ⊢
    split at h
    · cases h
    · exact h
  | dynamic axis c b =>
    simp only [hc, forget] at h ⊢
    split at h
    · omega
    · exact h
  | _ => trivial

theorem Active.forget (hD : Closed D) (h : g.Active t p) (hp : p ∉ D) :
    (g.forget D).Active t p := by
  refine h.mono ?_
  intro n k q hs ho
  have hx : (n, k) :: q ∉ D := fun hx => hp (hD.below hx hs)
  unfold On at *
  cases hc : n.container with
  | pointer =>
    simp only [hc, Contents.forget, if_neg hx] at ho ⊢
    exact ho
  | bitmasked m =>
    simp only [hc, Contents.forget, if_neg hx] at ho ⊢
    exact ho
  | dynamic axis c b =>
    have hl : (n, 0) :: q ∉ D := fun hl => hx (hD.list hc hl)
    simp only [hc, Contents.forget, if_neg hl] at ho ⊢
    exact ho
  | _ => trivial

theorem Sound.forget (h : g.Sound t) (hD : Closed D) : (g.forget D).Sound t := by
  -- what a closed set spares, it spares with all around it
  have tail {n : Node} {k : Nat} {p : Position} (hx : (n, k) :: p ∉ D) (hp : g.Active t p) :
      (g.forget D).Active t p :=
    hp.forget hD fun hp => hx (hD.below hp (List.suffix_cons _ _))
  refine ⟨?mask_on, ?mask_nil, ?block_on, ?block_nil, ?chunks_on, ?length_le, ?length_lt,
    ?word_on, ?word_lt⟩
  case mask_on =>
    intro n k p hm
    simp only [Contents.forget] at hm
    split at hm
    · cases hm
    · rename_i hx
      exact (h.mask_on hm).imp_left (tail hx)
  case mask_nil => simp [Contents.forget, h.mask_nil]
  case block_on =>
    intro n k p hm
    simp only [Contents.forget] at hm
    split at hm
    · cases hm
    · rename_i hx
      exact (h.block_on hm).imp_left (tail hx)
  case block_nil => simp [Contents.forget, h.block_nil]
  case chunks_on =>
    intro n p hm
    simp only [Contents.forget] at hm
    split at hm
    · exact absurd rfl hm
    · rename_i hx
      exact (h.chunks_on hm).imp_left (tail hx)
  case length_le =>
    intro p n
    simp only [Contents.forget]
    split
    · exact Nat.zero_le _
    · exact h.length_le p n
  case length_lt =>
    intro p n
    simp only [Contents.forget]
    split
    · decide
    · exact h.length_lt p n
  case word_on =>
    intro n p hw
    simp only [Contents.forget] at hw
    split at hw
    · exact absurd rfl hw
    · rename_i hr
      obtain ⟨hf, hb⟩ := h.word_on hw
      refine ⟨hf, ?_⟩
      rw [base_forget_of_notIn g (r := Datum.region _) hr]
      exact hb
  case word_lt =>
    intro p n
    simp only [Contents.forget]
    split
    · exact Nat.pow_pos (by decide)
    · exact h.word_lt p n

/-- Something is in use at a position. -/
def Keyed (g : Contents) : Position → Prop
  | [] => False
  | (n, k) :: p => g.mask ((n, k) :: p) = true ∨ (g.block ((n, k) :: p)).isSome ∨ g.chunks p n ≠ []

theorem Sound.active_of_keyed (h : g.Sound t) (hk : g.Keyed ((n, k) :: p)) :
    g.Active t p ∧ n ∈ t.childNodes (t.nodeAt p) := by
  rcases hk with hm | hb | hc
  · obtain ⟨ha, hn, -⟩ := h.mask_on hm
    exact ⟨ha, hn⟩
  · obtain ⟨ha, hn, -⟩ := h.block_on hb
    exact ⟨ha, hn⟩
  · obtain ⟨ha, hn, -⟩ := h.chunks_on hc
    exact ⟨ha, hn⟩

open Classical in
/-- Only where something is in use does it matter whether it is forgotten. -/
theorem forget_congr (h : g.Sound t) (hDE : ∀ x, g.Keyed x → (x ∈ D ↔ x ∈ E)) :
    g.forget D = g.forget E := by
  -- memory is in use only where a key is
  have hregion (r : Region) (hr : (g.base r).isSome) : r.In D ↔ r.In E := by
    cases r with
    | root => exact Iff.rfl
    | block x =>
      apply hDE
      cases x with
      | nil => simp [base, h.block_nil] at hr
      | cons y p => exact Or.inr (Or.inl hr)
    | chunk p n i =>
      refine hDE _ (Or.inr (Or.inr ?_))
      intro he
      simp [base, he] at hr
  -- each map is zero off its keys, and there the two ways to forget agree
  unfold forget
  congr 1
  · ext1 x
    by_cases hm : g.mask x = true
    · cases x with
      | nil => simp [h.mask_nil] at hm
      | cons y p => exact if_congr (hDE _ (Or.inl hm)) rfl rfl
    · simp [hm]
  · ext1 x
    by_cases hb : (g.block x).isSome
    · cases x with
      | nil => simp [h.block_nil] at hb
      | cons y p => exact if_congr (hDE _ (Or.inr (Or.inl hb))) rfl rfl
    · simp [Option.not_isSome_iff_eq_none.1 hb]
  · ext1 p
    ext1 n
    by_cases hc : g.chunks p n = []
    · simp [hc]
    · exact if_congr (hDE _ (Or.inr (Or.inr hc))) rfl rfl
  · ext1 p
    ext1 n
    by_cases hc : g.chunks p n = []
    · have hl := h.length_le p n
      simp only [hc, List.length_nil, Nat.mul_zero, Nat.le_zero_eq] at hl
      simp [hl]
    · exact if_congr (hDE _ (Or.inr (Or.inr hc))) rfl rfl
  · ext1 p
    ext1 n
    by_cases hw : g.word p n = 0
    · simp [hw]
    · exact if_congr (hregion _ (h.word_on hw).2) rfl rfl

theorem forget_eq_self (h : g.Sound t) (hD : ∀ x, g.Keyed x → x ∉ D) : g.forget D = g := by
  rw [forget_congr h (E := ∅) fun x hx => by simp [hD x hx], forget_empty]

open Classical in
/-- The contents with the words of a cell and of the cells below it zero. -/
noncomputable def wipe (g : Contents) (x : Position) : Contents :=
  { g with word := fun p n => if x <:+ p then 0 else g.word p n }

@[simp] theorem base_wipe (g : Contents) (x : Position) : (g.wipe x).base = g.base := by
  ext1 r
  cases r <;> rfl

theorem Sound.wipe (h : g.Sound t) (x : Position) : (g.wipe x).Sound t := by
  have hle : g.Le (g.wipe x) :=
    ⟨fun _ hy => hy, fun r _ => by rw [base_wipe], fun _ _ => Nat.le_refl _⟩
  refine ⟨hle.mask_on h, h.mask_nil, hle.block_on h, h.block_nil, hle.chunks_on h, h.length_le,
    h.length_lt, ?word_on, ?word_lt⟩
  case word_on =>
    intro n p hw
    simp only [Contents.wipe] at hw
    split at hw
    · exact absurd rfl hw
    · exact hle.word_on h hw
  case word_lt =>
    intro p n
    simp only [Contents.wipe]
    split
    · exact Nat.pow_pos (by decide)
    · exact h.word_lt p n

end Contents

end SparseLayout
