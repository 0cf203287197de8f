import SparseLayout.Proofs.Contents.Activity

namespace SparseLayout

open Layout (Node)

variable {t : Layout} {g g' : Contents} {D : Set Position} {n : Node} {j k : Nat}
  {p q x y : Position}

/-- The cells that a deactivation takes out of use: an addressed cell with all that is below it, or
the whole list that it is an element of. -/
def Layout.Node.lost (n : Node) (k : Nat) (q : Position) : Set Position :=
  match n.container with
  | .dynamic .. => q.Inside n
  | _ => Position.From ((n, k) :: q)

theorem closed_lost (n : Node) (k : Nat) (q : Position) : Closed (n.lost k q) := by
  unfold Layout.Node.lost
  cases hc : n.container with
  | dynamic => exact closed_inside q n
  | _ => exact closed_from (by simp [hc])

/-- What is lost is lost with a cell of the container. -/
theorem Layout.Node.exists_lost (h : y ∈ n.lost k q) :
    ∃ j, (n, j) :: q <:+ y ∧ (n, j) :: q ∈ n.lost k q := by
  unfold lost at *
  cases hc : n.container with
  | dynamic =>
    simp only [hc] at h
    obtain ⟨j, hj⟩ := h
    exact ⟨j, hj, j, List.suffix_rfl⟩
  | _ =>
    simp only [hc] at h
    exact ⟨k, h, List.suffix_rfl⟩

namespace Contents

/-- The cells of `D` went out of use. Apart from words in these cells, everything else is as it
was. -/
structure Loses (g g' : Contents) (D : Set Position) : Prop where
  mask : g'.mask = (g.forget D).mask
  base : g'.base = (g.forget D).base
  length : g'.length = (g.forget D).length
  word : ∀ p ∉ D, ∀ n, g'.word p n = g.word p n

theorem loses_forget (g : Contents) (hD : Closed D) : g.Loses (g.forget D) D :=
  ⟨rfl, rfl, rfl, fun _ hp _ => if_neg (hD.not_region hp)⟩

theorem Loses.wipe (h : g.Loses g' D) (hD : Closed D) (hx : x ∈ D) : g.Loses (g'.wipe x) D := by
  refine ⟨h.mask, g'.base_wipe x ▸ h.base, h.length, fun p hp n => ?_⟩
  have hxp : ¬ x <:+ p := fun hs => hp (hD.below hx hs)
  exact (if_neg hxp).trans (h.word p hp n)

theorem deactivateAll_eq (g : Contents) (n : Node) : g.deactivateAll n = g.forget n.cellsBelow := by
  unfold deactivateAll Node.cellsBelow
  split <;> rfl

theorem Sound.loses_deactivate (hs : g.Sound t) (ht : t.WellFormed) (hn : t.Has n)
    (hsparse : n.type.isSparse = true) (k : Nat) (q : Position) :
    g.Loses (g.deactivate n k q) (n.lost k q) := by
  have hD := closed_lost n k q
  unfold deactivate Node.lost at *
  rcases (ht.isSparse_iff hn).1 hsparse with hc | ⟨m, hc⟩ | ⟨axis, cap, bytes, hc⟩ <;>
    simp only [hc] at hD ⊢
  · exact g.loses_forget hD
  · split
    · exact (g.loses_forget hD).wipe hD List.suffix_rfl
    · -- nothing was in use in the cell
      rename_i hoff
      have hself : g.forget (Position.From ((n, k) :: q)) = g :=
        forget_eq_self hs fun y hy hyx => hoff (hs.on_of_keyed hy hyx (by simp [hc]))
      have hloses := g.loses_forget hD
      rwa [hself] at hloses
  · exact g.loses_forget hD

namespace Loses

variable (h : g.Loses g' D)

include h

theorem isSome_base (r : Region) : (g'.base r).isSome ↔ (g.base r).isSome ∧ ¬ r.In D := by
  rw [h.base, base_forget]
  by_cases hr : r.In D <;> simp [hr]

theorem length_eq_zero (hp : (n, 0) :: p ∈ D) : g'.length p n = 0 := by
  rw [h.length]
  exact if_pos hp

theorem length_eq (hp : (n, 0) :: p ∉ D) : g'.length p n = g.length p n := by
  rw [h.length]
  exact if_neg hp

/-- A cell that is lost lies in a lost cell of a sparse node. -/
theorem active_iff (ht : t.WellFormed) (hs : g.Sound t) (hs' : g'.Sound t) (hD : Closed D) :
    g'.Active t y ↔ g.Active t y ∧
      ∀ l j p, (l, j) :: p <:+ y → l.type.isSparse = true → (l, j) :: p ∉ D := by
  have hblock (x : Position) : g'.block x = (g.forget D).block x := congrFun h.base (.block x)
  have hon : g'.view.on = (g.forget D).view.on := by
    ext x
    simp only [view, h.mask, hblock]
  have hview : g'.view.Active t y ↔ (g.view.forget D).Active t y :=
    View.active_congr (hon.trans (by rw [view_forget]))
      (h.length.trans (congrArg View.length (g.view_forget D)))
  rw [hs'.active_iff, hview, View.active_forget ht hD, hs.active_iff]

theorem not_active (ht : t.WellFormed) (hs : g.Sound t) (hs' : g'.Sound t) (hD : Closed D)
    {l : Node} (hx : (l, j) :: p <:+ y) (hl : l.type.isSparse = true) (hmem : (l, j) :: p ∈ D) :
    ¬ g'.Active t y :=
  fun ha => ((h.active_iff ht hs hs' hD).1 ha).2 l j p hx hl hmem

theorem active_iff_of_not_mem (ht : t.WellFormed) (hs : g.Sound t) (hs' : g'.Sound t)
    (hD : Closed D) (hy : y ∉ D) : g'.Active t y ↔ g.Active t y := by
  rw [h.active_iff ht hs hs' hD, and_iff_left]
  exact fun l j p hx _ hmem => hy (hD.below hmem hx)

/-- What is not lost stays where it is. -/
theorem cellStart_eq (hD : Closed D) (hy : y ∉ D) : g'.cellStart y = g.cellStart y := by
  rw [cellStart, start, h.base]
  exact g.cellStart_forget hD hy

end Loses

end Contents

end SparseLayout
