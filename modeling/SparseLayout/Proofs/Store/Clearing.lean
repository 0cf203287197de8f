import SparseLayout.Proofs.Store.Frame

namespace SparseLayout

open Layout (Node Above)
open Layout.Node (around)
open StoreM (Ends never)

variable {t : Layout} {g g' : Contents} {k l m n p : Node} {c d : Coords} {q : Position}

namespace Layout

end Layout

theorem View.Active.suffix {v : View} {x y : Position} (h : v.Active t y) (hs : x <:+ y) :
    v.Active t x := by
  induction y with
  | nil => rwa [List.suffix_nil.1 hs]
  | cons z y ih =>
    rcases List.suffix_cons_iff.1 hs with rfl | hs
    · exact h
    · exact ih h.1 hs

namespace Store

variable {s s' : Store} {slot a : Address}

namespace Represents

section

variable (ht : t.WellFormed) (h : s.Represents t g)

include ht h

/-- A block is given back with all cells of a node if the node that owns it is not above. -/
theorem region_in_cellsBelow (hn : t.Has n) {r : Region} (hr : r ∈ regionsOf g.base m) :
    r.In n.cellsBelow ↔ t.Above n m := by
  obtain ⟨q, i, -, hkey, hiff⟩ := h.exists_key hr.1 hr.2
  rw [hiff]
  exact (h.sound.locates_of_keyed hkey).mem_cellsBelow ht hn

end

end Represents

variable {s₀ : Store} {hist : List Call}

end Store

namespace Sample

end Sample

end SparseLayout
