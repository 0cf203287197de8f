import SparseLayout.Proofs.Contents.Activity
import SparseLayout.Proofs.Store.Session

namespace SparseLayout

open Layout (Node)
open Layout.Node (number)

variable {t : Layout} {v v' : View} {p q x : Position} {m n : Node} {call : Call}

/-- A call leaves the view as it is, activates cells, and then perhaps writes a word or adds an
element, or deactivates cells. -/
inductive View.Step (t : Layout) : Call → View → View → Prop
  | stay (call : Call) (v : View) : Step t call v v
  | activate {call : Call} {v : View} {x : Position} (hx : t.Named x) :
    Step t call v (v.activate x)
  | write {call : Call} {v : View} {n : Node} {q : Position} {info : PlaceInfo} {w : Nat}
    (hx : t.Named ((n, 0) :: q)) (hk : n.kind = .place info) :
    Step t call v ((v.activate ((n, 0) :: q)).setWord (wordKey n q).1 (wordKey n q).2 w)
  | append {call : Call} {v : View} {n m : Node} {x : Position} {axis : Axis}
    {dim chunk : UInt32} {len w : Nat} (hx : t.Named x) (hn : n ∈ t.childNodes (t.nodeAt x))
    (hk : n.kind = .dynamic axis dim chunk) (hm : m ∈ t.childNodes n)
    (hlen : (v.activate x).length x n = len) :
    Step t call v (((v.activate x).setLength x n (len + 1)).setWord ((n, len) :: x) m w)
  | deactivate {call : Call} {v : View} {n : Node} {k : Nat} {q : Position}
    (hx : t.Named ((n, k) :: q)) (hs : n.type.isSparse = true) :
    Step t call v (v.deactivate n k q)
  | deactivateAll {v : View} {n : Node} (hn : t.Has n) :
    Step t ⟨n, .deactivateAll⟩ v (v.deactivateAll n)

theorem Layout.Named.locates (ht : t.WellFormed) (h : t.Named x) : t.Locates x := by
  obtain ⟨n, c, hn, -, -, rfl⟩ := h
  exact ht.locates_place n c hn

/-- The view that an operation leaves, also where it is refused. -/
def View.Leaves (r : EStateM.Result AccessError View Answer) (v : View) : Prop :=
  (∃ a, r = .ok a v) ∨ ∃ e, r = .error e v

/-- A call on a node of the tree takes a step. -/
theorem View.step_of_perform (ht : t.WellFormed) (hn : t.Has n) {a : Action}
    (h : View.Leaves (View.perform t n a v) v') : View.Step t ⟨n, a⟩ v v' := by
  have named {n : Node} {c : Coords} {idx : List Int32} (hn : t.Has n) (hc : n.resolve idx = .ok c) :
      t.Named (t.place n c n) := by
    obtain ⟨ha, hw⟩ := ht.of_resolve hn hc
    exact ⟨n, c, hn, ha, hw, rfl⟩
  have hperforms : View.Performs t n v a _ := View.performs a
  rcases h with ⟨ans, h⟩ | ⟨e, h⟩ <;> rw [h] at hperforms
  · cases hperforms with
    | looked => exact .stay _ v
    | activate hc => exact .activate (named hn hc)
    | @deactivate idx c hc hs =>
      obtain ⟨p, hp, hnp⟩ := ht.ne_root_of_kind hn fun hk => by
        rw [Node.type, hk] at hs
        cases hs
      have hx := named hn hc
      rw [ht.place_child n c hp hnp] at hx
      rw [ht.tail_place hp hnp]
      exact .deactivate hx hs
    | deactivateAll => exact .deactivateAll hn
    | @write idx x c d slot hc hd hslot =>
      obtain ⟨info, hk, -, -⟩ := Node.of_accessType hd
      obtain ⟨p, hp, hnp⟩ := ht.ne_root_of_kind hn (by rw [hk]; simp)
      have hx := named hn hc
      rw [ht.keyOf_eq hp hnp, ht.place_of_place hp hnp hk]
      rw [ht.place_of_place hp hnp hk] at hx
      exact .write hx hk
    | @append idx x p m c axis dim chunk len w hp hc hk hm hlen hlt =>
      obtain ⟨hp, hnp⟩ := Layout.of_parentNode ht hn hp
      refine .append (named hp hc) ?_ hk (Layout.onlyPlace hk hm).1 hlen
      rwa [ht.nodeAt_place p c hp]
  · -- a refused call changes nothing, and one of a full list activates the cell around it
    cases hperforms with
    | refused => exact .stay _ v
    | full hp hc => exact .activate (named (Layout.of_parentNode ht hn hp).1 hc)

/-- What every step keeps, a run keeps. -/
theorem View.Runs.induction (ht : t.WellFormed) {motive : View → Prop} {calls : List Call}
    {rs : List (Except AccessError Answer)} (h : View.Runs t v calls rs v') (hc : t.Calls calls)
    (step : ∀ call ∈ calls, ∀ v v', View.Step t call v v' → motive v → motive v') (hv : motive v) :
    motive v' := by
  induction h with
  | nil v => exact hv
  | @ok v v₁ v' call calls a rs hp _ ih =>
    refine ih (fun c hm => hc c (List.mem_cons_of_mem _ hm))
      (fun c hm => step c (List.mem_cons_of_mem _ hm)) ?_
    exact step call List.mem_cons_self v v₁
      (View.step_of_perform ht (hc call List.mem_cons_self) (Or.inl ⟨a, hp⟩)) hv
  | @refused v v₁ v' call calls e rs hp _ ih =>
    refine ih (fun c hm => hc c (List.mem_cons_of_mem _ hm))
      (fun c hm => step c (List.mem_cons_of_mem _ hm)) ?_
    exact step call List.mem_cons_self v v₁
      (View.step_of_perform ht (hc call List.mem_cons_self) (Or.inr ⟨e, hp⟩)) hv
  | @short v v' call calls e q rs _ hq _ ih =>
    refine ih (fun c hm => hc c (List.mem_cons_of_mem _ hm))
      (fun c hm => step c (List.mem_cons_of_mem _ hm)) ?_
    exact step call List.mem_cons_self v _ (.activate hq) hv

end SparseLayout
