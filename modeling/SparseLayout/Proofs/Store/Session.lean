import SparseLayout.Proofs.Draft.Sample
import SparseLayout.Proofs.Draft.Sound
import SparseLayout.Proofs.Store.New
import SparseLayout.Proofs.Store.Perform

namespace SparseLayout

open Layout (Node)

/-- The calls are on nodes of the tree. -/
def Layout.Calls (t : Layout) (calls : List Call) : Prop := ∀ c ∈ calls, t.Has c.node

/-- Runs of calls on a view, with their results. -/
inductive View.Runs (t : Layout) :
    View → List Call → List (Except AccessError Answer) → View → Prop
  | nil (v : View) : Runs t v [] [] v
  | ok {v v' v'' : View} {c : Call} {cs : List Call} {a : Answer}
      {rs : List (Except AccessError Answer)} :
    View.perform t c.node c.action v = .ok a v' → Runs t v' cs rs v'' →
      Runs t v (c :: cs) (.ok a :: rs) v''
  | refused {v v' v'' : View} {c : Call} {cs : List Call} {e : AccessError}
      {rs : List (Except AccessError Answer)} :
    View.perform t c.node c.action v = .error e v' → Runs t v' cs rs v'' →
      Runs t v (c :: cs) (.error e :: rs) v''
  | short {v v'' : View} {c : Call} {cs : List Call} {e : AccessError} {q : Position}
      {rs : List (Except AccessError Answer)} :
    e.IsShortage → t.Named q → Runs t (v.activate q) cs rs v'' →
      Runs t v (c :: cs) (.error e :: rs) v''

/-- Some call ran out of memory. -/
def Short (rs : List (Except AccessError Answer)) : Prop :=
  ∃ e, .error e ∈ rs ∧ e.IsShortage

/-- Some result says that memory ran out. -/
def RanOut (results : List (Except Fault Answer)) : Prop :=
  ∃ shortage, .error (.refused (.outOfMemory shortage)) ∈ results

theorem ranOut_iff {rs : List (Except AccessError Answer)} :
    RanOut (rs.map (·.mapError .refused)) ↔ Short rs := by
  constructor
  · rintro ⟨shortage, h⟩
    obtain ⟨r, hr, he⟩ := List.mem_map.1 h
    cases r with
    | ok a => cases he
    | error e =>
      cases he
      exact ⟨_, hr, shortage, rfl⟩
  · rintro ⟨e, he, shortage, rfl⟩
    exact ⟨shortage, List.mem_map.2 ⟨_, he, rfl⟩⟩

/-- Some call came to more cells side by side than can be listed. -/
def Crowded (results : List (Except Fault Answer)) : Prop :=
  .error (.refused (.panic .capacity)) ∈ results

theorem crowded_iff {rs : List (Except AccessError Answer)} :
    Crowded (rs.map (·.mapError .refused)) ↔ .error (.panic .capacity) ∈ rs := by
  constructor
  · intro h
    obtain ⟨r, hr, he⟩ := List.mem_map.1 h
    cases r with
    | ok a => cases he
    | error e =>
      cases he
      exact hr
  · exact fun h => List.mem_map.2 ⟨_, h, rfl⟩

theorem Short.cons {r : Except AccessError Answer} {rs : List (Except AccessError Answer)}
    (h : Short rs) : Short (r :: rs) := by
  obtain ⟨e, he, hs⟩ := h
  exact ⟨e, List.mem_cons_of_mem _ he, hs⟩

theorem Store.Shows.mono {s : Store} {t : Layout} {v : View} {a b : Prop} (h : s.Shows t v a)
    (hab : b → a) : s.Shows t v b := by
  obtain ⟨g, hg, hv, ht⟩ := h
  exact ⟨g, hg, hv, fun hb => ht (hab hb)⟩

theorem Store.session_ok {t : Layout} {c : Call} {cs : List Call} {s s' : Store} {a : Answer}
    (h : c.run t s = .ok a s') :
    s.session t (c :: cs) = (.ok a :: (s'.session t cs).1, (s'.session t cs).2) := by
  unfold Store.session
  rw [List.map_cons, runs, h]

theorem Store.session_error {t : Layout} {c : Call} {cs : List Call} {s s' : Store} {e : Fault}
    (h : c.run t s = .error e s') :
    s.session t (c :: cs) = (.error e :: (s'.session t cs).1, (s'.session t cs).2) := by
  unfold Store.session
  rw [List.map_cons, runs, h]

/-- The results and the storage that a run leaves are those of a run on the view. Lists have just
the chunks that they need as long as no call ran out of memory. -/
theorem Store.Shows.session {t : Layout} (ht : t.WellFormed) {calls : List Call}
    (hc : t.Calls calls) {s : Store} {v : View} {tight : Prop} (h : s.Shows t v tight) :
    ∃ rs v', View.Runs t v calls rs v' ∧
      (s.session t calls).1 = rs.map (·.mapError .refused) ∧
        (s.session t calls).2.Shows t v' (tight ∧ ¬ Short rs) := by
  -- the invariant is that the storage shows some view: each call ends as on the view, or for want
  -- of memory after it activated some cells
  induction calls generalizing s v tight with
  | nil => exact ⟨[], v, .nil v, rfl, h.mono And.left⟩
  | cons c cs ih =>
    obtain ⟨g, hg, hv, htight⟩ := h
    have hends := hg.endsAs_run ht (hc c List.mem_cons_self) c.action
    rw [Store.Represents.EndsAs, Store.Represents.EndsShowing, StoreM.Ends, hv] at hends
    have hrest : t.Calls cs := fun c hm => hc c (List.mem_cons_of_mem _ hm)
    rw [show c.action.run t c.node = c.run t from rfl] at hends
    cases hrun : c.run t s with
    | ok a s' =>
      rw [hrun] at hends
      rw [Store.session_ok hrun]
      obtain ⟨v', hp, hs⟩ := hends
      obtain ⟨rs, v'', hruns, hres, hshows⟩ := ih hrest hs
      refine ⟨.ok a :: rs, v'', .ok hp hruns, ?_, hshows.mono ?_⟩
      · rw [List.map_cons, ← hres]
        rfl
      · rintro ⟨htt, hns⟩
        exact ⟨htight htt, fun hs => hns hs.cons⟩
    | error e s' =>
      rw [hrun] at hends
      rw [Store.session_error hrun]
      cases e with
      | outside => exact hends.elim
      | refused e =>
        rcases hends with ⟨-, v', hp, hs⟩ | ⟨he, x, hx, g', hg', -, q, hq, hview⟩
        · obtain ⟨rs, v'', hruns, hres, hshows⟩ := ih hrest hs
          refine ⟨.error e :: rs, v'', .refused hp hruns, ?_, hshows.mono ?_⟩
          · rw [List.map_cons, ← hres]
            rfl
          · rintro ⟨htt, hns⟩
            exact ⟨htight htt, fun hs => hns hs.cons⟩
        · have hq := (hx.named ht (hc c List.mem_cons_self)).suffix ht hq
          have hs : s'.Shows t (v.activate q) False := ⟨g', hg', by rw [hview, hv], False.elim⟩
          obtain ⟨rs, v'', hruns, hres, hshows⟩ := ih hrest hs
          refine ⟨.error e :: rs, v'', .short he hq hruns, ?_, hshows.mono ?_⟩
          · rw [List.map_cons, ← hres]
            rfl
          · rintro ⟨-, hns⟩
            exact absurd ⟨e, List.mem_cons_self, he⟩ hns

/-- The storage of a tree as it starts out: the tree was built by declarations, is well-sized, and
was materialized under a checked configuration. -/
def Layout.Starts (t : Layout) (s : Store) : Prop :=
  ∃ (d : Draft) (cfg : Config) (tree : TreeId), d.Built ∧ d.WellSized ∧
    d.compile tree false = .ok t ∧ cfg.check = .ok () ∧ Store.new t cfg = .ok s

variable {t : Layout} {s : Store}

theorem Layout.Starts.wellFormed (h : t.Starts s) : t.WellFormed := by
  obtain ⟨d, cfg, tree, hb, hw, hc, -, -⟩ := h
  exact hb.wellFormed hw hc

theorem Layout.Starts.shows (h : t.Starts s) : s.Shows t .empty True := by
  have ht := h.wellFormed
  obtain ⟨d, cfg, tree, -, -, -, hc, hs⟩ := h
  exact ⟨_, Store.represents_new ht hc hs, rfl, fun _ => Contents.tight_empty _⟩

namespace Sample

def config : Config := ⟨.padded, 64, 4⟩

def store : Store := (Store.new layout config).toOption.get (by decide +kernel)

/-- The coordinates of the member's cell at `[1, 3]`. -/
def cell : Coords := ((node 3).resolve [1, 3]).toOption.get (by decide +kernel)

/-- There are storages to start from. -/
theorem starts : layout.Starts store :=
  ⟨_, config, 0, built, wellSized, eq_ok_get _, by decide +kernel, eq_ok_get _⟩

end Sample

end SparseLayout
