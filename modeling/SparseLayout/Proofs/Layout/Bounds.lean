import SparseLayout.Proofs.Layout.Radix

namespace SparseLayout

namespace Layout

/-- The exact extent of an axis from the root down to a node. -/
def exactExtent (t : Layout) (n : Node) (a : Axis) : Nat := Node.declaredProd a (t.levels n a)

/-- Extents are exact up to the largest word. -/
theorem Charted.side_eq_min {t : Layout} {n : Node} (ht : t.Charted) (hn : t.Has n) (a : Axis) :
    n.side a = min (t.exactExtent n a) (UInt64.size - 1) := by
  unfold exactExtent
  refine ht.induction (motive := fun n =>
    n.side a = min (Node.declaredProd a (t.levels n a)) (UInt64.size - 1)) ?_ ?_ hn
  · unfold Node.side
    rw [ht.fromRoot_root, ht.levels_root]
    rfl
  · intro p n hp hnp ih
    rw [ht.side_child hp hnp, ih, ht.levels_child hp hnp, List.filter_singleton]
    have hpos := ht.declared_pos (ht.has_child hnp) a
    cases hax : n.kind.axes.contains a with
    | true =>
      have hprod : Node.declaredProd a (t.levels p a ++ [n]) =
          Node.declaredProd a (t.levels p a) * (n.index.extent a).declared.toNat := by
        simp [Node.declaredProd]
      rw [cond_true, hprod]
      generalize Node.declaredProd a (t.levels p a) = prod
      generalize (n.index.extent a).declared.toNat = e at hpos
      -- once a product is cut it stays at the largest word, as extents are positive
      rcases Nat.le_total prod (UInt64.size - 1) with hle | hge
      · rw [Nat.min_eq_left hle]
      · have h1 := Nat.le_mul_of_pos_right (UInt64.size - 1) hpos
        have h2 := Nat.le_mul_of_pos_right prod hpos
        rw [Nat.min_eq_right hge, Nat.min_eq_right h1, Nat.min_eq_right (hge.trans h2)]
    | false =>
      have hnot : a ∉ n.kind.axes := fun hmem => by
        rw [List.contains_iff_mem.2 hmem] at hax
        cases hax
      rw [cond_false, List.append_nil, ht.undivided (ht.has_child hnp) hnot]
      change min (_ * 1) _ = _
      omega

namespace Node

/-- The entries of an index expression with their axes. -/
def entries (n : Node) (idx : List Int32) : List (Axis × Int32) := n.index.positions.zip idx

/-- The least index at a position. -/
def lowerAt (n : Node) (k : Nat) : Int32 := n.indexOffsets[k]?.getD 0

/-- An index that is counted from a lower bound lies in an extent, which is a signed word. -/
def InBounds (extent : Nat) (lower i : Int32) : Prop :=
  extent < 2 ^ 63 ∧ 0 ≤ i.toInt - lower.toInt ∧ i.toInt - lower.toInt < extent

instance (extent : Nat) (lower i : Int32) : Decidable (InBounds extent lower i) :=
  inferInstanceAs (Decidable (_ ∧ _ ∧ _))

/-- Extents that stop at the largest word have the indices of the exact ones. -/
theorem inBounds_min (extent : Nat) (lower i : Int32) :
    InBounds (min extent (UInt64.size - 1)) lower i ↔ InBounds extent lower i := by
  unfold InBounds UInt64.size
  omega

section Entry

variable (position : Nat) {extent : UInt64} {lower i : Int32}

/-- The upper bound that is added up for an extent, which is read as a signed word. -/
def upperBound (extent : Nat) (lower : Int32) : Int :=
  lower.toInt + (extent : Int).bmod (2 ^ 64)

/-- An entry is accepted just when it is in bounds; else its bounds are reported. -/
theorem resolveEntry_cases (extent : UInt64) (lower i : Int32) :
    (InBounds extent.toNat lower i ∧ ∃ v, resolveEntry position extent lower i = .ok v ∧
      (v.toNat : Int) = i.toInt - lower.toInt) ∨
    (¬ InBounds extent.toNat lower i ∧ resolveEntry position extent lower i =
      .error (outOfBounds position i lower (upperBound extent.toNat lower))) := by
  cases h : resolveEntry position extent lower i with
  | ok v =>
    obtain ⟨hext, hlt, hv⟩ := of_resolveEntry h
    exact .inl ⟨⟨hext, by omega, by omega⟩, v, rfl, hv⟩
  | error e =>
    refine .inr ?_
    rw [resolveEntry_eq] at h
    split at h
    swap
    · cases h
    rename_i hout
    cases h
    refine ⟨?_, rfl⟩
    rintro ⟨hsmall, hle, hlt⟩
    rw [Int.bmod_eq_of_le (by omega) (by omega)] at hout
    omega

theorem exists_resolveEntry (h : InBounds extent.toNat lower i) :
    ∃ v, resolveEntry position extent lower i = .ok v := by
  rcases resolveEntry_cases position extent lower i with ⟨-, v, hv, -⟩ | ⟨hnot, -⟩
  · exact ⟨v, hv⟩
  · exact absurd h hnot

theorem resolveEntry_refused (h : ¬ InBounds extent.toNat lower i) :
    resolveEntry position extent lower i =
      .error (outOfBounds position i lower (upperBound extent.toNat lower)) := by
  rcases resolveEntry_cases position extent lower i with ⟨hin, -⟩ | ⟨-, hrefused⟩
  · exact absurd hin h
  · exact hrefused

end Entry

variable {n : Node} {idx : List Int32} {axes : List Axis} {c d : Coords} {k : Nat}

section Head

variable {a : Axis} {i : Int32} {e : AccessError} {v : UInt64}

theorem resolveEntries_of_ok
    (h : resolveEntry k (n.index.extent a).fromRoot (n.lowerAt k) i = .ok v) :
    n.resolveEntries k (a :: axes) (i :: idx) c =
      n.resolveEntries (k + 1) axes idx (c.set a v a.isLt) := by
  rw [resolveEntries_cons]
  unfold lowerAt at h
  rw [h]
  rfl

theorem resolveEntries_of_error
    (h : resolveEntry k (n.index.extent a).fromRoot (n.lowerAt k) i = .error e) :
    n.resolveEntries k (a :: axes) (i :: idx) c = .error e := by
  rw [resolveEntries_cons]
  unfold lowerAt at h
  rw [h]
  rfl

end Head

/-- Entries in bounds are accepted. -/
theorem exists_resolveEntries
    (h : ∀ j a i, (axes.zip idx)[j]? = some (a, i) → InBounds (n.side a) (n.lowerAt (k + j)) i) :
    ∃ d, n.resolveEntries k axes idx c = .ok d := by
  induction axes generalizing k idx c with
  | nil => exact ⟨c, rfl⟩
  | cons b axes ih =>
    cases idx with
    | nil => exact ⟨c, rfl⟩
    | cons i idx =>
      obtain ⟨v, hv⟩ := exists_resolveEntry k (h 0 b i rfl)
      have hrest : ∃ d, n.resolveEntries (k + 1) axes idx (c.set b v b.isLt) = .ok d := by
        refine ih fun j a i hj => ?_
        rw [Nat.add_assoc, Nat.add_comm 1 j]
        exact h (j + 1) a i hj
      obtain ⟨d, hd⟩ := hrest
      exact ⟨d, (resolveEntries_of_ok hv).trans hd⟩

/-- Entries that are accepted are in bounds, and their axes have what is left above the lower
bounds. -/
theorem entry_of_resolveEntries (h : n.resolveEntries k axes idx c = .ok d)
    (hlen : axes.length = idx.length) (hnd : axes.Nodup) {j : Nat} {a : Axis} {i : Int32}
    (hj : (axes.zip idx)[j]? = some (a, i)) : InBounds (n.side a) (n.lowerAt (k + j)) i ∧
      ((d.get a).toNat : Int) = i.toInt - (n.lowerAt (k + j)).toInt := by
  induction axes generalizing k idx c j with
  | nil => cases hj
  | cons b axes ih =>
    cases idx with
    | nil => cases hlen
    | cons i' idx =>
      obtain ⟨v, hv, hrest⟩ := of_resolveEntries_cons h
      obtain ⟨hb, hnd'⟩ := List.nodup_cons.1 hnd
      have hlen' := Nat.succ.inj hlen
      cases j with
      | zero =>
        cases hj
        have hget := (of_resolveEntries hrest hlen' hnd' a).2 hb
        obtain ⟨hext, hlt, hvi⟩ := of_resolveEntry hv
        rw [hget, Coords.get_set, if_pos rfl]
        exact ⟨⟨hext, hvi ▸ Int.natCast_nonneg _, hvi ▸ Int.ofNat_lt.2 hlt⟩, hvi⟩
      | succ j =>
        rw [show k + (j + 1) = k + 1 + j by omega]
        exact ih hrest hlen' hnd' hj

/-- The first entry that is not in bounds is reported. -/
theorem resolveEntries_refused {j : Nat} {a : Axis} {i : Int32}
    (hj : (axes.zip idx)[j]? = some (a, i)) (hout : ¬ InBounds (n.side a) (n.lowerAt (k + j)) i)
    (hin : ∀ l < j, ∀ a i, (axes.zip idx)[l]? = some (a, i) →
      InBounds (n.side a) (n.lowerAt (k + l)) i) :
    n.resolveEntries k axes idx c = .error (outOfBounds (k + j) i (n.lowerAt (k + j))
      (upperBound (n.side a) (n.lowerAt (k + j)))) := by
  induction axes generalizing k idx c j with
  | nil => cases hj
  | cons b axes ih =>
    cases idx with
    | nil => cases hj
    | cons i' idx =>
      cases j with
      | zero =>
        cases hj
        exact resolveEntries_of_error (resolveEntry_refused k hout)
      | succ j =>
        obtain ⟨v, hv⟩ := exists_resolveEntry k (hin 0 (Nat.succ_pos j) b i' rfl)
        have hshift (l : Nat) : k + (l + 1) = k + 1 + l := by omega
        rw [hshift] at hout ⊢
        refine (resolveEntries_of_ok hv).trans (ih hj hout fun l hl a i hli => ?_)
        rw [← hshift]
        exact hin (l + 1) (Nat.succ_lt_succ hl) a i hli

end Node

end Layout

/-- An index expression of the arity of a node is accepted just when every entry, counted from the
offset of its position, lies in the exact extent of its axis and that extent is a signed word. The
coordinates are then these differences, and 0 along every other axis. Otherwise the first entry out
of bounds is reported with its bounds, or the call panics where the upper one is no signed word. The
upper bound is exact where the extent is a signed word. -/
theorem Draft.Built.resolve_bounds {d : Draft} (h : d.Built) {tree : TreeId} {compileOnly : Bool}
    {t : Layout} (ht : d.compile tree compileOnly = .ok t) {n : Layout.Node} (hn : t.Has n)
    {idx : List Int32} (hlen : idx.length = n.index.arity) :
    ((∃ c, n.resolve idx = .ok c) ↔ ∀ k a i, (n.entries idx)[k]? = some (a, i) →
      Layout.Node.InBounds (t.exactExtent n a) (n.lowerAt k) i) ∧
    (∀ c, n.resolve idx = .ok c →
      (∀ k a i, (n.entries idx)[k]? = some (a, i) →
        ((c.get a).toNat : Int) = i.toInt - (n.lowerAt k).toInt) ∧
      ∀ a ∉ n.index.positions, c.get a = 0) ∧
    ∀ k a i, (n.entries idx)[k]? = some (a, i) →
      ¬ Layout.Node.InBounds (t.exactExtent n a) (n.lowerAt k) i →
      (∀ l < k, ∀ b j, (n.entries idx)[l]? = some (b, j) →
        Layout.Node.InBounds (t.exactExtent n b) (n.lowerAt l) j) →
      let upper := Layout.Node.upperBound (min (t.exactExtent n a) (UInt64.size - 1)) (n.lowerAt k)
      (-2 ^ 63 ≤ upper ∧ upper < 2 ^ 63 → n.resolve idx =
        .error (.indexOutOfBounds k i.toInt64 (n.lowerAt k).toInt64 (.ofInt upper))) ∧
      (¬ (-2 ^ 63 ≤ upper ∧ upper < 2 ^ 63) → n.resolve idx = .error (.panic .overflow)) ∧
      (t.exactExtent n a < 2 ^ 63 → upper = (n.lowerAt k).toInt + t.exactExtent n a) := by
  have hct := (compile_nodes ht).1.charted h.good.grown
  have hresolve : n.resolve idx =
      n.resolveEntries 0 n.index.positions idx (.replicate axisCount 0) :=
    if_neg (not_not.2 hlen)
  have hnd := hct.positions_nodup hn
  have hzero (k : Nat) : 0 + k = k := Nat.zero_add k
  -- a bound may be given by the extent that the node knows or by the exact one
  have hbound (a : Axis) (lower i : Int32) : Layout.Node.InBounds (n.side a) lower i ↔
      Layout.Node.InBounds (t.exactExtent n a) lower i := by
    rw [hct.side_eq_min hn, Layout.Node.inBounds_min]
  simp only [hresolve, ← hbound]
  refine ⟨⟨fun ⟨c, hc⟩ k a i hk => ?_, fun hall => ?_⟩, fun c hc => ⟨fun k a i hk => ?_, ?_⟩,
    fun k a i hk hout hin => ?_⟩
  · have hentry := Layout.Node.entry_of_resolveEntries hc hlen.symm hnd hk
    rw [hzero] at hentry
    exact hentry.1
  · exact Layout.Node.exists_resolveEntries fun k a i hk => (hzero k).symm ▸ hall k a i hk
  · have hentry := Layout.Node.entry_of_resolveEntries hc hlen.symm hnd hk
    rw [hzero] at hentry
    exact hentry.2
  · intro a ha
    rw [(Layout.Node.of_resolveEntries hc hlen.symm hnd a).2 ha]
    exact Vector.getElem_replicate a.isLt
  · have he := Layout.Node.resolveEntries_refused (c := .replicate axisCount 0) hk
      ((hzero k).symm ▸ hout) fun l hl b j hj => (hzero l).symm ▸ hin l hl b j hj
    rw [hzero, hct.side_eq_min hn] at he
    refine ⟨fun hs => ?_, fun hs => ?_, fun hsmall => ?_⟩
    · rw [he, Layout.Node.outOfBounds, if_pos hs]
    · rw [he, Layout.Node.outOfBounds, if_neg hs]
    · unfold Layout.Node.upperBound
      rw [Nat.min_eq_left (by unfold UInt64.size; omega), Int.bmod_eq_of_le (by omega) (by omega)]

namespace Sample

/-- Three lists inside each other along one axis, whose extents make up 2 ^ 63. -/
def vast : Drafting :=
  let list (dim : UInt32) : Declaration := .node (.dynamic [0] dim (some 1))
  ((((⟨.new 0 .padded, ⟨#[none], 0⟩⟩ : Drafting).after 0 (list 2147483648)).after 1
    (list 2147483648)).after 2 (list 2)).after 3 (.place [.one (field "x" 0)] ⟨none, false⟩)

def vastLayout : Layout := (vast.draft.compile 0 false).toOption.get (by decide +kernel)

theorem built_vast : vast.draft.Built := by
  have node (decl : Structural) : Declaration.OfFields (.node decl) := trivial
  have hx (options : PlaceOptions) : Declaration.OfFields (.place [.one (field "x" 0)] options) :=
    ofFields "x" 0 ⟨.empty, rfl⟩
  have hnew : (⟨.new 0 .padded, ⟨#[none], 0⟩⟩ : Drafting).draft.Built := .new 0 .padded
  exact (((hnew.after 0 (node _)).after 1 (node _)).after 2 (node _)).after 3 (hx _)

/-- The place below the three lists. -/
def z : Layout.Node := vastLayout.nodes[4]?.getD vastLayout.rootNode

/-- Index 30 is counted from -1 and is the last one of its axis. The extent 2 ^ 63 is no signed
word, so that even index 0 is refused. -/
theorem resolve_bounds_vast :
    (∃ c, x.resolve [30, -1] = .ok c) ∧ vastLayout.exactExtent z 0 = 2 ^ 63 ∧
      z.resolve [0] = .error (.indexOutOfBounds 0 0 0 (.ofInt (-2 ^ 63))) := by
  have htwice : twice.draft.compile 0 false = .ok twiceLayout := eq_ok_get (by decide +kernel)
  have hvast : vast.draft.compile 0 false = .ok vastLayout := eq_ok_get (by decide +kernel)
  have hx : twiceLayout.Has x := by decide +kernel
  have hz : vastLayout.Has z := by decide +kernel
  have harity : ([30, -1] : List Int32).length = x.index.arity := by decide +kernel
  have harity' : ([0] : List Int32).length = z.index.arity := by decide +kernel
  obtain ⟨haccepted, -, -⟩ := built_twice.resolve_bounds htwice hx harity
  obtain ⟨-, -, hrefused⟩ := built_vast.resolve_bounds hvast hz harity'
  obtain ⟨hreported, -, -⟩ :=
    hrefused 0 0 0 (by decide +kernel) (by decide +kernel) fun l hl => absurd hl (Nat.not_lt_zero l)
  have hupper : Layout.Node.upperBound
      (min (vastLayout.exactExtent z 0) (UInt64.size - 1)) (z.lowerAt 0) = -2 ^ 63 := by
    decide +kernel
  have hlower : z.lowerAt 0 = 0 := by decide +kernel
  rw [hupper, hlower] at hreported
  refine ⟨haccepted.2 fun k a i hk => ?_, by decide +kernel, hreported (by decide)⟩
  have hentries : x.entries [30, -1] = [(0, 30), (1, -1)] := by decide +kernel
  rw [hentries] at hk
  obtain ⟨hlt, he⟩ := List.getElem?_eq_some_iff.1 hk
  rcases k with _ | _ | k
  · cases he
    decide +kernel
  · cases he
    decide +kernel
  · exact absurd hlt (by simp)

end Sample

end SparseLayout
