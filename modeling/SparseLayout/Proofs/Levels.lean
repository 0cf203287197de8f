import SparseLayout.Proofs.Draft.Spaces
import Mathlib.Order.Bounds.Basic

/-!
Chains of levels, from the root of a tree down. The index space below a chain lists the axes in the
order of their first division, and counts the elements along each of them as far as a word goes;
its extents are those of the last level alone.
-/

namespace SparseLayout

/-- The memory extent of a declared one: the same where nothing is padded, else the least power of
two that holds it, as long as one of 32 bits does. -/
def Packing.Pads : Packing → Nat → Nat → Prop
  | .packed, n, m => m = n
  | .padded, n, m => if n ≤ 2 ^ 31 then IsLeast {m | n ≤ m ∧ ∃ k, m = 2 ^ k} m else m = n

/-- Extents are padded as the layout mode asks for. -/
theorem Packing.pads_extent (p : Packing) (n : UInt32) : p.Pads n.toNat (p.extent n).toNat := by
  cases p with
  | packed => rfl
  | padded =>
    obtain ⟨k, hk⟩ := leastPowerOfTwo_eq n.toNat
    rw [Nat.one_shiftLeft] at hk
    have hle : n.toNat ≤ 2 ^ k := hk ▸ le_leastPowerOfTwo n.toNat
    have hleast {j : Nat} (hj : n.toNat ≤ 2 ^ j) : 2 ^ k ≤ 2 ^ j := by
      rw [← Nat.one_shiftLeft j] at hj ⊢
      exact hk ▸ leastPowerOfTwo_le hj
    unfold Pads
    simp only [extent, hk]
    by_cases hn : n.toNat ≤ 2 ^ 31
    · have hlt : 2 ^ k < UInt32.size := Nat.lt_of_le_of_lt (hleast hn) (by decide)
      rw [if_pos hn, if_pos hlt, UInt32.toNat_ofNat_of_lt' hlt]
      refine ⟨⟨hle, k, rfl⟩, ?_⟩
      rintro m ⟨hm, j, rfl⟩
      exact hleast hm
    · -- above 2 ^ 31 the next power of two is 2 ^ 32, which is no word
      have hlow : 31 < k :=
        (Nat.pow_lt_pow_iff_right (Nat.lt_succ_self 1)).1 ((Nat.not_le.1 hn).trans_le hle)
      have hlarge : UInt32.size ≤ 2 ^ k := Nat.pow_le_pow_right Nat.two_pos hlow
      rw [if_neg hn, if_neg (Nat.not_lt.2 hlarge)]

/-- A product that is cut to a bound on the way is the exact one cut at its end. -/
theorem min_mul_min (bound m n : Nat) : min bound (min bound m * n) = min bound (m * n) := by
  rcases Nat.le_total m bound with hm | hm
  · rw [Nat.min_eq_right hm]
  · -- what has reached the bound stays there, unless a factor is 0
    rw [Nat.min_eq_left hm]
    rcases Nat.eq_zero_or_pos n with rfl | hn
    · rfl
    · have hcut : bound ≤ bound * n := Nat.le_mul_of_pos_right _ hn
      have hexact : bound ≤ m * n := hcut.trans (Nat.mul_le_mul_right _ hm)
      rw [Nat.min_eq_left hcut, Nat.min_eq_left hexact]

theorem eraseDups_concat {α : Type} [BEq α] [LawfulBEq α] (l : List α) (a : α)
    [Decidable (a ∈ l)] :
    (l ++ [a]).eraseDups = if a ∈ l then l.eraseDups else l.eraseDups ++ [a] := by
  rw [List.eraseDups_append]
  by_cases ha : a ∈ l
  · have hnone : [a].removeAll l = [] := by simp [List.removeAll, ha]
    rw [if_pos ha, hnone, List.eraseDups_nil, List.append_nil]
  · have hone : [a].removeAll l = [a] := by simp [List.removeAll, ha]
    rw [if_neg ha, hone]
    rfl

/-- Elements along an axis in exact numbers: the product of the extents that divide it. -/
def elementsAlong (past : List Division) (a : Axis) : Nat :=
  ((past.filter (·.axis = a)).map (·.extent.toNat)).prod

theorem elementsAlong_concat (past : List Division) (d : Division) (a : Axis) :
    elementsAlong (past ++ [d]) a =
      if d.axis = a then elementsAlong past a * d.extent.toNat else elementsAlong past a := by
  unfold elementsAlong
  rw [List.filter_append, List.map_append, List.prod_append]
  split <;> rename_i ha <;> simp [ha]

/-- One level of a tree: distinct axes, with positive extents. -/
structure Level where
  divisions : List Division
  axes_nodup : (divisions.map (·.axis)).Nodup
  extent_pos : ∀ d ∈ divisions, 0 < d.extent.toNat

namespace Level

def axes (l : Level) : List Axis := l.divisions.map (·.axis)

/-- All divisions of a chain of levels. -/
def history (levels : List Level) : List Division := levels.flatMap (·.divisions)

theorem history_concat (above : List Level) (level : Level) :
    history (above ++ [level]) = history above ++ level.divisions := by
  simp [history]

theorem mem_axes_history {levels : List Level} {a : Axis} :
    a ∈ (history levels).map (·.axis) ↔ ∃ l ∈ levels, a ∈ l.axes := by
  rw [history, List.map_flatMap, List.mem_flatMap]
  rfl

end Level

namespace IndexSpace

variable {packing : Packing} {s : IndexSpace} {past ds : List Division}

/-- What a space knows of all divisions from the root down. -/
structure Summarizes (s : IndexSpace) (past : List Division) : Prop extends s.Listed where
  /-- Axes are listed in the order of their first division. -/
  positions_eq : s.positions = (past.map (·.axis)).eraseDups
  /-- Elements along an axis are counted as far as a word goes. -/
  fromRoot_eq : ∀ a, (s.extent a).fromRoot.toNat = min (2 ^ 64 - 1) (elementsAlong past a)

theorem summarizes_root : root.Summarizes [] := by
  refine ⟨listed_root, rfl, ?_⟩
  intro a
  rw [extent_root]
  rfl

namespace Summarizes

theorem nextLevel (h : s.Summarizes past) : s.nextLevel.Summarizes past := by
  refine ⟨h.toListed.nextLevel, h.positions_eq, ?_⟩
  intro a
  rw [extent_nextLevel]
  exact h.fromRoot_eq a

theorem mem_positions (h : s.Summarizes past) {a : Axis} :
    a ∈ s.positions ↔ a ∈ past.map (·.axis) := by
  rw [h.positions_eq, List.mem_eraseDups]

theorem divideAxis (h : s.Summarizes past) (packing : Packing) (d : Division) :
    (s.divideAxis packing d).Summarizes (past ++ [d]) := by
  refine ⟨h.toListed.divideAxis d, ?_, ?_⟩
  · rw [List.map_append, List.map_singleton, eraseDups_concat, ← h.positions_eq]
    simp only [IndexSpace.divideAxis, h.active_iff, h.mem_positions]
  · intro a
    rw [extent_divideAxis, elementsAlong_concat]
    by_cases ha : a = d.axis
    · rw [if_pos ha, if_pos ha.symm]
      calc ((s.extent a).divide packing d.extent).fromRoot.toNat
          = min ((s.extent a).fromRoot.toNat * d.extent.toNat) (2 ^ 64 - 1) := by
            rw [AxisExtent.divide, toNat_saturatingMul, UInt32.toNat_toUInt64]
            rfl
        _ = min (2 ^ 64 - 1) (min (2 ^ 64 - 1) (elementsAlong past a) * d.extent.toNat) := by
            rw [h.fromRoot_eq, Nat.min_comm]
        _ = min (2 ^ 64 - 1) (elementsAlong past a * d.extent.toNat) := min_mul_min _ _ _
    · rw [if_neg ha, if_neg (Ne.symm ha), h.fromRoot_eq]

end Summarizes

/-- The last division of a level finds the space as the others leave it. -/
theorem divide_concat (packing : Packing) (s : IndexSpace) (ds : List Division) (d : Division) :
    s.divide packing (ds ++ [d]) = ((s.child packing ds).divideAxis packing d,
      if ((s.child packing ds).extent d.axis).active ∧ ¬ isPowerOfTwo d.extent.toNat then
        (s.divide packing ds).2 ++ [d.axis]
      else (s.divide packing ds).2) :=
  List.foldl_concat ..

/-- A level adds its divisions to what a space knows. -/
theorem Summarizes.child (h : s.Summarizes past) (packing : Packing) (ds : List Division) :
    (s.child packing ds).Summarizes (past ++ ds) := by
  -- from the last division backwards, as the space grows at its end
  induction ds using List.reverseRecOn with
  | nil =>
    rw [List.append_nil]
    exact h.nextLevel
  | append_singleton ds d ih =>
    have hlast : s.child packing (ds ++ [d]) = (s.child packing ds).divideAxis packing d :=
      congrArg Prod.fst (divide_concat packing s ds d)
    rw [hlast, ← List.append_assoc]
    exact ih.divideAxis packing d

/-- A level reports the axes that were active above it and that it divides by an extent that is not
a power of two. -/
theorem divide_slow (h : (ds.map (·.axis)).Nodup) : (s.divide packing ds).2 =
    (ds.filter fun d => (s.extent d.axis).active ∧ ¬ isPowerOfTwo d.extent.toNat).map (·.axis) := by
  induction ds using List.reverseRecOn with
  | nil => rfl
  | append_singleton ds d ih =>
    rw [List.map_append, List.nodup_append] at h
    obtain ⟨hnd, -, hdisj⟩ := h
    have hnot : d.axis ∉ ds.map (·.axis) := fun hm => hdisj _ hm _ (List.mem_singleton_self _) rfl
    -- the other divisions of the level leave the axis as it is above
    have hactive : ((s.child packing ds).extent d.axis).active = (s.extent d.axis).active := by
      rw [extent_child_of_not_mem hnd hnot]
      rfl
    rw [divide_concat, List.filter_append, List.map_append, ← ih hnd, hactive]
    by_cases hslow : (s.extent d.axis).active = true ∧ ¬ isPowerOfTwo d.extent.toNat = true
    · rw [if_pos hslow, List.filter_singleton, decide_eq_true hslow]
      rfl
    · rw [if_neg hslow, List.filter_singleton, decide_eq_false hslow]
      exact (List.append_nil _).symm

/-- The extents that a level gives to the space right below it. -/
structure SizedBy (s : IndexSpace) (packing : Packing) (level : Level) : Prop where
  declared : ∀ d ∈ level.divisions, (s.extent d.axis).declared = d.extent
  undivided : ∀ a ∉ level.axes, (s.extent a).declared = 1 ∧ (s.extent a).padded = 1
  le : ∀ a, (s.extent a).declared ≤ (s.extent a).padded
  pads : ∀ a, packing.Pads (s.extent a).declared.toNat (s.extent a).padded.toNat

theorem sizedBy_child (packing : Packing) (s : IndexSpace) (level : Level) :
    (s.child packing level.divisions).SizedBy packing level := by
  have hpadded (a : Axis) : ((s.child packing level.divisions).extent a).padded =
      packing.extent ((s.child packing level.divisions).extent a).declared := by
    rw [extent_child level.axes_nodup]
    split
    · rfl
    · cases packing <;> rfl
  refine ⟨?declared, ?undivided, ?le, ?pads⟩
  case declared =>
    intro d hd
    rw [extent_child_of_mem level.axes_nodup hd]
    rfl
  case undivided =>
    intro a ha
    rw [extent_child_of_not_mem level.axes_nodup ha]
    exact ⟨rfl, rfl⟩
  case le =>
    intro a
    rw [hpadded]
    exact packing.le_extent _
  case pads =>
    intro a
    rw [hpadded]
    exact packing.pads_extent _

/-- The space below a chain of levels, the first of them right below the root. -/
def ofLevels (packing : Packing) (levels : List Level) : IndexSpace :=
  levels.foldl (fun s l => s.child packing l.divisions) root

/-- The axes that a level below a chain reports as slow. -/
def slowAxes (packing : Packing) (above : List Level) (level : Level) : List Axis :=
  ((ofLevels packing above).divide packing level.divisions).2

theorem ofLevels_concat (packing : Packing) (above : List Level) (level : Level) :
    ofLevels packing (above ++ [level]) = (ofLevels packing above).child packing level.divisions :=
  List.foldl_concat ..

theorem summarizes_ofLevels (packing : Packing) (levels : List Level) :
    (ofLevels packing levels).Summarizes (Level.history levels) := by
  induction levels using List.reverseRecOn with
  | nil => exact summarizes_root
  | append_singleton above level ih =>
    rw [ofLevels_concat, Level.history_concat]
    exact ih.child packing level.divisions

theorem mem_slowAxes {above : List Level} {level : Level} {a : Axis} :
    a ∈ slowAxes packing above level ↔ (∃ l ∈ above, a ∈ l.axes) ∧
      ∃ d ∈ level.divisions, d.axis = a ∧ ∀ k, d.extent.toNat ≠ 2 ^ k := by
  have hsum := summarizes_ofLevels packing above
  have hactive : ((ofLevels packing above).extent a).active = true ↔ ∃ l ∈ above, a ∈ l.axes := by
    rw [hsum.active_iff, hsum.mem_positions, Level.mem_axes_history]
  have hpow (n : Nat) : ¬ isPowerOfTwo n = true ↔ ∀ k, n ≠ 2 ^ k := by
    rw [isPowerOfTwo_iff, not_exists]
    simp only [Nat.one_shiftLeft, ne_eq]
  rw [slowAxes, divide_slow level.axes_nodup, List.mem_map, ← hactive]
  simp only [List.mem_filter, decide_eq_true_eq, hpow]
  constructor
  · rintro ⟨d, ⟨hd, hact, hne⟩, rfl⟩
    exact ⟨hact, d, hd, rfl, hne⟩
  · rintro ⟨hact, d, hd, rfl, hne⟩
    exact ⟨d, ⟨hd, hact, hne⟩, rfl⟩

/-- The space below a chain of levels sums up all their divisions. A further level appends the axes
that it divides first, gives the space below it its own extents, and reports, in the order of its
divisions, just the axes divided before and now by an extent that is not a power of two. -/
theorem levels_summarized (packing : Packing) (levels : List Level) :
    (ofLevels packing levels).Summarizes (Level.history levels) ∧ ∀ level : Level,
      (ofLevels packing levels).positions <+: (ofLevels packing (levels ++ [level])).positions ∧
      (ofLevels packing (levels ++ [level])).SizedBy packing level ∧
      (slowAxes packing levels level).Sublist level.axes ∧
      ∀ a, a ∈ slowAxes packing levels level ↔ (∃ l ∈ levels, a ∈ l.axes) ∧
        ∃ d ∈ level.divisions, d.axis = a ∧ ∀ k, d.extent.toNat ≠ 2 ^ k := by
  refine ⟨summarizes_ofLevels packing levels, ?_⟩
  intro level
  refine ⟨?_, ?_, ?_, fun a => mem_slowAxes⟩
  · rw [ofLevels_concat]
    exact positions_child packing _ level.divisions
  · rw [ofLevels_concat]
    exact sizedBy_child packing _ level
  · rw [slowAxes, divide_slow level.axes_nodup]
    exact List.filter_sublist.map _

end IndexSpace

namespace Sample

open IndexSpace

def rows : Level := ⟨[⟨1, 4⟩, ⟨0, 2⟩], by decide, by decide⟩

def blocks : Level := ⟨[⟨0, 4294967295⟩, ⟨2, 3⟩], by decide, by decide⟩

/-- The elements along the first axis are more than a word counts. Dividing that axis again by an
extent that no power of two of 32 bits holds is slow, and leaves the extent as it is. -/
theorem levels_summarized_blocks :
    (ofLevels .padded [rows, blocks, blocks]).positions = [1, 0, 2] ∧
      ((ofLevels .padded [rows, blocks, blocks]).extent 0).fromRoot.toNat = 2 ^ 64 - 1 ∧
        ((ofLevels .padded [rows, blocks, blocks]).extent 0).padded.toNat = 2 ^ 32 - 1 ∧
          0 ∈ slowAxes .padded [rows, blocks] blocks := by
  obtain ⟨hsum, -⟩ := levels_summarized .padded [rows, blocks, blocks]
  obtain ⟨-, hsized, -, hslow⟩ := (levels_summarized .padded [rows, blocks]).2 blocks
  have hdeclared := hsized.declared ⟨0, 4294967295⟩ List.mem_cons_self
  have hpads := hsized.pads 0
  refine ⟨hsum.positions_eq.trans (by decide), (hsum.fromRoot_eq 0).trans (by decide), ?_, ?_⟩
  · rw [hdeclared] at hpads
    exact hpads
  · refine (hslow 0).2 ⟨⟨rows, List.mem_cons_self, by decide⟩, _, List.mem_cons_self, rfl, ?_⟩
    intro k hk
    -- the extent is odd and not 1
    have heq : 4294967295 = 2 ^ k := hk
    cases k with
    | zero => exact absurd heq (by decide)
    | succ k =>
      rw [Nat.pow_succ] at heq
      omega

end Sample

end SparseLayout
