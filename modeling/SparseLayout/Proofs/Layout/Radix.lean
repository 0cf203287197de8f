import SparseLayout.Proofs.Draft.Sample
import SparseLayout.Proofs.Draft.Sound
import SparseLayout.Proofs.Resolve

/-!
Coordinates in mixed radix. An index expression that is accepted has, along each axis, one digit
for every level that divides the axis, and the digits make up the coordinate; a level numbers its
memory cells by its digits.
-/

namespace SparseLayout

open Layout.Node (digit linear)

namespace Layout

variable {t : Layout} {m n : Node} {c d : Coords} {a : Axis}

/-- An axis of a level is one that the level divides by its declared extent. -/
theorem Charted.division_of_mem (ht : t.Charted) (hm : t.Has m) (ha : a ∈ m.kind.axes) :
    ⟨a, (m.index.extent a).declared⟩ ∈ m.kind.divisions := by
  obtain ⟨-, -, e, he, rfl, hext⟩ := ht.exists_division hm ha
  rw [← hext]
  exact he

/-- Along an axis that a level divides, the digit is below the declared extent. -/
theorem Charted.digit_lt_declared (ht : t.Charted) (hm : t.Has m) (target : Node) (a : Axis)
    (c : Coords) : (digit target m a c).toNat < (m.index.extent a).declared.toNat := by
  have hlt := digit_lt target m a c
  have hpos := ht.declared_pos hm a
  omega

/-- Index expressions are known by the digits of the cells that they name. -/
theorem Charted.resolve_eq_iff (ht : t.Charted) (hn : t.Has n) {idx idx' : List Int32}
    (hc : n.resolve idx = .ok c) (hd : n.resolve idx' = .ok d) :
    idx = idx' ↔ ∀ a, ∀ m ∈ t.levels n a, digit n m a c = digit n m a d := by
  constructor
  · rintro rfl
    rw [hc, Except.ok.injEq] at hd
    subst hd
    exact fun _ _ _ => rfl
  · intro h
    obtain ⟨ha, hcw⟩ := ht.of_resolve hn hc
    obtain ⟨-, hdw⟩ := ht.of_resolve hn hd
    have hcd : c = d := by
      refine ht.coords_ext hn ha hcw hdw fun m hm a hax => h a m ?_
      exact (ht.mem_levels hn).2 ⟨hm, hax⟩
    exact ht.resolve_inj hn hc (hcd ▸ hd)

/-- The memory cells of a level are as many as the product of its memory extents. -/
theorem Charted.toNat_paddedCells (ht : t.Charted) (hm : t.Has m) {cells : UInt64}
    (hcells : m.index.paddedCells = some cells) :
    cells.toNat = (m.kind.axes.map fun a => (m.index.extent a).padded.toNat).prod := by
  rw [IndexSpace.toNat_of_paddedCells hcells]
  exact m.index.exactCells_eq (ht.axes_nodup hm) fun _ ha => ht.unpadded hm ha

/-- A level numbers its cells by their digits. -/
theorem Charted.linear_lt_and_inj (ht : t.Charted) (hm : t.Has m) {cells : UInt64}
    (hcells : m.index.paddedCells = some cells) (target : Node) (c : Coords) :
    (linear target m c).toNat < cells.toNat ∧
      ∀ d, linear target m c = linear target m d ↔
        ∀ a ∈ m.kind.axes, digit target m a c = digit target m a d := by
  have hprod := ht.toNat_paddedCells hm hcells
  have hlin (c : Coords) : (linear target m c).toNat = rowMajor (Node.digits target m c) := by
    apply ht.toNat_linear hm
    rw [← hprod]
    exact cells.toNat_lt
  constructor
  · rw [hlin, hprod, ← map_fst_digits target m c]
    exact rowMajor_lt (ht.digits_lt hm target c)
  · intro d
    rw [← UInt64.toNat_inj, hlin, hlin]
    exact ht.rowMajor_digits_inj hm

end Layout

/-- An accepted index expression of a node of a compiled tree is a number in mixed radix along each
axis: every level on the path has a digit below its declared extent, the digits make up the
coordinate, and no other expression has the same digits. A level numbers its memory cells below
their count, and gives two of them the same number just when it reads the same digits. -/
theorem Draft.Built.mixed_radix {d : Draft} (h : d.Built) {tree : TreeId} {compileOnly : Bool}
    {t : Layout} (ht : d.compile tree compileOnly = .ok t) {n : Layout.Node} (hn : t.Has n)
    {idx : List Int32} {c : Coords} (hc : n.resolve idx = .ok c) :
    (∀ a, (∀ m ∈ t.levels n a, ⟨a, (m.index.extent a).declared⟩ ∈ m.kind.divisions ∧
        (digit n m a c).toNat < (m.index.extent a).declared.toNat) ∧
      Layout.Node.radixSum n a c (t.levels n a) = (c.get a).toNat) ∧
    (∀ idx' c', n.resolve idx' = .ok c' →
      (idx = idx' ↔ ∀ a, ∀ m ∈ t.levels n a, digit n m a c = digit n m a c')) ∧
    ∀ a, ∀ m ∈ t.levels n a, m.index.paddedCells = some m.cells ∧ ∀ x,
      (linear n m x).toNat < m.cells.toNat ∧
        ∀ y, linear n m x = linear n m y ↔ ∀ b ∈ m.kind.axes, digit n m b x = digit n m b y := by
  have hg := h.good.grown
  obtain ⟨-, hfrom⟩ := hg.compiledFrom_of_ok ht
  have hct := (compile_nodes ht).1.charted hg
  obtain ⟨ha, hw⟩ := hct.of_resolve hn hc
  have hlevel {a : Axis} {m : Layout.Node} (hm : m ∈ t.levels n a) :
      t.Has m ∧ a ∈ m.kind.axes := by
    obtain ⟨hmn, hax⟩ := (hct.mem_levels hn).1 hm
    exact ⟨hmn.has hn, hax⟩
  refine ⟨fun a => ⟨fun m hm => ?_, hct.radixSum_levels hn ha hw a⟩,
    fun idx' c' hc' => hct.resolve_eq_iff hn hc hc', fun a m hm => ?_⟩
  · obtain ⟨hhas, hax⟩ := hlevel hm
    exact ⟨hct.division_of_mem hhas hax, hct.digit_lt_declared hhas n a c⟩
  · obtain ⟨hhas, -⟩ := hlevel hm
    have hcells := hg.paddedCells_compiled hfrom hhas
    exact ⟨hcells, fun x => hct.linear_lt_and_inj hhas hcells n x⟩

namespace Sample

/-- Four pointer cells along an axis with eight times three dense cells each, which divide the axis
again; indices of `x` start at -1. -/
def twice : Drafting :=
  (((⟨.new 0 .padded, ⟨#[none], 0⟩⟩ : Drafting).after 0 (.node (.pointer [0] (.uniform 4)))).after 1
    (.node (.dense [0, 1] (.perAxis [8, 3])))).after 2
      (.place [.one (field "x" 0)] ⟨some (.uniform (-1)), false⟩)

def twiceLayout : Layout := (twice.draft.compile 0 false).toOption.get (by decide +kernel)

theorem built_twice : twice.draft.Built := by
  have node (decl : Structural) : Declaration.OfFields (.node decl) := trivial
  have hx (options : PlaceOptions) : Declaration.OfFields (.place [.one (field "x" 0)] options) :=
    ofFields "x" 0 ⟨.empty, rfl⟩
  have hnew : (⟨.new 0 .padded, ⟨#[none], 0⟩⟩ : Drafting).draft.Built := .new 0 .padded
  exact ((hnew.after 0 (node _)).after 1 (node _)).after 2 (hx _)

def x : Layout.Node := twiceLayout.nodes[3]?.getD twiceLayout.rootNode

/-- Coordinates 21 and 2, counted from -1. -/
def coords : Coords := (x.resolve [20, 1]).toOption.get (by decide +kernel)

theorem mixed_radix_twice :
    (twiceLayout.levels x 0).map (fun m => (digit x m 0 coords, (m.index.extent 0).declared)) =
        [(2, 4), (5, 8)] ∧
      Layout.Node.radixSum x 0 coords (twiceLayout.levels x 0) = (coords.get 0).toNat ∧
        coords.get 0 = 21 := by
  have hcompile : twice.draft.compile 0 false = .ok twiceLayout := eq_ok_get (by decide +kernel)
  have hresolve : x.resolve [20, 1] = .ok coords := eq_ok_get (by decide +kernel)
  obtain ⟨hdigits, -, -⟩ := built_twice.mixed_radix hcompile (n := x) (by decide +kernel) hresolve
  exact ⟨by decide +kernel, (hdigits 0).2, by decide +kernel⟩

end Sample

end SparseLayout
