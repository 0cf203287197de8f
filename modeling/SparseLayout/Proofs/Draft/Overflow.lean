import SparseLayout.Proofs.Draft.Compiled
import SparseLayout.Proofs.Draft.Sample

/-!
Sizes that are no words. Products and sums of sizes are checked when a tree is compiled, so a tree
gets its exact sizes or none. The number of cells of a level is a product that nothing checks, and so
is a size that is rounded up: a tree with too many cells ends the compilation in a panic.
-/

namespace SparseLayout

open Draft (Node)

/-- Where the container of a node starts in a cell of its parent, in exact numbers. -/
def Draft.exactOffset (d : Draft) (id : NodeId) (n : Node) : Nat :=
  let offset : Option Nat := do
    let q ← d.nodes[(← n.parent)]?
    let k ← q.children.idxOf? id
    (ExactSize.childOffsets q.kind (q.children.map d.exactSize))[k]?
  offset.getD 0

/-- The compiled node has the exact sizes of the node of the draft, the mask offset and the bytes
of a chunk among them, and lies where these put it. -/
structure Layout.Node.ExactlySized (v : Layout.Node) (d : Draft) (id : NodeId)
    (n : Draft.Node) : Prop where
  cells : v.cells.toNat = (d.exactSize id).cells
  cellSize : v.cellSize.toNat = (d.exactSize id).cellSize
  bytes : v.bytes.toNat = (d.exactSize id).bytes
  container : v.container.Exact d.packing n.kind (d.exactSize id).cells (d.exactSize id).cellSize
  offset : v.offset.toNat = d.exactOffset id n

namespace Layout.CompiledFrom

variable {t : Layout} {d : Draft}

theorem offset_eq (h : t.CompiledFrom d) (hg : d.Grown) {i : Nat} {v : Layout.Node}
    {n : Draft.Node}
    (hv : t.nodes[i]? = some v) (hn : d.nodes[i]? = some n) :
    v.offset.toNat = d.exactOffset i n := by
  obtain ⟨n', hn', -, -, hpar, -⟩ := h.node hv
  rw [hn, Option.some.injEq] at hn'
  subst hn'
  unfold Draft.exactOffset
  cases hp : n.parent with
  | none =>
    rw [h.offset_root hv (hpar.trans hp)]
    rfl
  | some p =>
    have hi : i ≠ 0 := by
      rintro rfl
      have hroot := hg.root
      rw [hn] at hroot
      simp [hp] at hroot
    obtain ⟨p', q, hp', hq, hmem⟩ := hg.parent hn hi
    rw [hp, Option.some.injEq] at hp'
    subst hp'
    obtain ⟨k, hk⟩ := List.getElem?_of_mem hmem
    obtain ⟨w, hw⟩ := h.exists_node hq
    obtain ⟨q', hq', -, -, -, hch, -⟩ := h.node hw
    rw [hq, Option.some.injEq] at hq'
    subst hq'
    have hoffs := (h.exact hw hq).childOffsets
    rw [h.offset hv (hpar.trans hp) hw (hch ▸ hk)]
    simp only [bind, Option.bind, hq, Draft.idxOf?_of_nodup (hg.nodup hq) hk]
    rw [← hoffs, List.getElem?_map]
    cases w.childOffsets[k]? <;> rfl

theorem exactlySized (h : t.CompiledFrom d) (hg : d.Grown) {i : Nat} {n : Draft.Node}
    (hn : d.nodes[i]? = some n) : ∃ v, t.nodes[i]? = some v ∧ v.ExactlySized d i n := by
  obtain ⟨v, hv⟩ := h.exists_node hn
  obtain ⟨hagree, -, hcont, -⟩ := h.exact hv hn
  rw [← hg.exactSize_eq hn] at hagree
  refine ⟨v, hv, hagree.cells, hagree.cellSize, hagree.bytes, ?_, h.offset_eq hg hv hn⟩
  rw [hg.exactSize_eq hn]
  exact hcont

end Layout.CompiledFrom

/-- A tree that was built by declarations gets its exact sizes where these are words. Where one of
them is no word the tree is refused, or compiling it panics; it is refused if every level has a word
of cells and no size is rounded up out of the words, and with more cells it panics. -/
theorem Draft.Built.compile_exact {d : Draft} (h : d.Built) (tree : TreeId) (compileOnly : Bool) :
    (d.IsWords → ∃ t, d.compile tree compileOnly = .ok t ∧
      ∀ (i : Nat) (n : Node), d.nodes[i]? = some n →
        ∃ v, t.nodes[i]? = some v ∧ v.ExactlySized d i n) ∧
    (¬ d.IsWords → (∃ cause, d.compile tree compileOnly = .error (.invalid cause)) ∨
      d.compile tree compileOnly = .error (.panic .overflow) ∧ ¬ d.Roomy) ∧
    ((∃ (i : Nat) (n : Node), d.nodes[i]? = some n ∧ 2 ^ 64 ≤ n.index.exactCells) →
      d.compile tree compileOnly = .error (.panic .overflow)) := by
  have hg := h.good.grown
  have hfollows := compile_follows hg tree compileOnly
  refine ⟨fun hw => ?_, hfollows.error, ?_⟩
  · obtain ⟨t, ht, hfrom, -⟩ := hfollows.ok hw
    exact ⟨t, ht, fun i n hn => hfrom.exactlySized hg hn⟩
  · rintro ⟨i, n, hn, hle⟩
    rcases hg.count_cases with ⟨-, hpanic⟩ | ⟨hlt, -⟩
    · exact hpanic tree compileOnly
    · exact absurd (hlt i n hn) (Nat.not_lt.2 hle)

namespace Sample

/-- One dense level with 2^93 cells, which hold `x`. -/
def wide : Drafting :=
  ((⟨.new 0 .padded, ⟨#[none], 0⟩⟩ : Drafting).after 0
    (.node (.dense [0, 1, 2] (.uniform 2147483648)))).after 1 (.place [.one (field "x" 0)] ⟨none, false⟩)

theorem wide_built : wide.draft.Built := by
  have node (decl : Structural) : Declaration.OfFields (.node decl) := trivial
  have hx := ofFields "x" 0 ⟨.empty, rfl⟩
  have hnew : (⟨.new 0 .padded, ⟨#[none], 0⟩⟩ : Drafting).draft.Built := .new 0 .padded
  exact (hnew.after 0 (node _)).after 1 hx

/-- The small tree has its exact sizes. Compiling the wide one panics. -/
theorem compile_exact_wide :
    (∃ t, drafting.draft.compile 0 false = .ok t ∧
      ∀ (i : Nat) (n : Node), drafting.draft.nodes[i]? = some n →
        ∃ v, t.nodes[i]? = some v ∧ v.ExactlySized drafting.draft i n) ∧
    ¬ wide.draft.IsWords ∧ wide.draft.compile 0 true = .error (.panic .overflow) := by
  refine ⟨(built.compile_exact 0 false).1 wellSized.isWords, ?_, ?_⟩
  · intro hw
    have hcells := (hw 1 (by decide +kernel)).1
    exact absurd hcells (by decide +kernel)
  · have hn := Array.getElem?_eq_getElem (show 1 < wide.draft.nodes.size by decide +kernel)
    exact (wide_built.compile_exact 0 true).2.2 ⟨1, _, hn, by decide +kernel⟩

end Sample

end SparseLayout
