import SparseLayout.Proofs.Draft.Built
import SparseLayout.Proofs.Draft.Measured
import SparseLayout.Proofs.Draft.Spaces

namespace SparseLayout

/-- The nodes of a compiled tree are those of the draft. -/
structure Layout.NodesOf (t : Layout) (d : Draft) : Prop where
  root : t.root = d.root
  packing : t.packing = d.packing
  node : ∀ {i : Nat} {v : Layout.Node}, t.nodes[i]? = some v → ∃ n, d.nodes[i]? = some n ∧
    v.id = i ∧ v.kind = n.kind ∧ v.parent = n.parent ∧ v.children = n.children ∧
      v.index = n.index ∧ v.depth = n.depth ∧ v.name = n.name
  exists_node : ∀ {i : Nat} {n : Draft.Node}, d.nodes[i]? = some n → ∃ v, t.nodes[i]? = some v

/-- They have their exact sizes, which suit them. -/
structure Layout.CompiledFrom (t : Layout) (d : Draft) : Prop extends t.NodesOf d where
  cells : ∀ {i : Nat} {v : Layout.Node}, t.nodes[i]? = some v →
    v.cells.toNat = v.index.exactCells
  fits : ∀ {i : Nat} {v : Layout.Node} {n : Draft.Node}, t.nodes[i]? = some v →
    d.nodes[i]? = some n → v.Suits (d.underBits n) n.kind ((t.childNodes v).map (·.toMeasure))
  exact : ∀ {i : Nat} {v : Layout.Node} {n : Draft.Node}, t.nodes[i]? = some v →
    d.nodes[i]? = some n → v.Exact d.packing (d.underBits n) n (n.children.map d.exactSize)
  offset_root : ∀ {i : Nat} {v : Layout.Node}, t.nodes[i]? = some v → v.parent = none → v.offset = 0
  offset : ∀ {i p k : Nat} {v q : Layout.Node}, t.nodes[i]? = some v → v.parent = some p →
    t.nodes[p]? = some q → q.children[k]? = some i → v.offset = (q.childOffsets[k]?).getD 0

namespace Draft

variable {d : Draft}

/-- Every exact size of the tree is a word. -/
def IsWords (d : Draft) : Prop := ∀ i < d.nodes.size, (d.exactSize i).IsWords

/-- There is room for what is not checked when a tree is compiled: every node has a word of cells,
and an exact size that is a word stays one where it is rounded up. -/
def Roomy (d : Draft) : Prop := ∀ (i : Nat) (n : Node), d.nodes[i]? = some n →
  ExactSize.Roomy n.kind n.index.exactCells (n.children.map d.exactSize)

theorem isWords_of_forall (h : ∀ e ∈ d.exactSizes 0 d.nodes.toList, e.IsWords) : d.IsWords := by
  intro i hi
  have hat := getElem?_exactSizes_drop (d := d) (Nat.zero_le i) hi
  exact h _ (List.mem_of_getElem? hat)

/-- A node of the draft with these sizes is measured as it should be; `size` gives the sizes of the
other nodes. -/
def Measured (d : Draft) (size : NodeId → Measure) (n : Node) (m : Measure) : Prop :=
  m.Exact d.packing (d.underBits n) n (n.children.map d.exactSize) ∧
    m.sparseBelow = (n.kind.type.isSparse || (n.children.map size).any (·.sparseBelow))

/-- Sizes that agree with the exact ones at all nodes below a node do so at its children. -/
theorem Grown.children_agree (hg : d.Grown) {i : NodeId} {n : Node} (hn : d.nodes[i]? = some n)
    {size : NodeId → Measure} (h : ∀ {c : NodeId} {q : Node}, i < c → d.nodes[c]? = some q →
      (size c).Agrees (.ofNode d.packing (d.underBits q) q (q.children.map d.exactSize))) :
    List.Forall₂ Measure.Agrees (n.children.map size) (n.children.map d.exactSize) := by
  rw [List.forall₂_map_left_iff, List.forall₂_map_right_iff, List.forall₂_same]
  intro c hc
  obtain ⟨hic, q, hq, -⟩ := hg.child hn hc
  rw [hg.exactSize_eq hq]
  exact h hic hq

/-- These are the sizes of the nodes from number `i` on. -/
def MeasuredFrom (d : Draft) (i : Nat) (ms : List Measure) : Prop :=
  ∀ (j : Nat) (n : Node), i ≤ j → d.nodes[j]? = some n → ∃ m, ms[j - i]? = some m ∧
    d.Measured (fun c => ms[c - i]?.getD default) n m

section

variable {i j : Nat} {n : Node} {m : Measure} {ms : List Measure}

/-- Children have larger numbers, so the sizes from a node on hold those of its children. -/
theorem MeasuredFrom.children_agree (hg : d.Grown) (h : d.MeasuredFrom i ms)
    (hn : d.nodes[j]? = some n) (hij : i ≤ j + 1) :
    List.Forall₂ Measure.Agrees (n.children.map fun c => ms[c - i]?.getD default)
      (n.children.map d.exactSize) := by
  apply hg.children_agree hn
  intro c q hjc hq
  obtain ⟨m, hm, hexact, -⟩ := h c q (Nat.le_trans hij hjc) hq
  rw [hm]
  exact hexact.agrees

/-- The sizes of the node before come first. -/
theorem MeasuredFrom.cons (hg : d.Grown) (h : d.MeasuredFrom (i + 1) ms)
    (hn : d.nodes[i]? = some n) (hm : d.Measured (fun c => ms[c - (i + 1)]?.getD default) n m) :
    d.MeasuredFrom i (m :: ms) := by
  have hget (j : Nat) (hij : i < j) : (m :: ms)[j - i]? = ms[j - (i + 1)]? := by
    rw [show j - i = j - (i + 1) + 1 by omega, List.getElem?_cons_succ]
  have hsize {j : Nat} {q : Node} (hij : i ≤ j) (hq : d.nodes[j]? = some q) :
      (q.children.map fun c => (m :: ms)[c - i]?.getD default) =
        q.children.map fun c => ms[c - (i + 1)]?.getD default := by
    apply List.map_congr_left
    intro c hc
    rw [hget c (Nat.lt_of_le_of_lt hij (hg.child hq hc).1)]
  intro j q hij hq
  unfold Measured
  rw [hsize hij hq]
  rcases Nat.eq_or_lt_of_le hij with rfl | hlt
  · rw [hn, Option.some.injEq] at hq
    subst hq
    exact ⟨m, by rw [Nat.sub_self]; rfl, hm⟩
  · rw [hget j hlt]
    exact h j q hlt hq

end

/-- The nodes from a number on are measured exactly, each after its children. -/
theorem measures_follows (hg : d.Grown) {i : Nat} {l : List Node}
    (hl : l = d.nodes.toList.drop i) :
    Follows (d.measures i l) (∀ j, i ≤ j → j < d.nodes.size → (d.exactSize j).IsWords) d.Roomy
      (d.MeasuredFrom i) := by
  induction l generalizing i with
  | nil =>
    have hi : d.nodes.size ≤ i := by
      have := List.drop_eq_nil_iff.1 hl.symm
      rwa [Array.length_toList] at this
    refine ⟨fun j hij hj => absurd hj (by omega), ?_⟩
    intro j n hij hn
    have := (Array.getElem?_eq_some_iff.1 hn).1
    omega
  | cons n l ih =>
    have hn : d.nodes[i]? = some n := by
      rw [← Array.getElem?_toList, ← Nat.add_zero i, ← List.getElem?_drop, ← hl]
      rfl
    have hl' : l = d.nodes.toList.drop (i + 1) := by
      rw [← List.drop_drop, ← hl]
      rfl
    refine (ih hl').bind (fun hw j hij hj => hw j (Nat.le_of_succ_le hij) hj) id ?_
    intro later hlater hmeasured
    -- the sizes picked for the children are those of the nodes with their numbers
    have hpick := hg.filterMap_children hn later (fun c => later[c - (i + 1)]?.getD default) (by
        intro j hij hj
        obtain ⟨m, hm, -⟩ := hmeasured j _ hij (Array.getElem?_eq_getElem hj)
        rw [hm]
        rfl)
    rw [hpick]
    have hmeasure := ExactSize.measure_follows d.packing (d.underBits n)
      (hmeasured.children_agree hg hn (Nat.le_refl _)) (hg.valid hn) (hg.peopled hn)
    rw [← hg.exactSize_eq hn] at hmeasure
    refine hmeasure.bind (fun hw => hw i (Nat.le_refl i) (Array.getElem?_eq_some_iff.1 hn).1)
      (fun hr => hr i n hn) ?_
    rintro m hwords hm
    refine ⟨?_, hmeasured.cons hg hn hm⟩
    intro j hij hj
    rcases Nat.eq_or_lt_of_le hij with rfl | hlt
    · exact hwords
    · exact hlater j hlt hj

/-- A node with its sizes and its place in the parent's cells. -/
def compiledNode (d : Draft) (ms : List Measure) (i : NodeId) (n : Node) : Layout.Node :=
  { n with
    toMeasure := ms[i]?.getD default
    id := i
    offset := d.slotOffset ms.toArray i n }

theorem getElem?_compiled (d : Draft) (ms : List Measure) (i : Nat) :
    (d.nodes.mapIdx fun id n =>
      ({ n with
        toMeasure := ms.toArray[id]?.getD default
        id
        offset := d.slotOffset ms.toArray id n } : Layout.Node))[i]? =
      d.nodes[i]?.map (d.compiledNode ms i) := by
  rw [Array.getElem?_mapIdx]
  cases d.nodes[i]? with
  | none => rfl
  | some n => simp [compiledNode]

theorem idxOf?_of_nodup {l : List NodeId} (h : l.Nodup) {k : Nat} {i : NodeId}
    (hk : l[k]? = some i) : l.idxOf? i = some k := by
  obtain ⟨hlt, hki⟩ := List.getElem?_eq_some_iff.1 hk
  refine List.idxOf?_eq_some_iff.2 ⟨hlt, hki, ?_⟩
  intro j hj he
  exact Nat.ne_of_lt hj (h.getElem_inj_iff.1 (he.trans hki.symm))

/-- The place of a container in the parent's cells is looked up among the parent's children. -/
theorem Grown.slotOffset_eq (hg : d.Grown) {ms : List Measure} {i p k : Nat} {n q : Node} {m : Measure}
    (hp : n.parent = some p) (hq : d.nodes[p]? = some q) (hk : q.children[k]? = some i)
    (hm : ms[p]? = some m) : d.slotOffset ms.toArray i n = (m.childOffsets[k]?).getD 0 := by
  unfold slotOffset
  simp only [hp, children_of_some hq, List.getElem?_toArray, hm, bind, Option.bind,
    idxOf?_of_nodup (hg.nodup hq) hk]

/-- A tree of the draft's nodes with sizes of any kind. -/
theorem nodesOf {t : Layout} {ms : List Measure} (hroot : t.root = d.root)
    (hpacking : t.packing = d.packing)
    (hnodes : ∀ i : Nat, t.nodes[i]? = d.nodes[i]?.map (d.compiledNode ms i)) : t.NodesOf d := by
  refine ⟨hroot, hpacking, ?_, fun hn => ⟨_, (hnodes _).trans (congrArg _ hn)⟩⟩
  intro i v hv
  rw [hnodes] at hv
  obtain ⟨n, hn, rfl⟩ := Option.map_eq_some_iff.1 hv
  exact ⟨n, hn, rfl, rfl, rfl, rfl, rfl, rfl, rfl⟩

/-- A compiled node has the sizes of its number. -/
theorem MeasuredFrom.compiledNode {ms : List Measure} (h : d.MeasuredFrom 0 ms) {i : Nat} {n : Node}
    (hn : d.nodes[i]? = some n) : ms[i]? = some (d.compiledNode ms i n).toMeasure ∧
      d.Measured (fun c => ms[c]?.getD default) n (d.compiledNode ms i n).toMeasure := by
  obtain ⟨m, hm, hmeasured⟩ := h i n (Nat.zero_le i) hn
  have hat : (d.compiledNode ms i n).toMeasure = m := by
    rw [Draft.compiledNode, show ms[i]? = some m from hm]
    rfl
  rw [hat]
  exact ⟨hm, hmeasured⟩

/-- A tree of measured nodes is the compiled one. -/
theorem Grown.compiledFrom (hg : d.Grown) {t : Layout} (ms : List Measure) (hroot : t.root = d.root)
    (hpacking : t.packing = d.packing)
    (hnodes : ∀ i : Nat, t.nodes[i]? = d.nodes[i]?.map (d.compiledNode ms i))
    (hms : d.MeasuredFrom 0 ms) : t.CompiledFrom d := by
  have compiled {i : Nat} {v : Layout.Node} (hv : t.nodes[i]? = some v) :
      ∃ n, d.nodes[i]? = some n ∧ d.compiledNode ms i n = v := by
    rw [hnodes] at hv
    exact Option.map_eq_some_iff.1 hv
  refine ⟨nodesOf hroot hpacking hnodes, ?cells, ?fits, ?exact, ?offset_root, ?offset⟩
  case cells =>
    intro i v hv
    obtain ⟨n, hn, rfl⟩ := compiled hv
    exact (hms.compiledNode hn).2.1.agrees.cells
  case fits =>
    intro i v n hv hn
    obtain ⟨n', hn', rfl⟩ := compiled hv
    rw [hn, Option.some.injEq] at hn'
    subst hn'
    obtain ⟨-, hexact, hsparse⟩ := hms.compiledNode hn
    have hagree := hms.children_agree hg hn (Nat.zero_le _)
    -- the sizes of the children are those that their own nodes carry
    convert hexact.suits (hg.valid hn) hagree hsparse using 1
    unfold Layout.childNodes
    rw [List.map_filterMap, ← List.filterMap_eq_map]
    apply List.filterMap_congr
    intro c hc
    obtain ⟨-, q, hq, -⟩ := hg.child hn hc
    rw [hnodes, hq, Function.comp_apply, Nat.sub_zero, (hms.compiledNode hq).1]
    rfl
  case exact =>
    intro i v n hv hn
    obtain ⟨n', hn', rfl⟩ := compiled hv
    rw [hn, Option.some.injEq] at hn'
    subst hn'
    exact (hms.compiledNode hn).2.1
  case offset_root =>
    intro i v hv hp
    obtain ⟨n, hn, rfl⟩ := compiled hv
    have hnone : n.parent = none := hp
    change d.slotOffset ms.toArray i n = 0
    unfold slotOffset
    rw [hnone]
    rfl
  case offset =>
    intro i p k v q hv hp hq hk
    obtain ⟨n, hn, rfl⟩ := compiled hv
    obtain ⟨r, hr, rfl⟩ := compiled hq
    exact hg.slotOffset_eq hp hr hk (hms.compiledNode hr).1

/-- Unchecked steps in turn panic where one of them does. -/
theorem mapM_unchecked {α β : Type} {f : α → Option β} {l : List α} :
    (∃ a ∈ l, f a = none) ∧ (l.mapM fun a => unchecked (f a)) = .error (.panic .overflow) ∨
      (∀ a ∈ l, f a ≠ none) ∧ ∃ bs, (l.mapM fun a => unchecked (f a)) = .ok bs := by
  induction l with
  | nil => exact .inr ⟨fun a ha => absurd ha List.not_mem_nil, [], rfl⟩
  | cons a l ih =>
    rw [List.mapM_cons]
    cases hf : f a with
    | none => exact .inl ⟨⟨a, List.mem_cons_self, hf⟩, rfl⟩
    | some b =>
      rcases ih with ⟨⟨a', ha', hnone⟩, he⟩ | ⟨hsome, bs, hbs⟩
      · exact .inl ⟨⟨a', List.mem_cons_of_mem _ ha', hnone⟩, by rw [he]; rfl⟩
      · refine .inr ⟨List.forall_mem_cons.2 ⟨by simp [hf], hsome⟩, b :: bs, ?_⟩
        rw [hbs]
        rfl

/-- The cells of all nodes are counted before any size is computed. A node with more cells than
words count ends the compilation there. -/
theorem Grown.count_cases (hg : d.Grown) :
    (∃ (i : Nat) (n : Node), d.nodes[i]? = some n ∧ UInt64.size ≤ n.index.exactCells) ∧
      (∀ tree compileOnly, d.compile tree compileOnly = .error (.panic .overflow)) ∨
    (∀ (i : Nat) (n : Node), d.nodes[i]? = some n → n.index.exactCells < UInt64.size) ∧
      ∃ cells, (d.nodes.toList.mapM fun n => unchecked n.index.paddedCells) = .ok cells := by
  have hmem {n : Node} : n ∈ d.nodes.toList ↔ ∃ i : Nat, d.nodes[i]? = some n := by
    rw [Array.mem_toList_iff, Array.mem_iff_getElem?]
  rcases mapM_unchecked (f := fun n : Node => n.index.paddedCells) (l := d.nodes.toList) with
    ⟨⟨n, hn, hnone⟩, he⟩ | ⟨hsome, cells, hcells⟩
  · obtain ⟨i, hn⟩ := hmem.1 hn
    refine .inl ⟨⟨i, n, hn, (hg.peopled hn).paddedCells_eq_none_iff.1 hnone⟩, ?_⟩
    intro tree compileOnly
    unfold compile
    rw [he]
    rfl
  · refine .inr ⟨fun i n hn => ?_, cells, hcells⟩
    rw [← Nat.not_le, ← (hg.peopled hn).paddedCells_eq_none_iff]
    exact hsome n (hmem.2 ⟨i, hn⟩)

/-- A compiled tree has the nodes of its draft, whatever its sizes. -/
theorem compile_nodes {tree : TreeId} {compileOnly : Bool} {t : Layout}
    (h : d.compile tree compileOnly = .ok t) :
    t.NodesOf d ∧ t.tree = tree ∧ t.compileOnly = compileOnly := by
  obtain ⟨_, -, h⟩ := exists_of_bind h
  obtain ⟨ms, -, h⟩ := exists_of_bind h
  cases h
  exact ⟨nodesOf rfl rfl (d.getElem?_compiled ms), rfl, rfl⟩

theorem IsWords.cells (h : d.IsWords) (hg : d.Grown) {i : Nat} {n : Node}
    (hn : d.nodes[i]? = some n) : n.index.exactCells < UInt64.size := by
  have hwords := h i (Array.getElem?_eq_some_iff.1 hn).1
  rw [hg.exactSize_eq hn] at hwords
  exact hwords.1

/-- A tree compiles, with exact sizes, just where these are words. -/
theorem compile_follows (hg : d.Grown) (tree : TreeId) (compileOnly : Bool) :
    Follows (d.compile tree compileOnly) d.IsWords d.Roomy fun t =>
      t.CompiledFrom d ∧ t.tree = tree ∧ t.compileOnly = compileOnly := by
  rcases hg.count_cases with ⟨⟨i, n, hn, hle⟩, he⟩ | ⟨-, cells, hcells⟩
  · rw [he]
    exact ⟨fun hw => Nat.not_lt.2 hle (hw.cells hg hn),
      fun hr => Nat.not_lt.2 hle (hr i n hn).count⟩
  unfold compile
  rw [hcells]
  refine (measures_follows hg (i := 0) (l := d.nodes.toList) rfl).bind (fun hw j _ hj => hw j hj)
    id ?_
  intro ms hw hms
  exact ⟨fun i hi => hw i (Nat.zero_le i) hi,
    hg.compiledFrom ms rfl rfl (d.getElem?_compiled ms) hms, rfl, rfl⟩

theorem compile_ok (hg : d.Grown) (hw : d.IsWords) (tree : TreeId) (compileOnly : Bool) :
    ∃ t, d.compile tree compileOnly = .ok t ∧ t.CompiledFrom d := by
  obtain ⟨t, ht, hc, -⟩ := (compile_follows hg tree compileOnly).ok hw
  exact ⟨t, ht, hc⟩

/-- Every tree that compiles has its exact sizes. -/
theorem Grown.compiledFrom_of_ok (hg : d.Grown) {tree : TreeId} {compileOnly : Bool} {t : Layout}
    (h : d.compile tree compileOnly = .ok t) : d.IsWords ∧ t.CompiledFrom d := by
  have hfollows := compile_follows hg tree compileOnly
  rw [h] at hfollows
  exact ⟨hfollows.1, hfollows.2.1⟩

/-- The cells of a compiled node are counted by its index space. -/
theorem Grown.paddedCells_compiled (hg : d.Grown) {t : Layout} (h : t.CompiledFrom d) {i : Nat}
    {v : Layout.Node} (hv : t.nodes[i]? = some v) : v.index.paddedCells = some v.cells := by
  obtain ⟨n, hn, -, -, -, -, hindex, -⟩ := h.node hv
  have hcells := h.cells hv
  cases hc : v.index.paddedCells with
  | none =>
    have hle := (hg.peopled hn).paddedCells_eq_none_iff.1 (hindex ▸ hc)
    have hlt := v.cells.toNat_lt
    rw [hcells, hindex] at hlt
    exact absurd hlt (Nat.not_lt.2 hle)
  | some c =>
    rw [← UInt64.toNat_inj.1 ((IndexSpace.toNat_of_paddedCells hc).trans hcells.symm)]

theorem WellSized.isWords (h : d.WellSized) : d.IsWords := isWords_of_forall h.sizes

end Draft

end SparseLayout
