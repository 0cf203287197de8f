import SparseLayout.Proofs.Draft.Sample
import SparseLayout.Proofs.Draft.Sound

namespace SparseLayout

open Draft (Node)

/-- Sizes are rounded up to multiples. -/
theorem dvd_ceilTo {align : Nat} (h : 0 < align) (v : Nat) : align ∣ ceilTo align v := by
  have hle := Nat.le_of_lt (Nat.mod_lt v h)
  apply Nat.dvd_of_mod_eq_zero
  rw [ceilTo, Nat.add_mod_mod, ← Nat.mod_add_mod v align (align - v % align),
    Nat.add_sub_cancel' hle, Nat.mod_self]

/-- Rounding up gives the least multiple. -/
theorem ceilTo_le {align v m : Nat} (h : 0 < align) (hm : align ∣ m) (hv : v ≤ m) :
    ceilTo align v ≤ m := by
  apply Nat.le_of_lt_add_of_dvd _ (dvd_ceilTo h v) hm
  have := Nat.mod_lt (align - v % align) h
  unfold ceilTo
  omega

namespace Alignment

theorem bytes_pos (a : Alignment) : 0 < a.bytes.toNat := by
  cases a <;> decide

theorem bytes_le (a : Alignment) : a.bytes.toNat ≤ 8 := by
  cases a <;> decide

theorem toNat_bytes_inj {a b : Alignment} (h : a.bytes.toNat = b.bytes.toNat) : a = b := by
  revert h
  cases a <;> cases b <;> decide

end Alignment

namespace ExactSize

/-- The alignment of a cell is the largest of the containers in it. -/
theorem slots_align (cursor align : Nat) (es : List ExactSize) :
    align ≤ (slots cursor align es).2 ∧ (∀ e ∈ es, e.align ≤ (slots cursor align es).2) ∧
      ((slots cursor align es).2 = align ∨ ∃ e ∈ es, e.align = (slots cursor align es).2) := by
  induction es generalizing cursor align with
  | nil => exact ⟨Nat.le_refl _, fun e he => absurd he List.not_mem_nil, .inl rfl⟩
  | cons e es ih =>
    obtain ⟨hle, hall, hsome⟩ := ih (ceilTo e.align cursor + e.bytes) (max align e.align)
    refine ⟨(Nat.le_max_left _ _).trans hle,
      List.forall_mem_cons.2 ⟨(Nat.le_max_right _ _).trans hle, hall⟩, ?_⟩
    rcases hsome with hmax | ⟨e', he', h'⟩
    · rcases max_choice align e.align with h | h
      · exact .inl (hmax.trans h)
      · exact .inr ⟨e, List.mem_cons_self, (hmax.trans h).symm⟩
    · exact .inr ⟨e', List.mem_cons_of_mem _ he', h'⟩

variable {α : Type} {size : α → ExactSize} {start : α → Nat} {l : List α} {cursor : Nat}

/-- Containers lie at rounded positions between the bounds. -/
theorem slotOffsets_mem (h : l.map start = slotOffsets cursor (l.map size)) (align : Nat) :
    ∀ a ∈ l, (∃ v, start a = ceilTo (size a).align v) ∧ cursor ≤ start a ∧
      start a + (size a).bytes ≤ (slots cursor align (l.map size)).1 := by
  induction l generalizing cursor align with
  | nil => exact fun a ha => absurd ha List.not_mem_nil
  | cons b l ih =>
    obtain ⟨hb, hl⟩ : start b = ceilTo (size b).align cursor ∧
        l.map start = slotOffsets (ceilTo (size b).align cursor + (size b).bytes) (l.map size) :=
      List.cons.inj h
    have hceil := le_ceilTo (size b).align cursor
    refine List.forall_mem_cons.2 ⟨⟨⟨cursor, hb⟩, ?_, ?_⟩, fun a ha => ?_⟩
    · exact hb ▸ hceil
    · exact hb ▸ le_slots _ _ _
    · obtain ⟨hround, hle, hend⟩ := ih hl (max align (size b).align) a ha
      exact ⟨hround, by omega, hend⟩

/-- Each container starts after the ones before it end. -/
theorem slotOffsets_pairwise (h : l.map start = slotOffsets cursor (l.map size)) :
    l.Pairwise fun a b => start a + (size a).bytes ≤ start b := by
  induction l generalizing cursor with
  | nil => exact .nil
  | cons b l ih =>
    obtain ⟨hb, hl⟩ : start b = ceilTo (size b).align cursor ∧
        l.map start = slotOffsets (ceilTo (size b).align cursor + (size b).bytes) (l.map size) :=
      List.cons.inj h
    refine .cons (fun a ha => ?_) (ih hl)
    rw [hb]
    exact (slotOffsets_mem hl 1 a ha).2.1

/-- The last container ends where any bound on all of them does, or before. -/
theorem slots_le (h : l.map start = slotOffsets cursor (l.map size)) (align : Nat) {m : Nat}
    (hc : cursor ≤ m) (hm : ∀ a ∈ l, start a + (size a).bytes ≤ m) :
    (slots cursor align (l.map size)).1 ≤ m := by
  induction l generalizing cursor align with
  | nil => exact hc
  | cons b l ih =>
    obtain ⟨hb, hl⟩ : start b = ceilTo (size b).align cursor ∧
        l.map start = slotOffsets (ceilTo (size b).align cursor + (size b).bytes) (l.map size) :=
      List.cons.inj h
    obtain ⟨hend, hrest⟩ := List.forall_mem_cons.1 hm
    exact ih hl _ (hb ▸ hend) hrest

/-- A cell has a multiple of its alignment. -/
theorem cell_dvd (underBits : Bool) (kind : Kind) (es : List ExactSize) :
    (cell underBits kind es).2 ∣ (cell underBits kind es).1 := by
  cases kind with
  | root | dense ds | pointer ds | bitmasked ds | dynamic a dim chunk =>
    exact dvd_ceilTo (slots_align 0 1 es).1 _
  | bitStruct width | bitArray ds width => exact Nat.dvd_refl _
  | place info =>
    unfold cell
    dsimp only
    rcases Nat.eq_zero_or_pos (if underBits then 0 else (info.member.dtype.byteSize.getD 0).toNat)
      with h | h
    · rw [h]
      exact Nat.dvd_zero _
    · rw [Nat.max_eq_left h]

/-- A container has a multiple of its alignment; no cell needs a larger one than a word does. -/
theorem container_dvd (packing : Packing) (kind : Kind) (cells : Nat) {c : Nat × Nat}
    (hc : c.2 ∣ c.1) (hle : c.2 ≤ 8) :
    (container packing kind cells c).2.2 ∣ (container packing kind cells c).1 := by
  cases kind with
  | root | place info => exact hc
  | dense ds => exact Nat.dvd_mul_left_of_dvd hc cells
  | bitmasked ds =>
    change max c.2 8 ∣ _
    rw [Nat.max_eq_right hle]
    exact Nat.dvd_add (dvd_ceilTo (by decide) _) (Nat.dvd_mul_right 8 _)
  | pointer ds => exact Nat.dvd_mul_left 8 cells
  | dynamic a dim chunk => exact ⟨2, rfl⟩
  | bitStruct width | bitArray ds width => exact Nat.dvd_refl _

end ExactSize

/-- The compiled tree has the nodes of the draft, and lays their containers out. -/
structure Layout.LaidOut (t : Layout) (d : Draft) : Prop where
  /-- Nodes keep their numbers, kinds, names, parents, children, depths and index spaces. -/
  nodes : ∀ i : Nat, t.nodes[i]?.map (fun v => (v.id, v.kind, v.name, v.parent, v.children, v.depth,
      v.index)) =
    d.nodes[i]?.map fun n => (i, n.kind, n.name, n.parent, n.children, n.depth, n.index)
  /-- The member table names each place node with its member. -/
  mem_members : ∀ (m : MemberId) (id : NodeId), (m, id) ∈ t.members ↔
    ∃ n info, d.nodes[id]? = some n ∧ n.kind = .place info ∧ info.member.id = m
  /-- It is in the order of the nodes, each of which is listed once. -/
  sorted_members : (t.members.map (·.2)).Pairwise (· < ·)
  /-- The containers in a cell lie at their alignments, in declaration order, inside the cell. -/
  slots : ∀ {p : Layout.Node}, t.Has p → p.type ≠ .place → p.type.isBitLevel = false →
    (t.childNodes p).map (·.id) = p.children ∧
      (∀ c ∈ t.childNodes p, c.align.bytes.toNat ∣ c.offset.toNat ∧
        c.offset.toNat + c.bytes.toNat ≤ p.cellSize.toNat) ∧
      (t.childNodes p).Pairwise fun b c => b.offset.toNat + b.bytes.toNat ≤ c.offset.toNat
  /-- A cell has the largest alignment of its containers. -/
  cellAlign : ∀ {p : Layout.Node}, t.Has p → p.type ≠ .place → p.type.isBitLevel = false →
    (∀ c ∈ t.childNodes p, c.align.bytes.toNat ≤ p.cellAlign.bytes.toNat) ∧
      (p.cellAlign = .one ∨ ∃ c ∈ t.childNodes p, c.align = p.cellAlign)
  /-- No smaller multiple of the alignment holds the containers. -/
  cellSize_le : ∀ {p : Layout.Node}, t.Has p → p.type ≠ .place → p.type.isBitLevel = false →
    ∀ m, p.cellAlign.bytes.toNat ∣ m →
      (∀ c ∈ t.childNodes p, c.offset.toNat + c.bytes.toNat ≤ m) → p.cellSize.toNat ≤ m
  /-- Members in a bit container take no bytes. -/
  below_bits : ∀ {p c : Layout.Node}, t.Has p → p.type.isBitLevel = true → c ∈ t.childNodes p →
    c.type = .place ∧ c.cellSize = 0 ∧ c.bytes = 0 ∧ c.offset = 0
  /-- Sizes are multiples of their alignments. -/
  aligned : ∀ {v : Layout.Node}, t.Has v →
    v.cellAlign.bytes ∈ [1, 2, 4, 8] ∧ v.cellAlign.bytes.toNat ∣ v.cellSize.toNat ∧
      v.align.bytes ∈ [1, 2, 4, 8] ∧ v.align.bytes.toNat ∣ v.bytes.toNat
  /-- A mask lies behind the cells and has a bit for each. -/
  mask : ∀ {v : Layout.Node} {ds : List Division}, t.Has v → v.kind = .bitmasked ds →
    v.cells.toNat = v.index.exactCells ∧ ∃ maskOffset, v.container = .bitmasked maskOffset ∧
      8 ∣ maskOffset.toNat ∧ v.cells.toNat * v.cellSize.toNat ≤ maskOffset.toNat ∧
        maskOffset.toNat ≤ v.bytes.toNat ∧ v.cells.toNat ≤ 8 * (v.bytes.toNat - maskOffset.toNat)
  /-- A chunk holds its link and as many cells as it is declared for, or more. -/
  chunk : ∀ {v : Layout.Node} {axis : Axis} {dim chunk : UInt32}, t.Has v →
    v.kind = .dynamic axis dim chunk → ∃ capacity chunkBytes,
      v.container = .dynamic axis capacity chunkBytes ∧ capacity = t.packing.extent chunk ∧
        chunk.toNat ≤ capacity.toNat ∧ chunkBytes.toNat = 8 + capacity.toNat * v.cellSize.toNat

namespace Layout.CompiledFrom

open ExactSize (Holds)

variable {t : Layout} {d : Draft} {p n : Layout.Node}

theorem agrees (h : t.CompiledFrom d) (hg : d.Grown) (hn : t.Has n) :
    n.Agrees (d.exactSize n.id) := by
  obtain ⟨m, hm, -⟩ := h.node hn
  rw [hg.exactSize_eq hm]
  exact (h.exact hn hm).agrees

/-- The exact sizes of the containers in a cell. -/
theorem map_exactSize (h : t.CompiledFrom d) (hg : d.Grown) (hp : t.Has p) :
    (t.childNodes p).map (fun c => d.exactSize c.id) = p.children.map d.exactSize := by
  rw [← h.map_id_childNodes hg hp, List.map_map]
  rfl

/-- Children lie in a cell where the exact containers do. -/
theorem map_offset (h : t.CompiledFrom d) (hg : d.Grown) (hp : t.Has p) (hk : Holds p.kind) :
    (t.childNodes p).map (·.offset.toNat) =
      ExactSize.slotOffsets 0 ((t.childNodes p).map fun c => d.exactSize c.id) := by
  obtain ⟨m, hm, -, hkp, -, hch, -⟩ := h.node hp
  have hoff := (h.exact hp hm).childOffsets
  rw [← hkp, ← hch, ExactSize.childOffsets, if_pos hk] at hoff
  rw [h.map_exactSize hg hp, ← hoff]
  apply List.ext_getElem?
  intro k
  rw [List.getElem?_map, List.getElem?_map]
  cases hc : (t.childNodes p)[k]? with
  | none =>
    have hlen : p.childOffsets.length = (t.childNodes p).length := by
      have := congrArg List.length hoff
      rw [List.length_map, ExactSize.length_slotOffsets, List.length_map,
        ← h.map_id_childNodes hg hp, List.length_map] at this
      exact this
    rw [List.getElem?_eq_none (hlen ▸ List.getElem?_eq_none_iff.1 hc)]
    rfl
  | some c =>
    have hmem := List.mem_of_getElem? hc
    obtain ⟨j, o, hj, ho, hcoff, -⟩ := h.slot hg hp hmem (by exact hk.1)
    have hjk : j = k := by
      have hnd := (h.branching hg).nodup hp
      obtain ⟨hjlt, hj'⟩ := List.getElem?_eq_some_iff.1 hj
      obtain ⟨hklt, hk'⟩ := List.getElem?_eq_some_iff.1 hc
      exact hnd.getElem_inj_iff.1 (hj'.trans hk'.symm)
    subst hjk
    rw [ho, Option.map_some, Option.map_some, hcoff]

/-- Containers in a cell as the exact sizes have them. -/
theorem slots (h : t.CompiledFrom d) (hg : d.Grown) (hp : t.Has p) (hk : Holds p.kind) :
    (t.childNodes p).map (·.id) = p.children ∧
      (∀ c ∈ t.childNodes p, c.align.bytes.toNat ∣ c.offset.toNat ∧
        c.offset.toNat + c.bytes.toNat ≤ p.cellSize.toNat) ∧
      (t.childNodes p).Pairwise fun b c => b.offset.toNat + b.bytes.toNat ≤ c.offset.toNat := by
  have hoff := h.map_offset hg hp hk
  have hspan {c : Layout.Node} (hc : c ∈ t.childNodes p) := h.agrees hg (h.has_of_mem hc)
  refine ⟨h.map_id_childNodes hg hp, ?_, ?_⟩
  · intro c hc
    obtain ⟨⟨v, hround⟩, -, -⟩ := ExactSize.slotOffsets_mem hoff 1 c hc
    rw [← (hspan hc).align] at hround
    exact ⟨hround ▸ dvd_ceilTo c.align.bytes_pos v, (h.packed hg).slot_le hp hc⟩
  · refine (ExactSize.slotOffsets_pairwise hoff).imp_of_mem ?_
    intro b c hb _ hle
    rw [(hspan hb).bytes]
    exact hle

/-- The cell of a node, from the exact sizes of the containers in it. -/
theorem exact_cell (h : t.CompiledFrom d) (hg : d.Grown) (hp : t.Has p) (hk : Holds p.kind) :
    p.cellAlign.bytes.toNat =
        (ExactSize.slots 0 1 ((t.childNodes p).map fun c => d.exactSize c.id)).2 ∧
      p.cellSize.toNat = ceilTo p.cellAlign.bytes.toNat
        (ExactSize.slots 0 1 ((t.childNodes p).map fun c => d.exactSize c.id)).1 := by
  obtain ⟨m, hm, -, hkp, -, hch, -⟩ := h.node hp
  have hexact := h.exact hp hm
  have halign := hexact.cellAlign
  have hsize := hexact.agrees.cellSize
  rw [ExactSize.ofNode] at hsize
  rw [← hkp, ← hch, ← h.map_exactSize hg hp, ExactSize.cell_of_holds hk] at halign hsize
  rw [halign]
  exact ⟨rfl, hsize⟩

theorem cellAlign (h : t.CompiledFrom d) (hg : d.Grown) (hp : t.Has p) (hk : Holds p.kind) :
    (∀ c ∈ t.childNodes p, c.align.bytes.toNat ≤ p.cellAlign.bytes.toNat) ∧
      (p.cellAlign = .one ∨ ∃ c ∈ t.childNodes p, c.align = p.cellAlign) := by
  have hspan {c : Layout.Node} (hc : c ∈ t.childNodes p) := h.agrees hg (h.has_of_mem hc)
  obtain ⟨halign, -⟩ := h.exact_cell hg hp hk
  obtain ⟨-, hall, hsome⟩ := ExactSize.slots_align 0 1
    ((t.childNodes p).map fun c => d.exactSize c.id)
  rw [← halign] at hall hsome
  constructor
  · intro c hc
    rw [(hspan hc).align]
    exact hall _ (List.mem_map_of_mem hc)
  · refine hsome.imp Alignment.toNat_bytes_inj ?_
    rintro ⟨e, he, hea⟩
    obtain ⟨c, hc, rfl⟩ := List.mem_map.1 he
    exact ⟨c, hc, Alignment.toNat_bytes_inj ((hspan hc).align.trans hea)⟩

/-- A cell is the least multiple of its alignment that holds its containers. -/
theorem cellSize_le (h : t.CompiledFrom d) (hg : d.Grown) (hp : t.Has p) (hk : Holds p.kind)
    {m : Nat} (hm : p.cellAlign.bytes.toNat ∣ m)
    (hall : ∀ c ∈ t.childNodes p, c.offset.toNat + c.bytes.toNat ≤ m) : p.cellSize.toNat ≤ m := by
  obtain ⟨-, hsize⟩ := h.exact_cell hg hp hk
  rw [hsize]
  apply ceilTo_le p.cellAlign.bytes_pos hm
  refine ExactSize.slots_le (h.map_offset hg hp hk) 1 (Nat.zero_le m) ?_
  intro c hc
  rw [← (h.agrees hg (h.has_of_mem hc)).bytes]
  exact hall c hc

theorem aligned (h : t.CompiledFrom d) (hn : t.Has n) :
    n.cellAlign.bytes.toNat ∣ n.cellSize.toNat ∧ n.align.bytes.toNat ∣ n.bytes.toNat := by
  obtain ⟨m, hm, -⟩ := h.node hn
  have hexact := h.exact hn hm
  have hcell := ExactSize.cell_dvd (d.underBits m) m.kind (m.children.map d.exactSize)
  have hle := n.cellAlign.bytes_le
  rw [hexact.cellAlign] at hle ⊢
  rw [hexact.agrees.cellSize, hexact.agrees.align, hexact.agrees.bytes]
  exact ⟨hcell, ExactSize.container_dvd d.packing m.kind m.index.exactCells hcell hle⟩

theorem mask (h : t.CompiledFrom d) (hn : t.Has n) {ds : List Division}
    (hk : n.kind = .bitmasked ds) : n.cells.toNat = n.index.exactCells ∧
      ∃ maskOffset, n.container = .bitmasked maskOffset ∧ 8 ∣ maskOffset.toNat ∧
        n.cells.toNat * n.cellSize.toNat ≤ maskOffset.toNat ∧
          maskOffset.toNat ≤ n.bytes.toNat ∧ n.cells.toNat ≤ 8 * (n.bytes.toNat - maskOffset.toNat) := by
  obtain ⟨m, hm, -, hkm, -, -, hidx, -⟩ := h.node hn
  obtain ⟨⟨hcells, hcell, hbytes, -⟩, -, hcont, -⟩ := h.exact hn hm
  have hkind : m.kind = .bitmasked ds := hkm.symm.trans hk
  rw [ExactSize.ofNode, hkind] at hcells hcell hbytes
  rw [hkind] at hcont
  refine ⟨hidx ▸ hcells, ?_⟩
  cases hc : n.container with
  | bitmasked maskOffset =>
    rw [hc] at hcont
    have hmask : maskOffset.toNat = ceilTo 8 (n.cells.toNat * n.cellSize.toNat) := by
      rw [hcells, hcell]
      exact hcont
    have hwhole : n.bytes.toNat = maskOffset.toNat + 8 * ((n.cells.toNat + 63) / 64) := by
      rw [hbytes, hmask, hcells, hcell]
      rfl
    refine ⟨maskOffset, rfl, ?_, ?_, ?_, ?_⟩
    · rw [hmask]
      exact dvd_ceilTo (by decide) _
    · rw [hmask]
      exact le_ceilTo _ _
    · rw [hwhole]
      exact Nat.le_add_right _ _
    · rw [hwhole, Nat.add_sub_cancel_left]
      omega
  | root | dense | pointer | dynamic axis capacity chunkBytes | bitStruct | bitArray | place =>
    rw [hc] at hcont
    exact hcont.elim

theorem chunk (h : t.CompiledFrom d) (hn : t.Has n) {axis : Axis} {dim chunk : UInt32}
    (hk : n.kind = .dynamic axis dim chunk) : ∃ capacity chunkBytes,
      n.container = .dynamic axis capacity chunkBytes ∧ capacity = t.packing.extent chunk ∧
        chunk.toNat ≤ capacity.toNat ∧ chunkBytes.toNat = 8 + capacity.toNat * n.cellSize.toNat := by
  obtain ⟨m, hm, -, hkm, -⟩ := h.node hn
  obtain ⟨⟨-, hcell, -⟩, -, hcont, -⟩ := h.exact hn hm
  have hkind : m.kind = .dynamic axis dim chunk := hkm.symm.trans hk
  simp only [ExactSize.ofNode] at hcell
  rw [← hcell, hkind] at hcont
  cases hc : n.container with
  | dynamic axis' capacity chunkBytes =>
    rw [hc] at hcont
    obtain ⟨rfl, rfl, hbytes⟩ := hcont
    exact ⟨_, chunkBytes, rfl, by rw [h.packing], d.packing.le_extent chunk, hbytes⟩
  | root | dense | bitmasked maskOffset | pointer | bitStruct | bitArray | place =>
    rw [hc] at hcont
    exact hcont.elim

theorem sorted_members (h : t.CompiledFrom d) : (t.members.map (·.2)).Pairwise (· < ·) := by
  have hids : t.nodes.toList.Pairwise fun v w => v.id < w.id := by
    rw [List.pairwise_iff_getElem]
    intro i j hi hj hij
    have hid (k : Nat) (hk : k < t.nodes.toList.length) : t.nodes.toList[k].id = k := by
      apply h.id_eq
      rw [← Array.getElem?_toList]
      exact List.getElem?_eq_getElem hk
    rw [hid, hid]
    exact hij
  unfold Layout.members
  rw [List.pairwise_map, List.pairwise_filterMap]
  refine hids.imp ?_
  intro v w hvw a ha b hb
  obtain ⟨-, -, rfl⟩ := Option.map_eq_some_iff.1 ha
  obtain ⟨-, -, rfl⟩ := Option.map_eq_some_iff.1 hb
  exact hvw

theorem map_nodes (h : t.CompiledFrom d) (i : Nat) :
    t.nodes[i]?.map (fun v => (v.id, v.kind, v.name, v.parent, v.children, v.depth, v.index)) =
      d.nodes[i]?.map fun n => (i, n.kind, n.name, n.parent, n.children, n.depth, n.index) := by
  cases hv : t.nodes[i]? with
  | none =>
    cases hn : d.nodes[i]? with
    | none => rfl
    | some n =>
      obtain ⟨v, hv'⟩ := h.exists_node hn
      rw [hv] at hv'
      cases hv'
  | some v =>
    obtain ⟨n, hn, hid, hk, hp, hch, hidx, hdepth, hname⟩ := h.node hv
    rw [hn, Option.map_some, Option.map_some, hid, hk, hname, hp, hch, hdepth, hidx]

end Layout.CompiledFrom

theorem Alignment.bytes_mem (a : Alignment) : a.bytes ∈ [1, 2, 4, 8] := by
  cases a <;> decide

/-- Every tree whose exact sizes are words compiles to one that is laid out like it. -/
theorem Draft.Built.laidOut {d : Draft} (h : d.Built) (hw : d.IsWords) (tree : TreeId)
    (compileOnly : Bool) : ∃ t, d.compile tree compileOnly = .ok t ∧ t.LaidOut d := by
  have hg := h.good.grown
  obtain ⟨t, ht, hfrom⟩ := compile_ok hg hw tree compileOnly
  refine ⟨t, ht, ?_⟩
  constructor
  case nodes => exact hfrom.map_nodes
  case mem_members => exact hfrom.mem_members
  case sorted_members => exact hfrom.sorted_members
  case slots =>
    intro p hp hne hb
    exact hfrom.slots hg hp ⟨hb, hne⟩
  case cellAlign =>
    intro p hp hne hb
    exact hfrom.cellAlign hg hp ⟨hb, hne⟩
  case cellSize_le =>
    intro p hp hne hb m hm hall
    exact hfrom.cellSize_le hg hp ⟨hb, hne⟩ hm hall
  case below_bits =>
    -- places below a bit container have no bytes of their own
    intro p c hp hb hc
    obtain ⟨-, -, -, -, hadm, -⟩ := hfrom.child hg hp hc
    obtain ⟨info, hk, -⟩ := hadm.exists_place hb
    obtain ⟨-, hbytes, hoff⟩ := hfrom.below_bits hg hp hc hb
    obtain ⟨hsize, -⟩ := (hfrom.suits_child hg hp hc).place info hk
    exact ⟨by rw [Layout.Node.type, hk]; rfl, hsize ▸ hbytes, hbytes, hoff⟩
  case aligned =>
    intro v hv
    obtain ⟨hcell, hcont⟩ := hfrom.aligned hv
    exact ⟨v.cellAlign.bytes_mem, hcell, v.align.bytes_mem, hcont⟩
  case mask =>
    intro v ds hv hk
    exact hfrom.mask hv hk
  case chunk =>
    intro v axis dim chunk hv hk
    exact hfrom.chunk hv hk

/-- The header of the list lies behind the two addresses of the pointer level. -/
theorem Draft.laidOut_sample : Sample.layout.LaidOut Sample.drafting.draft ∧
    Sample.layout.nodes.toList.map (fun v => (v.offset.toNat, v.bytes.toNat, v.cellSize.toNat)) =
      [(0, 32, 32), (0, 16, 24), (0, 24, 4), (0, 4, 4), (16, 16, 4), (0, 4, 4)] := by
  obtain ⟨t, ht, hlaid⟩ := Sample.built.laidOut Sample.wellSized.isWords 0 false
  have hlayout : Sample.drafting.draft.compile 0 false = .ok Sample.layout :=
    eq_ok_get (by decide +kernel)
  rw [hlayout, Except.ok.injEq] at ht
  subst ht
  exact ⟨hlaid, by decide +kernel⟩

end SparseLayout
