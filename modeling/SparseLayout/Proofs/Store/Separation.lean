import SparseLayout.Proofs.Layout.BitSlot
import SparseLayout.Proofs.Store.Accounts

/-!
Where cells lie in memory. Active cells lie in the root's container or in blocks that are held,
values have bytes or bits of their own, and none lies where containers keep their masks,
addresses, list headers and links. No operation leaves the segments.
-/

namespace SparseLayout

open Layout (Node Datum)
open Layout.Node (addressSlot number)

variable {t : Layout} {m n : Node} {p q x : Position} {idx idx' : List Int32} {a a' b : Address}
  {c d : Coords} {len len' start : Nat}

/-- A place of a scalar of whole bytes. -/
def Layout.Node.IsScalar (n : Node) : Prop :=
  ∃ info, n.kind = .place info ∧ info.member.dtype.isQuant = false

/-- The region of a cell that no node owns is that of the root. -/
theorem Position.region_eq_root (h : x.region.owner? = none) : x.region = .root := by
  induction x with
  | nil => rfl
  | cons y x ih =>
    obtain ⟨n, k⟩ := y
    rcases n.kinds with hc | ⟨axis, cap, bytes, hc⟩ | hi
    · rw [Layout.region_pointer hc] at h
      cases h
    · rw [Layout.region_dynamic hc] at h
      cases h
    · rw [Layout.region_inline hi] at h ⊢
      exact ih h

theorem Layout.WellFormed.dynamic_container (ht : t.WellFormed) (hn : t.Has n)
    (htype : n.type = .dynamic) : ∃ axis cap bytes, n.container = .dynamic axis cap bytes := by
  rw [ht.type_eq hn] at htype
  cases hc : n.container <;> simp_all [Container.type]

namespace Store

theorem Holds.blockBytes {s : Store} {slot : Address} {blocks : List Address}
    (h : s.Holds n slot blocks) : n.blockBytes?.isSome := by
  unfold Holds at h
  unfold Layout.Node.blockBytes?
  cases hc : n.container <;> simp_all

/-- The cell of a node at an index expression is active and starts at this address. -/
def CellAt (s : Store) (t : Layout) (n : Node) (idx : List Int32) (a : Address) : Prop :=
  t.Has n ∧ ∃ c, n.resolve idx = .ok c ∧ s.address t n c = .ok a

/-- The bytes from `a` on hold the value of an active place, or are the word of a bit container in
an active cell. -/
def WordAt (s : Store) (t : Layout) (n : Node) (idx : List Int32) (a : Address) (len : Nat) : Prop :=
  t.Has n ∧ ∃ c, n.resolve idx = .ok c ∧ s.address t n c = .ok a ∧
    (n.type.isBitLevel = true ∧ len = n.cellSize.toNat ∨
      n.type = .place ∧ ∃ slot, t.valueSlot n c = .ok slot ∧ len = slot.bytes)

/-- A quantized integer in an active cell has these bits of the word from `a` on. -/
def BitsAt (s : Store) (t : Layout) (n : Node) (idx : List Int32) (a : Address) (len : Nat)
    (offset : UInt32) (bits : Nat) : Prop :=
  t.Has n ∧ ∃ c info signed width, n.resolve idx = .ok c ∧ s.address t n c = .ok a ∧
    n.kind = .place info ∧ info.member.dtype = .quantInt width signed ∧ bits = width.toNat ∧
      t.valueSlot n c = .ok ⟨len, some offset⟩

/-- A container of a node in an active cell. -/
def ContainerAt (s : Store) (t : Layout) (n : Node) (slot : Address) : Prop :=
  t.Has n ∧ n.id ≠ 0 ∧ ∃ slots, s.slots (t.branch n.id) s.root = .ok slots ∧ slot ∈ slots

/-- A block that is held in an active cell. -/
def LiveBlock (s : Store) (t : Layout) (n : Node) (b : Address) : Prop :=
  ∃ slot blocks, s.ContainerAt t n slot ∧ s.Holds n slot blocks ∧ b ∈ blocks

/-- Bytes that the containers in active cells keep besides their cells. -/
inductive Keeps (s : Store) (t : Layout) : Nat → Nat → Prop
  | mask {n : Node} {slot : Address} {maskOffset w : UInt64} (hs : s.ContainerAt t n slot)
    (hc : n.container = .bitmasked maskOffset) (hw : w.toNat < (n.cells.toNat + 63) / 64) :
    Keeps s t (maskWord slot maskOffset (w * 64)).toNat 8
  | entry {n : Node} {slot : Address} {lin : UInt64} (hs : s.ContainerAt t n slot)
    (hc : n.container = .pointer) (hl : lin.toNat < n.cells.toNat) :
    Keeps s t (addressSlot slot lin).toNat 8
  | header {n : Node} {slot : Address} (hs : s.ContainerAt t n slot) (hc : n.type = .dynamic) :
    Keeps s t slot.toNat 16
  | link {n : Node} {b : Address} (hb : s.LiveBlock t n b) (hc : n.type = .dynamic) :
    Keeps s t b.toNat 8

/-- The bytes lie in the container of the root, or in a block that is held. -/
def InContainer (s : Store) (t : Layout) (start len : Nat) : Prop :=
  s.root.toNat ≤ start ∧ start + len ≤ s.root.toNat + t.rootNode.cellSize.toNat ∨
    ∃ n b blocks, s.LiveBlock t n b ∧ s.blocks[n.id]? = some (some blocks) ∧
      b.toNat ≤ start ∧ start + len ≤ b.toNat + blocks.blockBytes

/-- Active cells do not get in each other's way, nor in the way of what containers keep. -/
structure Separated (s : Store) (t : Layout) : Prop where
  /-- A cell lies in one segment, in the root's container or in a block. -/
  inside : ∀ {n idx a}, s.CellAt t n idx a → 0 < n.cellSize.toNat →
    s.pool.holds a n.cellSize.toNat = true ∧ s.InContainer t a.toNat n.cellSize.toNat
  /-- A scalar shares no byte with another one, or with the word of a bit container. -/
  scalars : ∀ {m n idx idx' a a' len len'}, m.IsScalar → s.WordAt t m idx a len →
    s.WordAt t n idx' a' len' → (m, idx) ≠ (n, idx') → Apart a.toNat len a'.toNat len'
  /-- The bits of a quantized integer lie in its word. -/
  bits_le : ∀ {n idx a}, n.isQuantInt → s.CellAt t n idx a → ∃ len offset bits,
    s.BitsAt t n idx a len offset bits ∧ offset.toNat + bits ≤ 8 * len
  /-- Two quantized integers share no bit. -/
  bits_apart : ∀ {m n idx idx' a a' len len' offset offset' bits bits'},
    s.BitsAt t m idx a len offset bits → s.BitsAt t n idx' a' len' offset' bits' →
      (m, idx) ≠ (n, idx') → Apart a.toNat len a'.toNat len' ∨
        a = a' ∧ len = len' ∧ Apart offset.toNat bits offset'.toNat bits'
  /-- No value lies where a container keeps something. -/
  kept : ∀ {n idx a len start len'}, s.WordAt t n idx a len → s.Keeps t start len' →
    Apart a.toNat len start len'

namespace Represents

variable {s : Store} {g : Contents} {slot : Address}

section

variable (ht : t.WellFormed) (h : s.Represents t g)

include ht h

theorem active_of_address (hn : t.Has n) (ha : s.address t n c = .ok a) :
    g.Active t (t.place n c n) ∧ a.toNat = g.cellStart (t.place n c n) := by
  have hact : g.Active t (t.place n c n) := by
    by_contra hact
    rw [h.address_of_not_active ht hn hact] at ha
    cases ha
  obtain ⟨a', ha', hstart⟩ := h.address_of_active ht hact
  rw [ha, Except.ok.injEq] at ha'
  exact ⟨hact, ha' ▸ hstart⟩

/-- The containers of a node in active cells are where the contents have them. -/
theorem of_containerAt (hs : s.ContainerAt t n slot) : ∃ q, g.Active t q ∧
    n ∈ t.childNodes (t.nodeAt q) ∧ slot.toNat = g.cellStart q + n.offset.toNat := by
  obtain ⟨hn, h0, slots, hslots, hmem⟩ := hs
  obtain ⟨p, hp, hnp⟩ := ht.exists_parent hn h0
  obtain ⟨qs, -, hqs, -⟩ := h.finds_of_slots ht hp hnp hslots
  obtain ⟨i, hi, rfl⟩ := List.getElem_of_mem hmem
  obtain ⟨hq, -, hnq, ha⟩ := (List.forall₂_iff_get.1 hqs).2 i hi (hqs.length_eq ▸ hi)
  exact ⟨_, hq, hnq, ha⟩

/-- Blocks that are held are those that were handed out. -/
theorem liveBlock_iff : s.LiveBlock t n b ↔ ∃ r, g.base r = some b ∧ r.owner? = some n := by
  constructor
  · rintro ⟨slot, blocks, hs, hheld, hmem⟩
    obtain ⟨q, hq, hnq, hslot⟩ := h.of_containerAt ht hs
    have hb := hheld.blockBytes
    obtain ⟨as, rs, has, -, hl⟩ := h.holds ht hq hnq hslot hb
    obtain ⟨r, hr, hbase⟩ := hl.mem (hheld.unique has ▸ hmem)
    have hhome : r.home? = some (q, n) := ((hl.mem_iff r).1 hr).2
    exact ⟨r, hbase, by rw [Region.owner_eq, hhome]; rfl⟩
  · rintro ⟨r, hr, ho⟩
    obtain ⟨q, -, -, hq, hnq, -⟩ := h.home_of_owner (Option.isSome_of_eq_some hr) ho
    have hn := ht.has_child hnq
    have hb := h.blockBytes_of_owner (Option.isSome_of_eq_some hr) ho
    obtain ⟨slots, held, qs, rs, hslots, hheld, -, -, hl⟩ := h.exists_held ht hn hb
    have hmem : r ∈ rs := (hl.mem_iff r).2 ⟨Option.isSome_of_eq_some hr, ho⟩
    obtain ⟨blocks, hblocks, hbmem⟩ := List.mem_flatten.1 (hl.mem_address hmem hr)
    obtain ⟨j, hj, rfl⟩ := List.getElem_of_mem hblocks
    have hj' : j < slots.length := hheld.length_eq ▸ hj
    have h0 : n.id ≠ 0 := by
      intro h0
      have hlt := ht.id_lt (hq.locates.has ht) hnq
      rw [h0] at hlt
      exact absurd hlt (Nat.not_lt_zero _)
    exact ⟨slots[j], held[j], ⟨hn, h0, slots, hslots, List.getElem_mem hj'⟩,
      (List.forall₂_iff_get.1 hheld).2 j hj' hj, hbmem⟩

/-- A cell lies in one segment, in the root's container or in a block. -/
theorem inside (hn : t.Has n) (ha : s.address t n c = .ok a) (hpos : 0 < n.cellSize.toNat) :
    s.pool.holds a n.cellSize.toNat = true ∧ s.InContainer t a.toNat n.cellSize.toNat := by
  obtain ⟨hact, hstart⟩ := h.active_of_address ht hn ha
  have hnode := ht.nodeAt_place n c hn
  generalize t.place n c n = x at hact hstart hnode
  obtain ⟨b, hb⟩ := Option.isSome_iff_exists.1 (hact.base_isSome h.sound)
  rw [Contents.cellStart, Contents.start_of_base hb] at hstart
  have hle := ht.offset_le_regionSize hact.locates
  rw [hnode] at hle
  constructor
  · have hcov := h.covers_region (hact.base_isSome h.sound)
    rw [Contents.start_of_base hb] at hcov
    refine Pool.holds_of_covers (hcov.part ?_ ?_ ?_ h.owns.valid) h.owns.valid <;> omega
  · -- a region without an owner is that of the root; the others are blocks in use
    cases ho : x.region.owner? with
    | none =>
      left
      have hr := Position.region_eq_root ho
      have hin := ht.within_append (p := []) (r := x) (by rw [List.append_nil]; exact hact.locates)
        (by rw [List.append_nil]; exact hr)
      rw [List.append_nil] at hin
      have h2 := hin.2
      rw [hnode] at h2
      change _ ≤ 0 + t.rootNode.cellSize.toNat at h2
      rw [hr] at hb
      obtain rfl : s.root = b := by
        rw [← h.root_eq]
        exact Option.some.inj hb
      omega
    | some m =>
      right
      have hlive := (h.liveBlock_iff ht).2 ⟨_, hb, ho⟩
      obtain ⟨q, k, hhome, hq, hmq, -⟩ := h.home_of_owner (Option.isSome_of_eq_some hb) ho
      have hm := ht.has_child hmq
      obtain ⟨blocks, hblocks, hbytes, -, -⟩ := h.owns.blocks hm (by
        obtain ⟨slot, held, -, hheld, -⟩ := hlive
        exact hheld.blockBytes)
      rw [regionSize_of_owner ho] at hle
      exact ⟨m, b, blocks, hlive, hblocks, by omega, by omega⟩

/-- Ranges of two containers that hold no cell lie apart. -/
theorem clear_apart {u len v len' : Nat} (hp : g.Active t p) (hn : n ∈ t.childNodes (t.nodeAt p))
    (hq : g.Active t q) (hm : m ∈ t.childNodes (t.nodeAt q)) (hne : (p, n) ≠ (q, m))
    (hu : n.Clear u len) (hv : m.Clear v len') (hwp : ¬ (t.nodeAt p).isWord)
    (hwq : ¬ (t.nodeAt q).isWord) :
    Apart (g.cellStart p + n.offset.toNat + u) len (g.cellStart q + m.offset.toNat + v) len' := by
  by_cases hreg : p.region = q.region
  · have hap := ht.clear_apart hp.locates hn hq.locates hm hne hu hv hwp hwq hreg
    unfold Apart Contents.cellStart at *
    rw [hreg]
    omega
  · obtain ⟨a, ha⟩ := Option.isSome_iff_exists.1 (hp.base_isSome h.sound)
    obtain ⟨b, hb⟩ := Option.isSome_iff_exists.1 (hq.base_isSome h.sound)
    have hap := h.owns.apart (P := .region p.region) (Q := .region q.region) ha hb
      (by simpa using hreg)
    have hsp := ht.slot_le (hp.locates.has ht) hn
    have hsq := ht.slot_le (hq.locates.has ht) hm
    have hlp := ht.offset_le_regionSize hp.locates
    have hlq := ht.offset_le_regionSize hq.locates
    have hu' := hu.1
    have hv' := hv.1
    rw [Contents.cellStart, Contents.cellStart, Contents.start_of_base ha,
      Contents.start_of_base hb]
    simp only [Piece.size] at hap
    exact hap.mono (by omega) (by omega) (by omega) (by omega)

/-- The bytes of a value are those of a word: of its place, or of a bit container. -/
theorem of_wordAt (hs : s.WordAt t n idx a len) : ∃ q m, g.Active t q ∧
    m ∈ t.childNodes (t.nodeAt q) ∧ m.HasPart .word ∧
      a.toNat = g.datumStart (.part q m .word) ∧ len = (Datum.part q m .word).size ∧
        ∃ c, n.resolve idx = .ok c ∧ (n.type.isBitLevel = true ∧ m = n ∨
          n.type = .place ∧ (q, m) = wordKey n (t.place n c n).tail) := by
  obtain ⟨hn, c, hc, ha, hcases⟩ := hs
  obtain ⟨hact, hstart⟩ := h.active_of_address ht hn ha
  have hne : n.kind ≠ .root := by
    intro hk
    rcases hcases with ⟨hb, -⟩ | ⟨hp, -⟩
    · simp [Node.type, hk, Kind.type, NodeType.isBitLevel] at hb
    · simp [Node.type, hk, Kind.type] at hp
  obtain ⟨p, hp, hnp⟩ := ht.ne_root_of_kind hn hne
  have hnode := ht.nodeAt_place n c hp
  rcases hcases with ⟨hb, rfl⟩ | ⟨hplace, slot, hslot, rfl⟩
  · -- a bit container is its own word: one cell, inline, as wide as the container
    obtain ⟨width, -, -, hbytes, -⟩ := ht.kind_of_isBitLevel hn hb
    have hcon := (ht.typed hn).isBitLevel_iff.1 hb
    have hword : n.isWord := hcon.imp_right Or.inl
    have hsize : n.bytes = n.cellSize := by
      have := ht.sized hn
      rcases hcon with hcon | hcon <;> simpa [Node.Sized, hcon] using this
    have hinline : n.isInline := by rcases hcon with hcon | hcon <;> simp [Node.isInline, hcon]
    have hnum : number n n c = 0 := by rcases hcon with hcon | hcon <;> simp [number, hcon]
    rw [ht.place_child n c hp hnp] at hact hstart
    obtain ⟨hq, hnq, -⟩ := id hact
    have hpos : 0 < n.bytes.toNat := by
      obtain ⟨w, hw⟩ : ∃ w, n.kind.wordBits? = some w := by
        obtain ⟨w, hk | ⟨ds, hk⟩, -⟩ := ht.kind_of_isBitLevel hn hb <;> exact ⟨w, by rw [hk]; rfl⟩
      exact (ht.word_bytes hn hw hcon).2
    refine ⟨_, n, hq, hnq, ⟨hword, hpos⟩, ?_, ?_, c, hc, Or.inl ⟨hb, rfl⟩⟩
    · rw [hstart, Contents.cellStart, Layout.region_inline hinline, Layout.offset_inline hinline,
        hnum]
      simp only [Contents.datumStart, Datum.region, Datum.offset, Node.partOffset]
      omega
    · exact congrArg UInt64.toNat hsize.symm
  · obtain ⟨info, hk⟩ : ∃ info, n.kind = .place info := by
      unfold Node.type Kind.type at hplace
      cases hk : n.kind <;> simp_all
    rw [ht.place_of_place hp hnp hk] at hact hstart
    obtain ⟨hdatum, hds⟩ := hact.word ht h.sound hk
    obtain ⟨slot', hslot', hbytes⟩ := ht.valueSlot_eq hact.locates hk c
    rw [hslot, Except.ok.injEq] at hslot'
    subst hslot'
    obtain ⟨hl, hmem, hpart⟩ := hdatum.1
    refine ⟨_, _, ?_, hmem, hpart, hstart.trans hds.symm, hbytes, c, hc,
      Or.inr ⟨hplace, by rw [ht.tail_place hp hnp]⟩⟩
    -- the word is in the cell around the place, or around the bit container of the place
    rcases ht.wordKey_cases hact.locates with hkey | ⟨b, hkey, -⟩
    · rw [hkey]
      exact hact.1
    · have hq := hact.1
      rw [hkey] at hq
      exact hq.1

/-- The word of a scalar is its own. -/
theorem of_wordAt_scalar (hs : s.WordAt t m idx a len) (hm : m.IsScalar) : ∃ p c,
    t.Has p ∧ m ∈ t.childNodes p ∧ p.type.isBitLevel = false ∧ m.resolve idx = .ok c ∧
      g.HasDatum t (.part (t.place m c p) m .word) ∧
        a.toNat = g.datumStart (.part (t.place m c p) m .word) ∧
          len = (Datum.part (t.place m c p) m .word).size := by
  obtain ⟨info, hk, hquant⟩ := hm
  obtain ⟨p, hp, hmp⟩ := ht.ne_root_of_kind hs.1 (by simp [hk])
  have hb : p.type.isBitLevel = false := by
    rw [Bool.eq_false_iff]
    intro hb
    exact Node.not_isWord_of_scalar ht hp hmp hk hquant
      (((ht.typed hp).isBitLevel_iff.1 hb).imp_right Or.inl)
  obtain ⟨q, k, hq, hkq, hpart, ha, hlen, c, hc, hcase⟩ := h.of_wordAt ht hs
  have hkey : (q, k) = (t.place m c p, m) := by
    rcases hcase with ⟨hbit, -⟩ | ⟨-, hkey⟩
    · simp [Node.type, hk, Kind.type, NodeType.isBitLevel] at hbit
    · rw [hkey, ht.tail_place hp hmp, ht.wordKey_place hp hb]
  obtain ⟨rfl, rfl⟩ := Prod.mk.inj hkey
  exact ⟨p, c, hp, hmp, hb, hc, hq.hasDatum h.sound hkq hpart, ha, hlen⟩

/-- A scalar shares no byte with another value. -/
theorem scalars_apart (hm : m.IsScalar) (hs : s.WordAt t m idx a len)
    (hs' : s.WordAt t n idx' a' len') (hne : (m, idx) ≠ (n, idx')) :
    Apart a.toNat len a'.toNat len' := by
  obtain ⟨p, c, hp, hmp, hb, hc, hdatum, ha, hlen⟩ := h.of_wordAt_scalar ht hs hm
  obtain ⟨q, k, hq, hkq, hpart, ha', hlen', d, hd, hcase⟩ := h.of_wordAt ht hs'
  obtain ⟨info, hk, -⟩ := hm
  rw [ha, hlen, ha', hlen']
  refine h.apart ht hdatum (hq.hasDatum h.sound hkq hpart) ?_
  intro he
  obtain ⟨rfl, rfl⟩ : t.place m c p = q ∧ m = k := by simpa using he
  rcases hcase with ⟨hbit, rfl⟩ | ⟨hplace, hkey⟩
  · simp [Node.type, hk, Kind.type, NodeType.isBitLevel] at hbit
  · -- the word is that of the place itself, and the place has one cell there
    obtain ⟨p', hp', hnp'⟩ := ht.ne_root_of_kind hs'.1 (by
      intro hroot
      simp [Node.type, hroot, Kind.type] at hplace)
    rw [ht.tail_place hp' hnp'] at hkey
    cases hb' : p'.type.isBitLevel with
    | true =>
      obtain ⟨q', -, hq'⟩ := ht.place_of_bits hp' hb' n n d
      rw [hq', Prod.mk.injEq] at hkey
      rw [← hkey.2] at hb'
      simp [Node.type, hk, Kind.type, NodeType.isBitLevel] at hb'
    | false =>
      rw [ht.wordKey_place hp' hb'] at hkey
      obtain ⟨htail, rfl⟩ := Prod.mk.inj hkey
      obtain rfl := ht.parent_unique hp hp' hmp hnp'
      have hplace : t.place m c m = t.place m d m := by
        rw [ht.place_of_place hp hmp hk, ht.place_of_place hp hmp hk, htail]
      obtain ⟨hadr, hcw⟩ := ht.of_resolve hs.1 hc
      obtain ⟨-, hdw⟩ := ht.of_resolve hs.1 hd
      have hcd := ht.cell_inj hp hmp hk hadr hcw hdw hplace (by simp [hb])
      subst hcd
      exact hne (by rw [ht.resolve_inj hs.1 hc hd])

/-- Where the bits of a quantized integer lie. -/
theorem of_bitsAt {offset : UInt32} {bits : Nat} (hs : s.BitsAt t n idx a len offset bits) :
    ∃ p c q, t.Has p ∧ n ∈ t.childNodes p ∧ p.type.isBitLevel = true ∧ n.isQuantInt ∧
      n.resolve idx = .ok c ∧ t.place n c p = (p, 0) :: q ∧ g.HasDatum t (.part q p .word) ∧
        a.toNat = g.datumStart (.part q p .word) ∧ len = p.bytes.toNat ∧
          offset.toNat = n.bitRange.1 + n.element p c * bits ∧ bits = n.bitRange.2 := by
  obtain ⟨hn, c, info, signed, width, hc, ha, hk, hd, hbits, hslot⟩ := hs
  have hquant : n.isQuantInt := ⟨info, width, signed, hk, hd⟩
  obtain ⟨p, hp, hnp⟩ := ht.ne_root_of_kind hn (by simp [hk])
  have hb := ht.isBitLevel_of_quantInt hp hnp hquant
  obtain ⟨offset', hslot', hoff, -, -⟩ := ht.valueSlot_bits hp hnp hquant c
  rw [hslot, Except.ok.injEq, ValueSlot.mk.injEq, Option.some.injEq] at hslot'
  obtain ⟨hlen, rfl⟩ := hslot'
  have hrange : bits = n.bitRange.2 := hbits.trans (Layout.quantInt_bits hk hd).1.symm
  have hword : s.WordAt t n idx a len :=
    ⟨hn, c, hc, ha, Or.inr ⟨by simp [Node.type, hk, Kind.type], _, hslot, rfl⟩⟩
  obtain ⟨q, m, hq, hmq, hpart, hstart, -, d, hd, hcase⟩ := h.of_wordAt ht hword
  rw [hc, Except.ok.injEq] at hd
  subst hd
  rcases hcase with ⟨hbit, -⟩ | ⟨-, hkey⟩
  · simp [Node.type, hk, Kind.type, NodeType.isBitLevel] at hbit
  · obtain ⟨q', hplace, hkey'⟩ := ht.place_of_bits hp hb n n c
    rw [ht.tail_place hp hnp, hkey', Prod.mk.injEq] at hkey
    obtain ⟨rfl, rfl⟩ := hkey
    exact ⟨m, c, q, hp, hnp, hb, hquant, hc, hplace, hq.hasDatum h.sound hmq hpart, hstart, hlen,
      by rw [hoff, hrange], hrange⟩

omit h in
/-- The bits of a quantized integer lie in its word. -/
theorem bits_le (hq : n.isQuantInt) (hs : s.CellAt t n idx a) : ∃ len offset bits,
    s.BitsAt t n idx a len offset bits ∧ offset.toNat + bits ≤ 8 * len := by
  obtain ⟨hn, c, hc, ha⟩ := hs
  obtain ⟨info, width, signed, hk, hd⟩ := id hq
  obtain ⟨p, hp, hnp⟩ := ht.ne_root_of_kind hn (by simp [hk])
  obtain ⟨offset, hslot, -, hle, -⟩ := ht.valueSlot_bits hp hnp hq c
  rw [(Layout.quantInt_bits hk hd).1] at hle
  exact ⟨_, offset, _, ⟨hn, c, info, signed, width, hc, ha, hk, hd, rfl, hslot⟩, hle⟩

/-- Two quantized integers share no bit. -/
theorem bits_apart {offset offset' : UInt32} {bits bits' : Nat}
    (hs : s.BitsAt t m idx a len offset bits) (hs' : s.BitsAt t n idx' a' len' offset' bits')
    (hne : (m, idx) ≠ (n, idx')) : Apart a.toNat len a'.toNat len' ∨
      a = a' ∧ len = len' ∧ Apart offset.toNat bits offset'.toNat bits' := by
  have hm := hs.1
  obtain ⟨p, c, q, hp, hmp, hb, hqm, hc, hplace, hdatum, ha, hlen, hoff, hbits⟩ :=
    h.of_bitsAt ht hs
  obtain ⟨p', d, q', hp', hnp', -, hqn, hd, hplace', hdatum', ha', hlen', hoff', hbits'⟩ :=
    h.of_bitsAt ht hs'
  by_cases he : Datum.part q p .word = Datum.part q' p' .word
  · right
    obtain ⟨rfl, rfl⟩ : q = q' ∧ p = p' := by simpa using he
    refine ⟨Address.ext_toNat (ha.trans ha'.symm), hlen.trans hlen'.symm, ?_⟩
    rw [hoff, hoff', hbits, hbits']
    refine ht.bits_apart hp hmp hnp' hqm hqn ?_
    by_contra hsame
    obtain ⟨rfl, helem⟩ : m = n ∧ m.element p c = n.element p d := by
      simpa only [not_or, not_not] using hsame
    obtain ⟨info, _, _, hk, -⟩ := id hqm
    obtain ⟨hadr, hcw⟩ := ht.of_resolve hm hc
    obtain ⟨-, hdw⟩ := ht.of_resolve hm hd
    have hcell : t.place m c m = t.place m d m := by
      rw [ht.place_of_place hp hmp hk, ht.place_of_place hp hmp hk, hplace, hplace']
    have hcd := ht.cell_inj hp hmp hk hadr hcw hdw hcell fun _ => helem
    subst hcd
    exact hne (by rw [ht.resolve_inj hm hc hd])
  · left
    rw [ha, ha', hlen, hlen']
    exact h.apart ht hdatum hdatum' he

/-- No value lies where a container keeps something. -/
theorem kept_apart {start : Nat} (hs : s.WordAt t n idx a len) (hk : s.Keeps t start len') :
    Apart a.toNat len start len' := by
  obtain ⟨q, m, hq, hmq, hpart, ha, hlen, -⟩ := h.of_wordAt ht hs
  have hword := hq.hasDatum h.sound hmq hpart
  rw [ha, hlen]
  cases hk with
  | @mask k slot maskOffset w hslot hc hw =>
    obtain ⟨x, hx, hkx, hstart⟩ := h.of_containerAt ht hslot
    have hlin := k.toNat_maskCell hw
    rw [UInt64.ofNat_toNat] at hlin
    have hw' : (w * 64).toNat / 64 = w.toNat := by omega
    have hmask : k.HasPart (.mask w.toNat) := ⟨⟨_, hc⟩, hw⟩
    rw [h.toNat_maskWord ht hx hkx hstart hc (by rw [hw']; exact hw), hw']
    exact h.apart ht hword (hx.hasDatum h.sound hkx hmask) (by simp)
  | @entry k slot lin hslot hc hl =>
    obtain ⟨x, hx, hkx, hstart⟩ := h.of_containerAt ht hslot
    rw [h.toNat_addressSlot ht hx hkx hstart hc hl]
    exact h.apart ht hword (hx.hasDatum h.sound hkx (f := .entry lin.toNat) ⟨hc, hl⟩) (by simp)
  | @header k slot hslot htype =>
    -- a header is two data, so it is set apart as the whole of its container
    obtain ⟨x, hx, hkx, hstart⟩ := h.of_containerAt ht hslot
    obtain ⟨axis, cap, bytes, hc⟩ := ht.dynamic_container (ht.has_child hkx) htype
    have hbytes : k.bytes.toNat = 16 := by
      have hsized := ht.sized (ht.has_child hkx)
      simp only [Node.Sized, hc] at hsized
      exact hsized.1
    have hclear := Node.clear_of_not_inline (n := k) (by simp [Node.isInline, hc])
    rw [hbytes] at hclear
    have hne : (q, m) ≠ (x, k) := by
      rintro he
      obtain ⟨-, rfl⟩ := Prod.mk.inj he
      simp [Node.HasPart, Node.isWord, hc] at hpart
    have hap := h.clear_apart ht hq hmq hx hkx hne (ht.part_clear (ht.has_child hmq) hpart) hclear
      (ht.not_isWord_of_datum hword.1) (ht.not_isWord_of_bytes hx.locates hkx (by omega))
    rw [hstart]
    simpa only [Contents.datumStart, Contents.cellStart, Datum.region, Datum.offset, Datum.size,
      Nat.add_assoc, Nat.add_zero] using hap
  | @link k b hb htype =>
    obtain ⟨r, hr, ho⟩ := (h.liveBlock_iff ht).1 hb
    obtain ⟨x, i, hhome, hx, hkx, -⟩ := h.home_of_owner (Option.isSome_of_eq_some hr) ho
    obtain ⟨axis, cap, bytes, hc⟩ := ht.dynamic_container (ht.has_child hkx) htype
    -- a block of a dynamic node is a chunk: the root has no owner, pointer blocks another one
    cases r with
    | root => cases hhome
    | block y =>
      cases y with
      | nil => cases hhome
      | cons z y =>
        obtain ⟨k', j⟩ := z
        cases hhome
        obtain ⟨-, -, -, hpointer⟩ := h.sound.block_on (Option.isSome_of_eq_some hr)
        rw [hc] at hpointer
        cases hpointer
    | chunk y k' j =>
      cases hhome
      have hlink : g.HasDatum t (.link x k j) :=
        ⟨⟨hx.locates, hkx, axis, cap, bytes, hc⟩, Option.isSome_of_eq_some hr⟩
      have hstart : g.datumStart (.link x k j) = b.toNat :=
        (Nat.add_zero _).trans (Contents.start_of_base hr)
      rw [← hstart]
      exact h.apart ht hword hlink (by simp)

theorem separated : s.Separated t where
  inside hs hpos := by
    obtain ⟨hn, c, -, ha⟩ := hs
    exact h.inside ht hn ha hpos
  scalars hm hs hs' hne := h.scalars_apart ht hm hs hs' hne
  bits_le hq hs := bits_le ht hq hs
  bits_apart hs hs' hne := h.bits_apart ht hs hs' hne
  kept hs hk := h.kept_apart ht hs hk

end

end Represents

variable {s₀ : Store} {calls : List Call}

/-- After any run, cells do not get in each other's way, and no operation of the run has left the
segments, nor does looking up the address of a cell. -/
theorem session_separated (h : t.Starts s₀) (hc : t.Calls calls) :
    (s₀.session t calls).2.Separated t ∧ .error .outside ∉ (s₀.session t calls).1 ∧
      ∀ n c, t.Has n → (s₀.session t calls).2.address t n c ≠ .error .outside := by
  have ht := h.wellFormed
  obtain ⟨rs, v, -, hres, g, hg, -, -⟩ := h.shows.session ht hc
  refine ⟨hg.separated ht, ?_, ?_⟩
  · rw [hres, List.mem_map]
    rintro ⟨r, -, hr⟩
    cases r <;> cases hr
  · intro n c hn
    by_cases hact : g.Active t (t.place n c n)
    · obtain ⟨a, ha, -⟩ := hg.address_of_active ht hact
      rw [ha]
      exact fun he => by cases he
    · rw [hg.address_of_not_active ht hn hact]
      exact fun he => by cases he

/-- Two active cells of a tree with pointer, bitmasked and list levels lie apart. -/
theorem session_separated_sample :
    let s := Sample.store.session Sample.layout [⟨Sample.node 3, .write [1, 3] (.int 42)⟩,
      ⟨Sample.node 5, .write [2] (.int 1)⟩]
    s.2.Separated Sample.layout ∧ .error .outside ∉ s.1 ∧
      ∃ a b, s.2.CellAt Sample.layout (Sample.node 3) [1, 3] a ∧
        s.2.WordAt Sample.layout (Sample.node 3) [1, 3] a 4 ∧
          s.2.WordAt Sample.layout (Sample.node 5) [2] b 4 ∧ Apart a.toNat 4 b.toNat 4 := by
  intro s
  have hc : Sample.layout.Calls [⟨Sample.node 3, .write [1, 3] (.int 42)⟩,
      ⟨Sample.node 5, .write [2] (.int 1)⟩] := by
    unfold Layout.Calls
    decide +kernel
  obtain ⟨hsep, hout, -⟩ := session_separated Sample.starts hc
  have hx : Sample.layout.Has (Sample.node 3) := by decide +kernel
  have hy : Sample.layout.Has (Sample.node 5) := by decide +kernel
  have ha := eq_ok_get (r := s.2.address Sample.layout (Sample.node 3) Sample.cell)
    (by decide +kernel)
  have hd := eq_ok_get (r := (Sample.node 5).resolve [2]) (by decide +kernel)
  have hb := eq_ok_get (r := s.2.address Sample.layout (Sample.node 5) _)
    (show (s.2.address Sample.layout (Sample.node 5) (((Sample.node 5).resolve [2]).toOption.get
      (by decide +kernel))).toOption.isSome = true by decide +kernel)
  have hwa : s.2.WordAt Sample.layout (Sample.node 3) [1, 3] _ 4 :=
    ⟨hx, Sample.cell, eq_ok_get _, ha, Or.inr ⟨by decide +kernel, ⟨4, none⟩, by decide +kernel, rfl⟩⟩
  have hwb : s.2.WordAt Sample.layout (Sample.node 5) [2] _ 4 :=
    ⟨hy, _, hd, hb, Or.inr ⟨by decide +kernel, ⟨4, none⟩, by decide +kernel, rfl⟩⟩
  refine ⟨hsep, hout, _, _, ⟨hx, Sample.cell, eq_ok_get _, ha⟩, hwa, hwb, ?_⟩
  have hscalar : (Sample.node 3).IsScalar :=
    ⟨⟨⟨⟨0, "x", .int .w32⟩, .primal none⟩, [], none, none⟩, by decide +kernel, rfl⟩
  exact hsep.scalars hscalar hwa hwb (by decide +kernel)

end Store

end SparseLayout
