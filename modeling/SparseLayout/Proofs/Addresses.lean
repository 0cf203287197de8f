import SparseLayout.Proofs.Nursery.Storage
import SparseLayout.Proofs.Store.Separation

/-!
The numbers that cells have among all trees of a forest. The number of a cell is its address in the
pool of its tree with sixteen bits of the tree's number above it, so that trees whose numbers agree
in these bits give the same numbers, and no others do.
-/

namespace SparseLayout

open Layout (Node)

namespace Address

variable {a b : Address} {t u : Nat}

/-- An address that leaves the upper sixteen bits alone gets those of the tree there. -/
theorem toNat_global (h : a.toNat < 2 ^ 48) (t : Nat) :
    (a.global t).toNat = (t + 1) % 65536 * 2 ^ 48 + a.toNat := by
  unfold global Address.toNat at *
  have htag : (UInt64.ofNat (t + 1) <<< 48).toNat = ((t + 1) % 65536) <<< 48 := by
    rw [UInt64.toNat_shiftLeft, UInt64.toNat_ofNat', show (48 : UInt64).toNat % 64 = 48 from rfl,
      Nat.shiftLeft_eq, Nat.shiftLeft_eq]
    omega
  rw [UInt64.toNat_or, htag, ← Nat.shiftLeft_add_eq_or_of_lt h, Nat.shiftLeft_eq]

theorem global_eq_iff (ha : a.toNat < 2 ^ 48) (hb : b.toNat < 2 ^ 48) :
    a.global t = b.global u ↔ a = b ∧ t % 65536 = u % 65536 := by
  have hna := toNat_global ha t
  have hnb := toNat_global hb u
  constructor
  · intro h
    rw [h] at hna
    exact ⟨ext_toNat (by omega), by omega⟩
  · rintro ⟨rfl, htu⟩
    refine UInt64.toNat_inj.1 ?_
    omega

/-- Two trees may have one number for a cell. -/
example : (ofByte 0 0).global 65536 = (ofByte 0 0).global 0 := by decide

end Address

/-- The pools of this configuration cannot use up all addresses. -/
def Config.Spares (c : Config) : Prop :=
  c.segmentBytes < maxSegmentBytes ∨ c.maxSegments < SparseLayout.maxSegments

/-- A cell of the node has bytes, or bits of a word. -/
def Layout.Node.HasData (n : Node) : Prop := 0 < n.cellSize.toNat ∨ n.type = .place

/-- A pool under this configuration has handed out the byte at this address. -/
def Pool.Gave (c : Config) (a : Address) : Prop :=
  ∃ p rs r, ∃ k : UInt64, Serves c p rs ∧ r ∈ rs ∧ k.toNat < r.len ∧ a = r.address.add k

theorem Pool.Gave.toNat_lt {c : Config} {a : Address} (hc : c.check = .ok ()) (h : Gave c a) :
    a.toNat < 2 ^ 48 := by
  obtain ⟨p, rs, r, k, hp, hr, hk, rfl⟩ := h
  have ho := hp.ordered hc
  obtain ⟨-, hcov, -, -⟩ := ho.placed r hr
  have hle := hcov.lt ho.valid
  rw [Address.toNat_add (by omega)]
  omega

namespace Store

variable {t : Layout} {s : Store} {g : Contents} {n : Node} {c : Coords} {a : Address}
  {idx : List Int32}

/-- A cell lies in a region that was handed out; an empty one may lie at its very end. -/
theorem Represents.exists_covers (h : s.Represents t g) (ht : t.WellFormed) (hn : t.Has n)
    (ha : s.address t n c = .ok a) : ∃ b len, s.pool.Covers b len ∧
      a.toNat + n.cellSize.toNat ≤ b + len := by
  obtain ⟨hact, hstart⟩ := h.active_of_address ht hn ha
  have hle := ht.offset_le_regionSize hact.locates
  rw [ht.nodeAt_place n c hn] at hle
  refine ⟨_, _, h.covers_region (hact.base_isSome h.sound), ?_⟩
  rw [hstart, Contents.cellStart]
  omega

/-- The cell of a place is where its word is. -/
theorem Represents.exists_covers_place (h : s.Represents t g) (ht : t.WellFormed) (hn : t.Has n)
    (hplace : n.type = .place) (hc : n.resolve idx = .ok c) (ha : s.address t n c = .ok a) :
    ∃ len, 0 < len ∧ s.pool.Covers a.toNat len := by
  obtain ⟨info, hk⟩ : ∃ info, n.kind = .place info := by
    unfold Node.type Kind.type at hplace
    cases hk : n.kind <;> simp_all
  obtain ⟨p, hp, hnp⟩ := ht.ne_root_of_kind hn (by rw [hk]; simp)
  obtain ⟨slot, hslot⟩ := ht.exists_valueSlot hp hnp hk c
  have hword : s.WordAt t n idx a slot.bytes :=
    ⟨hn, c, hc, ha, .inr ⟨hplace, slot, hslot, rfl⟩⟩
  obtain ⟨q, m, hq, hmq, hpart, hstart, -, -⟩ := h.of_wordAt ht hword
  have hdatum := hq.hasDatum h.sound hmq hpart
  rw [hstart]
  exact ⟨_, hdatum.1.size_pos, h.covers ht hdatum⟩

/-- The address of a cell leaves the upper sixteen bits alone, unless the cell is empty and lies
behind the very last byte that can have an address. -/
theorem Represents.address_lt (h : s.Represents t g) (ht : t.WellFormed) (hn : t.Has n)
    {cfg : Config} (hcfg : cfg.check = .ok ()) (hs : s.Served cfg) (hd : n.HasData ∨ cfg.Spares)
    (hc : n.resolve idx = .ok c) (ha : s.address t n c = .ok a) : a.toNat < 2 ^ 48 := by
  obtain ⟨rs, hserves⟩ := hs.pool
  have ho := hserves.ordered hcfg
  have hv := ho.valid
  obtain ⟨b, len, hcov, hend⟩ := h.exists_covers ht hn ha
  have hle := hcov.lt hv
  rcases hd with (hpos | hplace) | hspare
  · omega
  · obtain ⟨len', hpos, hcov'⟩ := h.exists_covers_place ht hn hplace hc ha
    have := hcov'.lt hv
    omega
  · -- the region ends in a segment that cannot be the last and full
    obtain ⟨-, hseg, hoff⟩ := hcov
    have hsize := hv.size_le
    have hmax := hv.max_le
    have hbytes := hv.bytes_le
    rw [Config.Spares, ← ho.segmentBytes_eq, ← ho.maxSegments_eq] at hspare
    unfold maxSegmentBytes SparseLayout.maxSegments at *
    omega

end Store

namespace Forest

/-- The cell has this address in the pool of its tree. -/
def HasCell (f : Forest) (h : Handle) (idx : List Int32) (a : Address) : Prop :=
  ∃ tree store c, f.Opens h tree store ∧ h.node.resolve idx = .ok c ∧
    store.address h.layout h.node c = .ok a

theorem HasCell.unique {f : Forest} {h : Handle} {idx : List Int32} {a b : Address}
    (ha : f.HasCell h idx a) (hb : f.HasCell h idx b) : a = b := by
  obtain ⟨tree, store, c, ho, hc, ha⟩ := ha
  obtain ⟨tree', store', c', ho', hc', hb⟩ := hb
  obtain rfl := Option.some.inj (ho.tree_eq.symm.trans ho'.tree_eq)
  obtain rfl := Option.some.inj (ho.store_eq.symm.trans ho'.store_eq)
  obtain rfl := Except.ok.inj (hc.symm.trans hc')
  exact Except.ok.inj (ha.symm.trans hb)

/-- Where a forest answers, it has the cell, and the number is that of its address. -/
theorem exists_hasCell {f : Forest} {h : Handle} {idx : List Int32} {x : UInt64}
    (hx : (ending (address h idx f)).1 = .ok x) :
    ∃ a, f.HasCell h idx a ∧ x = a.global h.layout.tree := by
  unfold address withCell at hx
  rcases withStore_cases h _ f with ⟨e, he⟩ | ⟨tree, store, ho, he⟩
  · rw [he] at hx
    cases hx
  · rw [he] at hx
    simp only [bind, EStateM.bind, StoreM.look, refuse, Except.mapError] at hx
    cases hc : h.node.resolve idx with
    | error e =>
      rw [hc] at hx
      cases hx
    | ok c =>
      simp only [hc] at hx
      cases ha : store.address h.layout h.node c with
      | error e =>
        rw [ha] at hx
        cases hx
      | ok a =>
        rw [ha] at hx
        cases hx
        exact ⟨a, ⟨tree, store, c, ho, hc, ha⟩, rfl⟩

end Forest

namespace Nursery

variable {s : Nursery} {h : Handle} {idx : List Int32} {x : UInt64}

/-- Asked for a cell of a tree with exact sizes, the forest answers this number. -/
structure Answers (s : Nursery) (h : Handle) (idx : List Int32) (x : UInt64) : Prop where
  issued : s.forest.Issued h
  exact : ∃ d ∈ s.drafts, d.WellSized ∧ ∃ compileOnly,
    d.compile h.layout.tree compileOnly = .ok h.layout
  data : h.node.HasData ∨ s.forest.config.Spares
  answer : (ending (Forest.address h idx s.forest)).1 = .ok x

theorem Lived.toNat_lt {a : Address} (hs : s.Lived) (hx : s.Answers h idx x)
    (ha : s.forest.HasCell h idx a) : a.toNat < 2 ^ 48 := by
  obtain ⟨hf, es, hse⟩ := hs.sound
  obtain ⟨hissued, ⟨d, hd, hsized, compileOnly, ht⟩, hdata, -⟩ := hx
  have hw := (hse.workshop.built d hd).wellFormed hsized ht
  obtain ⟨tree, store, c, ho, hc, ha⟩ := ha
  have hlayout := hissued ho.tree_eq ho.root_eq
  obtain ⟨g, hg⟩ := hf.represents ho.tree_eq ho.store_eq (hlayout ▸ hw)
  rw [hlayout] at hg
  exact hg.address_lt hw (h.has_node hw) hf.config (hf.served ho.tree_eq ho.store_eq) hdata hc ha

end Nursery

/-- A number that was given out under a tree's number, with the address in the pool of the tree:
that of a byte of a pool, or of a cell at some moment of a forest. -/
inductive Names : TreeId → Address → UInt64 → Prop
  | byte {c : Config} {a : Address} (t : TreeId) : c.check = .ok () → Pool.Gave c a →
    Names t a (a.global t)
  | cell {s : Nursery} {h : Handle} {idx : List Int32} {a : Address} {x : UInt64} : s.Lived →
    s.Answers h idx x → s.forest.HasCell h idx a → Names h.layout.tree a x

namespace Names

variable {t t' : TreeId} {a a' : Address} {x x' : UInt64}

theorem eq_global (h : Names t a x) : x = a.global t ∧ a.toNat < 2 ^ 48 := by
  cases h with
  | byte t hc ha => exact ⟨rfl, ha.toNat_lt hc⟩
  | cell hs hx ha =>
    obtain ⟨b, hb, rfl⟩ := Forest.exists_hasCell hx.answer
    exact ⟨by rw [ha.unique hb], hs.toNat_lt hx ha⟩

/-- Two numbers are equal just where the addresses in the pools are, and the numbers of the trees
agree modulo 65536. So they tell the first 65536 trees of a forest apart, and no more. -/
theorem eq_iff_mod (h : Names t a x) (h' : Names t' a' x') :
    x = x' ↔ a = a' ∧ t % 65536 = t' % 65536 := by
  obtain ⟨rfl, hlt⟩ := h.eq_global
  obtain ⟨rfl, hlt'⟩ := h'.eq_global
  exact Address.global_eq_iff hlt hlt'

end Names

/-- No answer is left out. -/
theorem Nursery.Lived.exists_names {s : Nursery} {h : Handle} {idx : List Int32} {x : UInt64}
    (hs : s.Lived) (hx : s.Answers h idx x) : ∃ a, Names h.layout.tree a x := by
  obtain ⟨a, ha, -⟩ := Forest.exists_hasCell hx.answer
  exact ⟨a, .cell hs hx ha⟩

namespace Sample

open Nursery

deriving instance DecidableEq for Layout

/-- Two builders have finished their trees, the second one without a member. -/
def planted : Nursery := (finished (finished (placed (placed sown 0).2 1).2 0).2 1).2

def parcel (i : Fin 2) : Forest.Tree :=
  planted.forest.trees[i.val]?.get (by revert i; decide +kernel)

theorem trees_planted (i : Fin 2) : planted.forest.trees[i.val]? = some (parcel i) :=
  (Option.some_get _).symm

theorem tree_parcel (i : Fin 2) : (parcel i).layout.tree = i.val := by
  revert i
  decide +kernel

theorem wellSized_planted : ∀ d ∈ planted.drafts, d.WellSized := by decide +kernel

theorem compile_planted : ∀ i : Fin 2, ∃ d ∈ planted.drafts,
    d.compile (parcel i).layout.tree false = .ok (parcel i).layout := by
  decide +kernel

theorem exact_parcel (i : Fin 2) : ∃ d ∈ planted.drafts, d.WellSized ∧ ∃ compileOnly,
    d.compile (parcel i).layout.tree compileOnly = .ok (parcel i).layout := by
  obtain ⟨d, hd, ht⟩ := compile_planted i
  exact ⟨d, hd, wellSized_planted d hd, false, ht⟩

theorem issued_parcel (i : Fin 2) {h : Handle} (hl : h.layout = (parcel i).layout) :
    planted.forest.Issued h := by
  intro tree htree _
  rw [hl, tree_parcel, trees_planted, Option.some.injEq] at htree
  rw [hl, htree]

/-- The cell of a member of the first tree, and that of the root of the second, which is empty. -/
def leaf : Handle := ⟨(parcel 0).layout, 2, by decide +kernel⟩

def bare : Handle := (parcel 1).layout.rootHandle

theorem answers_leaf : planted.Answers leaf [] 0x1010000000000 :=
  ⟨issued_parcel 0 rfl, exact_parcel 0, .inl (.inl (by decide +kernel)), by decide +kernel⟩

theorem answers_bare : planted.Answers bare [] 0x2010000000000 :=
  ⟨issued_parcel 1 rfl, exact_parcel 1, .inr (.inl (by decide +kernel)),
    by decide +kernel⟩

theorem lived_planted : planted.Lived := by
  have hnew : History ⟨⟨.empty, [], []⟩, ⟨soil, [], #[]⟩, []⟩ [] :=
    .start (show Forest.new soil = .ok ⟨soil, [], #[]⟩ from rfl)
  have hsown : History sown [.fieldDeclared, .built, .built] :=
    ((hnew.step (.declareField pair)).step (.build rfl)).step (.build rfl)
  have h₂ := placed_history (b := 1) (placed_history (b := 0) hsown rfl) rfl
  exact (finished_history (b := 1) (finished_history (b := 0) h₂ rfl) rfl).lived

/-- Cells of the two trees of a forest have two numbers. The trees numbered 0 and 65536 would give
one byte the same. -/
theorem names_planted : (∃ a b, Names leaf.layout.tree a 0x1010000000000 ∧
      Names bare.layout.tree b 0x2010000000000 ∧
        ¬ (a = b ∧ leaf.layout.tree % 65536 = bare.layout.tree % 65536)) ∧
    ∃ x y, Names 0 (.ofByte 0 8) x ∧ Names 65536 (.ofByte 0 8) y ∧ x = y := by
  constructor
  · obtain ⟨a, ha⟩ := lived_planted.exists_names answers_leaf
    obtain ⟨b, hb⟩ := lived_planted.exists_names answers_bare
    exact ⟨a, b, ha, hb, fun h => absurd ((ha.eq_iff_mod hb).2 h) (by decide)⟩
  · have hgave : Pool.Gave shelf (.ofByte 0 8) :=
      ⟨_, _, _, 0, (Pool.Serves.new.alloc (show 0 < 5 by decide) rfl).alloc
        (show 0 < 8 by decide) rfl, List.mem_append_right _ (List.mem_singleton_self _),
        by decide, by decide⟩
    have hx := Names.byte 0 (show shelf.check = .ok () by decide) hgave
    have hy := Names.byte 65536 (show shelf.check = .ok () by decide) hgave
    exact ⟨_, _, hx, hy, (hx.eq_iff_mod hy).2 ⟨rfl, by decide⟩⟩

end Sample

end SparseLayout
