import SparseLayout.Proofs.Store.Steps

namespace SparseLayout

open Layout (Node Datum)

variable {t : Layout} {v v' : View} {p q x y : Position} {m n : Node} {i k : Nat}

namespace View

/-- Only cells that coordinates name are in use. -/
def Named (v : View) (t : Layout) : Prop := ∀ x, v.on x = true → t.Named x

theorem named_empty (t : Layout) : View.empty.Named t := fun _ hx => by cases hx

theorem on_of_activate (h : (v.activate x).on y = true) : v.on y = true ∨ y <:+ x := by
  induction x with
  | nil => exact Or.inl h
  | cons z x ih =>
    obtain ⟨n, k⟩ := z
    have tail (h : (v.activate x).on y = true) : v.on y = true ∨ y <:+ (n, k) :: x :=
      (ih h).imp_right fun hs => hs.trans (List.suffix_cons _ _)
    have update (h : Function.update (v.activate x).on ((n, k) :: x) true y = true) :
        v.on y = true ∨ y <:+ (n, k) :: x := by
      rw [Function.update_apply] at h
      split at h
      · rename_i he
        exact Or.inr (he ▸ List.suffix_rfl)
      · exact tail h
    rw [View.activate, raise] at h
    cases hc : n.container <;> simp only [hc] at h
    case pointer | bitmasked => exact update h
    all_goals exact tail h

theorem Named.activate (ht : t.WellFormed) (h : v.Named t) (hx : t.Named x) :
    (v.activate x).Named t := by
  intro y hy
  rcases on_of_activate hy with hy | hy
  · exact h y hy
  · exact hx.suffix ht hy

theorem deactivate_le (v : View) (n : Node) (k : Nat) (q : Position) :
    (v.deactivate n k q).Le v := by
  unfold View.deactivate
  cases n.container with
  | pointer | dynamic => exact v.forget_le _
  | bitmasked m =>
    dsimp only
    split
    · exact ⟨(v.forget_le _).on, (v.forget_le _).length⟩
    · exact .refl v
  | _ => exact .refl v

/-- No step puts a cell to use that is not named. -/
theorem Named.step (ht : t.WellFormed) {call : Call} (hstep : View.Step t call v v')
    (h : v.Named t) : v'.Named t := by
  cases hstep with
  | stay => exact h
  | activate hx => exact h.activate ht hx
  | write hx => exact h.activate ht hx
  | append hx => exact h.activate ht hx
  | @deactivate _ _ n k q => exact fun y hy => h y ((v.deactivate_le n k q).on y hy)
  | @deactivateAll _ n =>
    rw [deactivateAll_eq]
    exact fun y hy => h y ((v.forget_le _).on y hy)

end View

/-- The container that a region was handed out for. -/
def Region.home? : Region → Option (Position × Node)
  | .block ((n, _) :: p) => some (p, n)
  | .chunk p n _ => some (p, n)
  | _ => none

theorem Region.owner_eq (r : Region) : r.owner? = r.home?.map (·.2) := by
  cases r with
  | root => rfl
  | block x => cases x <;> rfl
  | chunk p n i => rfl

theorem Layout.WellFormed.blocks_of_type (ht : t.WellFormed) (hn : t.Has n) :
    n.blockBytes?.isSome ↔ n.type = .pointer ∨ n.type = .dynamic := by
  rw [ht.type_eq hn]
  unfold Layout.Node.blockBytes?
  cases n.container <;> simp [Container.type]

/-- Only sparse nodes have blocks. -/
theorem Layout.WellFormed.isSparse_of_blocks (ht : t.WellFormed) (hn : t.Has n)
    (hb : n.blockBytes?.isSome) : n.type.isSparse = true := by
  rcases (ht.blocks_of_type hn).1 hb with hty | hty <;> rw [hty] <;> rfl

theorem Layout.WellFormed.ne_root_of_blocks (ht : t.WellFormed) (hn : t.Has n)
    (hb : n.blockBytes?.isSome) : ∃ p, t.Has p ∧ n ∈ t.childNodes p := by
  refine ht.ne_root_of_kind hn fun hk => ?_
  have hty := (ht.blocks_of_type hn).1 hb
  rw [Layout.Node.type, hk] at hty
  simp [Kind.type] at hty

theorem Layout.WellFormed.pointer_iff (ht : t.WellFormed) (hn : t.Has n) :
    n.container = .pointer ↔ n.type = .pointer := by
  rw [ht.type_eq hn]
  cases n.container <;> simp [Container.type]

namespace Store

/-- The addresses are those of a list of blocks, each of which starts with a link to the next one.
-/
inductive Chain (s : Store) : Address → List Address → Prop
  | nil {a : Address} (h : a.isNull = true) : s.Chain a []
  | cons {a next : Address} {rest : List Address} (h : a.isNull = false)
    (hl : s.link a = .ok next) (hr : s.Chain next rest) : s.Chain a (a :: rest)

/-- The blocks that the container of `n` at a slot holds: those of its cells, or the chunks of its
list. -/
def Holds (s : Store) (n : Node) (slot : Address) (blocks : List Address) : Prop :=
  match n.container with
  | .pointer => s.activeCells n slot = .ok blocks
  | .dynamic .. => ∃ first, s.link (headSlot slot) = .ok first ∧ s.Chain first blocks
  | _ => False

theorem Chain.unique {s : Store} {a : Address} {as bs : List Address} (h : s.Chain a as)
    (h' : s.Chain a bs) : as = bs := by
  induction h generalizing bs with
  | nil hn =>
    cases h' with
    | nil => rfl
    | cons hn' => rw [hn] at hn'; cases hn'
  | cons hn hl _ ih =>
    cases h' with
    | nil hn' => rw [hn] at hn'; cases hn'
    | cons _ hl' hr' =>
      rw [hl, Except.ok.injEq] at hl'
      subst hl'
      rw [ih hr']

/-- What a container holds is known from the storage. -/
theorem Holds.unique {s : Store} {slot : Address} {as bs : List Address} (h : s.Holds n slot as)
    (h' : s.Holds n slot bs) : as = bs := by
  unfold Holds at h h'
  cases hc : n.container with
  | pointer =>
    simp only [hc] at h h'
    rw [h, Except.ok.injEq] at h'
    exact h'
  | dynamic =>
    simp only [hc] at h h'
    obtain ⟨first, hfirst, hchain⟩ := h
    obtain ⟨first', hfirst', hchain'⟩ := h'
    rw [hfirst, Except.ok.injEq] at hfirst'
    subst hfirst'
    exact hchain.unique hchain'
  | _ => simp [hc] at h

namespace Represents

variable {s : Store} {g : Contents} {slot : Address}

theorem base_inj (h : s.Represents t g) {r r' : Region} {a : Address} (hr : g.base r = some a)
    (hr' : g.base r' = some a) : r = r' := by
  by_contra hne
  have hap := h.owns.apart (P := .region r) (Q := .region r') hr hr' (by simpa using hne)
  have hpos := t.regionSize_pos r
  have hpos' := t.regionSize_pos r'
  simp only [Piece.size, Apart] at hap
  omega

/-- The addresses are those of the regions of a set that were handed out, each once. -/
structure Lists (g : Contents) (S : Set Region) (as : List Address) (rs : List Region) : Prop where
  base : List.Forall₂ (fun a r => g.base r = some a) as rs
  nodup : rs.Nodup
  mem_iff : ∀ r, r ∈ rs ↔ (g.base r).isSome ∧ r ∈ S

theorem Lists.mem {S : Set Region} {as : List Address} {rs : List Region} (h : Lists g S as rs)
    {a : Address} (ha : a ∈ as) : ∃ r ∈ rs, g.base r = some a := by
  obtain ⟨i, hi, rfl⟩ := List.getElem_of_mem ha
  have hi' : i < rs.length := h.base.length_eq ▸ hi
  exact ⟨rs[i], List.getElem_mem hi', (List.forall₂_iff_get.1 h.base).2 i hi hi'⟩

theorem Lists.mem_address {S : Set Region} {as : List Address} {rs : List Region}
    (h : Lists g S as rs) {r : Region} {a : Address} (hr : r ∈ rs) (ha : g.base r = some a) :
    a ∈ as := by
  obtain ⟨i, hi, rfl⟩ := List.getElem_of_mem hr
  have hi' : i < as.length := h.base.length_eq ▸ hi
  have hbase : g.base rs[i] = some as[i] := (List.forall₂_iff_get.1 h.base).2 i hi' hi
  rw [ha, Option.some.injEq] at hbase
  exact hbase ▸ List.getElem_mem hi'

/-- Different regions start at different addresses. -/
theorem Lists.nodup_addresses (hs : s.Represents t g) {S : Set Region} {as : List Address}
    {rs : List Region} (h : Lists g S as rs) : as.Nodup := by
  obtain ⟨hbase, hnodup, -⟩ := h
  induction hbase with
  | nil => exact List.nodup_nil
  | @cons a r as rs hr hrest ih =>
    obtain ⟨hmem, hnodup⟩ := List.nodup_cons.1 hnodup
    refine List.nodup_cons.2 ⟨?_, ih hnodup⟩
    intro ha
    obtain ⟨i, hi, rfl⟩ := List.getElem_of_mem ha
    have hi' : i < rs.length := hrest.length_eq ▸ hi
    have hri : g.base rs[i] = some as[i] := (List.forall₂_iff_get.1 hrest).2 i hi hi'
    exact hmem (hs.base_inj hr hri ▸ List.getElem_mem hi')

/-- A block of a pointer container is that of one of its cells. -/
theorem block_of_home (h : s.Represents t g) (hc : n.container = .pointer) {r : Region}
    (hr : (g.base r).isSome) (hhome : r.home? = some (q, n)) : ∃ k, r = .block ((n, k) :: q) := by
  cases r with
  | root => cases hhome
  | chunk p m i =>
    cases hhome
    have hne : g.chunks q n ≠ [] := by
      intro he
      simp [Contents.base, he] at hr
    obtain ⟨-, -, axis, c, b, hd⟩ := h.sound.chunks_on hne
    cases hc.symm.trans hd
  | block x =>
    cases x with
    | nil => cases hhome
    | cons z x =>
      obtain ⟨m, k⟩ := z
      cases hhome
      exact ⟨k, rfl⟩

/-- A block of a list is one of its chunks. -/
theorem chunk_of_home (h : s.Represents t g) {axis : Axis} {cap : UInt32} {bytes : UInt64}
    (hc : n.container = .dynamic axis cap bytes) {r : Region} (hr : (g.base r).isSome)
    (hhome : r.home? = some (q, n)) : ∃ i < (g.chunks q n).length, r = .chunk q n i := by
  cases r with
  | root => cases hhome
  | chunk p m i =>
    cases hhome
    exact ⟨i, by simpa [Contents.base] using hr, rfl⟩
  | block x =>
    cases x with
    | nil => cases hhome
    | cons z x =>
      obtain ⟨m, k⟩ := z
      cases hhome
      obtain ⟨-, -, -, hd⟩ := h.sound.block_on hr
      cases hc.symm.trans hd

section

variable (ht : t.WellFormed) (h : s.Represents t g) (hq : g.Active t q)
  (hn : n ∈ t.childNodes (t.nodeAt q)) (hslot : slot.toNat = g.cellStart q + n.offset.toNat)

include ht h hq hn

/-- The chunks of a list follow one another along their links. -/
theorem chain {axis : Axis} {cap : UInt32} {bytes : UInt64}
    (hc : n.container = .dynamic axis cap bytes) {j : Nat} {a : Address}
    (ha : a.toNat = addressNumber (g.chunks q n)[j]?) : s.Chain a ((g.chunks q n).drop j) := by
  induction hlen : (g.chunks q n).length - j generalizing j a with
  | zero =>
    rw [List.getElem?_eq_none (by omega)] at ha
    rw [List.drop_eq_nil_of_le (by omega)]
    exact .nil ((Address.isNull_iff a).2 ha)
  | succ d ih =>
    have hj : j < (g.chunks q n).length := by omega
    rw [List.getElem?_eq_getElem hj] at ha
    obtain rfl : a = (g.chunks q n)[j] := Address.ext_toNat ha
    have hbase : g.base (.chunk q n j) = some (g.chunks q n)[j] := List.getElem?_eq_getElem hj
    have hstart : (g.chunks q n)[j].toNat = g.datumStart (Datum.linkTo q n (j + 1)) := by
      rw [Datum.linkTo, Contents.datumStart, Datum.region, Contents.start_of_base hbase]
      rfl
    obtain ⟨next, hnext, hv⟩ := h.link ht (h.hasDatum_linkTo hq hn hc hj) hstart
      (Datum.size_linkTo q n (j + 1)) (g.value_linkTo q n (j + 1))
    rw [List.drop_eq_getElem_cons hj]
    exact .cons (h.owns.not_null hbase) hnext (ih hv (by omega))

include hslot

theorem holds_pointer (hc : n.container = .pointer) : ∃ as rs, s.activeCells n slot = .ok as ∧
    Lists g {r | r.home? = some (q, n)} as rs := by
  obtain ⟨as, has, ks, hks, hrel, hall⟩ := h.activeCells_pointer ht hq hn hslot hc
  refine ⟨as, ks.map fun k => .block ((n, k) :: q), has, ?_, ?_, ?_⟩
  · refine List.forall₂_map_right_iff.2 (hrel.imp ?_)
    rintro a k ⟨hk, ha⟩
    have hon := hk.2.2.2
    simp only [Contents.On, hc] at hon
    obtain ⟨b, hb⟩ := Option.isSome_iff_exists.1 hon
    have hbase : g.base (.block ((n, k) :: q)) = some b := hb
    rw [Contents.cellStart, Layout.region_pointer hc, Contents.start_of_base hbase] at ha
    simp only [Position.offset, hc, Nat.add_zero] at ha
    rw [hbase, Address.ext_toNat ha]
  · refine hks.map ?_
    intro k l he
    simpa using he
  · intro r
    rw [List.mem_map]
    constructor
    · rintro ⟨k, hk, rfl⟩
      obtain ⟨i, hi, rfl⟩ := List.getElem_of_mem hk
      have hon := ((List.forall₂_iff_get.1 hrel).2 i (hrel.length_eq ▸ hi) hi).1.2.2.2
      simp only [Contents.On, hc] at hon
      exact ⟨hon, rfl⟩
    · -- every block of the container is that of a cell that was listed
      rintro ⟨hr, hhome⟩
      obtain ⟨k, rfl⟩ := h.block_of_home hc hr hhome
      obtain ⟨-, -, hk, -⟩ := h.sound.block_on hr
      refine ⟨k, hall (by simp [Node.isWord, hc]) k ⟨hq, hn, ?_, ?_⟩, rfl⟩
      · simpa [Layout.Node.Numbers, hc] using hk
      · simp only [Contents.On, hc]
        exact hr

theorem holds_dynamic {axis : Axis} {cap : UInt32} {bytes : UInt64}
    (hc : n.container = .dynamic axis cap bytes) :
    (∃ first, s.link (headSlot slot) = .ok first ∧ s.Chain first (g.chunks q n)) ∧
      ∃ rs, Lists g {r | r.home? = some (q, n)} (g.chunks q n) rs := by
  obtain ⟨first, hfirst, hv⟩ := h.link ht (h.hasDatum_linkTo hq hn hc (Nat.zero_le _))
    (h.toNat_headSlot ht hq hn hslot hc) (Datum.size_linkTo q n 0) (g.value_linkTo q n 0)
  have hchain := h.chain ht hq hn hc hv
  rw [List.drop_zero] at hchain
  refine ⟨⟨first, hfirst, hchain⟩, (List.range (g.chunks q n).length).map fun i => .chunk q n i,
    ?_, ?_, ?_⟩
  · refine List.forall₂_iff_get.2 ⟨by simp, ?_⟩
    intro i hi hi'
    simp [Contents.base]
  · refine List.nodup_range.map ?_
    intro i j he
    simpa using he
  · intro r
    rw [List.mem_map]
    constructor
    · rintro ⟨i, hi, rfl⟩
      have hi := List.mem_range.1 hi
      exact ⟨by simp [Contents.base, hi], rfl⟩
    · rintro ⟨hr, hhome⟩
      obtain ⟨i, hi, rfl⟩ := h.chunk_of_home hc hr hhome
      exact ⟨i, List.mem_range.2 hi, rfl⟩

/-- What a container holds are the blocks that were handed out for it. -/
theorem holds (hb : n.blockBytes?.isSome) : ∃ as rs, s.Holds n slot as ∧
    (n.container ≠ .pointer → as = g.chunks q n) ∧ Lists g {r | r.home? = some (q, n)} as rs := by
  unfold Store.Holds
  cases hc : n.container with
  | pointer =>
    obtain ⟨as, rs, has, hl⟩ := h.holds_pointer ht hq hn hslot hc
    exact ⟨as, rs, has, (absurd rfl ·), hl⟩
  | dynamic axis cap bytes =>
    obtain ⟨hchain, rs, hl⟩ := h.holds_dynamic ht hq hn hslot hc
    exact ⟨g.chunks q n, rs, hchain, fun _ => rfl, hl⟩
  | _ => simp [Layout.Node.blockBytes?, hc] at hb

end

/-- What several containers hold together. -/
theorem lists_flatten {slots : List Address} {qs : List Position} (hnodup : qs.Nodup)
    {R : Position → List Address → Prop} (h : List.Forall₂ (fun a q => ∃ as rs, s.Holds n a as ∧
      R q as ∧ Lists g {r | r.home? = some (q, n)} as rs) slots qs) :
    ∃ held rs, List.Forall₂ (s.Holds n) slots held ∧ List.Forall₂ R qs held ∧
      Lists g {r | ∃ q ∈ qs, r.home? = some (q, n)} held.flatten rs := by
  induction h with
  | nil => exact ⟨[], [], .nil, .nil, .nil, List.nodup_nil, by simp⟩
  | @cons a q slots qs hq _ ih =>
    obtain ⟨hmem, hnodup⟩ := List.nodup_cons.1 hnodup
    obtain ⟨as, rs, has, hr, hl⟩ := hq
    obtain ⟨held, rs', hheld, hrs, hl'⟩ := ih hnodup
    refine ⟨as :: held, rs ++ rs', .cons has hheld, .cons hr hrs, ?_, ?_, ?_⟩
    · rw [List.flatten_cons]
      exact List.rel_append hl.base hl'.base
    · refine List.nodup_append.2 ⟨hl.nodup, hl'.nodup, ?_⟩
      rintro r hr r' hr' rfl
      have h1 : r.home? = some (q, n) := ((hl.mem_iff r).1 hr).2
      obtain ⟨q', hq', h2⟩ := ((hl'.mem_iff r).1 hr').2
      rw [h1] at h2
      cases h2
      exact hmem hq'
    · intro r
      rw [List.mem_append, hl.mem_iff, hl'.mem_iff]
      simp only [Set.mem_ofPred_eq, List.mem_cons, exists_eq_or_imp]
      exact (and_or_left).symm

/-- A region of a node is in use where its container is, and is given up with a cell of it. -/
theorem exists_key (h : s.Represents t g) {r : Region} (hr : (g.base r).isSome)
    (ho : r.owner? = some n) : ∃ q k, r.home? = some (q, n) ∧ g.Keyed ((n, k) :: q) ∧
      ∀ D, r.In D ↔ (n, k) :: q ∈ D := by
  rcases Contents.keyed_of_base h.sound hr with rfl | ⟨y, rfl, hy⟩ | ⟨q, m, i, rfl, hy⟩
  · cases ho
  · cases y with
    | nil => cases ho
    | cons z q =>
      obtain ⟨m, k⟩ := z
      cases ho
      exact ⟨q, k, rfl, hy, fun _ => Iff.rfl⟩
  · cases ho
    exact ⟨q, 0, rfl, hy 0, fun _ => Iff.rfl⟩

/-- Regions of a node were handed out for its containers in active cells. -/
theorem home_of_owner (h : s.Represents t g) {r : Region} (hr : (g.base r).isSome)
    (ho : r.owner? = some n) : ∃ q k, r.home? = some (q, n) ∧ g.Active t q ∧
      n ∈ t.childNodes (t.nodeAt q) ∧ g.Keyed ((n, k) :: q) := by
  obtain ⟨q, k, hhome, hkey, -⟩ := h.exists_key hr ho
  obtain ⟨ha, hn⟩ := h.sound.active_of_keyed hkey
  exact ⟨q, k, hhome, ha, hn, hkey⟩

/-- Only nodes that hold blocks own regions. -/
theorem blockBytes_of_owner (h : s.Represents t g) {r : Region} (hr : (g.base r).isSome)
    (ho : r.owner? = some n) : n.blockBytes?.isSome := by
  unfold Layout.Node.blockBytes?
  cases r with
  | root => cases ho
  | chunk p m i =>
    cases ho
    have hne : g.chunks p n ≠ [] := by
      rintro he
      simp [Contents.base, he] at hr
    obtain ⟨-, -, axis, c, b, hc⟩ := h.sound.chunks_on hne
    simp [hc]
  | block x =>
    cases x with
    | nil => cases ho
    | cons z x =>
      obtain ⟨m, k⟩ := z
      cases ho
      obtain ⟨-, -, -, hc⟩ := h.sound.block_on hr
      simp [hc]

/-- A block that was handed out is not spare. -/
theorem not_spare (h : s.Represents t g) {r : Region} {a : Address} (hr : g.base r = some a)
    (hm : t.Has m) (hb : m.blockBytes?.isSome) : a ∉ s.spares m.id := by
  intro ha
  have hap := h.owns.apart (P := .region r) (Q := .spare m a) hr ⟨hm, hb, ha, rfl⟩ (by simp)
  have hpos := t.regionSize_pos r
  have hpos' := m.blockSize_pos
  simp only [Piece.size, Apart] at hap
  omega

/-- The blocks that a node holds are those that were handed out for it. -/
theorem exists_held (ht : t.WellFormed) (h : s.Represents t g) (hn : t.Has n)
    (hb : n.blockBytes?.isSome) : ∃ slots held qs rs, s.slots (t.branch n.id) s.root = .ok slots ∧
      List.Forall₂ (s.Holds n) slots held ∧
      List.Forall₂ (fun a q => g.Active t q ∧ n ∈ t.childNodes (t.nodeAt q) ∧
        a.toNat = g.cellStart q + n.offset.toNat) slots qs ∧
      List.Forall₂ (fun q as => n.container ≠ .pointer → as = g.chunks q n) qs held ∧
      Lists g {r | r.owner? = some n} held.flatten rs := by
  obtain ⟨p, hp, hnp⟩ := ht.ne_root_of_blocks hn hb
  obtain ⟨slots, hslots, qs, hnodup, hqs, hall⟩ := h.slots_root ht hp hnp
    (ht.parentBranch_eq hp hnp ▸ h.countable_of_sparse ht hn (ht.isSparse_of_blocks hn hb))
  have hqs : List.Forall₂ (fun a q => g.Active t q ∧ n ∈ t.childNodes (t.nodeAt q) ∧
      a.toNat = g.cellStart q + n.offset.toNat) slots qs :=
    hqs.imp fun _ _ hq => ⟨hq.1, hq.2.2⟩
  obtain ⟨held, rs, hheld, hlists, hl⟩ := lists_flatten hnodup
    (hqs.imp fun _ _ hq => h.holds ht hq.1 hq.2.1 hq.2.2 hb)
  refine ⟨slots, held, qs, rs, hslots, hheld, hqs, hlists, hl.base, hl.nodup, ?_⟩
  intro r
  rw [hl.mem_iff]
  refine and_congr_right fun hr => ?_
  simp only [Set.mem_ofPred_eq, Region.owner_eq, Option.map_eq_some_iff]
  constructor
  · rintro ⟨q, -, hq⟩
    exact ⟨(q, n), hq, rfl⟩
  · rintro ⟨⟨q, n'⟩, hq, hnn⟩
    obtain rfl : n' = n := hnn
    have ho : r.owner? = some n' := by rw [Region.owner_eq, hq]; rfl
    obtain ⟨q', k, hq', ha, hnq, hkey⟩ := h.home_of_owner hr ho
    rw [hq] at hq'
    cases hq'
    -- the way down to the container goes through no bit container
    have hpq : t.nodeAt q = p := ht.parent_unique (ha.locates.has ht) hp hnq hnp
    have hal := ha.locates.along ht
    rw [hpq] at hal
    refine ⟨q, hall ?_ q ha hal, hq⟩
    intro l hl
    obtain ⟨j, y, hy⟩ := hal.exists_suffix hl
    exact h.sound.not_isWord_of_keyed ht hkey (x := (l, j) :: y) (hy.trans (List.suffix_cons _ _))

/-- A node has as many blocks in use as it holds. -/
theorem length_held (h : s.Represents t g) (hn : t.Has n) (hb : n.blockBytes?.isSome)
    {as : List Address} {rs : List Region} (hl : Lists g {r | r.owner? = some n} as rs) :
    as.length = s.liveBlocks n.id := by
  obtain ⟨b, hblocks, -, hlive, -⟩ := h.owns.blocks hn hb
  have hset : regionsOf g.base n = (rs.toFinset : Set Region) := by
    ext r
    rw [List.coe_toFinset]
    exact (hl.mem_iff r).symm
  rw [hset, Set.encard_coe_eq_coe_finsetCard, List.toFinset_card_of_nodup hl.nodup] at hlive
  rw [liveBlocks, hblocks, hl.base.length_eq]
  exact_mod_cast hlive

section

variable (ht : t.WellFormed) (h : s.Represents t g) (hv : g.view.Named t) (hn : t.Has n)
  (hc : n.container = .pointer)
include ht h hv hn hc

/-- The block of a pointer cell is that of the cell at some coordinates within the shape. -/
theorem exists_coords {k : Nat} (hr : (g.block ((n, k) :: q)).isSome) :
    ∃ c, n.Addressable ∧ n.Within c ∧ (n, k) :: q = t.place n c n ∧
      s.isActive t n c = .ok true := by
  obtain ⟨m, c, hm, haddr, hw, he⟩ := hv ((n, k) :: q) (by simp [Contents.view, hr])
  have hnode := ht.nodeAt_place m c hm
  rw [← he] at hnode
  obtain rfl : n = m := hnode
  refine ⟨c, haddr, hw, he, (h.isActive_eq_true_iff ht hn).2 ?_⟩
  obtain ⟨hact, hnx, hk, -⟩ := h.sound.block_on hr
  rw [← he]
  refine ⟨hact, hnx, ?_, ?_⟩
  · simpa [Layout.Node.Numbers, hc] using hk
  · simp only [Contents.On, hc]
    exact hr

omit hv in
theorem block_of_isActive {c : Coords} (ha : s.isActive t n c = .ok true) :
    (g.block (t.place n c n)).isSome := by
  obtain ⟨p, hp, hnp⟩ := ht.ne_root_of_blocks hn (by simp [Layout.Node.blockBytes?, hc])
  have hact := (h.isActive_eq_true_iff ht hn).1 ha
  rw [ht.place_child n c hp hnp] at hact ⊢
  have hon := hact.2.2.2
  simpa only [Contents.On, hc] using hon

/-- The blocks of a pointer node are those of its active cells. -/
theorem regionsOf_pointer : regionsOf g.base n = (fun c => Region.block (t.place n c n)) ''
    {c | n.Within c ∧ s.isActive t n c = .ok true} := by
  ext r
  constructor
  · rintro ⟨hr, ho⟩
    rw [Region.owner_eq, Option.map_eq_some_iff] at ho
    obtain ⟨⟨q, m⟩, hhome, rfl⟩ := ho
    obtain ⟨k, rfl⟩ := h.block_of_home hc hr hhome
    obtain ⟨c, -, hw, he, ha⟩ := h.exists_coords ht hv hn hc hr
    exact ⟨c, ⟨hw, ha⟩, congrArg Region.block he.symm⟩
  · rintro ⟨c, ⟨-, ha⟩, rfl⟩
    obtain ⟨p, hp, hnp⟩ := ht.ne_root_of_blocks hn (by simp [Layout.Node.blockBytes?, hc])
    refine ⟨h.block_of_isActive ht hn hc ha, ?_⟩
    dsimp only
    rw [ht.place_child n c hp hnp]
    rfl

theorem injOn_block : Set.InjOn (fun c => Region.block (t.place n c n))
    {c | n.Within c ∧ s.isActive t n c = .ok true} := by
  rintro c ⟨hw, ha⟩ d ⟨hw', -⟩ he
  have hblock := h.block_of_isActive ht hn hc ha
  obtain ⟨p, hp, hnp⟩ := ht.ne_root_of_blocks hn (by simp [Layout.Node.blockBytes?, hc])
  rw [ht.place_child n c hp hnp] at hblock
  obtain ⟨-, haddr, -⟩ := h.exists_coords ht hv hn hc hblock
  refine ht.place_inj hn haddr hw hw' (by simpa using he) ?_
  -- no bit array is above a pointer node
  intro l hlm hba
  have hl := ht.locates_place n c hn
  obtain ⟨y, ⟨r, hry⟩, hyl⟩ := (hl.above_iff ht (l := l)).1 (by rwa [ht.nodeAt_place n c hn])
  rw [← hry] at hl
  have hword := ht.isWord_below hl (by rw [hyl]; exact Or.inr (Or.inl hba))
  rw [hry, ht.nodeAt_place n c hn] at hword
  simp [Layout.Node.isWord, hc] at hword

/-- A pointer node has as many blocks in use as there are active cells of it. -/
theorem ncard_active :
    s.liveBlocks n.id = {c | n.Within c ∧ s.isActive t n c = .ok true}.ncard := by
  obtain ⟨b, hblocks, -, hlive, -⟩ := h.owns.blocks hn (by simp [Layout.Node.blockBytes?, hc])
  rw [h.regionsOf_pointer ht hv hn hc, (h.injOn_block ht hv hn hc).encard_image] at hlive
  rw [liveBlocks, hblocks, Set.ncard, hlive]
  rfl

end

end Represents

/-- Chunks that a list needs for its elements. -/
def chunksFor (n : Node) (len : UInt32) : Nat :=
  (len.toNat + n.chunkCapacity.toNat - 1) / n.chunkCapacity.toNat

/-- The blocks of a pointer or dynamic node add up: `held` are those of its containers in active
cells, which are at `slots`. -/
structure Accounted (s : Store) (t : Layout) (n : Node) (short : Prop) (slots : List Address)
    (held : List (List Address)) : Prop where
  found : s.slots (t.branch n.id) s.root = .ok slots
  holds : List.Forall₂ (s.Holds n) slots held
  nodup : held.flatten.Nodup
  live : held.flatten.length = s.liveBlocks n.id
  /-- Of a pointer node, one block for each active cell. -/
  cells : n.type = .pointer →
    s.liveBlocks n.id = {c | n.Within c ∧ s.isActive t n c = .ok true}.ncard
  /-- Of a dynamic node, chunks for all elements of a list, and no more if memory never ran out. -/
  lists : n.type = .dynamic → List.Forall₂ (fun slot chunks => ∃ len,
    s.listLength slot = .ok len ∧ chunksFor n len ≤ chunks.length ∧
      (¬ short → chunks.length = chunksFor n len)) slots held
  not_spare : ∀ a ∈ held.flatten, ∀ m, t.Has m → m.type = .pointer ∨ m.type = .dynamic →
    a ∉ s.spares m.id
  total : ∃ b, s.blocks[n.id]? = some (some b) ∧ b.live = s.liveBlocks n.id ∧
    b.live + b.free.length = b.total

variable {s₀ : Store} {calls : List Call}

/-- After any run, the blocks of every pointer and dynamic node add up. -/
theorem accounted (h : t.Starts s₀) (hc : t.Calls calls) (hn : t.Has n)
    (hb : n.type = .pointer ∨ n.type = .dynamic) :
    ∃ slots held, (s₀.session t calls).2.Accounted t n (RanOut (s₀.session t calls).1) slots held := by
  have ht := h.wellFormed
  obtain ⟨rs, v, hruns, hres, g, hg, hview, htight⟩ := h.shows.session ht hc
  -- only cells that calls can name are ever put to use, so that they can be counted
  have hnamed : v.Named t :=
    hruns.induction ht hc (motive := fun v => v.Named t) (fun _ _ _ _ hs hv => hv.step ht hs)
      (View.named_empty t)
  have hb' := (ht.blocks_of_type hn).2 hb
  obtain ⟨slots, held, qs, regions, hslots, hheld, hqs, hchunks, hlists⟩ := hg.exists_held ht hn hb'
  refine ⟨slots, held, hslots, hheld, hlists.nodup_addresses hg, hg.length_held hn hb' hlists, ?_,
    ?_, ?_, ?_⟩
  · intro hp
    exact hg.ncard_active ht (hview ▸ hnamed) hn ((ht.pointer_iff hn).2 hp)
  · intro hd
    have hcon : n.container ≠ .pointer := fun hc => by
      rw [ht.pointer_iff hn, hd] at hc
      cases hc
    obtain ⟨axis, cap, bytes, hc⟩ : ∃ axis cap bytes, n.container = .dynamic axis cap bytes := by
      unfold Layout.Node.blockBytes? at hb'
      cases hc : n.container <;> simp_all
    have hpos := ht.capacity_pos hn
    rw [List.forall₂_iff_get] at hqs hchunks ⊢
    refine ⟨hqs.1.trans hchunks.1, fun i hi hi' => ?_⟩
    obtain ⟨hq, hnq, ha⟩ := hqs.2 i hi (hqs.1 ▸ hi)
    -- a list has no more chunks than its elements need, unless a call ran out of memory
    obtain ⟨len, hlen, hl⟩ := hg.listLength ht hq hnq ha hc
    refine ⟨len, hlen, ?_⟩
    rw [hchunks.2 i (hqs.1 ▸ hi) hi' hcon]
    have hle := hg.sound.length_le (qs.get ⟨i, hqs.1 ▸ hi⟩) n
    unfold chunksFor
    rw [hl]
    constructor
    · refine Nat.lt_succ_iff.1 ((Nat.div_lt_iff_lt_mul hpos).2 ?_)
      rw [Nat.succ_mul, Nat.mul_comm]
      change _ + n.capacity - 1 < _
      omega
    · intro hshort
      refine htight ⟨trivial, fun hs => hshort ?_⟩ _ n
      rw [hres]
      exact ranOut_iff.2 hs
  · intro a ha m hm hmb
    obtain ⟨r, -, hr⟩ := hlists.mem ha
    exact hg.not_spare hr hm ((ht.blocks_of_type hm).2 hmb)
  · obtain ⟨b, hblocks, -, -, htotal⟩ := hg.owns.blocks hn hb'
    exact ⟨b, hblocks, by rw [liveBlocks, hblocks], htotal.symm⟩

/-- Two pointer cells are in use after three writes and a deactivation, and a list of three elements
has two chunks of two. -/
theorem accounted_sample :
    let s := Sample.store.session Sample.layout [⟨Sample.node 3, .write [1, 3] (.int 42)⟩,
      ⟨Sample.node 3, .write [0, 2] (.int 7)⟩, ⟨Sample.node 5, .write [2] (.int 1)⟩,
      ⟨Sample.node 2, .deactivate [0, 2]⟩]
    (∃ slots held, s.2.Accounted Sample.layout (Sample.node 1) (RanOut s.1) slots held ∧
      held.flatten.length = 2) ∧
    ∃ slots held, s.2.Accounted Sample.layout (Sample.node 4) (RanOut s.1) slots held ∧
      held.flatten.length = 2 := by
  intro s
  have hc : Sample.layout.Calls [⟨Sample.node 3, .write [1, 3] (.int 42)⟩,
      ⟨Sample.node 3, .write [0, 2] (.int 7)⟩, ⟨Sample.node 5, .write [2] (.int 1)⟩,
      ⟨Sample.node 2, .deactivate [0, 2]⟩] := by
    unfold Layout.Calls
    decide +kernel
  constructor
  · obtain ⟨slots, held, ha⟩ := accounted Sample.starts hc (n := Sample.node 1) (by decide +kernel)
      (by decide +kernel)
    exact ⟨slots, held, ha, ha.live.trans (by decide +kernel)⟩
  · obtain ⟨slots, held, ha⟩ := accounted Sample.starts hc (n := Sample.node 4) (by decide +kernel)
      (by decide +kernel)
    exact ⟨slots, held, ha, ha.live.trans (by decide +kernel)⟩

end Store

end SparseLayout
