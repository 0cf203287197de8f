import SparseLayout.Proofs.Contents.Forget
import SparseLayout.Proofs.Store.Ownership

/-!
A storage and what it holds. The regions in use own their memory, and every datum of the tree that
has memory is found there. From this follow the effects of the single steps of an operation: reading
and writing a datum, and linking a new block or chunk.
-/

namespace SparseLayout

open Layout (Node Datum Part)
open StoreM (Ends never)

namespace Layout.Datum

/-- The position and the node of the container that a datum is of. -/
def position : Datum → Position
  | .part p _ _ | .link p _ _ => p

def node : Datum → Node
  | .part _ n _ | .link _ n _ => n

/-- The positions whose use can be read off a datum. -/
def Reads : Datum → Position → Prop
  | .part p n (.mask w), y => ∃ b < 64, y = (n, w * 64 + b) :: p
  | .part p n (.entry k), y => y = (n, k) :: p
  | .part p n .length, y | .part p n .head, y | .link p n _, y => y = (n, 0) :: p
  | .part _ _ .word, _ => False

/-- The positions a datum tells of are cells of the container that it is of. -/
theorem exists_of_reads {f : Datum} {y : Position} (h : f.Reads y) :
    ∃ k, y = (f.node, k) :: f.position := by
  cases f with
  | link p n i => exact ⟨0, h⟩
  | part p n f =>
    cases f with
    | mask w =>
      obtain ⟨b, -, rfl⟩ := h
      exact ⟨_, rfl⟩
    | entry k => exact ⟨k, h⟩
    | length | head => exact ⟨0, h⟩
    | word => exact h.elim

/-- The datum with the link to a chunk of a list. -/
def linkTo (p : Position) (n : Node) : Nat → Datum
  | 0 => .part p n .head
  | j + 1 => .link p n j

theorem size_linkTo (p : Position) (n : Node) (j : Nat) : (linkTo p n j).size = 8 := by
  cases j <;> rfl

end Layout.Datum

theorem Contents.value_linkTo (g : Contents) (p : Position) (n : Node) (j : Nat) :
    g.value (Datum.linkTo p n j) = addressNumber (g.chunks p n)[j]? := by
  cases j <;> rfl

/-- The storage holds these contents. -/
structure Store.Represents (s : Store) (t : Layout) (g : Contents) : Prop where
  owns : s.Owns t g.base
  sound : g.Sound t
  value : ∀ {f : Datum}, g.HasDatum t f → s.pool.wordAt (g.datumStart f) f.size = g.value f

namespace Contents

variable {t : Layout} {g : Contents} {D : Set Position} {f : Datum}

theorem HasDatum.start (h : g.HasDatum t f) : ∃ a, g.base f.region = some a ∧
    g.datumStart f = a.toNat + f.offset := by
  obtain ⟨a, ha⟩ := Option.isSome_iff_exists.1 h.2
  exact ⟨a, ha, by rw [datumStart, start_of_base ha]⟩

/-- Nothing is in use in memory that was not handed out. -/
theorem Sound.value_eq_zero (h : g.Sound t) (hr : g.base f.region = none) : g.value f = 0 := by
  cases f with
  | link p n i =>
    simp only [Datum.region, base, List.getElem?_eq_none_iff] at hr
    simp only [value, addressNumber]
    rw [List.getElem?_eq_none (by omega)]
    rfl
  | part p n f =>
    have hactive : ¬ g.Active t p := fun ha => by
      have := ha.base_isSome h
      rw [Datum.region] at hr
      simp [hr] at this
    -- each kind of datum is nonzero only in a container that has memory
    cases f with
    | mask w =>
      have hm (k : Nat) : g.mask ((n, k) :: p) = false := by
        rw [Bool.eq_false_iff]
        exact fun hm => hactive (h.mask_on hm).1
      simp only [value, hm]
      decide
    | entry k =>
      have hb : g.block ((n, k) :: p) = none := by
        by_contra hb
        exact hactive (h.block_on (Option.isSome_iff_ne_none.2 hb)).1
      simp [value, hb, addressNumber]
    | length =>
      have hc : g.chunks p n = [] := by
        by_contra hc
        exact hactive (h.chunks_on hc).1
      have hl := h.length_le p n
      simp only [hc, List.length_nil, Nat.mul_zero, Nat.le_zero_eq] at hl
      exact hl
    | head =>
      have hc : g.chunks p n = [] := by
        by_contra hc
        exact hactive (h.chunks_on hc).1
      simp [value, hc, addressNumber]
    | word =>
      by_contra hw
      have := (h.word_on hw).2
      simp [hr] at this

/-- A datum stays as it is where nothing that it tells of is forgotten. -/
theorem value_forget (h : g.Sound t) (hr : ¬ f.region.In D)
    (hD : ∀ y, f.Reads y → g.Keyed y → y ∉ D) : (g.forget D).value f = g.value f := by
  have list {p : Position} {n : Node} (hy : g.Keyed ((n, 0) :: p) → (n, 0) :: p ∉ D) :
      (g.forget D).chunks p n = g.chunks p n ∧ (g.forget D).length p n = g.length p n := by
    by_cases hc : g.chunks p n = []
    · have hl := h.length_le p n
      simp only [hc, List.length_nil, Nat.mul_zero, Nat.le_zero_eq] at hl
      simp [forget, hc, hl]
    · have := hy (Or.inr (Or.inr hc))
      simp [forget, this]
  cases f with
  | link p n i => simp only [value, (list (hD _ rfl)).1]
  | part p n f =>
    cases f with
    | mask w =>
      simp only [value]
      congr 1
      ext1 b
      by_cases hm : g.mask ((n, w * 64 + b) :: p) = true
      · have := hD _ ⟨b, b.isLt, rfl⟩ (Or.inl hm)
        simp [forget, this]
      · simp [forget, hm]
    | entry k =>
      by_cases hb : (g.block ((n, k) :: p)).isSome
      · have := hD _ rfl (Or.inr (Or.inl hb))
        simp [value, forget, this]
      · simp [value, forget, Option.not_isSome_iff_eq_none.1 hb]
    | length => exact (list (hD _ rfl)).2
    | head => simp only [value, (list (hD _ rfl)).1]
    | word => exact if_neg hr

/-- A datum is zero where all that it tells of is forgotten. -/
theorem value_forget_eq_zero (hf : ∀ p n, f ≠ .part p n .word) (hD : ∀ y, f.Reads y → y ∈ D) :
    (g.forget D).value f = 0 := by
  cases f with
  | link p n i =>
    have := hD _ rfl
    simp [value, forget, this, addressNumber]
  | part p n f =>
    cases f with
    | mask w =>
      have hm (b : Fin 64) : (g.forget D).mask ((n, w * 64 + b) :: p) = false :=
        if_pos (hD _ ⟨b, b.isLt, rfl⟩)
      simp only [value, hm]
      decide
    | entry k =>
      have := hD _ rfl
      simp [value, forget, this, addressNumber]
    | length => exact if_pos (hD _ rfl)
    | head =>
      have := hD _ rfl
      simp [value, forget, this, addressNumber]
    | word => exact absurd rfl (hf p n)

end Contents

namespace Store.Represents

variable {s : Store} {t : Layout} {g : Contents} {f f' : Datum} {p : Position} {n : Node} {k : Nat}
  {a : Address}

theorem root_eq (h : s.Represents t g) : g.root = s.root := Option.some.inj h.owns.root

theorem covers_region (h : s.Represents t g) {r : Region} (hr : (g.base r).isSome) :
    s.pool.Covers (g.start r) (t.regionSize r) := by
  obtain ⟨a, ha⟩ := Option.isSome_iff_exists.1 hr
  rw [Contents.start_of_base ha]
  exact h.owns.covers (P := .region r) ha

end Store.Represents

namespace Store.Owns

variable {s : Store} {t : Layout} {g : Contents} {f f' : Datum} {a : Address}

/-- A datum lies in a segment. -/
theorem covers_datum (ht : t.WellFormed) (h : s.Owns t g.base) (hf : g.HasDatum t f) :
    s.pool.Covers (g.datumStart f) f.size := by
  obtain ⟨a, ha, hstart⟩ := hf.start
  have hle := ht.datum_le_regionSize hf.1
  have hpos := hf.1.size_pos
  have hc := h.covers (P := .region f.region) ha
  simp only [Piece.size] at hc
  rw [hstart]
  exact hc.part (Nat.le_add_right _ _) (by omega) (by omega) h.valid

/-- Two data have no byte in common. -/
theorem apart_data (ht : t.WellFormed) (h : s.Owns t g.base) (hf : g.HasDatum t f)
    (hf' : g.HasDatum t f') (hne : f ≠ f') :
    Apart (g.datumStart f) f.size (g.datumStart f') f'.size := by
  obtain ⟨a, ha, hfa⟩ := hf.start
  obtain ⟨b, hb, hfb⟩ := hf'.start
  rw [hfa, hfb]
  by_cases hr : f.region = f'.region
  · rw [hr, hb, Option.some.injEq] at ha
    have := ht.datum_apart hf.1 hf'.1 hne hr
    rw [ha]
    unfold Apart at *
    omega
  · have hle := ht.datum_le_regionSize hf.1
    have hle' := ht.datum_le_regionSize hf'.1
    refine (h.apart (P := .region f.region) (Q := .region f'.region) ha hb ?_).mono
      (Nat.le_add_right _ _) ?_ (Nat.le_add_right _ _) ?_
    · simpa using hr
    · rw [Nat.add_assoc]
      exact Nat.add_le_add_left hle _
    · rw [Nat.add_assoc]
      exact Nat.add_le_add_left hle' _

/-- Where all other data are as they should be, writing a datum makes the contents complete. -/
theorem put (ht : t.WellFormed) (h : s.Owns t g.base) (hs : g.Sound t) (hf : g.HasDatum t f)
    (ha : a.toNat = g.datumStart f) {len : Nat} (hlen : len = f.size) {w : UInt64}
    (hval : ∀ {f'}, g.HasDatum t f' → f' ≠ f →
      s.pool.wordAt (g.datumStart f') f'.size = g.value f')
    (hw : w.toNat % 256 ^ f.size = g.value f) :
    Ends (StoreM.put a len w) s (fun _ s => s.Represents t g) never := by
  subst hlen
  have hc : s.pool.Covers a.toNat f.size := ha ▸ h.covers_datum ht hf
  refine StoreM.ends_put (Pool.holds_of_covers hc h.valid) ?_
  refine ⟨h.withPool (s.pool.sameBounds_store a f.size w), hs, ?_⟩
  intro f' hf'
  by_cases he : f' = f
  · subst he
    rw [← ha, Pool.wordAt_store hc h.valid (ht.size_le hf.1), hw]
  · have hap : Apart a.toNat f.size (g.datumStart f') f'.size :=
      ha ▸ h.apart_data ht hf hf' (Ne.symm he)
    rw [Pool.wordAt_store_of_apart hc h.valid w hap, hval hf' he]

end Store.Owns

namespace Store.Represents

variable {s s' : Store} {t : Layout} {g : Contents} {f f' : Datum} {p : Position} {n : Node}
  {k : Nat} {a : Address}

theorem covers (ht : t.WellFormed) (h : s.Represents t g) (hf : g.HasDatum t f) :
    s.pool.Covers (g.datumStart f) f.size := h.owns.covers_datum ht hf

theorem apart (ht : t.WellFormed) (h : s.Represents t g) (hf : g.HasDatum t f)
    (hf' : g.HasDatum t f') (hne : f ≠ f') :
    Apart (g.datumStart f) f.size (g.datumStart f') f'.size := h.owns.apart_data ht hf hf' hne

/-- A datum is loaded as it is. -/
theorem load (ht : t.WellFormed) (h : s.Represents t g) (hf : g.HasDatum t f)
    (ha : a.toNat = g.datumStart f) {len : Nat} (hlen : len = f.size) :
    ∃ w, s.load a len = .ok w ∧ w.toNat = g.value f := by
  subst hlen
  have hc : s.pool.Covers a.toNat f.size := ha ▸ h.covers ht hf
  refine ⟨_, if_pos (Pool.holds_of_covers hc h.owns.valid), ?_⟩
  rw [Pool.toNat_load hc h.owns.valid (ht.size_le hf.1), ha, h.value hf]

theorem link (ht : t.WellFormed) (h : s.Represents t g) (hf : g.HasDatum t f)
    (ha : a.toNat = g.datumStart f) (hlen : f.size = 8) {o : Option Address}
    (ho : g.value f = addressNumber o) :
    ∃ b, s.link a = .ok b ∧ b.toNat = addressNumber o := by
  obtain ⟨w, hw, hv⟩ := h.load ht hf ha hlen.symm
  refine ⟨⟨w⟩, ?_, hv.trans ho⟩
  rw [Store.link, hw]
  rfl

/-- The contents after a change of the bytes in a range. -/
theorem withPool (h : s.Represents t g) {pool : Pool} (hp : s.pool.SameBounds pool)
    {g' : Contents} (hbase : g'.base = g.base) (hs : g'.Sound t)
    (hval : ∀ {f}, g.HasDatum t f → pool.wordAt (g.datumStart f) f.size = g'.value f) :
    ({ s with pool } : Store).Represents t g' := by
  refine ⟨hbase ▸ h.owns.withPool hp, hs, ?_⟩
  intro f hf
  have hf : g.HasDatum t f := ⟨hf.1, hbase ▸ hf.2⟩
  rw [Contents.datumStart, Contents.start, hbase]
  exact hval hf

/-- Writing a datum changes no other. -/
theorem put (ht : t.WellFormed) (h : s.Represents t g) (hf : g.HasDatum t f)
    (ha : a.toNat = g.datumStart f) {len : Nat} (hlen : len = f.size) {w : UInt64}
    {g' : Contents} (hbase : g'.base = g.base) (hs : g'.Sound t)
    (hval : ∀ {f'}, g.HasDatum t f' → f' ≠ f → g'.value f' = g.value f')
    (hw : w.toNat % 256 ^ f.size = g'.value f) :
    Ends (StoreM.put a len w) s (fun _ s => s.Represents t g') never := by
  have hdata {f' : Datum} : g'.HasDatum t f' ↔ g.HasDatum t f' := by
    unfold Contents.HasDatum
    rw [hbase]
  have hstart (f' : Datum) : g'.datumStart f' = g.datumStart f' := by
    unfold Contents.datumStart Contents.start
    rw [hbase]
  refine Owns.put ht (hbase ▸ h.owns) hs (hdata.2 hf) (ha.trans (hstart f).symm) hlen ?_ hw
  intro f' hf' hne
  rw [hstart, h.value (hdata.1 hf'), hval (hdata.1 hf') hne]

/-- A block that was taken changes no datum that was there before. -/
theorem value_took (ht : t.WellFormed) (h : s.Represents t g) {r : Region}
    (htook : s.Took s' t g.base r a) (hf : g.HasDatum t f) :
    s'.pool.wordAt (g.datumStart f) f.size = g.value f := by
  obtain ⟨x, hx, hstart⟩ := hf.start
  have hle := ht.datum_le_regionSize hf.1
  rw [← h.value hf, hstart]
  apply Pool.wordAt_congr
  intro i h1 h2
  exact htook.kept hx (by omega) (by omega)

/-- The data in a block that was taken are zero. -/
theorem wordAt_took (ht : t.WellFormed) {r : Region} (htook : s.Took s' t g.base r a)
    (hf : t.HasDatum f) (hr : f.region = r) : s'.pool.wordAt (a.toNat + f.offset) f.size = 0 := by
  have hle := ht.datum_le_regionSize hf
  rw [hr] at hle
  apply Pool.wordAt_eq_zero
  intro i h1 h2
  exact htook.zeroed i (by omega) (by omega)

/-- A new block for a region is taken and its address is written into a datum, or there is none
left and nothing changes. -/
theorem attach (ht : t.WellFormed) (h : s.Represents t g) {r : Region} (hn : t.Has n)
    (hb : n.blockBytes?.isSome) (hr : g.base r = none) (ho : r.owner? = some n)
    (hf : g.HasDatum t f) (hlen : f.size = 8) (ha : a.toNat = g.datumStart f)
    {u : Address → Contents} (hbase : ∀ b, (u b).base = Function.update g.base r (some b))
    (hs : ∀ b, (u b).Sound t)
    (hval : ∀ b {f'}, t.HasDatum f' → f' ≠ f → (u b).value f' = g.value f')
    (hvalf : ∀ b, (u b).value f = b.toNat) :
    Ends (StoreM.takeBlock n) s
      (fun b s => b.isNull = false ∧
        Ends (StoreM.put a 8 b.raw) s (fun _ s => s.Represents t (u b)) never)
      (fun e s' => s' = s ∧ ∃ shortage, e = .outOfMemory shortage) := by
  refine (h.owns.takeBlock hn hb hr ho).imp ?_
  intro b s' htook
  have hnull := htook.owns.not_null (Function.update_self r (some b) g.base)
  refine ⟨hnull, ?_⟩
  have hsome {f' : Datum} (hf' : g.HasDatum t f') : f'.region ≠ r := by
    rintro rfl
    have hbase := hf'.2
    simp [hr] at hbase
  have hold {f' : Datum} (hne : f'.region ≠ r) : (u b).base f'.region = g.base f'.region := by
    rw [hbase, Function.update_of_ne hne]
  have hstart {f' : Datum} (hne : f'.region ≠ r) : (u b).datumStart f' = g.datumStart f' := by
    rw [Contents.datumStart, Contents.start, hold hne]
    rfl
  have howns : s'.Owns t (u b).base := hbase b ▸ htook.owns
  refine howns.put ht (hs b) ⟨hf.1, hold (hsome hf) ▸ hf.2⟩ (ha.trans (hstart (hsome hf)).symm)
    hlen.symm ?_ ?_
  · intro f' hf' hne
    rw [hval b hf'.1 hne]
    by_cases hreg : f'.region = r
    · -- the new block holds nothing yet
      have hx : (u b).base f'.region = some b := by
        rw [hbase, hreg, Function.update_self]
      rw [h.sound.value_eq_zero (hreg ▸ hr), Contents.datumStart, Contents.start_of_base hx]
      exact wordAt_took ht htook hf'.1 hreg
    · rw [hstart hreg]
      exact h.value_took ht htook ⟨hf'.1, hold hreg ▸ hf'.2⟩
  · rw [hlen, hvalf]
    exact Nat.mod_eq_of_lt b.toNat_lt

end Store.Represents

end SparseLayout
