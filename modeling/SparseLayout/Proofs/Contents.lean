import SparseLayout.Proofs.Layout.Datum
import Mathlib.Data.Nat.Init
import Mathlib.Data.Set.Basic
import Mathlib.Logic.Function.Basic

/-!
What a storage holds, apart from where its bytes lie: the cells in use, the blocks and chunks that
were given to them, the lengths of lists, and the words of scalars and bit containers. The bytes of
every datum of the tree can be read off it.
-/

namespace SparseLayout

structure Contents where
  root : Address
  /-- Bitmasked cells in use. -/
  mask : Position → Bool
  /-- The block of a pointer cell in use. -/
  block : Position → Option Address
  /-- The chunks of the list of a node in a cell. -/
  chunks : Position → Layout.Node → List Address
  /-- The length of the list of a node in a cell. -/
  length : Position → Layout.Node → Nat
  /-- The word of a bit container or place in a cell. -/
  word : Position → Layout.Node → Nat

/-- The number of an address that may be missing. -/
def addressNumber (a : Option Address) : Nat := (a.map Address.toNat).getD 0

namespace Contents

open Layout (Node Datum Part)

variable {t : Layout} {g g' : Contents} {p q x y : Position} {n m : Node} {k j : Nat}

/-- The address of a region that was handed out. -/
def base (g : Contents) : Region → Option Address
  | .root => some g.root
  | .block p => g.block p
  | .chunk p n i => (g.chunks p n)[i]?

def start (g : Contents) (r : Region) : Nat := addressNumber (g.base r)

/-- Where a cell starts in memory. -/
def cellStart (g : Contents) (p : Position) : Nat := g.start p.region + p.offset

def datumStart (g : Contents) (f : Datum) : Nat := g.start f.region + f.offset

/-- The mask, the block or the length of a container says that a cell is in use. -/
def On (g : Contents) (n : Node) (k : Nat) (p : Position) : Prop :=
  match n.container with
  | .pointer => (g.block ((n, k) :: p)).isSome
  | .dynamic .. => k < g.length p n
  | .bitmasked _ => g.mask ((n, k) :: p) = true
  | _ => True

/-- The cell and all cells around it are in use. -/
def Active (g : Contents) (t : Layout) : Position → Prop
  | [] => True
  | (n, k) :: p => g.Active t p ∧ n ∈ t.childNodes (t.nodeAt p) ∧ n.Numbers k ∧ g.On n k p

/-- The datum has memory. -/
def HasDatum (g : Contents) (t : Layout) (f : Datum) : Prop :=
  t.HasDatum f ∧ (g.base f.region).isSome

/-- The number in a datum. -/
def value (g : Contents) : Datum → Nat
  | .part p n (.mask w) => Nat.ofBits fun b : Fin 64 => g.mask ((n, w * 64 + b) :: p)
  | .part p n (.entry k) => addressNumber (g.block ((n, k) :: p))
  | .part p n .length => g.length p n
  | .part p n .head => addressNumber (g.chunks p n)[0]?
  | .part p n .word => g.word p n
  | .link p n i => addressNumber (g.chunks p n)[i + 1]?

/-- Only what belongs to the tree is in use, and only inside cells that are in use. -/
structure Sound (t : Layout) (g : Contents) : Prop where
  mask_on : ∀ {n k p}, g.mask ((n, k) :: p) = true → g.Active t p ∧
    n ∈ t.childNodes (t.nodeAt p) ∧ k < n.cells.toNat ∧ ∃ m, n.container = .bitmasked m
  mask_nil : g.mask [] = false
  block_on : ∀ {n k p}, (g.block ((n, k) :: p)).isSome → g.Active t p ∧
    n ∈ t.childNodes (t.nodeAt p) ∧ k < n.cells.toNat ∧ n.container = .pointer
  block_nil : g.block [] = none
  chunks_on : ∀ {n p}, g.chunks p n ≠ [] → g.Active t p ∧
    n ∈ t.childNodes (t.nodeAt p) ∧ ∃ axis c b, n.container = .dynamic axis c b
  length_le : ∀ p n, g.length p n ≤ n.capacity * (g.chunks p n).length
  length_lt : ∀ p n, g.length p n < 2 ^ 32
  word_on : ∀ {n p}, g.word p n ≠ 0 → g.HasDatum t (.part p n .word)
  word_lt : ∀ p (n : Node), g.word p n < 256 ^ n.bytes.toNat

theorem Active.locates (h : g.Active t p) : t.Locates p := by
  induction p with
  | nil => trivial
  | cons x p ih => exact ⟨ih h.1, h.2.1, h.2.2.1⟩

theorem Active.suffix (h : g.Active t p) (hs : q <:+ p) : g.Active t q := by
  induction p with
  | nil => rwa [List.suffix_nil.1 hs]
  | cons x p ih =>
    rcases List.suffix_cons_iff.1 hs with rfl | hs
    · exact h
    · exact ih h.1 hs

/-- Cells stay in use where no level lost any. -/
theorem Active.mono (h : g.Active t p)
    (hon : ∀ n k q, (n, k) :: q <:+ p → g.On n k q → g'.On n k q) : g'.Active t p := by
  induction p with
  | nil => trivial
  | cons x p ih =>
    obtain ⟨hp, hn, hk, ho⟩ := h
    refine ⟨ih hp ?_, hn, hk, hon _ _ _ List.suffix_rfl ho⟩
    intro n k q hs
    exact hon n k q (hs.trans (List.suffix_cons _ _))

/-- What is in use has memory. -/
theorem Active.base_isSome (hs : g.Sound t) (h : g.Active t p) :
    (g.base p.region).isSome := by
  induction p with
  | nil => rfl
  | cons x p ih =>
    obtain ⟨n, k⟩ := x
    obtain ⟨hp, hn, -, ho⟩ := h
    rcases n.kinds with hc | ⟨axis, c, b, hc⟩ | hi
    · simp only [On, hc] at ho
      rw [Layout.region_pointer hc]
      exact ho
    · simp only [On, hc] at ho
      rw [Layout.region_dynamic hc]
      have hlen := Nat.lt_of_lt_of_le ho (hs.length_le p n)
      simpa [base] using Nat.div_lt_of_lt_mul hlen
    · rw [Layout.region_inline hi]
      exact ih hp

theorem Active.hasDatum (hs : g.Sound t) (h : g.Active t p)
    (hn : n ∈ t.childNodes (t.nodeAt p)) {f : Part} (hf : n.HasPart f) :
    g.HasDatum t (.part p n f) := ⟨⟨h.locates, hn, hf⟩, h.base_isSome hs⟩

theorem HasDatum.mono {f : Datum} (h : g.HasDatum t f)
    (hb : (g.base f.region).isSome → (g'.base f.region).isSome) : g'.HasDatum t f :=
  ⟨h.1, hb h.2⟩

/-- A list with elements lies in a cell in use. -/
theorem Sound.active_of_length (h : g.Sound t) (hlen : 0 < g.length p n) : g.Active t p := by
  refine (h.chunks_on (n := n) fun hc => ?_).1
  have hle := h.length_le p n
  rw [hc, List.length_nil, Nat.mul_zero] at hle
  omega

theorem start_of_base {r : Region} {a : Address} (h : g.base r = some a) :
    g.start r = a.toNat := by
  rw [start, h]
  rfl

/-- The same contents with other cells in use. -/
def setMask (g : Contents) (x : Position) (b : Bool) : Contents :=
  { g with mask := Function.update g.mask x b }

def setBlock (g : Contents) (x : Position) (a : Address) : Contents :=
  { g with block := Function.update g.block x (some a) }

def addChunk (g : Contents) (p : Position) (n : Node) (a : Address) : Contents :=
  { g with chunks := fun q m => if q = p ∧ m = n then g.chunks q m ++ [a] else g.chunks q m }

def setLength (g : Contents) (p : Position) (n : Node) (len : Nat) : Contents :=
  { g with length := fun q m => if q = p ∧ m = n then len else g.length q m }

def setWord (g : Contents) (p : Position) (n : Node) (w : Nat) : Contents :=
  { g with word := fun q m => if q = p ∧ m = n then w else g.word q m }

@[simp] theorem base_setMask (g : Contents) (x : Position) (b : Bool) :
    (g.setMask x b).base = g.base := by
  ext1 r
  cases r <;> rfl

@[simp] theorem base_setLength (g : Contents) (p : Position) (n : Node) (len : Nat) :
    (g.setLength p n len).base = g.base := by
  ext1 r
  cases r <;> rfl

@[simp] theorem base_setWord (g : Contents) (p : Position) (n : Node) (w : Nat) :
    (g.setWord p n w).base = g.base := by
  ext1 r
  cases r <;> rfl

theorem base_setBlock (g : Contents) (x : Position) (a : Address) :
    (g.setBlock x a).base = Function.update g.base (.block x) (some a) := by
  ext1 r
  cases r with
  | block y =>
    by_cases h : y = x
    · subst h
      simp [base, setBlock]
    · simp [base, setBlock, h]
  | _ => rfl

theorem base_addChunk (g : Contents) (p : Position) (n : Node) (a : Address) :
    (g.addChunk p n a).base =
      Function.update g.base (.chunk p n (g.chunks p n).length) (some a) := by
  ext1 r
  cases r with
  | chunk q m i =>
    by_cases h : q = p ∧ m = n
    · obtain ⟨rfl, rfl⟩ := h
      rcases Nat.lt_trichotomy i (g.chunks q m).length with hi | hi | hi
      · have : i ≠ (g.chunks q m).length := by omega
        simp [base, addChunk, this, List.getElem?_append_left hi]
      · subst hi
        simp [base, addChunk]
      · have : i ≠ (g.chunks q m).length := by omega
        rw [Function.update_of_ne (by simpa using this)]
        simp only [base, addChunk, and_self, if_true]
        rw [List.getElem?_eq_none (by simp; omega), List.getElem?_eq_none (by omega)]
    · rw [Function.update_of_ne (fun he => h (by simp_all))]
      simp only [base, addChunk, if_neg h]
  | _ => rfl

/-- Contents in which at least as much is in use. -/
structure Le (g g' : Contents) : Prop where
  mask : ∀ x, g.mask x = true → g'.mask x = true
  base : ∀ r, (g.base r).isSome → g'.base r = g.base r
  length : ∀ p n, g.length p n ≤ g'.length p n

theorem Le.refl (g : Contents) : g.Le g := ⟨fun _ h => h, fun _ _ => rfl, fun _ _ => Nat.le_refl _⟩

theorem Le.trans {g g' g'' : Contents} (h : g.Le g') (h' : g'.Le g'') : g.Le g'' := by
  refine ⟨fun x hx => h'.mask x (h.mask x hx), ?_, fun p n => Nat.le_trans (h.length p n) (h'.length p n)⟩
  intro r hr
  have h1 := h.base r hr
  rw [h'.base r (h1 ▸ hr), h1]

theorem Le.active (h : g.Le g') (ha : g.Active t p) : g'.Active t p := by
  refine ha.mono ?_
  intro n k q _ ho
  unfold On at *
  cases hc : n.container with
  | pointer =>
    simp only [hc] at ho ⊢
    have hb := h.base (.block ((n, k) :: q)) ho
    simp only [Contents.base] at hb
    rwa [hb]
  | bitmasked m =>
    simp only [hc] at ho ⊢
    exact h.mask _ ho
  | dynamic axis c b =>
    simp only [hc] at ho ⊢
    exact Nat.lt_of_lt_of_le ho (h.length q n)
  | _ => trivial

theorem Le.hasDatum (h : g.Le g') {f : Datum} (hf : g.HasDatum t f) : g'.HasDatum t f := by
  refine hf.mono fun hb => ?_
  rwa [h.base _ hb]

theorem Le.start_eq (h : g.Le g') {r : Region} (hr : (g.base r).isSome) :
    g'.start r = g.start r := by
  unfold start
  rw [h.base r hr]

theorem Le.cellStart_eq (hs : g.Sound t) (h : g.Le g')
    (ha : g.Active t p) : g'.cellStart p = g.cellStart p := by
  unfold cellStart
  rw [h.start_eq (ha.base_isSome hs)]

theorem le_setMask (g : Contents) (x : Position) : g.Le (g.setMask x true) := by
  refine ⟨?_, fun r _ => by rw [base_setMask], fun _ _ => Nat.le_refl _⟩
  intro y hy
  simp only [setMask, Function.update_apply]
  split
  · rfl
  · exact hy

theorem le_setBlock {a : Address} (h : g.block x = none) : g.Le (g.setBlock x a) := by
  refine ⟨fun _ hy => hy, ?_, fun _ _ => Nat.le_refl _⟩
  intro r hr
  rw [base_setBlock, Function.update_of_ne]
  rintro rfl
  simp [base, h] at hr

theorem le_addChunk (g : Contents) (p : Position) (n : Node) (a : Address) :
    g.Le (g.addChunk p n a) := by
  refine ⟨fun _ hy => hy, ?_, fun _ _ => Nat.le_refl _⟩
  intro r hr
  rw [base_addChunk, Function.update_of_ne]
  rintro rfl
  simp [base] at hr

theorem le_setLength {len : Nat} (h : g.length p n ≤ len) : g.Le (g.setLength p n len) := by
  refine ⟨fun _ hy => hy, fun r _ => by rw [base_setLength], ?_⟩
  intro q m
  simp only [setLength]
  split
  · rename_i he
    rw [he.1, he.2]
    exact h
  · exact Nat.le_refl _

theorem le_setWord (g : Contents) (p : Position) (n : Node) (w : Nat) : g.Le (g.setWord p n w) :=
  ⟨fun _ hy => hy, fun r _ => by rw [base_setWord], fun _ _ => Nat.le_refl _⟩

theorem Le.mask_on (h : g.Le g') (hs : g.Sound t) (hm : g.mask ((n, k) :: p) = true) :
    g'.Active t p ∧ n ∈ t.childNodes (t.nodeAt p) ∧ k < n.cells.toNat ∧
      ∃ m, n.container = .bitmasked m :=
  (hs.mask_on hm).imp_left h.active

theorem Le.block_on (h : g.Le g') (hs : g.Sound t) (hb : (g.block ((n, k) :: p)).isSome) :
    g'.Active t p ∧ n ∈ t.childNodes (t.nodeAt p) ∧ k < n.cells.toNat ∧ n.container = .pointer :=
  (hs.block_on hb).imp_left h.active

theorem Le.chunks_on (h : g.Le g') (hs : g.Sound t) (hc : g.chunks p n ≠ []) :
    g'.Active t p ∧ n ∈ t.childNodes (t.nodeAt p) ∧ ∃ axis c b, n.container = .dynamic axis c b :=
  (hs.chunks_on hc).imp_left h.active

theorem Le.word_on (h : g.Le g') (hs : g.Sound t) (hw : g.word p n ≠ 0) :
    g'.HasDatum t (.part p n .word) := h.hasDatum (hs.word_on hw)

theorem Sound.setMask (h : g.Sound t) (hp : g.Active t p) (hn : n ∈ t.childNodes (t.nodeAt p))
    (hk : k < n.cells.toNat) {m : UInt64} (hc : n.container = .bitmasked m) :
    (g.setMask ((n, k) :: p) true).Sound t := by
  have hle := le_setMask g ((n, k) :: p)
  refine ⟨?mask_on, ?mask_nil, hle.block_on h, h.block_nil, hle.chunks_on h, h.length_le,
    h.length_lt, hle.word_on h, h.word_lt⟩
  case mask_on =>
    intro n' k' p' hm
    simp only [Contents.setMask, Function.update_apply] at hm
    split at hm
    · rename_i he
      cases he
      exact ⟨hle.active hp, hn, hk, m, hc⟩
    · exact hle.mask_on h hm
  case mask_nil => simp [Contents.setMask, h.mask_nil]

theorem Sound.setBlock (h : g.Sound t) (hp : g.Active t p) (hn : n ∈ t.childNodes (t.nodeAt p))
    (hk : k < n.cells.toNat) (hc : n.container = .pointer) (hb : g.block ((n, k) :: p) = none)
    (a : Address) : (g.setBlock ((n, k) :: p) a).Sound t := by
  have hle := le_setBlock (a := a) hb
  refine ⟨hle.mask_on h, h.mask_nil, ?block_on, ?block_nil, hle.chunks_on h, h.length_le,
    h.length_lt, hle.word_on h, h.word_lt⟩
  case block_on =>
    intro n' k' p' hm
    simp only [Contents.setBlock, Function.update_apply] at hm
    split at hm
    · rename_i he
      cases he
      exact ⟨hle.active hp, hn, hk, hc⟩
    · exact hle.block_on h hm
  case block_nil => simp [Contents.setBlock, h.block_nil]

theorem Sound.addChunk (h : g.Sound t) (hp : g.Active t p) (hn : n ∈ t.childNodes (t.nodeAt p))
    {axis : Axis} {c : UInt32} {b : UInt64} (hc : n.container = .dynamic axis c b) (a : Address) :
    (g.addChunk p n a).Sound t := by
  have hle := le_addChunk g p n a
  refine ⟨hle.mask_on h, h.mask_nil, hle.block_on h, h.block_nil, ?chunks_on, ?length_le,
    h.length_lt, hle.word_on h, h.word_lt⟩
  case chunks_on =>
    intro n' p' hb
    simp only [Contents.addChunk] at hb
    split at hb
    · rename_i he
      obtain ⟨rfl, rfl⟩ := he
      exact ⟨hle.active hp, hn, axis, c, b, hc⟩
    · exact hle.chunks_on h hb
  case length_le =>
    intro q m
    have hl := h.length_le q m
    simp only [Contents.addChunk]
    split
    · refine Nat.le_trans hl (Nat.mul_le_mul_left _ ?_)
      simp
    · exact hl

theorem Sound.setLength (h : g.Sound t) {len : Nat} (hle : g.length p n ≤ len)
    (hl : len ≤ n.capacity * (g.chunks p n).length) (hlt : len < 2 ^ 32) :
    (g.setLength p n len).Sound t := by
  have hle := le_setLength hle
  refine ⟨hle.mask_on h, h.mask_nil, hle.block_on h, h.block_nil, hle.chunks_on h, ?length_le,
    ?length_lt, hle.word_on h, h.word_lt⟩
  case length_le =>
    intro q m
    simp only [Contents.setLength]
    split
    · rename_i he
      rw [he.1, he.2]
      exact hl
    · exact h.length_le q m
  case length_lt =>
    intro q m
    simp only [Contents.setLength]
    split
    · exact hlt
    · exact h.length_lt q m

theorem Sound.setWord (h : g.Sound t) (hf : g.HasDatum t (.part p n .word)) {w : Nat}
    (hw : w < 256 ^ n.bytes.toNat) : (g.setWord p n w).Sound t := by
  have hle := le_setWord g p n w
  refine ⟨hle.mask_on h, h.mask_nil, hle.block_on h, h.block_nil, hle.chunks_on h, h.length_le,
    h.length_lt, ?word_on, ?word_lt⟩
  case word_on =>
    intro m q hq
    simp only [Contents.setWord] at hq
    split at hq
    · rename_i he
      rw [he.1, he.2]
      exact hle.hasDatum hf
    · exact hle.word_on h hq
  case word_lt =>
    intro q m
    simp only [Contents.setWord]
    split
    · rename_i he
      rw [he.2]
      exact hw
    · exact h.word_lt q m

end Contents

end SparseLayout
