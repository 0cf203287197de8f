import SparseLayout.Proofs.Contents.View
import SparseLayout.Proofs.Coordinates
import SparseLayout.Proofs.Layout.Slot
import SparseLayout.Proofs.Store.Locate
import SparseLayout.Proofs.Store.Release
import Mathlib.Data.List.Forall2

namespace SparseLayout

open Layout (Node Datum Part)
open Layout.Node (addressSlot number)
open StoreM (Ends never)

variable {α β γ ε : Type}

/-- A loop that collects results has one for every entry, or stops at one that has none. -/
theorem mapM_cases {f : α → Except ε β} {R : α → β → Prop} {B : α → ε → Prop} {l : List α}
    (h : ∀ a ∈ l, (∃ b, f a = .ok b ∧ R a b) ∨ ∃ e, f a = .error e ∧ B a e) :
    (∃ bs, l.mapM f = .ok bs ∧ List.Forall₂ R l bs) ∨
      ∃ e, l.mapM f = .error e ∧ ∃ a ∈ l, B a e := by
  induction l with
  | nil => exact Or.inl ⟨[], rfl, .nil⟩
  | cons a l ih =>
    rw [List.mapM_cons]
    rcases h a List.mem_cons_self with ⟨b, hb, hr⟩ | ⟨e, he, hbad⟩
    · rw [hb]
      rcases ih fun a ha => h a (List.mem_cons_of_mem _ ha) with
        ⟨bs, hbs, hrs⟩ | ⟨e, he, a', ha', hbad⟩
      · exact Or.inl ⟨b :: bs, by rw [hbs]; rfl, .cons hr hrs⟩
      · exact Or.inr ⟨e, by rw [he]; rfl, a', List.mem_cons_of_mem _ ha', hbad⟩
    · exact Or.inr ⟨e, by rw [he]; rfl, a, List.mem_cons_self, hbad⟩

theorem exists_mapM {f : α → Except ε β} {R : α → β → Prop} {l : List α}
    (h : ∀ a ∈ l, ∃ b, f a = .ok b ∧ R a b) :
    ∃ bs, l.mapM f = .ok bs ∧ List.Forall₂ R l bs := by
  rcases mapM_cases (R := R) (B := fun _ _ => False) fun a ha => Or.inl (h a ha) with
    hbs | ⟨_, _, _, _, hbad⟩
  · exact hbs
  · exact hbad.elim

/-- What is left of related entries when some are dropped. -/
theorem exists_filterMap {f : β → Option γ} {P : α → γ → Prop} {Q : α → Prop} {l : List α}
    {bs : List β} (h : List.Forall₂ (fun a b =>
      (∃ c, f b = some c ∧ P a c) ∨ (f b = none ∧ ¬ Q a)) l bs) :
    ∃ as, as.Sublist l ∧ List.Forall₂ (fun c a => P a c) (bs.filterMap f) as ∧
      ∀ a ∈ l, Q a → a ∈ as := by
  induction h with
  | nil => exact ⟨[], .slnil, .nil, fun _ ha => by cases ha⟩
  | @cons a b l bs hab _ ih =>
    obtain ⟨as, hsub, has, hall⟩ := ih
    rcases hab with ⟨c, hc, hp⟩ | ⟨hnone, hq⟩
    · rw [List.filterMap_cons_some hc]
      refine ⟨a :: as, hsub.cons_cons a, .cons hp has, ?_⟩
      intro x hx hq
      rcases List.mem_cons.1 hx with rfl | hx
      · exact List.mem_cons_self
      · exact List.mem_cons_of_mem _ (hall x hx hq)
    · rw [List.filterMap_cons_none hnone]
      refine ⟨as, hsub.cons a, has, ?_⟩
      intro x hx hq'
      rcases List.mem_cons.1 hx with rfl | hx
      · exact absurd hq' hq
      · exact hall x hx hq'

namespace Layout

variable {t : Layout} {m p n : Node}

/-- The nodes follow one another down the tree. -/
def Chain (t : Layout) : Node → List Node → Prop
  | _, [] => True
  | p, n :: ns => n ∈ t.childNodes p ∧ t.Chain n ns

theorem chain_concat {ns : List Node} (h : t.Chain p ns)
    (hn : n ∈ t.childNodes ((ns.getLast?).getD p)) : t.Chain p (ns ++ [n]) := by
  induction ns generalizing p with
  | nil => exact ⟨hn, trivial⟩
  | cons m ns ih =>
    refine ⟨h.1, ih h.2 ?_⟩
    cases ns with
    | nil => exact hn
    | cons m' ns =>
      rw [List.getLast?_cons_cons] at hn
      cases hl : (m' :: ns).getLast? with
      | none => simp at hl
      | some l => rwa [hl] at hn

theorem Branching.getLast_branch (h : t.Branching) (hn : t.Has n) :
    ((t.branch n.id).getLast?).getD t.rootNode = n := by
  refine h.induction (motive := fun n => ((t.branch n.id).getLast?).getD t.rootNode = n) ?_ ?_ hn
  · rw [h.branch_root]
    rfl
  · intro p n hp hnp _
    rw [h.branch_child hp hnp, List.getLast?_concat]
    rfl

theorem Branching.chain_branch (h : t.Branching) (hn : t.Has n) :
    t.Chain t.rootNode (t.branch n.id) := by
  refine h.induction (motive := fun n => t.Chain t.rootNode (t.branch n.id)) ?_ ?_ hn
  · rw [h.branch_root]
    trivial
  · intro p n hp hnp ih
    rw [h.branch_child hp hnp]
    exact chain_concat ih (by rwa [h.getLast_branch hp])

/-- The position lies below another one, along these nodes. -/
def Along : List Node → Position → Position → Prop
  | [], x, q => q = x
  | n :: ns, x, q => ∃ k, Along ns ((n, k) :: x) q

theorem Along.suffix {ns : List Node} {x q : Position} (h : Along ns x q) : x <:+ q := by
  induction ns generalizing x with
  | nil =>
    cases h
    exact List.suffix_rfl
  | cons n ns ih =>
    obtain ⟨k, hk⟩ := h
    exact (List.suffix_cons _ _).trans (ih hk)

theorem Along.length_eq {ns : List Node} {x q : Position} (h : Along ns x q) :
    q.length = x.length + ns.length := by
  induction ns generalizing x with
  | nil =>
    cases h
    rfl
  | cons n ns ih =>
    obtain ⟨k, hk⟩ := h
    rw [ih hk, List.length_cons, List.length_cons]
    omega

theorem Along.concat {ns : List Node} {x q : Position} (h : Along ns x q) (n : Node) (k : Nat) :
    Along (ns ++ [n]) x ((n, k) :: q) := by
  induction ns generalizing x with
  | nil =>
    cases h
    exact ⟨k, rfl⟩
  | cons m ns ih =>
    obtain ⟨j, hj⟩ := h
    exact ⟨j, ih hj⟩

/-- Every node on the way has a cell there. -/
theorem Along.exists_suffix {ns : List Node} {x q : Position} (h : Along ns x q) (hn : n ∈ ns) :
    ∃ k r, (n, k) :: r <:+ q := by
  induction ns generalizing x with
  | nil => cases hn
  | cons m ns ih =>
    obtain ⟨k, hk⟩ := h
    rcases List.mem_cons.1 hn with rfl | hn
    · exact ⟨k, x, hk.suffix⟩
    · exact ih hk hn

theorem Locates.along (ht : t.WellFormed) {q : Position} (h : t.Locates q) :
    Along (t.branch (t.nodeAt q).id) [] q := by
  induction q with
  | nil =>
    rw [show t.nodeAt [] = t.rootNode from rfl, ht.branch_root]
    rfl
  | cons x q ih =>
    obtain ⟨n, k⟩ := x
    rw [show t.nodeAt ((n, k) :: q) = n from rfl, ht.branch_child (h.1.has ht) h.2.1]
    exact (ih h.1).concat n k

theorem WellFormed.parentBranch_eq (ht : t.WellFormed) (hp : t.Has p) (hn : n ∈ t.childNodes p) :
    t.parentBranch n = t.branch p.id := by
  rw [parentBranch, ht.branch_child hp hn, List.dropLast_concat]

theorem WellFormed.parentBranch_root (ht : t.WellFormed) (hn : t.Has n) (h0 : n.id = 0) :
    t.parentBranch n = [] := by
  rw [hn.eq_of_id ht.has_root (h0.trans ht.root_id.symm), parentBranch, ht.branch_root]
  rfl

/-- Containers of sparse nodes take memory even where their cells take none. -/
theorem WellFormed.bytes_pos_of_sparse (ht : t.WellFormed) (hn : t.Has n)
    (hs : n.type.isSparse = true) : 0 < n.bytes.toNat := by
  have hsize := ht.sized hn
  have hnum := ht.numbers_number hn n 0
  rcases (ht.isSparse_iff hn).1 hs with hc | ⟨m, hc⟩ | ⟨axis, cap, bytes, hc⟩
  · simp only [Node.Sized, Node.Numbers, hc] at hsize hnum
    omega
  · simp only [Node.Sized, Node.Numbers, hc] at hsize hnum
    omega
  · simp only [Node.Sized, hc] at hsize
    omega

theorem WellFormed.bytes_pos (ht : t.WellFormed) (hn : t.Has n) (hk : n.kind ≠ .root)
    (h : 0 < n.cellSize.toNat) : 0 < n.bytes.toNat := by
  by_cases hi : n.isInline
  · have hle := ht.cell_le hn hi (ht.numbers_number hn n 0) hk
    omega
  · exact ht.bytes_pos_of_sparse hn (ht.sparse_of_not_isInline hn hi)

/-- Around cells of some size all cells have some size. -/
theorem Above.cellSize_pos (ht : t.WellFormed) (h : t.Above m n) (hn : t.Has n)
    (hpos : 0 < n.cellSize.toNat) : 0 < m.cellSize.toNat := by
  induction h with
  | refl => exact hpos
  | step hp hn' _ ih =>
    have hbytes := ht.bytes_pos hn (ht.kind_ne_root hp hn') hpos
    have hle := ht.slot_le hp hn'
    exact ih hp (by omega)

/-- Around a container of some size all cells have some size. -/
theorem WellFormed.cellSize_pos (ht : t.WellFormed) (hp : t.Has p) (hn : n ∈ t.childNodes p)
    (hb : 0 < n.bytes.toNat) {m : Node} (hm : m ∈ t.branch p.id) : 0 < m.cellSize.toNat := by
  have hle := ht.slot_le hp hn
  exact ((ht.above_iff hp).2 (Or.inr hm)).cellSize_pos ht hp (by omega)

theorem Above.bytes_pos (ht : t.WellFormed) (h : t.Above m n) (hn : t.Has n) (hm : m.kind ≠ .root)
    (hb : 0 < n.bytes.toNat) : 0 < m.bytes.toNat := by
  cases h with
  | refl => exact hb
  | step hp hn' h =>
    have hle := ht.slot_le hp hn'
    exact ht.bytes_pos (h.has hp) hm (h.cellSize_pos ht hp (by omega))

end Layout

/-- Wherever a way down from `x` comes to cells side by side, they are few enough to be listed. -/
def View.Countable (v : View) (t : Layout) : List Node → Position → Prop
  | [], _ => True
  | m :: ns, x => (m.container = .dense → m.cells.toNat ≤ maxAddresses) ∧
      ∀ k, v.Active t ((m, k) :: x) → v.Countable t ns ((m, k) :: x)

/-- Below a word no cells lie side by side. -/
theorem Layout.Chain.countable {t : Layout} {v : View} {p : Node} {ns : List Node} {x : Position}
    (ht : t.WellFormed) (hp : t.Has p) (hw : p.isWord) (h : t.Chain p ns) :
    v.Countable t ns x := by
  induction ns generalizing p x with
  | nil => trivial
  | cons m ns ih =>
    have hplace := (ht.below_word hp h.1 hw).2.1
    refine ⟨fun hc => ?_, fun k _ => ih (ht.has_child h.1) (Or.inr (Or.inr hplace)) h.2⟩
    rw [hplace] at hc
    cases hc

/-- The addresses are those of the containers of `n` in active cells along a way down from `x`, each
once, and of all of them where cells lie side by side or in blocks. -/
def Contents.Finds (g : Contents) (t : Layout) (n : Node) (ns : List Node) (x : Position)
    (as : List Address) : Prop :=
  ∃ qs : List Position, qs.Nodup ∧
    List.Forall₂ (fun a q => g.Active t q ∧ Layout.Along ns x q ∧
      n ∈ t.childNodes (t.nodeAt q) ∧ a.toNat = g.cellStart q + n.offset.toNat) as qs ∧
    ((∀ m ∈ ns, ¬ m.isWord) → ∀ q, g.Active t q → Layout.Along ns x q → q ∈ qs)

/-- The addresses are those of the active cells of a container, each once, and of all of them where
cells lie side by side or in blocks. -/
def Contents.Enumerates (g : Contents) (t : Layout) (n : Node) (x : Position) (as : List Address) :
    Prop :=
  ∃ ks : List Nat, ks.Nodup ∧
    List.Forall₂ (fun a k => g.Active t ((n, k) :: x) ∧ a.toNat = g.cellStart ((n, k) :: x)) as ks ∧
    (¬ n.isWord → ∀ k, g.Active t ((n, k) :: x) → k ∈ ks)

namespace Layout.Node

variable {n : Node}

theorem toNat_ofNat_cell {k : Nat} (hk : k < n.cells.toNat) : (UInt64.ofNat k).toNat = k :=
  UInt64.toNat_ofNat_of_lt' (Nat.lt_trans hk n.cells.toNat_lt)

theorem mem_cellNumbers {lin : UInt64} : lin ∈ n.cellNumbers ↔ lin.toNat < n.cells.toNat := by
  unfold cellNumbers
  constructor
  · intro hl
    obtain ⟨k, hk, rfl⟩ := List.mem_map.1 hl
    rw [toNat_ofNat_cell (List.mem_range.1 hk)]
    exact List.mem_range.1 hk
  · intro hlt
    exact List.mem_map.2 ⟨lin.toNat, List.mem_range.2 hlt, UInt64.ofNat_toNat⟩

theorem nodup_cellNumbers (n : Node) : n.cellNumbers.Nodup := by
  refine List.Nodup.map_on ?_ List.nodup_range
  intro c hc d hd he
  rw [← toNat_ofNat_cell (List.mem_range.1 hc), he, toNat_ofNat_cell (List.mem_range.1 hd)]

end Layout.Node

namespace Contents

variable {t : Layout} {g : Contents} {n : Node} {x : Position}

/-- Cells whose numbers are picked from those of all cells, so that none in use is left out. -/
theorem enumerates_of_sublist {as : List Address} {ls : List UInt64}
    (hi : ∀ k, n.Numbers k ↔ k < n.cells.toNat) (hsub : ls.Sublist n.cellNumbers)
    (h₁ : List.Forall₂ (fun a (l : UInt64) => g.Active t ((n, l.toNat) :: x) ∧
      a.toNat = g.cellStart ((n, l.toNat) :: x)) as ls)
    (h₂ : ∀ l ∈ n.cellNumbers, g.On n l.toNat x → l ∈ ls) : g.Enumerates t n x as := by
  have hinj : Function.Injective UInt64.toNat := fun _ _ he => UInt64.toNat_inj.1 he
  refine ⟨ls.map (·.toNat), (n.nodup_cellNumbers.sublist hsub).map hinj,
    List.forall₂_map_right_iff.2 h₁, ?_⟩
  rintro - k ⟨-, -, hk, hon⟩
  have hk64 := Node.toNat_ofNat_cell ((hi k).1 hk)
  refine List.mem_map.2 ⟨.ofNat k, h₂ _ ?_ (by rwa [hk64]), hk64⟩
  rw [Node.mem_cellNumbers, hk64]
  exact (hi k).1 hk

theorem enumerates_nil (hw : n.isWord) : g.Enumerates t n x [] :=
  ⟨[], List.nodup_nil, .nil, fun hnw => absurd hw hnw⟩

end Contents

theorem Store.activeCells_long (s : Store) {n : Node} (hc : n.container = .dense)
    (hlt : ¬ n.cells.toNat ≤ maxAddresses) (slot : Address) :
    s.activeCells n slot = .error (.refused (.panic .capacity)) := by
  simp only [Store.activeCells, hc, if_neg hlt]

namespace Store.Represents

variable {s : Store} {t : Layout} {g : Contents} {x : Position} {n : Node} {slot cell : Address}
  (ht : t.WellFormed) (h : s.Represents t g) (hx : g.Active t x)

include ht h hx

section

variable (hn : n ∈ t.childNodes (t.nodeAt x))
  (hslot : slot.toNat = g.cellStart x + n.offset.toNat)

include hn hslot

theorem activeCells_dense (hc : n.container = .dense) (hle : n.cells.toNat ≤ maxAddresses) :
    ∃ as, s.activeCells n slot = .ok as ∧ g.Enumerates t n x as := by
  simp only [Store.activeCells, hc, if_pos hle]
  refine ⟨_, rfl, Contents.enumerates_of_sublist (by simp [Node.Numbers, hc])
    (List.Sublist.refl n.cellNumbers) ?_ fun l hl _ => hl⟩
  rw [List.forall₂_map_left_iff]
  rw [List.forall₂_same]
  intro l hl
  have hnum : n.Numbers l.toNat := by simpa [Node.Numbers, hc] using Node.mem_cellNumbers.1 hl
  refine ⟨⟨hx, hn, hnum, by simp [Contents.On, hc]⟩, ?_⟩
  exact h.toNat_cellAt ht hx hn hslot (by simp [Node.isInline, hc]) hnum

/-- The cells whose mask bits are set. -/
theorem activeCells_bitmasked {m : UInt64} (hc : n.container = .bitmasked m) :
    ∃ as, s.activeCells n slot = .ok as ∧ g.Enumerates t n x as := by
  obtain ⟨os, hos, hrel⟩ := exists_mapM (l := n.cellNumbers)
    (f := fun lin => do
      let word ← s.load (maskWord slot m lin) 8
      return if word &&& maskBit lin = 0 then none else some (n.cellAt slot lin))
    (R := fun l o => (∃ a, id o = some a ∧ g.Active t ((n, l.toNat) :: x) ∧
      a.toNat = g.cellStart ((n, l.toNat) :: x)) ∨ (id o = none ∧ ¬ g.On n l.toNat x)) (by
    intro l hl
    have hlt := Node.mem_cellNumbers.1 hl
    have hnum : n.Numbers l.toNat := by simpa [Node.Numbers, hc] using hlt
    obtain ⟨w, hw, -, hbit⟩ := h.loadMask ht hx hn hslot hc hlt
    refine ⟨_, by rw [hw]; rfl, ?_⟩
    by_cases hset : w &&& maskBit l = 0
    · rw [if_pos hset]
      refine Or.inr ⟨rfl, ?_⟩
      simp only [Contents.On, hc]
      exact hbit.1 hset
    · rw [if_neg hset]
      refine Or.inl ⟨_, rfl, ⟨hx, hn, hnum, ?_⟩, ?_⟩
      · simp only [Contents.On, hc]
        exact Classical.not_not.1 fun hnot => hset (hbit.2 hnot)
      · exact h.toNat_cellAt ht hx hn hslot (by simp [Node.isInline, hc]) hnum)
  obtain ⟨ls, hsub, h₁, h₂⟩ := exists_filterMap hrel
  refine ⟨os.filterMap id, ?_,
    Contents.enumerates_of_sublist (by simp [Node.Numbers, hc]) hsub h₁ h₂⟩
  simp only [Store.activeCells, hc]
  rw [show List.mapM _ _ = _ from hos]
  rfl

/-- The blocks that entries point to. -/
theorem activeCells_pointer (hc : n.container = .pointer) :
    ∃ as, s.activeCells n slot = .ok as ∧ g.Enumerates t n x as := by
  obtain ⟨bs, hbs, hrel⟩ := exists_mapM (l := n.cellNumbers)
    (f := fun lin => s.link (addressSlot slot lin))
    (R := fun l b => (∃ a, Option.guard (! ·.isNull) b = some a ∧
      g.Active t ((n, l.toNat) :: x) ∧ a.toNat = g.cellStart ((n, l.toNat) :: x)) ∨
        (Option.guard (! ·.isNull) b = none ∧ ¬ g.On n l.toNat x)) (by
    intro l hl
    have hlt := Node.mem_cellNumbers.1 hl
    have hnum : n.Numbers l.toNat := by simpa [Node.Numbers, hc] using hlt
    obtain ⟨b, hb, hv⟩ := h.loadEntry ht hx hn hslot hc hlt
    have hnull := h.isNull_iff (r := .block ((n, l.toNat) :: x)) hv
    refine ⟨b, hb, ?_⟩
    by_cases hend : b.isNull = true
    · refine Or.inr ⟨by simp [Option.guard, hend], ?_⟩
      simp only [Contents.On, hc]
      exact hnull.1 hend
    · refine Or.inl ⟨b, by simp [Option.guard, hend], ⟨hx, hn, hnum, ?_⟩, ?_⟩
      · simp only [Contents.On, hc]
        exact Classical.not_not.1 fun hnot => hend (hnull.2 hnot)
      · unfold Contents.cellStart
        rw [Layout.region_pointer hc]
        simp only [Position.offset, hc, Nat.add_zero]
        exact hv)
  obtain ⟨ls, hsub, h₁, h₂⟩ := exists_filterMap hrel
  rw [List.filterMap_eq_filter] at h₁
  refine ⟨bs.filter (! ·.isNull), ?_,
    Contents.enumerates_of_sublist (by simp [Node.Numbers, hc]) hsub h₁ h₂⟩
  simp only [Store.activeCells, hc, hbs]
  rfl

/-- The elements below the length of the list. -/
theorem activeCells_dynamic {axis : Axis} {cap : UInt32} {bytes : UInt64}
    (hc : n.container = .dynamic axis cap bytes) :
    ∃ as, s.activeCells n slot = .ok as ∧ g.Enumerates t n x as := by
  obtain ⟨len, hlen, hl⟩ := h.listLength ht hx hn hslot hc
  have hlt := h.sound.length_lt x n
  have hle := h.sound.length_le x n
  obtain ⟨as, has, hrel⟩ := exists_mapM (l := List.range len.toNat)
    (f := fun e => s.element n slot (.ofNat e))
    (R := fun k a => g.Active t ((n, k) :: x) ∧ a.toNat = g.cellStart ((n, k) :: x)) (by
    intro k hk
    have hk := List.mem_range.1 hk
    have hk64 : (UInt64.ofNat k).toNat = k := UInt64.toNat_ofNat_of_lt' (by
      unfold UInt64.size
      omega)
    obtain ⟨b, hb, hbn⟩ := h.element ht hx hn hslot hc (e := .ofNat k) (by omega)
    rw [hk64] at hbn
    refine ⟨b, hb, ⟨hx, hn, by simp [Node.Numbers, hc], ?_⟩, hbn⟩
    simp only [Contents.On, hc]
    omega)
  refine ⟨as, ?_, List.range len.toNat, List.nodup_range, hrel.flip, ?_⟩
  · simp only [Store.activeCells, hc]
    rw [hlen]
    exact has
  · rintro - k ⟨-, -, -, hon⟩
    simp only [Contents.On, hc] at hon
    exact List.mem_range.2 (by omega)

/-- The active cells of a container, each with its address. -/
theorem activeCells (hle : n.container = .dense → n.cells.toNat ≤ maxAddresses) :
    ∃ as, s.activeCells n slot = .ok as ∧ g.Enumerates t n x as := by
  cases hc : n.container with
  | dense => exact h.activeCells_dense ht hx hn hslot hc (hle hc)
  | bitmasked m => exact h.activeCells_bitmasked ht hx hn hslot hc
  | pointer => exact h.activeCells_pointer ht hx hn hslot hc
  | dynamic axis cap bytes => exact h.activeCells_dynamic ht hx hn hslot hc
  | root =>
    have hroot := ht.kind_ne_root (hx.locates.has ht) hn
    exact absurd hc (ht.container_ne_root (ht.has_child hn) hroot)
  | bitStruct | bitArray | place =>
    exact ⟨[], by simp only [Store.activeCells, hc],
      Contents.enumerates_nil (by simp [Node.isWord, hc])⟩

theorem enumerates_of_activeCells {as : List Address} (has : s.activeCells n slot = .ok as) :
    g.Enumerates t n x as := by
  by_cases hle : n.container = .dense → n.cells.toNat ≤ maxAddresses
  · obtain ⟨as', has', hcells⟩ := h.activeCells ht hx hn hslot hle
    cases has.symm.trans has'
    exact hcells
  · rw [Classical.not_imp] at hle
    cases has.symm.trans (s.activeCells_long hle.1 hle.2 slot)

end

/-- Cells that take memory are few enough to be listed. -/
theorem cells_le (hn : n ∈ t.childNodes (t.nodeAt x)) (hc : n.container = .dense)
    (hpos : 0 < n.cellSize.toNat) : n.cells.toNat ≤ maxAddresses := by
  have hend := h.cell_end_le ht hx
  have hle := ht.slot_le (hx.locates.has ht) hn
  have hsize := ht.sized (ht.has_child hn)
  simp only [Node.Sized, hc] at hsize
  have hcells := Nat.le_mul_of_pos_right n.cells.toNat hpos
  unfold maxAddresses
  omega

omit ht h hx in
/-- What is found below each cell of a container makes up what is found below them all. -/
theorem finds_flatten {m : Node} {ns : List Node} {cells : List Address} {ks : List Nat}
    {ass : List (List Address)} (hnodup : ks.Nodup)
    (hks : List.Forall₂ (fun a k => g.Active t ((m, k) :: x) ∧
      a.toNat = g.cellStart ((m, k) :: x)) cells ks)
    (hrel : List.Forall₂ (fun a as => ∀ k, g.Active t ((m, k) :: x) →
      a.toNat = g.cellStart ((m, k) :: x) → g.Finds t n ns ((m, k) :: x) as) cells ass)
    (hall : ¬ m.isWord → ∀ k, g.Active t ((m, k) :: x) → k ∈ ks) :
    g.Finds t n (m :: ns) x ass.flatten := by
  suffices h : ∃ qs : List Position, qs.Nodup ∧
      (∀ q ∈ qs, ∃ k ∈ ks, Layout.Along ns ((m, k) :: x) q) ∧
      List.Forall₂ (fun a q => g.Active t q ∧ Layout.Along (m :: ns) x q ∧
        n ∈ t.childNodes (t.nodeAt q) ∧ a.toNat = g.cellStart q + n.offset.toNat)
          ass.flatten qs ∧
      ((∀ m ∈ ns, ¬ m.isWord) → ∀ k ∈ ks, ∀ q, g.Active t q →
        Layout.Along ns ((m, k) :: x) q → q ∈ qs) by
    obtain ⟨qs, hqs, -, h₁, h₂⟩ := h
    refine ⟨qs, hqs, h₁, ?_⟩
    rintro hw q hq ⟨k, hk⟩
    refine h₂ (fun m hm => hw m (by simp [hm])) k ?_ q hq hk
    exact hall (hw m (by simp)) k (hq.suffix hk.suffix)
  clear hall
  induction hrel generalizing ks with
  | nil =>
    cases hks
    exact ⟨[], List.nodup_nil, by simp, .nil, by simp⟩
  | @cons a as cells ass hr _ ih =>
    cases hks with
    | @cons _ k _ ks h₁ hks =>
      obtain ⟨hk, hnodup⟩ := List.nodup_cons.1 hnodup
      obtain ⟨qs, hqs, hq₁, hq₂⟩ := hr k h₁.1 h₁.2
      obtain ⟨qs', hqs', hal', hq₁', hq₂'⟩ := ih hnodup hks
      have hal : ∀ q ∈ qs, Layout.Along ns ((m, k) :: x) q := by
        intro q hq
        obtain ⟨i, hi, rfl⟩ := List.getElem_of_mem hq
        exact ((List.forall₂_iff_get.1 hq₁).2 i (hq₁.length_eq ▸ hi) hi).2.1
      refine ⟨qs ++ qs', ?_, ?_, ?_, ?_⟩
      · -- below different cells lie different cells
        refine List.nodup_append.2 ⟨hqs, hqs', ?_⟩
        rintro q hq q' hq' rfl
        obtain ⟨j, hj, hqj⟩ := hal' q hq'
        have hlen : ((m, k) :: x).length = ((m, j) :: x).length := rfl
        have he := List.IsSuffix.eq_of_length (List.suffix_of_suffix_length_le (hal q hq).suffix
          hqj.suffix (Nat.le_of_eq hlen)) hlen
        cases he
        exact hk hj
      · intro q hq
        rcases List.mem_append.1 hq with hq | hq
        · exact ⟨k, List.mem_cons_self, hal q hq⟩
        · obtain ⟨j, hj, hqj⟩ := hal' q hq
          exact ⟨j, List.mem_cons_of_mem _ hj, hqj⟩
      · rw [List.flatten_cons]
        refine List.rel_append (hq₁.imp ?_) hq₁'
        exact fun _ _ ⟨hq, hal, hn, ha⟩ => ⟨hq, ⟨k, hal⟩, hn, ha⟩
      · intro hw j hj q hq hqj
        rcases List.mem_cons.1 hj with rfl | hj
        · exact List.mem_append_left _ (hq₂ hw q hq hqj)
        · exact List.mem_append_right _ (hq₂' hw j hj q hq hqj)

/-- The containers of the node at the end of a way, one in every active cell around it; or the way
comes to more cells side by side than can be listed. -/
theorem slots_cases {ns : List Node} (hns : t.Chain (t.nodeAt x) ns)
    (hn : n ∈ t.childNodes ((ns.getLast?).getD (t.nodeAt x))) (hcell : cell.toNat = g.cellStart x) :
    (∃ as, s.slots (ns ++ [n]) cell = .ok as ∧ g.view.Countable t ns x ∧ g.Finds t n ns x as) ∨
      s.slots (ns ++ [n]) cell = .error (.refused (.panic .capacity)) ∧
        ¬ g.view.Countable t ns x := by
  induction ns generalizing x cell with
  | nil =>
    refine Or.inl ⟨[cell.add n.offset], rfl, trivial, [x], List.nodup_singleton x, ?_, ?_⟩
    · exact .cons ⟨hx, rfl, hn, h.toNat_slot ht hx hn hcell⟩ .nil
    · rintro - q - rfl
      exact List.mem_singleton.2 rfl
  | cons m ns ih =>
    obtain ⟨hm, hns⟩ := hns
    have hlast : n ∈ t.childNodes ((ns.getLast?).getD m) := by
      rwa [List.getLast?_cons] at hn
    have hslots : s.slots ((m :: ns) ++ [n]) cell = (do
        let cells ← s.activeCells m (cell.add m.offset)
        return (← cells.mapM (s.slots (ns ++ [n]))).flatten) := by
      rw [List.cons_append, Store.slots]
      simp
    rw [hslots]
    by_cases hle : m.container = .dense → m.cells.toNat ≤ maxAddresses
    · obtain ⟨cells, hcells, ks, hnodup, hks, hall⟩ :=
        h.activeCells ht hx hm (h.toNat_slot ht hx hm hcell) hle
      rw [hcells]
      -- below every active cell of `m` the way goes on
      have hbelow : ∀ a ∈ cells, (∃ as, s.slots (ns ++ [n]) a = .ok as ∧
          ∀ k, g.Active t ((m, k) :: x) → a.toNat = g.cellStart ((m, k) :: x) →
            g.view.Countable t ns ((m, k) :: x) ∧ g.Finds t n ns ((m, k) :: x) as) ∨
          ∃ e, s.slots (ns ++ [n]) a = .error e ∧ e = .refused (.panic .capacity) ∧
            ∃ k, g.Active t ((m, k) :: x) ∧ ¬ g.view.Countable t ns ((m, k) :: x) := by
        intro a ha
        obtain ⟨i, hi, rfl⟩ := List.getElem_of_mem ha
        obtain ⟨hk, hka⟩ := (List.forall₂_iff_get.1 hks).2 i hi (hks.length_eq ▸ hi)
        rcases ih hk hns hlast hka with ⟨as, has, -⟩ | ⟨he, hnot⟩
        · refine Or.inl ⟨as, has, fun k hk hka => ?_⟩
          rcases ih hk hns hlast hka with ⟨as', has', hcount, hfinds⟩ | ⟨he, -⟩
          · cases has.symm.trans has'
            exact ⟨hcount, hfinds⟩
          · cases has.symm.trans he
        · exact Or.inr ⟨_, he, rfl, _, hk, hnot⟩
      rcases mapM_cases hbelow with ⟨ass, hass, hrel⟩ | ⟨_, he, a, -, rfl, k, hk, hnot⟩
      · refine Or.inl ⟨ass.flatten, ?_, ⟨hle, fun k hk => ?_⟩,
          finds_flatten hnodup hks (hrel.imp fun a as h k hk hka => (h k hk hka).2) hall⟩
        · simp only [bind, Except.bind, hass]
          rfl
        · by_cases hw : m.isWord
          · exact hns.countable ht (ht.has_child hm) hw
          · rw [← h.sound.active_iff] at hk
            obtain ⟨i, hi, rfl⟩ := List.getElem_of_mem (hall hw k hk)
            have hi' : i < cells.length := hks.length_eq ▸ hi
            have hka := ((List.forall₂_iff_get.1 hks).2 i hi' hi).2
            exact ((List.forall₂_iff_get.1 hrel).2 i hi' (hrel.length_eq ▸ hi') _ hk hka).1
      · refine Or.inr ⟨?_, fun hcount => hnot (hcount.2 k (h.sound.active_iff.1 hk))⟩
        simp only [bind, Except.bind, he]
    · refine Or.inr ⟨?_, fun hcount => hle hcount.1⟩
      rw [Classical.not_imp] at hle
      rw [s.activeCells_long hle.1 hle.2]
      rfl

theorem countable {ns : List Node} (hns : t.Chain (t.nodeAt x) ns)
    (hpos : ∀ m ∈ ns, 0 < m.cellSize.toNat) : g.view.Countable t ns x := by
  induction ns generalizing x with
  | nil => trivial
  | cons m ns ih =>
    exact ⟨fun hc => h.cells_le ht hx hns.1 hc (hpos m List.mem_cons_self), fun k hk =>
      ih (h.sound.active_iff.2 hk) hns.2 fun m hm => hpos m (List.mem_cons_of_mem _ hm)⟩

omit hx

/-- The containers of a node are looked for from the root on. -/
theorem slots_root_cases {p : Node} (hp : t.Has p) (hn : n ∈ t.childNodes p) :
    (∃ as, s.slots (t.branch n.id) s.root = .ok as ∧ g.view.Countable t (t.branch p.id) [] ∧
      g.Finds t n (t.branch p.id) [] as) ∨
      s.slots (t.branch n.id) s.root = .error (.refused (.panic .capacity)) ∧
        ¬ g.view.Countable t (t.branch p.id) [] := by
  have hroot : s.root.toNat = g.cellStart [] := by
    rw [← h.root_eq]
    rfl
  rw [ht.branch_child hp hn]
  exact h.slots_cases ht (x := []) trivial (ht.chain_branch hp)
    (by rwa [show t.nodeAt [] = t.rootNode from rfl, ht.getLast_branch hp]) hroot

theorem finds_of_slots {p : Node} {as : List Address} (hp : t.Has p) (hn : n ∈ t.childNodes p)
    (has : s.slots (t.branch n.id) s.root = .ok as) : g.Finds t n (t.branch p.id) [] as := by
  rcases h.slots_root_cases ht hp hn with ⟨as', has', -, hfinds⟩ | ⟨he, -⟩
  · cases has.symm.trans has'
    exact hfinds
  · cases has.symm.trans he

theorem slots_root {p : Node} (hp : t.Has p) (hn : n ∈ t.childNodes p)
    (hcount : g.view.Countable t (t.branch p.id) []) :
    ∃ as, s.slots (t.branch n.id) s.root = .ok as ∧ g.Finds t n (t.branch p.id) [] as := by
  rcases h.slots_root_cases ht hp hn with ⟨as, has, -, hfinds⟩ | ⟨-, hnot⟩
  · exact ⟨as, has, hfinds⟩
  · exact absurd hcount hnot

/-- Nothing keeps the containers of a node that takes memory from being found. -/
theorem countable_of_bytes (hn : t.Has n) (hb : n.kind ≠ .root → 0 < n.bytes.toNat) :
    g.view.Countable t (t.parentBranch n) [] := by
  by_cases h0 : n.id = 0
  · rw [ht.parentBranch_root hn h0]
    trivial
  · obtain ⟨p, hp, hnp⟩ := ht.exists_parent hn h0
    rw [ht.parentBranch_eq hp hnp]
    exact h.countable ht (x := []) trivial (ht.chain_branch hp) fun _ hm =>
      ht.cellSize_pos hp hnp (hb (ht.kind_ne_root hp hnp)) hm

theorem countable_of_sparse (hn : t.Has n) (hs : n.type.isSparse = true) :
    g.view.Countable t (t.parentBranch n) [] :=
  h.countable_of_bytes ht hn fun _ => ht.bytes_pos_of_sparse hn hs

/-- Containers in cells of one level are cleared one after the other. -/
theorem releaseAll (hn : t.Has n) {as : List Address} {qs : List Position} {l : Nat}
    (hqs : List.Forall₂ (fun a q => g.Active t q ∧ q.length = l ∧
      n ∈ t.childNodes (t.nodeAt q) ∧ a.toNat = g.cellStart q + n.offset.toNat) as qs) :
    Ends (as.forM (StoreM.releaseContainer t n)) s
      (fun _ s => s.Represents t (g.forget {y | ∃ q ∈ qs, y ∈ q.Inside n})) never := by
  induction as generalizing s g qs with
  | nil =>
    cases hqs
    refine StoreM.ends_pure ?_
    have he : {y : Position | ∃ q ∈ ([] : List Position), y ∈ q.Inside n} = ∅ := by
      ext y
      simp
    rwa [he, Contents.forget_empty]
  | cons a as ih =>
    cases hqs with
    | @cons _ q _ qs hq hqs =>
      obtain ⟨hactive, hlen, hnq, ha⟩ := hq
      refine Ends.bind ((StoreM.releaseContainer_clears ht hn h hactive hnq ha).imp ?_)
      intro _ s' h'
      have hD := closed_inside q n
      have hrest := ih h' (hqs.imp (S := fun a q' => (g.forget (q.Inside n)).Active t q' ∧
          q'.length = l ∧ n ∈ t.childNodes (t.nodeAt q') ∧
            a.toNat = (g.forget (q.Inside n)).cellStart q' + n.offset.toNat) (by
        rintro a' q' ⟨hactive', hlen', hn', ha'⟩
        -- a cell of this level lies in no container of it
        have hnot : q' ∉ q.Inside n := by
          rintro ⟨k, hs⟩
          have := hs.length_le
          simp only [List.length_cons] at this
          omega
        exact ⟨hactive'.forget hD hnot, hlen', hn', by rwa [Contents.cellStart_forget g hD hnot]⟩))
      rw [Contents.forget_forget] at hrest
      have hset : {y | ∃ q' ∈ q :: qs, y ∈ q'.Inside n} =
          q.Inside n ∪ {y | ∃ q' ∈ qs, y ∈ q'.Inside n} := by
        ext y
        simp
      rwa [hset]

end Store.Represents

end SparseLayout
