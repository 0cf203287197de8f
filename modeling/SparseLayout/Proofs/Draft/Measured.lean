import SparseLayout.Proofs.Draft.Sizes

namespace SparseLayout

open Draft (Node)

/-- The computation gives what is expected where exact numbers are words. Where they are not, it is
refused, or it panics unless there is room for what is not checked. -/
def Follows (r : Except BuildError α) (words room : Prop) (P : α → Prop) : Prop :=
  match r with
  | .ok a => words ∧ P a
  | .error (.invalid _) => ¬ words
  | .error (.panic .overflow) => ¬ words ∧ ¬ room
  | .error _ => False

namespace Follows

variable {α β : Type} {r : Except BuildError α} {f : α → Except BuildError β} {o : Option α}
variable {words words' room room' : Prop} {P : α → Prop} {Q : β → Prop}

/-- An error stays what it is where more is asked for. -/
theorem error_mono {e : BuildError} (h : Follows (.error e : Except BuildError α) words room P)
    (hwords : words' → words) (hroom : room' → room) :
    Follows (.error e : Except BuildError β) words' room' Q := by
  unfold Follows at h ⊢
  split at h
  · rename_i he
    cases he
  · rename_i he
    cases he
    exact fun hw => h (hwords hw)
  · rename_i he
    cases he
    exact ⟨fun hw => h.1 (hwords hw), fun hr => h.2 (hroom hr)⟩
  · exact h.elim

theorem bind (h : Follows r words room P) (hwords : words' → words) (hroom : room' → room)
    (hf : ∀ a, words → P a → Follows (f a) words' room' Q) :
    Follows (r >>= f) words' room' Q := by
  cases r with
  | ok a => exact hf a h.1 h.2
  | error e => exact h.error_mono hwords hroom

theorem unchecked (hsome : ∀ a, o = some a → words ∧ P a) (hnone : o = none → ¬ words ∧ ¬ room) :
    Follows (unchecked o) words room P := by
  cases o with
  | some a => exact hsome a rfl
  | none => exact hnone rfl

theorem ok (h : Follows r words room P) (hw : words) : ∃ a, r = .ok a ∧ P a := by
  cases r with
  | ok a => exact ⟨a, rfl, h.2⟩
  | error e =>
    unfold Follows at h
    split at h
    · rename_i he
      cases he
    · exact absurd hw h
    · exact absurd hw h.1
    · exact h.elim

theorem error (h : Follows r words room P) (hw : ¬ words) :
    (∃ cause, r = .error (.invalid cause)) ∨ r = .error (.panic .overflow) ∧ ¬ room := by
  unfold Follows at h
  split at h
  · exact absurd h.1 hw
  · exact .inl ⟨_, rfl⟩
  · exact .inr ⟨rfl, h.2⟩
  · exact h.elim

end Follows

theorem mulSize_follows (a b : UInt64) (room : Prop) :
    Follows (mulSize a b) (a.toNat * b.toNat < UInt64.size) room
      fun c => c.toNat = a.toNat * b.toNat := by
  unfold mulSize
  split <;> rename_i h
  · have hc := checkedMul_eq_some_iff.1 h
    exact ⟨hc ▸ UInt64.toNat_lt _, hc⟩
  · exact Nat.not_lt.2 (checkedMul_eq_none_iff.1 h)

theorem addSize_follows (a b : UInt64) (room : Prop) :
    Follows (addSize a b) (a.toNat + b.toNat < UInt64.size) room
      fun c => c.toNat = a.toNat + b.toNat := by
  unfold addSize
  split <;> rename_i h
  · exact ⟨h, (UInt64.toNat_add a b).trans (Nat.mod_eq_of_lt h)⟩
  · exact h

/-- The number of alignments that a rounded size takes. -/
theorem Alignment.toNat_mul_bytes (a : Alignment) (v : UInt64) :
    (if v % a.bytes = 0 then v / a.bytes else v / a.bytes + 1).toNat * a.bytes.toNat =
      ceilTo a.bytes.toNat v.toNat := by
  have hv := v.toNat_lt
  unfold ceilTo
  have hmod : v % a.bytes = 0 ↔ v.toNat % a.bytes.toNat = 0 := by
    rw [← UInt64.toNat_inj, UInt64.toNat_mod]
    rfl
  rcases a.toNat_bytes with hb | hb | hb | hb <;>
    split <;> rename_i h <;> rw [hmod, hb] at h <;>
      simp only [UInt64.toNat_add, UInt64.toNat_div, UInt64.toNat_one, hb] <;> omega

theorem Alignment.roundUp_follows (a : Alignment) (v : UInt64) :
    Follows (unchecked (a.roundUp v)) (ceilTo a.bytes.toNat v.toNat < UInt64.size)
      (Rounds a.bytes.toNat v.toNat) fun c => c.toNat = ceilTo a.bytes.toNat v.toNat := by
  unfold roundUp
  rw [← a.toNat_mul_bytes v]
  refine .unchecked (fun c hc => ?_) fun hnone => ?_
  · have hmul := checkedMul_eq_some_iff.1 hc
    exact ⟨hmul ▸ c.toNat_lt, hmul⟩
  · have hle := Nat.not_lt.2 (checkedMul_eq_none_iff.1 hnone)
    refine ⟨hle, fun hr => hle ?_⟩
    rw [a.toNat_mul_bytes]
    exact hr v.toNat_lt

/-- The cells of a node are counted exactly, or the count panics. -/
theorem IndexSpace.Peopled.follows {s : IndexSpace} (h : s.Peopled) :
    Follows (unchecked s.paddedCells) (s.exactCells < UInt64.size) (s.exactCells < UInt64.size)
      fun c => c.toNat = s.exactCells := by
  refine .unchecked (fun c hc => ?_) fun hnone => ?_
  · have hcells := toNat_of_paddedCells hc
    exact ⟨hcells ▸ c.toNat_lt, hcells⟩
  · have hle := Nat.not_lt.2 (h.paddedCells_eq_none_iff.1 hnone)
    exact ⟨hle, hle⟩

theorem lt_of_toNat_eq {v : UInt64} {n : Nat} (h : v.toNat = n) : n < UInt64.size := h ▸ v.toNat_lt

theorem toNat_wordBytes (w : UInt32) : ((w / 8).toUInt64).toNat = w.toNat / 8 := by
  rw [UInt32.toNat_toUInt64, UInt32.toNat_div]
  rfl

/-- Words are aligned to their size. -/
theorem toNat_bytes_ofWord {w : UInt32} (hw : w ∈ [8, 16, 32, 64]) :
    (Alignment.ofSize (w / 8)).bytes.toNat = w.toNat / 8 := by
  simp only [List.mem_cons, List.not_mem_nil, or_false] at hw
  rcases hw with rfl | rfl | rfl | rfl <;> exact Alignment.toNat_bytes_ofSize (by decide)

/-- Scalars are aligned to their size. -/
theorem toNat_bytes_ofScalar (t : DataType) :
    (Alignment.ofSize (t.byteSize.getD 0)).bytes.toNat = max (t.byteSize.getD 0).toNat 1 := by
  apply Alignment.toNat_bytes_ofSize
  cases t with
  | int w | uint w => cases w <;> decide
  | half | single | double => decide
  | quantInt bits signed | quantFloat digits exponent => exact List.mem_cons_self

theorem toNat_bytes_max (a b : Alignment) :
    (a.max b).bytes.toNat = max a.bytes.toNat b.bytes.toNat := by
  cases a <;> cases b <;> decide

theorem toNat_maskBytes (cells : UInt64) :
    (maskWords cells * 8).toNat = 8 * ((cells.toNat + 63) / 64) := by
  have hlt := cells.toNat_lt
  unfold maskWords
  rw [UInt64.toNat_mul]
  split <;> rename_i hz
  · have := congrArg UInt64.toNat hz
    simp at this
    rw [UInt64.toNat_div]
    simp
    omega
  · have : cells.toNat % 64 ≠ 0 := fun h0 => hz (UInt64.toNat_inj.1 (by simpa using h0))
    rw [UInt64.toNat_add, UInt64.toNat_div]
    simp
    omega

/-- The compiled sizes are the exact ones. -/
structure Measure.Agrees (m : Measure) (e : ExactSize) : Prop where
  cells : m.cells.toNat = e.cells
  cellSize : m.cellSize.toNat = e.cellSize
  bytes : m.bytes.toNat = e.bytes
  align : m.align.bytes.toNat = e.align

/-- The encoding is the one for the kind, with the exact sizes. -/
def Container.Exact (c : Container) (packing : Packing) (kind : Kind) (cells cellSize : Nat) : Prop :=
  match kind, c with
  | .root, .root | .dense _, .dense | .pointer _, .pointer | .bitStruct _, .bitStruct
  | .bitArray _ _, .bitArray | .place _, .place => True
  | .bitmasked _, .bitmasked maskOffset => maskOffset.toNat = ceilTo 8 (cells * cellSize)
  | .dynamic axis _ chunk, .dynamic axis' capacity chunkBytes =>
    axis' = axis ∧ capacity = packing.extent chunk ∧
      chunkBytes.toNat = 8 + (packing.extent chunk).toNat * cellSize
  | _, _ => False

/-- The sizes of a node are the exact ones. -/
structure Measure.Exact (m : Measure) (packing : Packing) (underBits : Bool) (node : Node)
    (children : List ExactSize) : Prop where
  agrees : m.Agrees (.ofNode packing underBits node children)
  cellAlign : m.cellAlign.bytes.toNat = (ExactSize.cell underBits node.kind children).2
  container : m.container.Exact packing node.kind node.index.exactCells
    (ExactSize.cell underBits node.kind children).1
  childOffsets : m.childOffsets.map (·.toNat) = ExactSize.childOffsets node.kind children

namespace ExactSize

variable {underBits : Bool} {kind : Kind} {packing : Packing} {ms : List Measure}
variable {es : List ExactSize}

/-- Containers are put where the exact ones are. -/
theorem packSlots_follows (cursor : UInt64) (align : Alignment)
    (h : List.Forall₂ Measure.Agrees ms es) {room : Prop}
    (hroom : room → SlotsRound cursor.toNat align.bytes.toNat es) :
    Follows (packSlots cursor align ms)
      ((slots cursor.toNat align.bytes.toNat es).1 < UInt64.size) room fun s =>
        s.finish.toNat = (slots cursor.toNat align.bytes.toNat es).1 ∧
          s.align.bytes.toNat = (slots cursor.toNat align.bytes.toNat es).2 ∧
            s.offsets.map (·.toNat) = slotOffsets cursor.toNat es := by
  induction h generalizing cursor align with
  | nil => exact ⟨cursor.toNat_lt, rfl, rfl, rfl⟩
  | @cons m e ms es hme _ ih =>
    have hround := m.align.roundUp_follows cursor
    rw [hme.align] at hround
    refine hround.bind (fun hw => ?_) (fun hr => (hroom hr).1) ?_
    · calc ceilTo e.align cursor.toNat ≤ ceilTo e.align cursor.toNat + e.bytes :=
          Nat.le_add_right _ _
        _ ≤ (slots cursor.toNat align.bytes.toNat (e :: es)).1 := le_slots _ _ es
        _ < UInt64.size := hw
    intro offset _ hoff
    have hadd := addSize_follows offset m.bytes room
    rw [hoff, hme.bytes] at hadd
    refine hadd.bind (fun hw => Nat.lt_of_le_of_lt (le_slots _ _ es) hw) id ?_
    intro finish _ hfin
    have hmax := (toNat_bytes_max align m.align).trans (congrArg _ hme.align)
    have hpack := ih finish (align.max m.align) (by
      rw [hfin, hmax]
      exact fun hr => (hroom hr).2)
    rw [hfin, hmax] at hpack
    refine hpack.bind id id ?_
    rintro s hw ⟨hsf, hsa, hso⟩
    exact ⟨hw, hsf, hsa, congrArg₂ List.cons hoff hso⟩

theorem cellShape_follows (underBits : Bool) (h : List.Forall₂ Measure.Agrees ms es)
    (hk : kind.Valid) {room : Prop} (hroom : room → Holds kind → SlotsRound 0 1 es) :
    Follows (cellShape underBits kind ms) ((cell underBits kind es).1 < UInt64.size) room fun c =>
      c.size.toNat = (cell underBits kind es).1 ∧
        c.align.bytes.toNat = (cell underBits kind es).2 ∧
          c.childOffsets.map (·.toNat) = childOffsets kind es := by
  have hzero : 0 < UInt64.size := by decide
  -- the cell of an inner node ends where its last container does, rounded up
  have inner (hk : Holds kind) : Follows (do
      let slots ← packSlots 0 .one ms
      return CellShape.mk (← unchecked (slots.align.roundUp slots.finish)) slots.align
        slots.offsets)
      ((cell underBits kind es).1 < UInt64.size) room fun c =>
        c.size.toNat = (cell underBits kind es).1 ∧
          c.align.bytes.toNat = (cell underBits kind es).2 ∧
            c.childOffsets.map (·.toNat) = childOffsets kind es := by
    rw [cell_of_holds hk, childOffsets, if_pos hk]
    have hpack := packSlots_follows 0 .one h fun hr => hroom hr hk
    refine hpack.bind (fun hw => Nat.lt_of_le_of_lt (le_ceilTo _ _) hw) id ?_
    rintro s - ⟨hf, ha, ho⟩
    have hround := s.align.roundUp_follows s.finish
    rw [hf, ha] at hround
    refine hround.bind id (fun hr => (hroom hr hk).last) ?_
    exact fun size hw hsize => ⟨hw, hsize, ha, ho⟩
  cases kind with
  | root | dense ds | pointer ds | bitmasked ds | dynamic a dim chunk =>
    exact inner ⟨rfl, by simp [Kind.type]⟩
  | bitStruct width | bitArray ds width =>
    have hword := toNat_wordBytes width
    exact ⟨lt_of_toNat_eq hword, hword, toNat_bytes_ofWord (hk.width width rfl), rfl⟩
  | place info =>
    cases underBits with
    | true => exact ⟨hzero, rfl, rfl, rfl⟩
    | false =>
      have hbytes := UInt32.toNat_toUInt64 (info.member.dtype.byteSize.getD 0)
      exact ⟨lt_of_toNat_eq hbytes, hbytes, toNat_bytes_ofScalar _, rfl⟩

/-- The container has the exact size, and the exact chunks and mask. -/
theorem containerShape_follows (packing : Packing) (hk : kind.Valid) (cells : UInt64)
    (c : CellShape) {room : Prop}
    (hroom : room → kind.type = .bitmasked → Rounds 8 (cells.toNat * c.size.toNat)) :
    let exact := container packing kind cells.toNat (c.size.toNat, c.align.bytes.toNat)
    Follows (containerShape packing kind cells c)
      (exact.1 < UInt64.size ∧ exact.2.1 < UInt64.size) room
      fun k => k.1.Exact packing kind cells.toNat c.size.toNat ∧
        k.2.1.toNat = exact.1 ∧ k.2.2.bytes.toNat = exact.2.2 := by
  have hzero : 0 < UInt64.size := by decide
  cases kind with
  | root | place info => exact ⟨⟨c.size.toNat_lt, hzero⟩, trivial, rfl, rfl⟩
  | bitStruct width | bitArray ds width =>
    have hword := toNat_wordBytes width
    exact ⟨⟨lt_of_toNat_eq hword, hzero⟩, trivial, hword, toNat_bytes_ofWord (hk.width width rfl)⟩
  | dense ds =>
    -- one product, and nothing is added to it
    refine (mulSize_follows cells c.size room).bind And.left id ?_
    intro b hw hb
    exact ⟨⟨hw, hzero⟩, trivial, hb, rfl⟩
  | pointer ds =>
    refine (mulSize_follows cells addressBytes room).bind And.left id ?_
    intro b hw hb
    exact ⟨⟨hw, hzero⟩, trivial, hb, rfl⟩
  | bitmasked ds =>
    -- the cells are rounded up and the mask comes behind them, so the product is below the size
    have hround (hw : ceilTo 8 (cells.toNat * c.size.toNat) + 8 * ((cells.toNat + 63) / 64) <
        UInt64.size ∧ 0 < UInt64.size) : ceilTo 8 (cells.toNat * c.size.toNat) < UInt64.size :=
      Nat.lt_of_le_of_lt (Nat.le_add_right _ _) hw.1
    refine (mulSize_follows cells c.size room).bind ?_ id ?_
    · exact fun hw => Nat.lt_of_le_of_lt (le_ceilTo 8 _) (hround hw)
    intro p _ hp
    have hmask := Alignment.eight.roundUp_follows p
    rw [hp] at hmask
    refine hmask.bind hround (fun hr => hroom hr rfl) ?_
    intro maskOffset _ hmask
    have hadd := addSize_follows maskOffset (maskWords cells * 8) room
    rw [hmask, toNat_maskBytes] at hadd
    refine hadd.bind And.left id ?_
    intro b hw hb
    exact ⟨⟨hw, hzero⟩, hmask, hb, toNat_bytes_max _ _⟩
  | dynamic axis dim chunk =>
    have hcap : ((packing.extent chunk).toUInt64).toNat = (packing.extent chunk).toNat :=
      UInt32.toNat_toUInt64 _
    -- the link comes before the elements, so the product is below the size of the chunk
    have hmul := mulSize_follows (packing.extent chunk).toUInt64 c.size room
    rw [hcap] at hmul
    refine hmul.bind ?_ id ?_
    · exact fun hw => Nat.lt_of_le_of_lt (Nat.le_add_left _ 8) hw.2
    intro p _ hpn
    have hadd := addSize_follows chunkLinkBytes p room
    rw [hpn] at hadd
    refine hadd.bind And.right id ?_
    intro b hw hb
    have hheader : 16 < UInt64.size := by decide
    exact ⟨⟨hheader, hw⟩, ⟨rfl, rfl, hb⟩, rfl, rfl⟩

/-- A node is measured exactly, and not at all if one of its exact sizes is no word. -/
theorem measure_follows (packing : Packing) (underBits : Bool) {node : Node}
    (h : List.Forall₂ Measure.Agrees ms es) (hk : node.kind.Valid) (hpos : node.index.Peopled) :
    Follows (measure packing underBits node ms) (ofNode packing underBits node es).IsWords
      (Roomy node.kind node.index.exactCells es) fun m =>
        m.Exact packing underBits node es ∧
          m.sparseBelow = (node.kind.type.isSparse || ms.any (·.sparseBelow)) := by
  refine hpos.follows.bind And.left Roomy.count ?_
  intro cells hwn hcells
  have hcell := cellShape_follows underBits h hk
    (fun hr : Roomy node.kind node.index.exactCells es => hr.slots)
  refine hcell.bind (fun hw => hw.2.1) id ?_
  rintro c hwc ⟨hsize, halign, hoff⟩
  have hcont := containerShape_follows packing hk cells c (by
      intro (hr : Roomy node.kind node.index.exactCells es) hbitmasked
      rw [hcells, hsize]
      have hmask := hr.mask hbitmasked
      cases hkind : node.kind <;> rw [hkind] at hbitmasked hmask <;> cases hbitmasked
      exact hmask)
  rw [hcells, hsize, halign] at hcont
  refine hcont.bind (fun hw => hw.2.2) id ?_
  rintro ⟨k, b, a⟩ hwb ⟨hk, hb, ha⟩
  exact ⟨⟨hwn, hwc, hwb⟩, ⟨⟨hcells, hsize, hb, ha⟩, halign, hk, hoff⟩, rfl⟩

end ExactSize

/-- Containers lie one after the other between `lo` and `hi`. -/
def Measure.Spread : Nat → List UInt64 → List Measure → Nat → Prop
  | lo, [], [], hi => lo ≤ hi
  | lo, o :: os, m :: ms, hi => lo ≤ o.toNat ∧ Spread (o.toNat + m.bytes.toNat) os ms hi
  | _, _, _, _ => False

namespace Measure.Spread

variable {lo hi : Nat} {os : List UInt64} {ms : List Measure}

theorem le (h : Spread lo os ms hi) : lo ≤ hi := by
  induction ms generalizing lo os with
  | nil =>
    cases os with
    | nil => exact h
    | cons o os => exact h.elim
  | cons m ms ih =>
    cases os with
    | nil => exact h.elim
    | cons o os =>
      calc lo ≤ o.toNat := h.1
        _ ≤ o.toNat + m.bytes.toNat := Nat.le_add_right _ _
        _ ≤ hi := ih h.2

theorem mono {hi' : Nat} (h : Spread lo os ms hi) (hle : hi ≤ hi') : Spread lo os ms hi' := by
  induction ms generalizing lo os with
  | nil =>
    cases os with
    | nil => exact Nat.le_trans h hle
    | cons o os => exact h.elim
  | cons m ms ih =>
    cases os with
    | nil => exact h.elim
    | cons o os => exact ⟨h.1, ih h.2⟩

/-- Every container lies between the bounds. -/
theorem within (h : Spread lo os ms hi) {k : Nat} {m : Measure} (hm : ms[k]? = some m) :
    ∃ o, os[k]? = some o ∧ lo ≤ o.toNat ∧ o.toNat + m.bytes.toNat ≤ hi := by
  induction ms generalizing lo os k with
  | nil => cases hm
  | cons m' ms ih =>
    cases os with
    | nil => exact h.elim
    | cons o os =>
      cases k with
      | zero =>
        cases hm
        exact ⟨o, rfl, h.1, le h.2⟩
      | succ k =>
        obtain ⟨o', ho', hlo, hhi⟩ := ih h.2 hm
        have hle := h.1
        exact ⟨o', ho', by omega, hhi⟩

/-- A later container starts after an earlier one ends. -/
theorem apart (h : Spread lo os ms hi) {j k : Nat} {m m' : Measure} (hj : ms[j]? = some m)
    (hk : ms[k]? = some m') (hjk : j < k) :
    ∃ o o', os[j]? = some o ∧ os[k]? = some o' ∧ o.toNat + m.bytes.toNat ≤ o'.toNat := by
  induction ms generalizing lo os j k with
  | nil => cases hj
  | cons m₀ ms ih =>
    cases os with
    | nil => exact h.elim
    | cons o os =>
      obtain ⟨k, rfl⟩ := Nat.exists_eq_add_one_of_ne_zero (Nat.ne_zero_of_lt hjk)
      cases j with
      | zero =>
        cases hj
        obtain ⟨o', ho', hlo, -⟩ := within h.2 hk
        exact ⟨o, o', rfl, ho', hlo⟩
      | succ j => exact ih h.2 hj hk (Nat.lt_of_succ_lt_succ hjk)

end Measure.Spread

/-- Containers put where the exact ones are lie one after the other. -/
theorem ExactSize.spread_of_offsets {os : List UInt64} {ms : List Measure} {es : List ExactSize}
    {cursor : Nat} (h : List.Forall₂ Measure.Agrees ms es) (align : Nat)
    (ho : os.map (·.toNat) = slotOffsets cursor es) :
    Measure.Spread cursor os ms (slots cursor align es).1 := by
  induction h generalizing os cursor align with
  | nil =>
    cases os with
    | nil => exact Nat.le_refl _
    | cons o os => cases ho
  | @cons m e ms es hme _ ih =>
    cases os with
    | nil => cases ho
    | cons o os =>
      have ho : o.toNat = ceilTo e.align cursor ∧ os.map (·.toNat) =
        slotOffsets (ceilTo e.align cursor + e.bytes) es := List.cons.inj ho
      obtain ⟨ho, hos⟩ := ho
      refine ⟨ho ▸ le_ceilTo _ _, ?_⟩
      rw [ho, hme.bytes]
      exact ih (max align e.align) hos

/-- What is known of the sizes of a node of a kind, from those of its children. -/
structure Measure.Suits (m : Measure) (underBits : Bool) (kind : Kind) (children : List Measure) :
    Prop where
  typed : ∀ n : Layout.Node, n.kind = kind → n.toMeasure = m → n.Typed ∧ n.Sized
  spread : ExactSize.Holds kind → Spread 0 m.childOffsets children m.cellSize.toNat
  bits : kind.type.isBitLevel = true → m.childOffsets = []
  word : ∀ w, kind.wordBits? = some w → m.cellSize.toNat = w.toNat / 8
  place : ∀ info, kind = .place info → m.bytes = m.cellSize ∧
    m.cellSize.toNat = if underBits then 0 else (info.member.dtype.byteSize.getD 0).toNat
  sparse : m.sparseBelow = (kind.type.isSparse || children.any (·.sparseBelow))

namespace Measure.Exact

open ExactSize (Holds)

variable {m : Measure} {packing : Packing} {underBits : Bool} {node : Node} {ms : List Measure}
variable {es : List ExactSize}

theorem spread (h : m.Exact packing underBits node es) (ha : List.Forall₂ Agrees ms es)
    (hk : Holds node.kind) : Spread 0 m.childOffsets ms m.cellSize.toNat := by
  have ho := h.childOffsets
  rw [ExactSize.childOffsets, if_pos hk] at ho
  refine (ExactSize.spread_of_offsets ha 1 ho).mono ?_
  rw [h.agrees.cellSize, ExactSize.ofNode, ExactSize.cell_of_holds hk]
  exact le_ceilTo _ _

theorem word (h : m.Exact packing underBits node es) {w : UInt32}
    (hw : node.kind.wordBits? = some w) : m.cellSize.toNat = w.toNat / 8 := by
  rw [h.agrees.cellSize, ExactSize.ofNode]
  cases hk : node.kind <;> rw [hk] at hw <;> cases hw <;> rfl

/-- The encoding is the one for the kind, and the container has the size that its cells need. -/
theorem typed (h : m.Exact packing underBits node es) (hk : node.kind.Valid) {n : Layout.Node}
    (hn : n.kind = node.kind) (hm : n.toMeasure = m) : n.Typed ∧ n.Sized := by
  subst hm
  have hword {w : UInt32} (hw : node.kind.wordBits? = some w) := h.word hw
  have hcells := h.agrees.cells
  have hsize := h.agrees.cellSize
  have hbytes := h.agrees.bytes
  have hcont := h.container
  have hpos := hk.chunk_pos
  simp only [ExactSize.ofNode] at hcells hsize hbytes
  generalize ExactSize.cell underBits node.kind es = cell at hsize hbytes hcont
  obtain ⟨size, align⟩ := cell
  subst hsize
  rw [← hcells] at hcont hbytes
  unfold Layout.Node.Typed Layout.Node.Sized
  rw [hn]
  generalize node.kind = kind at hcont hbytes hpos hword
  generalize n.container = c at hcont ⊢
  unfold Container.Exact at hcont
  split at hcont
  case h_1 => exact ⟨trivial, trivial⟩
  case h_2 | h_3 => exact ⟨trivial, hbytes⟩
  case h_4 | h_5 => exact ⟨trivial, UInt64.toNat_inj.1 (hbytes.trans (hword rfl).symm)⟩
  case h_6 => exact ⟨trivial, UInt64.toNat_inj.1 hbytes⟩
  case h_7 ds maskOffset =>
    have hmask : maskOffset.toNat = ceilTo 8 (n.cells.toNat * n.cellSize.toNat) := hcont
    refine ⟨trivial, ?_, ?_⟩
    · rw [hmask]
      exact le_ceilTo _ _
    · rw [hmask]
      exact hbytes
  case h_8 axis dim chunk axis' capacity chunkBytes =>
    obtain ⟨rfl, rfl, hchunk⟩ := hcont
    have hchunkpos := hpos chunk rfl
    exact ⟨rfl, hbytes, Nat.lt_of_lt_of_le hchunkpos (packing.le_extent chunk), hchunk⟩
  case h_9 => exact hcont.elim

/-- Exact sizes suit the node. -/
theorem suits (h : m.Exact packing underBits node es) (hk : node.kind.Valid)
    (ha : List.Forall₂ Agrees ms es)
    (hs : m.sparseBelow = (node.kind.type.isSparse || ms.any (·.sparseBelow))) :
    m.Suits underBits node.kind ms where
  typed n hn hm := h.typed hk hn hm
  spread hholds := h.spread ha hholds
  bits hb := by
    have hnone : m.childOffsets.map (·.toNat) = [] := by
      rw [h.childOffsets, ExactSize.childOffsets, if_neg]
      rintro ⟨hnot, -⟩
      rw [hb] at hnot
      cases hnot
    exact List.map_eq_nil_iff.1 hnone
  word w hw := h.word hw
  place info hinfo := by
    have hsize := h.agrees.cellSize
    have hbytes := h.agrees.bytes
    rw [ExactSize.ofNode, hinfo] at hsize hbytes
    refine ⟨UInt64.toNat_inj.1 (hbytes.trans hsize.symm), hsize.trans ?_⟩
    cases underBits <;> rfl
  sparse := hs

end Measure.Exact

end SparseLayout
