import SparseLayout.Proofs.Integers
import SparseLayout.Proofs.Store.Append
import SparseLayout.Proofs.Store.Separation

namespace SparseLayout

open Layout (Node)
open Layout.Node (number)

/-- Words with the same number are made of the same bytes. -/
theorem Segment.byte_eq_of_load {s t : Segment} {i n : Nat} (hn : n ≤ 8)
    (h : s.load i n = t.load i n) {j : Nat} (hi : i ≤ j) (hj : j < i + n) : s.byte j = t.byte j := by
  induction n generalizing i with
  | zero => omega
  | succ n ih =>
    have hn8 : n < 8 := hn
    have hs := s.toNat_load_succ i hn8 (s.toNat_load_lt (i + 1) hn8.le)
    have ht := t.toNat_load_succ i hn8 (t.toNat_load_lt (i + 1) hn8.le)
    have hb := (s.byte i).toNat_lt
    have hb' := (t.byte i).toNat_lt
    rw [h, ht] at hs
    by_cases hij : i = j
    · subst hij
      exact UInt8.toNat_inj.1 (by omega)
    · have hload : s.load (i + 1) n = t.load (i + 1) n := UInt64.toNat_inj.1 (by omega)
      exact ih hn8.le hload (by omega) (by omega)

/-- The byte at an offset of a segment. -/
def Pool.byte? (p : Pool) (i j : Nat) : Option UInt8 := p.segments[i]?.map (·.byte j)

/-- The byte is one of the `n` from the address on. -/
def Address.Spans (a : Address) (n i j : Nat) : Prop :=
  i = a.segment ∧ a.offset ≤ j ∧ j < a.offset + n

theorem Pool.byte?_store_of_outside (p : Pool) (a : Address) (n : Nat) (w : UInt64) {i j : Nat}
    (h : ¬ a.Spans n i j) : (p.store a n w).byte? i j = p.byte? i j := by
  unfold byte? store
  simp only [Array.getElem?_modify]
  by_cases hi : a.segment = i
  · subst hi
    rw [if_pos rfl]
    cases p.segments[a.segment]? with
    | none => rfl
    | some s =>
      refine congrArg some (s.byte_store_of_outside a.offset n w j ?_)
      unfold Address.Spans at h
      omega
  · rw [if_neg hi]

/-- Bytes are known by the word that they make up. -/
theorem Pool.byte?_eq_of_load {p q : Pool} {a : Address} {n i j : Nat} (hn : n ≤ 8)
    (hp : p.holds a n = true) (hq : q.holds a n = true) (h : p.load a n = q.load a n)
    (hs : a.Spans n i j) : p.byte? i j = q.byte? i j := by
  obtain ⟨rfl, hle, hlt⟩ := hs
  obtain ⟨s, hs, -⟩ := (p.holds_iff a n).1 hp
  obtain ⟨t, ht, -⟩ := (q.holds_iff a n).1 hq
  unfold Pool.load at h
  rw [hs, ht] at h
  unfold Pool.byte?
  rw [hs, ht]
  exact congrArg some (Segment.byte_eq_of_load hn h hle hlt)

/-- The storages have their roots, blocks and segments in common, and all bytes but those that may
have changed. -/
structure Store.SameOutside (s s' : Store) (changed : Nat → Nat → Prop) : Prop where
  root_eq : s'.root = s.root
  blocks_eq : s'.blocks = s.blocks
  bounds : s.pool.SameBounds s'.pool
  byte_eq : ∀ i j, ¬ changed i j → s'.pool.byte? i j = s.pool.byte? i j

/-- The value of a member in its slot at an address. -/
def Store.valueAt (s : Store) (d : DataType) (slot : ValueSlot) (a : Address) :
    Except Fault Scalar := do
  let word ← s.load a slot.bytes
  match slot.bitOffset with
  | some offset => return d.extract word offset
  | none => return d.decode word

section Slot

variable {d : DataType} {slot : ValueSlot} {s : Store} {a : Address}

theorem Store.valueAt_eq (h : s.pool.holds a slot.bytes = true) :
    s.valueAt d slot a = .ok (d.inSlot slot (s.pool.load a slot.bytes).toNat) := by
  unfold Store.valueAt Store.load DataType.inSlot
  rw [if_pos h, UInt64.ofNat_toNat]
  cases slot.bitOffset <;> rfl

/-- A value is put into the word of its slot. -/
theorem StoreM.putValue_eq (h : s.pool.holds a slot.bytes = true) (v : Scalar) :
    ∃ w, putValue d slot a v s = .ok () { s with pool := s.pool.store a slot.bytes w } ∧
      d.intoSlot slot (s.pool.load a slot.bytes).toNat v = w.toNat % 256 ^ slot.bytes := by
  unfold putValue DataType.intoSlot
  rw [UInt64.ofNat_toNat]
  cases slot.bitOffset with
  | none => exact ⟨_, if_pos h, rfl⟩
  | some offset =>
    refine ⟨d.insert (s.pool.load a slot.bytes) offset v, ?_, rfl⟩
    have hload : s.load a slot.bytes = .ok (s.pool.load a slot.bytes) := if_pos h
    exact (look_bind hload _).trans (if_pos h)

/-- What a value leaves in memory: the word of its slot with the member replaced, and no other
byte. -/
theorem StoreM.putValue_word (hle : slot.bytes ≤ 8) (h : s.pool.holds a slot.bytes = true)
    (v : Scalar) : ∃ s', putValue d slot a v s = .ok () s' ∧
      s'.pool.holds a slot.bytes = true ∧ s.SameOutside s' (a.Spans slot.bytes) ∧
      (s'.pool.load a slot.bytes).toNat =
        d.intoSlot slot (s.pool.load a slot.bytes).toNat v := by
  obtain ⟨w, hrun, hw⟩ := putValue_eq h v
  refine ⟨_, hrun, ?_, ⟨rfl, rfl, s.pool.sameBounds_store .., fun i j hout => ?_⟩, ?_⟩
  · exact (s.pool.holds_store ..).trans h
  · exact s.pool.byte?_store_of_outside a slot.bytes w hout
  · rw [Pool.load_store_same hle h, hw, Nat.one_shiftLeft, Nat.pow_mul]

/-- A member reads as what was stored of the value, and the bits of no other one change. -/
theorem DataType.IntegerSlot.putValue (hd : d.IntegerSlot slot)
    (h : s.pool.holds a slot.bytes = true) (v : Scalar) :
    ∃ s', StoreM.putValue d slot a v s = .ok () s' ∧ s'.valueAt d slot a = .ok (d.stored v) ∧
      s.SameOutside s' (a.Spans slot.bytes) ∧ ∀ k < 8 * slot.bytes, ¬ d.Owns slot k →
        (s'.pool.load a slot.bytes).toNat.testBit k =
          (s.pool.load a slot.bytes).toNat.testBit k := by
  obtain ⟨s', hrun, hholds, hsame, hword⟩ := StoreM.putValue_word hd.bytes_le h v
  refine ⟨s', hrun, ?_, hsame, fun k hk hout => ?_⟩
  · rw [Store.valueAt_eq hholds, hword, hd.inSlot_intoSlot]
  · rw [hword, hd.testBit_intoSlot _ _ hk hout]

/-- What was read is written without a change. -/
theorem DataType.IntegerSlot.putValue_valueAt (hd : d.IntegerSlot slot)
    (h : s.pool.holds a slot.bytes = true) : ∃ v s', s.valueAt d slot a = .ok v ∧
      StoreM.putValue d slot a v s = .ok () s' ∧ s.SameOutside s' fun _ _ => False := by
  obtain ⟨s', hrun, hholds, hsame, hword⟩ := StoreM.putValue_word hd.bytes_le h
    (d.inSlot slot (s.pool.load a slot.bytes).toNat)
  have hlt : (s.pool.load a slot.bytes).toNat < 256 ^ slot.bytes := by
    obtain ⟨seg, hseg, -⟩ := (s.pool.holds_iff a slot.bytes).1 h
    have hload := seg.toNat_load_lt a.offset hd.bytes_le
    rw [Nat.one_shiftLeft, Nat.pow_mul] at hload
    unfold Pool.load
    rw [hseg]
    exact hload
  rw [hd.intoSlot_inSlot hlt] at hword
  refine ⟨_, s', Store.valueAt_eq h, hrun, hsame.root_eq, hsame.blocks_eq, hsame.bounds, ?_⟩
  intro i j _
  by_cases hin : a.Spans slot.bytes i j
  · exact Pool.byte?_eq_of_load hd.bytes_le hholds h (UInt64.toNat_inj.1 hword) hin
  · exact hsame.byte_eq i j hin

end Slot

/-- How an integer member is read and written in its slot: it reads as the remainder of what was
written, in the range of its type; bits beside it stay; what was read is written without a change.
-/
structure Store.RoundTrips (s : Store) (d : DataType) (slot : ValueSlot) (a : Address)
    (read : Store → Except Fault Scalar) (write : Scalar → StoreM Unit) : Prop where
  reads_back : ∀ v i, v.integer? = some i → ∃ s', write v s = .ok () s' ∧
    read s' = .ok (.reduced d.isSigned d.bits.toNat i) ∧ s.SameOutside s' (a.Spans slot.bytes) ∧
    ∀ k < 8 * slot.bytes, ¬ d.Owns slot k →
      (s'.pool.load a slot.bytes).toNat.testBit k = (s.pool.load a slot.bytes).toNat.testBit k
  writes_back : ∃ v s', read s = .ok v ∧ write v s = .ok () s' ∧ s.SameOutside s' fun _ _ => False

theorem DataType.IntegerSlot.roundTrips {d : DataType} {slot : ValueSlot} (hd : d.IntegerSlot slot)
    {s : Store} {a : Address} (h : s.pool.holds a slot.bytes = true) :
    s.RoundTrips d slot a (·.valueAt d slot a) (StoreM.putValue d slot a) := by
  refine ⟨fun v i hv => ?_, hd.putValue_valueAt h⟩
  rw [← stored_integer hd.isInteger hv]
  exact hd.putValue h v

variable {t : Layout} {g : Contents} {p n : Node} {info : PlaceInfo} {s : Store} {c : Coords}

/-- Integer members of a tree have slots of integers. -/
theorem Layout.WellFormed.integerSlot (ht : t.WellFormed) (hp : t.Has p) (hn : n ∈ t.childNodes p)
    (hk : n.kind = .place info) (hd : info.member.dtype.IsInteger) (c : Coords) :
    ∃ slot, t.valueSlot n c = .ok slot ∧ info.member.dtype.IntegerSlot slot := by
  -- outside bit containers the slot is the cell of the place
  have whole {b : UInt32} (hq : info.member.dtype.isQuant = false)
      (hb : info.member.dtype.byteSize = some b) : t.valueSlot n c = .ok ⟨b.toNat, none⟩ := by
    have hw := Layout.Node.not_isWord_of_scalar ht hp hn hk hq
    obtain ⟨b', hb', hsize⟩ := ht.scalar hp hn hw hk
    rw [hb, Option.some.injEq] at hb'
    subst hb'
    have hbit : p.type.isBitLevel = false := by
      by_contra hbit
      exact hw (((ht.typed hp).isBitLevel_iff.1 (by simpa using hbit)).imp_right Or.inl)
    unfold Layout.valueSlot
    rw [ht.parentNode_eq hp hn]
    simp only [hk, bind, Except.bind, pure, Except.pure, hsize]
    unfold Node.type at hbit
    cases hkp : p.kind with
    | bitStruct | bitArray =>
      rw [hkp] at hbit
      cases hbit
    | _ => rfl
  cases hdt : info.member.dtype with
  | int w =>
    rw [hdt] at whole
    exact ⟨_, whole rfl rfl, .int w⟩
  | uint w =>
    rw [hdt] at whole
    exact ⟨_, whole rfl rfl, .uint w⟩
  | quantInt bits signed =>
    rw [hdt] at hd
    have hq : n.isQuantInt := ⟨info, bits, signed, hk, hdt⟩
    obtain ⟨offset, hslot, -, hfit, -⟩ := ht.valueSlot_bits hp hn hq c
    rw [(Layout.quantInt_bits hk hdt).1] at hfit
    refine ⟨_, hslot, .quantInt signed hd ?_ hfit⟩
    obtain ⟨width, hkind, hwidth, -⟩ := ht.kind_of_isBitLevel hp (ht.isBitLevel_of_quantInt hp hn hq)
    have hbits : p.kind.wordBits? = some width := by
      rcases hkind with hkind | ⟨ds, hkind⟩ <;> rw [hkind] <;> rfl
    obtain ⟨hmem, -⟩ := ht.word hp hbits
    simp only [List.mem_cons, List.not_mem_nil, or_false] at hmem ⊢
    rcases hmem with rfl | rfl | rfl | rfl
    all_goals
      simp only [UInt32.reduceToNat] at hwidth
      omega
  | half | single | double | quantFloat =>
    rw [hdt] at hd
    exact hd.elim

namespace Store.Represents

section

variable (ht : t.WellFormed) (h : s.Represents t g) (hp : t.Has p) (hn : n ∈ t.childNodes p)
  (hk : n.kind = .place info) (hd : info.member.dtype.IsInteger)

include ht h hp hn hk hd

/-- What is written to an integer member is read back, unless its cell could not be activated. -/
theorem read_write (c : Coords) (v : Scalar) :
    (∃ s', StoreM.write t n c v s = .ok () s' ∧
      s'.read t n c = .ok (info.member.dtype.stored v)) ∨
    ∃ shortage s', StoreM.write t n c v s = .error (.refused (.outOfMemory shortage)) s' := by
  obtain ⟨slot, hslot, hint⟩ := ht.integerSlot hp hn hk hd c
  have hacc := hd.readable.access
  rcases hkey : wordKey n (t.place n c p) with ⟨q, m⟩
  have hends := h.write ht hp hn hk hacc hslot v hkey
  unfold StoreM.Ends at hends
  cases hrun : StoreM.write t n c v s with
  | ok u s' =>
    rw [hrun] at hends
    obtain ⟨g', h', hview, -⟩ := hends
    have hact : g'.Active t (t.place n c n) := by
      rw [h'.sound.active_iff, hview, View.active_setWord]
      exact View.active_activate _ (ht.locates_place n c (ht.has_child hn))
    have hword : g'.word q m = info.member.dtype.intoSlot slot (g.word q m) v := by
      change g'.view.word q m = _
      rw [hview, View.word_setWord, if_pos ⟨rfl, rfl⟩]
    refine Or.inl ⟨s', rfl, ?_⟩
    rw [(h'.read ht hp hn hk hacc hslot).1 hact, hkey, hword, hint.inSlot_intoSlot]
  | error e s' =>
    rw [hrun] at hends
    cases e with
    | outside => exact hends.elim
    | refused e =>
      obtain ⟨⟨shortage, rfl⟩, -⟩ := hends
      exact Or.inr ⟨shortage, s', rfl⟩

/-- In an active cell, an integer member is read and written in its slot. -/
theorem slot_of_address {a : Address} (ha : s.address t n c = .ok a) :
    ∃ slot, t.valueSlot n c = .ok slot ∧ info.member.dtype.IntegerSlot slot ∧
      s.pool.holds a slot.bytes = true ∧ s.read t n c = s.valueAt info.member.dtype slot a ∧
      ∀ v, StoreM.write t n c v s = StoreM.putValue info.member.dtype slot a v s := by
  obtain ⟨slot, hslot, hint⟩ := ht.integerSlot hp hn hk hd c
  have hacc := hd.readable.access
  have haccess (op : Operation) : refuse (n.accessType op) = .ok info.member.dtype := by
    rw [Node.accessType_of_place hk hacc]
    rfl
  have hslot' : refuse (t.valueSlot n c) = .ok slot := by rw [hslot]; rfl
  have hlookup : s.lookup n c (t.branch n.id) s.root = .ok (some a) := by
    unfold Store.address at ha
    cases hl : s.lookup n c (t.branch n.id) s.root with
    | error e =>
      rw [hl] at ha
      cases ha
    | ok o =>
      rw [hl] at ha
      cases o with
      | none => cases ha
      | some b =>
        cases ha
        rfl
  have hread : s.read t n c = s.valueAt info.member.dtype slot a := by
    unfold Store.read Store.valueAt
    rw [haccess, hlookup, hslot']
    rfl
  -- the cell is in use, so that reading it does not fail, which it would outside the segments
  have hholds : s.pool.holds a slot.bytes = true := by
    obtain ⟨v, hv⟩ : ∃ v, s.read t n c = .ok v := by
      obtain ⟨hon, -⟩ := h.read ht hp hn hk hacc hslot
      exact ⟨_, hon (h.active_of_address ht (ht.has_child hn) ha).1⟩
    by_contra hout
    rw [hread, Store.valueAt, Store.load, if_neg hout] at hv
    cases hv
  refine ⟨slot, hslot, hint, hholds, hread, fun v => ?_⟩
  unfold StoreM.write
  rw [StoreM.look_bind (haccess .write)]
  change (StoreM.reach n c (t.branch n.id) s.root >>= _) s = _
  rw [StoreM.bind_of_ok (StoreM.reach_of_lookup hlookup), StoreM.look_bind hslot']

/-- An integer member in an active cell makes the round trip. -/
theorem roundTrips {a : Address} (ha : s.address t n c = .ok a) :
    ∃ slot, t.valueSlot n c = .ok slot ∧ info.member.dtype.IntegerSlot slot ∧
      s.pool.holds a slot.bytes = true ∧
      s.RoundTrips info.member.dtype slot a (·.read t n c) (StoreM.write t n c) := by
  obtain ⟨slot, hslot, hint, hholds, hread, hwrite⟩ := h.slot_of_address ht hp hn hk hd ha
  refine ⟨slot, hslot, hint, hholds, fun v i hv => ?_, ?_⟩
  · obtain ⟨s', hrun, -, hsame, hbits⟩ := hint.putValue hholds v
    rw [← hwrite] at hrun
    refine ⟨s', hrun, ?_, hsame, hbits⟩
    rcases h.read_write ht hp hn hk hd c v with ⟨s'', hrun', hback⟩ | ⟨shortage, s'', hrun'⟩
    · rw [hrun] at hrun'
      cases hrun'
      rw [← DataType.stored_integer hd hv]
      exact hback
    · rw [hrun] at hrun'
      cases hrun'
  · obtain ⟨v, s', hv, hrun, hsame⟩ := hint.putValue_valueAt hholds
    exact ⟨v, s', hread.trans hv, (hwrite v).trans hrun, hsame⟩

end

end Store.Represents

/-- A storage after a run of calls represents some contents. -/
theorem Layout.Starts.exists_represents {s₀ : Store} (h : t.Starts s₀) {calls : List Call}
    (hc : t.Calls calls) : ∃ g, (s₀.session t calls).2.Represents t g := by
  obtain ⟨rs, v, -, -, g, hg, -⟩ := h.shows.session h.wellFormed hc
  exact ⟨g, hg⟩

/-- Integers make the round trip: in any slot that memory has, whatever the memory holds, and for
the members of a tree after any run of calls. A member reads as what was written modulo the weight
of its bits, in the range of its type; the bits beside it stay; and an integer that is written back
changes nothing. A write to a cell that is not active first activates it, or ends for want of
memory. -/
theorem Store.integers_round_trip (d : DataType) :
    (∀ slot, d.IntegerSlot slot → ∀ (s : Store) (a : Address), s.pool.holds a slot.bytes = true →
      s.RoundTrips d slot a (·.valueAt d slot a) (StoreM.putValue d slot a)) ∧
    ∀ (t : Layout) (s₀ : Store) (calls : List Call), t.Starts s₀ → t.Calls calls →
      ∀ (n : Node) (info : PlaceInfo), t.Has n → n.kind = .place info → info.member.dtype = d →
        d.IsInteger → ∀ c : Coords,
          (∀ v i, v.integer? = some i →
            (∃ s', StoreM.write t n c v (s₀.session t calls).2 = .ok () s' ∧
              s'.read t n c = .ok (.reduced d.isSigned d.bits.toNat i)) ∨
            ∃ shortage s', StoreM.write t n c v (s₀.session t calls).2 =
              .error (.refused (.outOfMemory shortage)) s') ∧
          ∀ a, (s₀.session t calls).2.address t n c = .ok a →
            ∃ slot, t.valueSlot n c = .ok slot ∧ d.IntegerSlot slot ∧
              (s₀.session t calls).2.pool.holds a slot.bytes = true ∧
              (s₀.session t calls).2.RoundTrips d slot a (·.read t n c)
                (StoreM.write t n c) := by
  refine ⟨fun slot hd s a h => hd.roundTrips h, ?_⟩
  rintro t s₀ calls hstarts hcalls n info hn hk rfl hd c
  have ht := hstarts.wellFormed
  obtain ⟨g, hg⟩ := hstarts.exists_represents hcalls
  obtain ⟨p, hp, hnp⟩ := ht.ne_root_of_kind hn (by rw [hk]; simp)
  refine ⟨fun v i hv => ?_, fun a ha => hg.roundTrips ht hp hnp hk hd ha⟩
  rw [← DataType.stored_integer hd hv]
  exact hg.read_write ht hp hnp hk hd c v

/-- The largest words but six are -7 in the last five bits of a word, and a 32-bit member wraps. -/
theorem Store.integers_round_trip_sample :
    (∃ s', StoreM.putValue (.quantInt 5 true) ⟨4, some 27⟩ Sample.store.root
        (.uint 18446744073709551609) Sample.store = .ok () s' ∧
      s'.valueAt (.quantInt 5 true) ⟨4, some 27⟩ Sample.store.root = .ok (.int (-7))) ∧
    ((∃ s', StoreM.write Sample.layout (Sample.node 3) Sample.cell (.int 4294967303)
        (Sample.store.session Sample.layout []).2 = .ok () s' ∧
      s'.read Sample.layout (Sample.node 3) Sample.cell = .ok (.int 7)) ∨
    ∃ shortage s', StoreM.write Sample.layout (Sample.node 3) Sample.cell (.int 4294967303)
      (Sample.store.session Sample.layout []).2 = .error (.refused (.outOfMemory shortage)) s') := by
  have hslot : DataType.IntegerSlot (.quantInt 5 true) ⟨4, some 27⟩ :=
    .quantInt true (by decide) (by decide) (by decide)
  have hholds : Sample.store.pool.holds Sample.store.root 4 = true := by decide +kernel
  constructor
  · obtain ⟨hslots, -⟩ := integers_round_trip (.quantInt 5 true)
    obtain ⟨s', hrun, hread, -⟩ :=
      (hslots _ hslot _ _ hholds).reads_back (.uint 18446744073709551609) _ rfl
    refine ⟨s', hrun, hread.trans (congrArg Except.ok ?_)⟩
    decide +kernel
  · obtain ⟨-, hmembers⟩ := integers_round_trip (.int .w32)
    have hkind : (Sample.node 3).kind =
        .place ⟨⟨⟨0, "x", .int .w32⟩, .primal none⟩, [], none, none⟩ := by decide +kernel
    obtain ⟨hwrite, -⟩ := hmembers _ _ [] Sample.starts (fun _ h => absurd h List.not_mem_nil)
      (Sample.node 3) _ (by decide +kernel) hkind rfl trivial Sample.cell
    have hseven : Scalar.reduced true 32 4294967303 = .int 7 := by decide +kernel
    have hback := hwrite (.int 4294967303) 4294967303 rfl
    change (∃ s', _ ∧ _ = Except.ok (Scalar.reduced true 32 4294967303)) ∨ _ at hback
    rw [hseven] at hback
    exact hback

end SparseLayout
