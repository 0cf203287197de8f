import SparseLayout.Proofs.Encoding
import Mathlib.Tactic.Ring

namespace SparseLayout

namespace Scalar

/-- The number that an integer scalar is. -/
def integer? : Scalar → Option Int
  | int v => some v.toInt
  | uint v => some v.toNat
  | float _ => none

/-- A number modulo `2 ^ bits`, in the range of signed or of unsigned integers. -/
def reduced (signed : Bool) (bits : Nat) (i : Int) : Scalar :=
  if signed then .int (.ofInt (i.bmod (2 ^ bits))) else .uint (.ofNat (i % 2 ^ bits).toNat)

theorem reduced_congr (signed : Bool) {bits : Nat} {i j : Int}
    (h : i % 2 ^ bits = j % 2 ^ bits) : reduced signed bits i = reduced signed bits j := by
  have hb : i.bmod (2 ^ bits) = j.bmod (2 ^ bits) := by
    rw [← Int.emod_bmod i, ← Int.emod_bmod j]
    push_cast
    rw [h]
  unfold reduced
  rw [h, hb]

/-- What is reduced is congruent to the number. -/
theorem integer?_reduced (signed : Bool) {bits : Nat} (hle : bits ≤ 64) (i : Int) :
    ∃ j, (reduced signed bits i).integer? = some j ∧ j % 2 ^ bits = i % 2 ^ bits := by
  cases signed with
  | true =>
    refine ⟨_, rfl, ?_⟩
    -- storing the number as a word adds a multiple of the modulus
    have hdvd : 2 ^ bits ∣ Int64.size := Nat.pow_dvd_pow 2 hle
    have hmod (j : Int) : j.bmod (2 ^ bits) % 2 ^ bits = j % 2 ^ bits := by
      have h := Int.bmod_emod (x := j) (m := 2 ^ bits)
      push_cast at h
      exact h
    rw [Int64.toInt_ofInt, ← hmod, Int.bmod_bmod_of_dvd hdvd, Int.bmod_bmod, hmod]
  | false =>
    refine ⟨_, rfl, ?_⟩
    have hpow : (2 : Int) ^ bits ≤ 2 ^ 64 := by exact_mod_cast Nat.pow_le_pow_right (by decide) hle
    have hpos : (0 : Int) < 2 ^ bits := Int.pow_pos (by decide)
    have h0 := Int.emod_nonneg i (Int.ne_of_gt hpos)
    have hlt := Int.emod_lt_of_pos i hpos
    rw [UInt64.toNat_ofNat', Nat.mod_eq_of_lt (by omega), Int.toNat_of_nonneg h0, Int.emod_emod]

end Scalar

/-- A shift to the right, as far as a word has bits, divides and rounds down. -/
theorem toInt_shiftRight (x : Int64) {s : UInt64} (hs : s.toNat < 64) :
    (x >>> s.toInt64).toInt = x.toInt / 2 ^ s.toNat := by
  have htwice : 2 * s.toNat < 2 ^ 64 := by omega
  have hmsb : s.toBitVec.msb = false := BitVec.msb_eq_false_iff_two_mul_lt.2 htwice
  have hmsb' : (64 : BitVec 64).msb = false := by decide
  have hcount : (s.toBitVec.smod 64).toNat = s.toNat := by
    rw [BitVec.toNat_smod, hmsb, hmsb']
    exact Nat.mod_eq_of_lt hs
  change (x >>> s.toInt64).toBitVec.toInt = _
  rw [Int64.toBitVec_shiftRight, BitVec.toInt_sshiftRight']
  change x.toInt >>> (s.toBitVec.smod 64).toNat = _
  rw [hcount, Int.shiftRight_eq_div_pow]
  push_cast
  rfl

/-- Numbers and moduli are multiplied alike. -/
theorem mul_bmod_two_mul {m c : Nat} (hm : 0 < m) (hc : 0 < c) (x : Int) :
    (x * c).bmod (2 * m * c) = x.bmod (2 * m) * c := by
  have hdiv := Int.bmod_add_bdiv x (2 * m)
  have hlow := Int.le_bmod (x := x) (Nat.mul_pos Nat.two_pos hm)
  have hhigh := Int.bmod_lt (x := x) (Nat.mul_pos Nat.two_pos hm)
  generalize x.bmod (2 * m) = r at *
  generalize x.bdiv (2 * m) = q at *
  have hx : x * c = r * c + ((2 * m * c : Nat) : Int) * q := by
    rw [← hdiv, Int.add_mul]
    push_cast
    congr 1
    ring
  rw [hx, Int.add_mul_bmod_self_left]
  have hlow' : -((m * c : Nat) : Int) ≤ r * c := by
    push_cast
    rw [← Int.neg_mul]
    exact Int.mul_le_mul_of_nonneg_right (by omega) (Int.natCast_nonneg c)
  have hhigh' : r * c < ((m * c : Nat) : Int) := by
    push_cast
    exact Int.mul_lt_mul_of_pos_right (by omega) (by omega)
  rw [Nat.mul_assoc]
  exact Int.bmod_eq_of_le (by omega) (by omega)

/-- Shifting a word to the left by the bits that it has to spare, and back with its sign, leaves
the number whose two's complement is in its low bits. -/
theorem toInt_signExtend {n : UInt32} (hn : 1 ≤ n.toNat) (hle : n.toNat ≤ 64) (w : UInt64) :
    (signExtend n w).toInt = (w.toNat : Int).bmod (2 ^ n.toNat) := by
  obtain ⟨k, hk⟩ : ∃ k, n.toNat = k + 1 := ⟨n.toNat - 1, by omega⟩
  have hs : (64 - n).toUInt64.toNat = 63 - k := by
    rw [UInt32.toNat_toUInt64, UInt32.toNat_sub_of_le _ _ (UInt32.le_iff_toNat_le.2 hle)]
    change 64 - n.toNat = _
    omega
  have hlt : (64 - n).toUInt64.toNat < 64 := by omega
  have hpow : 2 * 2 ^ k * 2 ^ (63 - k) = 2 ^ 64 := by
    rw [← Nat.pow_succ', ← Nat.pow_add]
    congr 1
    omega
  have hleft : (w <<< (64 - n).toUInt64).toInt64.toInt =
      ((w.toNat : Int) * (2 ^ (63 - k) : Nat)).bmod (2 ^ 64) := by
    change (w.toBitVec <<< ((64 - n).toUInt64.toNat % 64)).toInt = _
    rw [BitVec.toInt_shiftLeft, Nat.mod_eq_of_lt hlt, hs, Nat.shiftLeft_eq]
    push_cast
    rfl
  unfold signExtend
  simp only
  rw [toInt_shiftRight _ hlt, hs, hleft, hk, ← hpow,
    mul_bmod_two_mul (Nat.two_pow_pos k) (Nat.two_pow_pos _)]
  push_cast
  rw [Int.mul_ediv_cancel _ (Int.ne_of_gt (Int.pow_pos (by decide))), Nat.pow_succ']

theorem toNat_and_lowMask (n : UInt32) (w : UInt64) :
    (w &&& lowMask n).toNat = w.toNat % 2 ^ n.toNat := by
  apply Nat.eq_of_testBit_eq
  intro i
  rw [UInt64.toNat_and, Nat.testBit_and, Nat.testBit_mod_two_pow]
  by_cases hi : i < 64
  · rw [testBit_lowMask n hi, Bool.and_comm]
  · rw [testBit_toNat_of_le w (by omega), Bool.false_and, Bool.and_false]

/-- The two's complement of a number. -/
theorem toNat_toUInt64 (x : Int64) : (x.toUInt64.toNat : Int) = x.toInt % 2 ^ 64 := by
  have hx : x.toInt = (x.toUInt64.toNat : Int).bmod (2 ^ 64) := BitVec.toInt_eq_toNat_bmod _
  have hlt := x.toUInt64.toNat_lt
  have hmod := Int.bmod_emod (x := (x.toUInt64.toNat : Int)) (m := 2 ^ 64)
  rw [← hx] at hmod
  omega

namespace DataType

/-- The integer types; quantized ones have 1 to 32 bits. -/
def IsInteger : DataType → Prop
  | int _ | uint _ => True
  | quantInt bits _ => 1 ≤ bits.toNat ∧ bits.toNat ≤ 32
  | _ => False

variable {d : DataType}

theorem IsInteger.readable (h : d.IsInteger) : d.Readable := by
  cases d with
  | int w | uint w => exact ⟨rfl, by cases w <;> decide, by cases w <;> decide⟩
  | quantInt bits signed =>
    obtain ⟨h1, h2⟩ := h
    have hb : (quantInt bits signed).bits.toNat = bits.toNat := by simp [DataType.bits]
    exact ⟨rfl, by omega, by omega⟩
  | _ => exact h.elim

theorem IsInteger.isReal (h : d.IsInteger) : d.isReal = false := by
  cases d with
  | int | uint | quantInt => rfl
  | _ => exact h.elim

/-- A word is read as the number in its low bits. -/
theorem decode_integer (h : d.Readable) (hr : d.isReal = false) (w : UInt64) :
    d.decode w = .reduced d.isSigned d.bits.toNat w.toNat := by
  have signed {n : UInt32} (hn : 1 ≤ n.toNat) (hle : n.toNat ≤ 64) :
      Scalar.int (signExtend n w) = .reduced true n.toNat w.toNat :=
    congrArg Scalar.int (by rw [← toInt_signExtend hn hle, Int64.ofInt_toInt])
  have unsigned (n : UInt32) :
      Scalar.uint (w &&& lowMask n) = .reduced false n.toNat w.toNat := by
    refine congrArg Scalar.uint (UInt64.toNat_inj.1 ?_)
    have hcast : (w.toNat : Int) % 2 ^ n.toNat = (w.toNat % 2 ^ n.toNat : Nat) := by push_cast; rfl
    rw [toNat_and_lowMask, hcast, Int.toNat_natCast, UInt64.toNat_ofNat']
    exact (Nat.mod_eq_of_lt (Nat.lt_of_le_of_lt (Nat.mod_le _ _) w.toNat_lt)).symm
  obtain ⟨haccess, hpos, hle⟩ := h
  cases d with
  | int width => exact signed hpos hle
  | uint width => exact unsigned _
  | quantInt bits s =>
    cases s with
    | true =>
      -- the sign is extended from bits that the mask keeps
      have hmask : signExtend bits.toUInt32 (w &&& lowMask bits.toUInt32) =
          signExtend bits.toUInt32 w := by
        refine signExtend_congr hpos hle fun i hi => ?_
        have h64 : i < 64 := Nat.lt_of_lt_of_le hi hle
        have hi : i < bits.toUInt32.toNat := hi
        rw [UInt64.toNat_and, Nat.testBit_and, testBit_lowMask _ h64, decide_eq_true hi,
          Bool.and_true]
      change Scalar.int (signExtend bits.toUInt32 (w &&& lowMask bits.toUInt32)) = _
      rw [hmask]
      exact signed hpos hle
    | false => exact unsigned _
  | quantFloat => cases haccess
  | _ => cases hr

/-- An integer is written as its two's complement. -/
theorem encode_integer (h : d.IsInteger) {v : Scalar} {i : Int} (hv : v.integer? = some i) :
    ((d.encode v).toNat : Int) = i % 2 ^ 64 := by
  -- both conversions keep all bits of an integer
  have hconv : v.toInt64.toUInt64 = v.toUInt64 ∧ (v.toUInt64.toNat : Int) = i % 2 ^ 64 := by
    cases v with
    | int x =>
      cases hv
      exact ⟨rfl, toNat_toUInt64 x⟩
    | uint x =>
      cases hv
      have hlt := x.toNat_lt
      exact ⟨rfl, by change (x.toNat : Int) = _; omega⟩
    | float x => cases hv
  have hsigned : (v.toInt64.toUInt64.toNat : Int) = i % 2 ^ 64 := hconv.1 ▸ hconv.2
  cases d with
  | int _ | quantInt => exact hsigned
  | uint _ => exact hconv.2
  | _ => exact h.elim

/-- What is kept of a value is the number that it is written as, reduced to the type. -/
theorem stored_eq_reduced (h : d.Readable) (hr : d.isReal = false) (v : Scalar) :
    d.stored v = .reduced d.isSigned d.bits.toNat (d.encode v).toNat := decode_integer h hr _

/-- What is kept of an integer is its remainder. -/
theorem stored_integer (h : d.IsInteger) {v : Scalar} {i : Int} (hv : v.integer? = some i) :
    d.stored v = .reduced d.isSigned d.bits.toNat i := by
  rw [stored_eq_reduced h.readable h.isReal, encode_integer h hv]
  exact Scalar.reduced_congr _ (Int.emod_emod_of_dvd i (pow_dvd_pow 2 h.readable.le))

/-- A word that is read and written again has the bits of the type that it had. -/
theorem encode_decode_mod (h : d.IsInteger) (w : UInt64) :
    (d.encode (d.decode w)).toNat % 2 ^ d.bits.toNat = w.toNat % 2 ^ d.bits.toNat := by
  have hle := h.readable.le
  rw [decode_integer h.readable h.isReal]
  obtain ⟨j, hj, hmod⟩ := Scalar.integer?_reduced d.isSigned hle w.toNat
  have henc := encode_integer h hj
  have hback : ((d.encode (.reduced d.isSigned d.bits.toNat w.toNat)).toNat : Int) %
      2 ^ d.bits.toNat = (w.toNat : Int) % 2 ^ d.bits.toNat := by
    rw [henc, Int.emod_emod_of_dvd j (pow_dvd_pow 2 hle), hmod]
  exact_mod_cast hback

theorem bits_int (w : IntWidth) : (int w).bits.toNat = 8 * w.bytes.toNat := by cases w <;> rfl

theorem bits_quantInt (bits : UInt8) (signed : Bool) :
    (quantInt bits signed).bits.toNat = bits.toNat := by simp [DataType.bits]

/-- A whole-byte integer is stored as it was read. -/
theorem intoSlot_inSlot_bytes (h : d.IsInteger) {bytes w : Nat} (hb : d.bits.toNat = 8 * bytes)
    (hw : w < 256 ^ bytes) :
    d.intoSlot ⟨bytes, none⟩ w (d.inSlot ⟨bytes, none⟩ w) = w := by
  have hpow : 256 ^ bytes = 2 ^ d.bits.toNat := by rw [hb, Nat.pow_mul]
  have hle : 2 ^ d.bits.toNat ≤ 2 ^ 64 := Nat.pow_le_pow_right (by decide) h.readable.le
  have hnum : (UInt64.ofNat w).toNat = w := by
    rw [UInt64.toNat_ofNat']
    exact Nat.mod_eq_of_lt (by omega)
  unfold intoSlot inSlot
  rw [hpow, encode_decode_mod h, hnum, ← hpow, Nat.mod_eq_of_lt hw]

/-- A quantized integer is stored as it was read. -/
theorem intoSlot_inSlot_bits (h : d.IsInteger) {bytes w : Nat} {offset : UInt32}
    (hfit : offset.toNat + d.bits.toNat ≤ 8 * bytes) (hle : bytes ≤ 8) (hw : w < 256 ^ bytes) :
    d.intoSlot ⟨bytes, some offset⟩ w (d.inSlot ⟨bytes, some offset⟩ w) = w := by
  have hpos := h.readable.pos
  have hoff : offset.toUInt64.toNat < 64 := by
    rw [UInt32.toNat_toUInt64]
    omega
  apply Nat.eq_of_testBit_eq
  intro i
  by_cases hi : i < 8 * bytes
  · rw [testBit_intoSlot _ hoff hle _ _ hi]
    split
    · rename_i hown
      have hbit := congrArg (·.testBit (i - offset.toNat))
        (encode_decode_mod h (.ofNat w >>> offset.toUInt64))
      have hlt : i - offset.toNat < d.bits.toNat := by omega
      simp only [Nat.testBit_mod_two_pow, decide_eq_true hlt, Bool.true_and] at hbit
      change (d.encode (d.decode (.ofNat w >>> offset.toUInt64))).toNat.testBit _ = _
      rw [hbit, testBit_shiftRight _ hoff, UInt32.toNat_toUInt64,
        Nat.add_sub_cancel' hown.1, UInt64.toNat_ofNat', Nat.testBit_mod_two_pow,
        decide_eq_true (by omega : i < 64), Bool.true_and]
    · rfl
  · have high {x : Nat} (hx : x < 256 ^ bytes) : x.testBit i = false := by
      refine Nat.testBit_lt_two_pow (Nat.lt_of_lt_of_le hx ?_)
      rw [show (256 : Nat) = 2 ^ 8 from rfl, ← Nat.pow_mul]
      exact Nat.pow_le_pow_right (by decide) (by omega)
    rw [high hw]
    exact high (Nat.mod_lt _ (Nat.pow_pos (by decide)))

/-- The slots of integer members: a whole-byte integer fills its slot, and a quantized one lies at
an offset in the word of a bit container. -/
inductive IntegerSlot : DataType → ValueSlot → Prop
  | int (w : IntWidth) : IntegerSlot (.int w) ⟨w.bytes.toNat, none⟩
  | uint (w : IntWidth) : IntegerSlot (.uint w) ⟨w.bytes.toNat, none⟩
  | quantInt {bits : UInt8} {offset : UInt32} {bytes : Nat} (signed : Bool)
      (hbits : 1 ≤ bits.toNat ∧ bits.toNat ≤ 32) (hbytes : bytes ∈ [1, 2, 4, 8])
      (hfit : offset.toNat + bits.toNat ≤ 8 * bytes) :
    IntegerSlot (.quantInt bits signed) ⟨bytes, some offset⟩

/-- The bit of the slot is one of the member. -/
def Owns (d : DataType) (slot : ValueSlot) (i : Nat) : Prop :=
  (slot.bitOffset.getD 0).toNat ≤ i ∧ i < (slot.bitOffset.getD 0).toNat + d.bits.toNat

variable {slot : ValueSlot}

theorem IntegerSlot.isInteger (h : d.IntegerSlot slot) : d.IsInteger := by
  cases h with
  | int | uint => trivial
  | quantInt _ hbits => exact hbits

theorem IntegerSlot.bytes_le (h : d.IntegerSlot slot) : slot.bytes ≤ 8 := by
  cases h with
  | int w | uint w => cases w <;> decide
  | quantInt _ _ hbytes =>
    simp only [List.mem_cons, List.not_mem_nil, or_false] at hbytes
    dsimp only
    omega

/-- A value is read as it was stored. -/
theorem IntegerSlot.inSlot_intoSlot (h : d.IntegerSlot slot) (w : Nat) (v : Scalar) :
    d.inSlot slot (d.intoSlot slot w v) = d.stored v := by
  have hd := h.isInteger.readable
  have hle := h.bytes_le
  cases h with
  | int width | uint width => exact inSlot_intoSlot_bytes hd (bits_int width).le w v
  | quantInt signed _ _ hfit =>
    exact inSlot_intoSlot_bits hd (by rwa [bits_quantInt]) hle w v

/-- Storing a value leaves the other bits of the word alone. -/
theorem IntegerSlot.testBit_intoSlot (h : d.IntegerSlot slot) (w : Nat) (v : Scalar) {i : Nat}
    (hi : i < 8 * slot.bytes) (hout : ¬ d.Owns slot i) :
    (d.intoSlot slot w v).testBit i = w.testBit i := by
  have hle := h.bytes_le
  have hpos := h.isInteger.readable.pos
  cases h with
  | int width | uint width =>
    have hbits : i < 0 + (DataType.int width).bits.toNat := by
      rw [bits_int, Nat.zero_add]
      exact hi
    exact absurd ⟨Nat.zero_le i, hbits⟩ hout
  | @quantInt bits offset bytes signed hbits _ hfit =>
    dsimp only at hle
    rw [DataType.testBit_intoSlot _ (by omega) hle w v hi]
    exact if_neg hout

/-- Storing the value that is there changes nothing. -/
theorem IntegerSlot.intoSlot_inSlot (h : d.IntegerSlot slot) {w : Nat}
    (hw : w < 256 ^ slot.bytes) : d.intoSlot slot w (d.inSlot slot w) = w := by
  have hle := h.bytes_le
  have hd := h.isInteger
  cases h with
  | int width | uint width => exact intoSlot_inSlot_bytes hd (bits_int width) hw
  | quantInt signed _ _ hfit => exact intoSlot_inSlot_bits hd (by rwa [bits_quantInt]) hle hw

end DataType

end SparseLayout
