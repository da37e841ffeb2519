import Mathlib
import A32Lowering.Proofs.Item

/-!
# Reading instruction words

A decoder for the words that instructions are written as. It takes a word apart by the fields of
the instruction set and knows nothing of how words were put together; that it finds every
instruction again is a theorem.

## Main definitions

* `slice` : some bits of a word as a number.
* `Instr.InRange` : an instruction whose operands fit into their fields.
* `Decoded` : what a word stands for; a branch has a displacement in place of a label.
* `decode` : the decoder.

## Main results

* `decode_encode` : the word of an instruction is read as that instruction.
* `decode_branchTo` : the word of a branch with a displacement is read as that branch.
-/

namespace A32Lowering

/-! ### Fields -/

/-- The `len` bits of a word from bit `pos` on, as a number. -/
def slice (w : UInt32) (pos len : Nat) : Nat := (w.toNat >>> pos) % 2 ^ len

section Slice

variable {u a b k : UInt32} {pos len n : Nat}

theorem slice_or : slice (a ||| b) pos len = slice a pos len ||| slice b pos len := by
  rw [slice, UInt32.toNat_or, Nat.shiftRight_or_distrib, Nat.or_mod_two_pow, slice, slice]

theorem slice_and : slice (a &&& b) pos len = slice a pos len &&& slice b pos len := by
  rw [slice, UInt32.toNat_and, Nat.shiftRight_and_distrib, Nat.and_mod_two_pow, slice, slice]

/-- A number that fits into some bits is found in them. -/
theorem slice_self (hu : u.toNat < 2 ^ len) : slice u 0 len = u.toNat := by
  rw [slice, Nat.shiftRight_zero, Nat.mod_eq_of_lt hu]

theorem slice_zero (hu : u.toNat < 2 ^ n) (hp : n ≤ pos) : slice u pos len = 0 := by
  have hpos : u.toNat < 2 ^ pos := hu.trans_le (Nat.pow_le_pow_right (by decide) hp)
  rw [slice, Nat.shiftRight_eq_div_pow, Nat.div_eq_of_lt hpos, Nat.zero_mod]

theorem toNat_shiftLeft_of_lt (hu : u.toNat < 2 ^ n) (hk : k.toNat < 32 ∧ k.toNat + n ≤ 32) :
    (u <<< k).toNat = u.toNat * 2 ^ k.toNat := by
  have hlt : u.toNat * 2 ^ k.toNat < 2 ^ 32 :=
    calc u.toNat * 2 ^ k.toNat < 2 ^ n * 2 ^ k.toNat :=
          Nat.mul_lt_mul_of_pos_right hu (Nat.two_pow_pos _)
      _ = 2 ^ (k.toNat + n) := by rw [← pow_add, Nat.add_comm]
      _ ≤ 2 ^ 32 := Nat.pow_le_pow_right (by decide) hk.2
  rw [UInt32.toNat_shiftLeft, Nat.mod_eq_of_lt hk.1, Nat.shiftLeft_eq, Nat.mod_eq_of_lt hlt]

/-- A number that was moved to a position is found there. -/
theorem slice_shift_self (hu : u.toNat < 2 ^ len) (hk : k.toNat < 32 ∧ k.toNat + len ≤ 32)
    (hp : pos = k.toNat) : slice (u <<< k) pos len = u.toNat := by
  rw [slice, toNat_shiftLeft_of_lt hu hk, hp, Nat.shiftRight_eq_div_pow,
    Nat.mul_div_cancel _ (Nat.two_pow_pos _), Nat.mod_eq_of_lt hu]

/-- A number that was moved to a position leaves all other bits clear. -/
theorem slice_shift_zero (hu : u.toNat < 2 ^ n) (hk : k.toNat < 32 ∧ k.toNat + n ≤ 32)
    (hp : pos + len ≤ k.toNat ∨ k.toNat + n ≤ pos) : slice (u <<< k) pos len = 0 := by
  rw [slice, toNat_shiftLeft_of_lt hu hk, Nat.shiftRight_eq_div_pow]
  rcases hp with hp | hp
  · obtain ⟨j, hj⟩ := Nat.exists_eq_add_of_le hp
    rw [hj, pow_add, pow_add, Nat.mul_assoc, Nat.mul_left_comm,
      Nat.mul_div_cancel_left _ (Nat.two_pow_pos pos), Nat.mul_left_comm, Nat.mul_mod_right]
  · have hlt : u.toNat * 2 ^ k.toNat < 2 ^ pos :=
      calc u.toNat * 2 ^ k.toNat < 2 ^ n * 2 ^ k.toNat :=
            Nat.mul_lt_mul_of_pos_right hu (Nat.two_pow_pos _)
        _ = 2 ^ (k.toNat + n) := by rw [← pow_add, Nat.add_comm]
        _ ≤ 2 ^ pos := Nat.pow_le_pow_right (by decide) hp
    rw [Nat.div_eq_of_lt hlt, Nat.zero_mod]

end Slice

/-! ### Operands that fit -/

/-- A register number that fits into its field. -/
def Reg.InRange (r : Reg) : Prop := r.code.toNat < 16

/-- A kind of shift that fits into its field. -/
def ShiftKind.InRange (k : ShiftKind) : Prop := k.code.toNat < 4

/-- A shift whose kind and register fit into their fields. -/
def Shift.InRange : Shift → Prop
  | .byAmount kind _ => kind.InRange
  | .byRegister kind r => kind.InRange ∧ r.InRange

/-- A second operand whose fields fit. -/
def Operand2.InRange : Operand2 → Prop
  | .reg r shift => r.InRange ∧ shift.InRange
  | .imm _ => True

/-- A condition code of the instruction set; the last number is no condition. -/
def CondCode.InRange (c : CondCode) : Prop := c.code.toNat < 15

/-- An instruction whose operands fit into their fields. -/
def Instr.InRange : Instr → Prop
  | alu _ _ rd rn op2 => rd.InRange ∧ rn.InRange ∧ op2.InRange
  | compare _ rn op2 => rn.InRange ∧ op2.InRange
  | move _ cond rd op2 => cond.InRange ∧ rd.InRange ∧ op2.InRange
  | movw rd _ | movt rd _ => rd.InRange
  | ldr rd rn _ | str rd rn _ => rd.InRange ∧ rn.InRange
  | stmdb rn _ | ldmia rn _ => rn.InRange
  | bx rm => rm.InRange
  | branch cond _ => cond.InRange
  | mull _ lo hi rn rm => lo.InRange ∧ hi.InRange ∧ rn.InRange ∧ rm.InRange

instance (r : Reg) : Decidable r.InRange := Nat.decLt _ _

instance (k : ShiftKind) : Decidable k.InRange := Nat.decLt _ _

instance (c : CondCode) : Decidable c.InRange := Nat.decLt _ _

instance (s : Shift) : Decidable s.InRange := by
  unfold Shift.InRange
  split <;> infer_instance

instance (o : Operand2) : Decidable o.InRange := by
  unfold Operand2.InRange
  split <;> infer_instance

instance (i : Instr) : Decidable i.InRange := by
  unfold Instr.InRange
  split <;> infer_instance

/-! ### The decoder -/

/-- What a word stands for. -/
inductive Decoded where
  /-- An instruction that is no branch to a label. -/
  | plain (i : Instr)
  /-- A branch by a number of words, counted from two words behind the branch. -/
  | branch (cond : CondCode) (words : Int)
  deriving DecidableEq, Repr

/-- The register named at a position. -/
def regAt (w : UInt32) (pos : Nat) : Reg := ⟨UInt8.ofNat (slice w pos 4)⟩

/-- The kind of shift of a second operand. -/
def shiftKindOf (w : UInt32) : ShiftKind := ⟨UInt8.ofNat (slice w 5 2)⟩

/-- The second operand of a word. A register that is shifted by a register has a zero bit above,
which tells it from a product. -/
def operand2Of? (w : UInt32) : Option Operand2 :=
  if slice w 25 1 = 1 then some (.imm ⟨UInt8.ofNat (slice w 0 8), Fin.ofNat 16 (slice w 8 4)⟩)
  else if slice w 4 1 = 0 then
    some (.reg (regAt w 0) (.byAmount (shiftKindOf w) (Fin.ofNat 32 (slice w 7 5))))
  else if slice w 7 1 = 0 then some (.reg (regAt w 0) (.byRegister (shiftKindOf w) (regAt w 8)))
  else none

/-- The operation with a number that combines two operands into a register. -/
def AluOp.ofCode? : Nat → Option AluOp
  | 0 => some .and | 1 => some .eor | 2 => some .sub | 4 => some .add | 5 => some .adc
  | 6 => some .sbc | 12 => some .orr | 14 => some .bic
  | _ => none

/-- The condition of a word. -/
def condOf (w : UInt32) : CondCode := ⟨UInt8.ofNat (slice w 28 4)⟩

/-- The data-processing instruction of a word with a second operand. A comparison has no register
to write and a move none to read. -/
def dataOf? (w : UInt32) (op2 : Operand2) : Option Instr :=
  match slice w 21 4 with
  | 10 =>
    if slice w 20 1 = 1 ∧ slice w 12 4 = 0 then some (.compare .cmp (regAt w 16) op2) else none
  | 11 =>
    if slice w 20 1 = 1 ∧ slice w 12 4 = 0 then some (.compare .cmn (regAt w 16) op2) else none
  | 13 => if slice w 20 1 = 0 ∧ slice w 16 4 = 0 then
      some (.move .mov (condOf w) (regAt w 12) op2) else none
  | 15 => if slice w 20 1 = 0 ∧ slice w 16 4 = 0 then
      some (.move .mvn (condOf w) (regAt w 12) op2) else none
  | n => (AluOp.ofCode? n).map fun op =>
      .alu op (slice w 20 1 = 1) (regAt w 12) (regAt w 16) op2

/-- The 16-bit value of MOVW and MOVT. -/
def half16Of (w : UInt32) : UInt16 := UInt16.ofNat (2 ^ 12 * slice w 16 4 + slice w 0 12)

/-- The product of a word. -/
def productOf? (w : UInt32) : Option Instr :=
  if slice w 5 2 = 0 ∧ slice w 21 4 = 4 ∧ slice w 20 1 = 0 then
    some (.mull false (regAt w 12) (regAt w 16) (regAt w 0) (regAt w 8))
  else if slice w 5 2 = 0 ∧ slice w 21 4 = 6 ∧ slice w 20 1 = 0 then
    some (.mull true (regAt w 12) (regAt w 16) (regAt w 0) (regAt w 8))
  else none

/-- The instruction of a word whose first two bits behind the condition are zero: constants of
sixteen bits, the return, products and data processing. -/
def group0Of? (w : UInt32) : Option Instr :=
  if slice w 25 1 = 1 ∧ slice w 21 4 = 8 ∧ slice w 20 1 = 0 then
    some (.movw (regAt w 12) (half16Of w))
  else if slice w 25 1 = 1 ∧ slice w 21 4 = 10 ∧ slice w 20 1 = 0 then
    some (.movt (regAt w 12) (half16Of w))
  else if slice w 25 1 = 0 ∧ slice w 21 4 = 9 ∧ slice w 20 1 = 0 then
    if slice w 16 4 = 15 ∧ slice w 12 4 = 15 ∧ slice w 8 4 = 15 ∧ slice w 4 4 = 1 then
      some (.bx (regAt w 0))
    else none
  else if slice w 25 1 = 0 ∧ slice w 4 1 = 1 ∧ slice w 7 1 = 1 then productOf? w
  else (operand2Of? w).bind (dataOf? w)

/-- The instruction of a word that loads or stores one register, with an offset that is added. -/
def group1Of? (w : UInt32) : Option Instr :=
  let offset : LoadOffset := Fin.ofNat 4096 (slice w 0 12)
  if slice w 25 1 = 0 ∧ slice w 21 4 = 12 then
    if slice w 20 1 = 1 then some (.ldr (regAt w 12) (regAt w 16) offset)
    else some (.str (regAt w 12) (regAt w 16) offset)
  else none

/-- The instruction of a word that loads or stores several registers and moves their base. -/
def group2Of? (w : UInt32) : Option Instr :=
  let regs : RegisterSet := ⟨UInt16.ofNat (slice w 0 16)⟩
  if slice w 21 4 = 9 ∧ slice w 20 1 = 0 then some (.stmdb (regAt w 16) regs)
  else if slice w 21 4 = 5 ∧ slice w 20 1 = 1 then some (.ldmia (regAt w 16) regs)
  else none

/-- The instruction of a word that is no branch to a label. -/
def plainOf? (w : UInt32) : Option Instr :=
  match slice w 26 2 with
  | 0 => group0Of? w
  | 1 => group1Of? w
  | 2 => group2Of? w
  | _ => none

/-- Whether an instruction can depend on a condition here. -/
def Instr.isConditional : Instr → Bool
  | move _ _ _ _ => true
  | _ => false

/-- The number of words of a branch, from its field of twenty-four bits with a sign. -/
def wordsOf (w : UInt32) : Int :=
  if slice w 0 24 < 2 ^ 23 then slice w 0 24 else (slice w 0 24 : Int) - 2 ^ 24

/-- What a word stands for, if it is one of the instructions that lowering uses. -/
def decode (w : UInt32) : Option Decoded :=
  if slice w 28 4 = 15 then none
  else if slice w 26 2 = 2 ∧ slice w 25 1 = 1 then
    if slice w 24 1 = 0 then some (.branch (condOf w) (wordsOf w)) else none
  else (plainOf? w).bind fun i =>
    if i.isConditional ∨ slice w 28 4 = 14 then some (.plain i) else none

/-! ### Every instruction is found again -/

theorem Reg.InRange.toNat_lt {r : Reg} (h : r.InRange) : r.code.toUInt32.toNat < 2 ^ 4 := by
  rw [UInt8.toNat_toUInt32]
  exact h

theorem regAt_eq {w : UInt32} {pos : Nat} {r : Reg} (h : slice w pos 4 = r.code.toUInt32.toNat) :
    regAt w pos = r := by
  rw [regAt, h, UInt8.toNat_toUInt32, UInt8.ofNat_toNat]

theorem LoadOffset.toNat_bits (off : LoadOffset) : off.bits.toNat = off.val :=
  UInt32.toNat_ofNat_of_lt' (off.isLt.trans (by decide))

theorem LoadOffset.toNat_bits_lt (off : LoadOffset) : off.bits.toNat < 2 ^ 12 :=
  off.toNat_bits ▸ off.isLt

theorem RegisterSet.toNat_mask_lt (s : RegisterSet) : s.mask.toUInt32.toNat < 2 ^ 16 := by
  rw [UInt16.toNat_toUInt32]
  exact s.mask.toNat_lt

theorem decode_of_plainOf? {w : UInt32} {i : Instr} (hc : slice w 28 4 < 15)
    (hi : i.isConditional ∨ slice w 28 4 = 14) (hb : ¬ (slice w 26 2 = 2 ∧ slice w 25 1 = 1))
    (h : plainOf? w = some i) : decode w = some (.plain i) := by
  rw [decode, if_neg (by omega), if_neg hb, h, Option.bind_some, if_pos hi]

theorem decode_of_group0 {w : UInt32} {i : Instr} (hc : slice w 28 4 < 15)
    (hi : i.isConditional ∨ slice w 28 4 = 14) (hk : slice w 26 2 = 0)
    (h : group0Of? w = some i) : decode w = some (.plain i) :=
  decode_of_plainOf? hc hi (by omega) (by simp only [plainOf?, hk, h])

section Groups

variable {rd rn rm lo hi : Reg}

/-- The fields of a load or store. -/
theorem plainOf?_group1 {w : UInt32} {off : LoadOffset} (h26 : slice w 26 2 = 1)
    (h25 : slice w 25 1 = 0) (h21 : slice w 21 4 = 12) (h16 : slice w 16 4 = rn.code.toUInt32.toNat)
    (h12 : slice w 12 4 = rd.code.toUInt32.toNat) (h0 : slice w 0 12 = off.bits.toNat) :
    plainOf? w = if slice w 20 1 = 1 then some (.ldr rd rn off) else some (.str rd rn off) := by
  have hf : Fin.ofNat 4096 (slice w 0 12) = off := by
    rw [h0, off.toNat_bits]
    exact Fin.ofNat_val_eq_self off
  simp only [plainOf?, h26, group1Of?, h25, h21, regAt_eq h16, regAt_eq h12, hf, and_self, if_true]

/-- A load and a store differ in one bit. -/
theorem decode_transfer (load : Bool) (hd : rd.InRange) (hn : rn.InRange) (off : LoadOffset) :
    decode (if load then Instr.ldr rd rn off else .str rd rn off).encode =
      some (.plain (if load then .ldr rd rn off else .str rd rn off)) := by
  have hd := hd.toNat_lt
  have hn := hn.toNat_lt
  have ho := off.toNat_bits_lt
  generalize hw : (if load then Instr.ldr rd rn off else .str rd rn off).encode = w
  have hs : slice w 28 4 = 14 ∧ slice w 26 2 = 1 ∧ slice w 25 1 = 0 ∧ slice w 21 4 = 12 ∧
      slice w 20 1 = load.toNat ∧ slice w 16 4 = rn.code.toUInt32.toNat ∧
      slice w 12 4 = rd.code.toUInt32.toNat ∧ slice w 0 12 = off.bits.toNat := by
    cases load <;> simp (disch := first | assumption | decide) only [← hw, Bool.false_eq_true,
      if_true, if_false, Instr.encode, field, slice_or, slice_shift_self, slice_self,
      slice_shift_zero hd, slice_shift_zero hn, slice_zero ho] <;> simp [slice]
  obtain ⟨h28, h26, h25, h21, h20, h16, h12, h0⟩ := hs
  refine decode_of_plainOf? (by omega) (.inr h28) (by omega) ?_
  rw [plainOf?_group1 h26 h25 h21 h16 h12 h0, h20]
  cases load <;> rfl

/-- Saving and restoring several registers differ in the operation field and in one bit. -/
theorem decode_block (load : Bool) (hn : rn.InRange) (regs : RegisterSet) :
    decode (if load then Instr.ldmia rn regs else .stmdb rn regs).encode =
      some (.plain (if load then .ldmia rn regs else .stmdb rn regs)) := by
  have hn := hn.toNat_lt
  have hr := regs.toNat_mask_lt
  cases load <;> simp (disch := first | assumption | decide) only [Bool.false_eq_true, if_true,
    if_false, decode, plainOf?, group2Of?, regAt, Instr.encode, field, slice_or, slice_shift_self,
    slice_self, slice_shift_zero hn, slice_zero hr] <;> simp [slice]

theorem decode_bx (hm : rm.InRange) : decode (Instr.bx rm).encode = some (.plain (.bx rm)) := by
  have hm := hm.toNat_lt
  simp (disch := first | assumption | decide) only [decode, plainOf?, group0Of?, regAt,
    Instr.encode, field, slice_or, slice_shift_self, slice_shift_zero hm]
  simp [slice]

theorem decode_mull (signed : Bool) (hlo : lo.InRange) (hhi : hi.InRange) (hn : rn.InRange)
    (hm : rm.InRange) :
    decode (Instr.mull signed lo hi rn rm).encode = some (.plain (.mull signed lo hi rn rm)) := by
  have hlo := hlo.toNat_lt
  have hhi := hhi.toNat_lt
  have hn := hn.toNat_lt
  have hm := hm.toNat_lt
  generalize hw : (Instr.mull signed lo hi rn rm).encode = w
  have hs : slice w 28 4 = 14 ∧ slice w 26 2 = 0 ∧ slice w 25 1 = 0 ∧
      slice w 21 4 = (if signed then 6 else 4) ∧ slice w 20 1 = 0 ∧ slice w 7 1 = 1 ∧
      slice w 5 2 = 0 ∧ slice w 4 1 = 1 ∧ slice w 16 4 = hi.code.toUInt32.toNat ∧
      slice w 12 4 = lo.code.toUInt32.toNat ∧ slice w 8 4 = rm.code.toUInt32.toNat ∧
      slice w 0 4 = rn.code.toUInt32.toNat := by
    cases signed <;> simp (disch := first | assumption | decide) only [← hw, Instr.encode, field,
      slice_or, slice_shift_self, slice_shift_zero hlo, slice_shift_zero hhi, slice_shift_zero hn,
      slice_shift_zero hm] <;> simp [slice]
  obtain ⟨h28, h26, h25, h21, h20, h7, h5, h4, h16, h12, h8, h0⟩ := hs
  refine decode_of_group0 (by omega) (.inr h28) h26 ?_
  cases signed <;> simp [group0Of?, productOf?, h25, h21, h20, h7, h5, h4, regAt_eq h16,
    regAt_eq h12, regAt_eq h8, regAt_eq h0]

/-- The value of MOVW and MOVT is put together from its two fields. -/
theorem half16Of_eq {w : UInt32} {v : UInt16} (h16 : slice w 16 4 = (v >>> 12).toUInt32.toNat)
    (h0 : slice w 0 12 = (v &&& 0xfff).toUInt32.toNat) : half16Of w = v := by
  have hhi : (v >>> 12).toUInt32.toNat = v.toNat / 2 ^ 12 := by
    simp [Nat.shiftRight_eq_div_pow]
  have hlo : (v &&& 0xfff).toUInt32.toNat = v.toNat % 2 ^ 12 := by
    rw [UInt16.toNat_toUInt32, UInt16.toNat_and]
    exact Nat.and_two_pow_sub_one_eq_mod v.toNat 12
  rw [half16Of, h16, h0, hhi, hlo, Nat.div_add_mod, UInt16.ofNat_toNat]

theorem toNat_high_lt (v : UInt16) : (v >>> 12).toUInt32.toNat < 2 ^ 4 := by
  have hv := v.toNat_lt
  simp only [UInt16.toNat_toUInt32, UInt16.toNat_shiftRight, UInt16.reduceToNat, Nat.reduceMod,
    Nat.shiftRight_eq_div_pow]
  omega

theorem toNat_low_lt (v : UInt16) : (v &&& 0xfff).toUInt32.toNat < 2 ^ 12 := by
  rw [UInt16.toNat_toUInt32, UInt16.toNat_and]
  exact Nat.lt_of_le_of_lt Nat.and_le_right (by decide)

/-- MOVW and MOVT differ in the operation field. -/
theorem decode_half (upper : Bool) (hd : rd.InRange) (v : UInt16) :
    decode (if upper then Instr.movt rd v else .movw rd v).encode =
      some (.plain (if upper then .movt rd v else .movw rd v)) := by
  have hd := hd.toNat_lt
  have hhi := toNat_high_lt v
  have hlo := toNat_low_lt v
  generalize hw : (if upper then Instr.movt rd v else .movw rd v).encode = w
  have hs : slice w 28 4 = 14 ∧ slice w 26 2 = 0 ∧ slice w 25 1 = 1 ∧
      slice w 21 4 = (if upper then 10 else 8) ∧ slice w 20 1 = 0 ∧
      slice w 16 4 = (v >>> 12).toUInt32.toNat ∧ slice w 12 4 = rd.code.toUInt32.toNat ∧
      slice w 0 12 = (v &&& 0xfff).toUInt32.toNat := by
    cases upper <;> simp (disch := first | assumption | decide) only [← hw, Bool.false_eq_true,
      if_true, if_false, Instr.encode, Instr.split16, field, slice_or, slice_shift_self, slice_self,
      slice_shift_zero hd, slice_shift_zero hhi, slice_zero hlo] <;> simp [slice]
  obtain ⟨h28, h26, h25, h21, h20, h16, h12, h0⟩ := hs
  refine decode_of_group0 (by omega) (.inr h28) h26 ?_
  cases upper <;> simp [group0Of?, h25, h21, h20, regAt_eq h12, half16Of_eq h16 h0]

end Groups

/-! ### Data processing -/

theorem Immediate.toNat_imm_lt (i : Immediate) : i.imm.toUInt32.toNat < 2 ^ 8 := by
  rw [UInt8.toNat_toUInt32]
  exact i.imm.toNat_lt

theorem toNat_ofNat_fin {n : Nat} (h : n < UInt32.size) (a : Fin n) :
    (UInt32.ofNat a.val).toNat = a.val :=
  UInt32.toNat_ofNat_of_lt' (a.isLt.trans h)

theorem Immediate.toNat_rot_lt (i : Immediate) : (UInt32.ofNat i.rot.val).toNat < 2 ^ 4 := by
  rw [toNat_ofNat_fin (by decide)]
  exact i.rot.isLt

theorem toNat_amount_lt (a : Fin 32) : (UInt32.ofNat a.val).toNat < 2 ^ 5 := by
  rw [toNat_ofNat_fin (by decide)]
  exact a.isLt

theorem ShiftKind.InRange.toNat_lt {kind : ShiftKind} (h : kind.InRange) :
    kind.code.toUInt32.toNat < 2 ^ 2 := by
  rw [UInt8.toNat_toUInt32]
  exact h

theorem shiftKindOf_eq {w : UInt32} {kind : ShiftKind}
    (h : slice w 5 2 = kind.code.toUInt32.toNat) : shiftKindOf w = kind := by
  rw [shiftKindOf, h, UInt8.toNat_toUInt32, UInt8.ofNat_toNat]

namespace Operand2

variable {op2 : Operand2}

/-- Whether a second operand is an immediate. -/
def isImm : Operand2 → Bool
  | imm _ => true
  | reg _ _ => false

/-- A second operand takes the immediate bit and the lowest twelve. -/
theorem slice_bits_upper (h : op2.InRange) : slice op2.bits 28 4 = 0 ∧ slice op2.bits 26 2 = 0 ∧
    slice op2.bits 25 1 = op2.isImm.toNat ∧ slice op2.bits 21 4 = 0 ∧ slice op2.bits 20 1 = 0 ∧
    slice op2.bits 16 4 = 0 ∧ slice op2.bits 12 4 = 0 := by
  cases op2 with
  | imm i =>
    simp (disch := decide) only [bits, Immediate.bits, slice_or,
      slice_shift_zero i.toNat_rot_lt, slice_zero i.toNat_imm_lt]
    simp [slice, isImm]
  | reg r shift =>
    have hr := h.1.toNat_lt
    cases shift with
    | byAmount kind amount =>
      have hk := h.2.toNat_lt
      simp (disch := decide) only [bits, field, slice_or, slice_shift_zero hr,
        slice_shift_zero hk, slice_shift_zero (toNat_amount_lt amount)]
      simp [isImm]
    | byRegister kind s =>
      have hk := h.2.1.toNat_lt
      have hs := h.2.2.toNat_lt
      simp (disch := decide) only [bits, field, slice_or, slice_shift_zero hr,
        slice_shift_zero hk, slice_shift_zero hs]
      simp [slice, isImm]

/-- A second operand is found again in any word that has its bits, and it is no product. -/
theorem operand2Of?_eq (h : op2.InRange) {w : UInt32} (h25 : slice w 25 1 = op2.isImm.toNat)
    (hlow : ∀ pos len, pos + len ≤ 12 → slice w pos len = slice op2.bits pos len) :
    operand2Of? w = some op2 ∧ ¬ (slice w 25 1 = 0 ∧ slice w 4 1 = 1 ∧ slice w 7 1 = 1) := by
  cases op2 with
  | imm i =>
    have hi := i.toNat_imm_lt
    have hr := i.toNat_rot_lt
    have hs : slice w 0 8 = i.imm.toUInt32.toNat ∧
        slice w 8 4 = (UInt32.ofNat i.rot.val).toNat := by
      rw [hlow 0 8 (by decide), hlow 8 4 (by decide)]
      simp (disch := first | assumption | decide) only [bits, Immediate.bits, slice_or,
        slice_shift_self, slice_self, slice_shift_zero hr, slice_zero hi]
      simp [slice]
    have hrot : Fin.ofNat 16 (slice w 8 4) = i.rot := by
      rw [hs.2, toNat_ofNat_fin (by decide)]
      exact Fin.ofNat_val_eq_self i.rot
    rw [isImm, Bool.toNat_true] at h25
    refine ⟨?_, by omega⟩
    rw [operand2Of?, if_pos h25, hs.1, hrot, UInt8.toNat_toUInt32, UInt8.ofNat_toNat]
  | reg r shift =>
    have hr := h.1.toNat_lt
    rw [isImm, Bool.toNat_false] at h25
    cases shift with
    | byAmount kind amount =>
      have hk := h.2.toNat_lt
      have ha := toNat_amount_lt amount
      have hs : slice w 4 1 = 0 ∧ slice w 0 4 = r.code.toUInt32.toNat ∧
          slice w 5 2 = kind.code.toUInt32.toNat ∧
          slice w 7 5 = (UInt32.ofNat amount.val).toNat := by
        rw [hlow 4 1 (by decide), hlow 0 4 (by decide), hlow 5 2 (by decide), hlow 7 5 (by decide)]
        simp (disch := first | assumption | decide) only [bits, field, slice_or, slice_shift_self,
          slice_shift_zero hr, slice_shift_zero hk, slice_shift_zero ha]
        simp
      obtain ⟨h4, h0, h5, h7⟩ := hs
      have hamount : Fin.ofNat 32 (slice w 7 5) = amount := by
        rw [h7, toNat_ofNat_fin (by decide)]
        exact Fin.ofNat_val_eq_self amount
      refine ⟨?_, by omega⟩
      rw [operand2Of?, if_neg (by omega), if_pos h4, regAt_eq h0, shiftKindOf_eq h5, hamount]
    | byRegister kind s =>
      have hk := h.2.1.toNat_lt
      have hs := h.2.2.toNat_lt
      have hsl : slice w 4 1 = 1 ∧ slice w 7 1 = 0 ∧ slice w 0 4 = r.code.toUInt32.toNat ∧
          slice w 5 2 = kind.code.toUInt32.toNat ∧ slice w 8 4 = s.code.toUInt32.toNat := by
        rw [hlow 4 1 (by decide), hlow 7 1 (by decide), hlow 0 4 (by decide), hlow 5 2 (by decide),
          hlow 8 4 (by decide)]
        simp (disch := first | assumption | decide) only [bits, field, slice_or, slice_shift_self,
          slice_shift_zero hr, slice_shift_zero hk, slice_shift_zero hs]
        simp [slice]
      obtain ⟨h4, h7, h0, h5, h8⟩ := hsl
      refine ⟨?_, by omega⟩
      rw [operand2Of?, if_neg (by omega), if_neg (by omega), if_pos h7, regAt_eq h0,
        shiftKindOf_eq h5, regAt_eq h8]

end Operand2

/-- The fields of a data-processing word. -/
theorem slice_dataWord {cond : CondCode} {op : UInt32} {flags : Bool} {rd rn : Reg} {op2 : Operand2}
    (hc : cond.InRange) (ho : op.toNat < 2 ^ 4) (hd : rd.InRange) (hn : rn.InRange)
    (h2 : op2.InRange) {w : UInt32} (hw : Instr.dataWord cond op flags rd rn op2 = w) :
    (slice w 28 4 = cond.code.toNat ∧ slice w 26 2 = 0 ∧ slice w 25 1 = op2.isImm.toNat ∧
      slice w 21 4 = op.toNat ∧ slice w 20 1 = flags.toNat ∧
      slice w 16 4 = rn.code.toUInt32.toNat ∧ slice w 12 4 = rd.code.toUInt32.toNat) ∧
    ∀ pos len, pos + len ≤ 12 → slice w pos len = slice op2.bits pos len := by
  have hd := hd.toNat_lt
  have hn := hn.toNat_lt
  have hc : cond.code.toUInt32.toNat < 2 ^ 4 := by
    rw [UInt8.toNat_toUInt32]
    exact Nat.lt_succ_of_lt hc
  obtain ⟨u28, u26, u25, u21, u20, u16, u12⟩ := Operand2.slice_bits_upper h2
  constructor
  · cases flags <;> simp (disch := first | assumption | decide) only [← hw, Instr.dataWord, field,
      slice_or, slice_shift_self, slice_shift_zero hc, slice_shift_zero ho, slice_shift_zero hd,
      slice_shift_zero hn, u28, u26, u25, u21, u20, u16, u12] <;> simp [slice]
  · intro pos len hp
    have hf : slice (if flags then 0x00100000 else 0) pos len = 0 := by
      have h1 : (1 : UInt32).toNat < 2 ^ 1 := by decide
      have hz : slice ((1 : UInt32) <<< 20) pos len = 0 :=
        slice_shift_zero h1 (by decide) (.inl (hp.trans (by decide)))
      cases flags
      · simp [slice]
      · exact hz
    have h12 : pos + len ≤ (12 : UInt32).toNat := hp
    have h16 : pos + len ≤ (16 : UInt32).toNat := hp.trans (by decide)
    have h21 : pos + len ≤ (21 : UInt32).toNat := hp.trans (by decide)
    have h28 : pos + len ≤ (28 : UInt32).toNat := hp.trans (by decide)
    rw [← hw, Instr.dataWord, field, field, field]
    simp only [slice_or, hf, slice_shift_zero hc (by decide) (.inl h28),
      slice_shift_zero ho (by decide) (.inl h21), slice_shift_zero hn (by decide) (.inl h16),
      slice_shift_zero hd (by decide) (.inl h12), Nat.zero_or, Nat.or_zero]

/-- A word of data processing that is neither a constant of sixteen bits nor a return is read by
its operation and its second operand. -/
theorem group0Of?_dataWord {cond : CondCode} {op : UInt32} {flags : Bool} {rd rn : Reg}
    {op2 : Operand2} (hc : cond.InRange) (ho : op.toNat < 2 ^ 4) (hd : rd.InRange)
    (hn : rn.InRange) (h2 : op2.InRange) {w : UInt32}
    (hw : Instr.dataWord cond op flags rd rn op2 = w)
    (hne : flags = false → op.toNat ≠ 8 ∧ op.toNat ≠ 9 ∧ op.toNat ≠ 10) :
    group0Of? w = dataOf? w op2 := by
  obtain ⟨⟨-, -, h25, h21, h20, -, -⟩, hlow⟩ := slice_dataWord hc ho hd hn h2 hw
  obtain ⟨hop2, hprod⟩ := Operand2.operand2Of?_eq h2 h25 hlow
  have hz (n : Nat) (hn : n = 8 ∨ n = 9 ∨ n = 10) : ¬ (slice w 21 4 = n ∧ slice w 20 1 = 0) := by
    rw [h21, h20]
    cases flags
    · have := hne rfl
      simp only [Bool.toNat_false]
      omega
    · simp
  rw [group0Of?, if_neg fun h => hz 8 (by decide) h.2, if_neg fun h => hz 10 (by decide) h.2,
    if_neg fun h => hz 9 (by decide) h.2, if_neg hprod, hop2, Option.bind_some]

theorem CondCode.inRange_al : CondCode.al.InRange := by
  unfold CondCode.InRange
  decide

section Data

variable {rd rn : Reg} {op2 : Operand2}

theorem decode_alu (op : AluOp) (flags : Bool) (hd : rd.InRange) (hn : rn.InRange)
    (h2 : op2.InRange) :
    decode (Instr.alu op flags rd rn op2).encode = some (.plain (.alu op flags rd rn op2)) := by
  generalize hw : (Instr.alu op flags rd rn op2).encode = w
  have ho : op.code.toNat < 2 ^ 4 := by cases op <;> decide
  have hne : flags = false → op.code.toNat ≠ 8 ∧ op.code.toNat ≠ 9 ∧ op.code.toNat ≠ 10 := by
    intro _
    cases op <;> decide
  obtain ⟨⟨h28, h26, -, h21, h20, h16, h12⟩, -⟩ :=
    slice_dataWord CondCode.inRange_al ho hd hn h2 hw
  have h28 : slice w 28 4 = 14 := h28
  refine decode_of_group0 (by omega) (.inr h28) h26 ?_
  rw [group0Of?_dataWord CondCode.inRange_al ho hd hn h2 hw hne]
  have hf : decide (slice w 20 1 = 1) = flags := by
    rw [h20]
    cases flags <;> rfl
  cases op <;> simp [dataOf?, h21, AluOp.code, AluOp.ofCode?, regAt_eq h16, regAt_eq h12, hf]

theorem decode_compare (op : CompareOp) (hn : rn.InRange) (h2 : op2.InRange) :
    decode (Instr.compare op rn op2).encode = some (.plain (.compare op rn op2)) := by
  generalize hw : (Instr.compare op rn op2).encode = w
  have ho : op.code.toNat < 2 ^ 4 := by cases op <;> decide
  have h0 : Reg.r0.InRange := by
    unfold Reg.InRange
    decide
  obtain ⟨⟨h28, h26, -, h21, h20, h16, h12⟩, -⟩ :=
    slice_dataWord CondCode.inRange_al ho h0 hn h2 hw
  have h28 : slice w 28 4 = 14 := h28
  have h12 : slice w 12 4 = 0 := h12
  refine decode_of_group0 (by omega) (.inr h28) h26 ?_
  rw [group0Of?_dataWord CondCode.inRange_al ho h0 hn h2 hw (fun h => by cases h)]
  cases op <;> simp [dataOf?, h21, CompareOp.code, h20, h12, regAt_eq h16]

theorem decode_move (op : MoveOp) {cond : CondCode} (hc : cond.InRange) (hd : rd.InRange)
    (h2 : op2.InRange) :
    decode (Instr.move op cond rd op2).encode = some (.plain (.move op cond rd op2)) := by
  generalize hw : (Instr.move op cond rd op2).encode = w
  have ho : op.code.toNat < 2 ^ 4 := by cases op <;> decide
  have h0 : Reg.r0.InRange := by
    unfold Reg.InRange
    decide
  have hne : false = false → op.code.toNat ≠ 8 ∧ op.code.toNat ≠ 9 ∧ op.code.toNat ≠ 10 := by
    intro _
    cases op <;> decide
  obtain ⟨⟨h28, h26, -, h21, h20, h16, h12⟩, -⟩ := slice_dataWord hc ho hd h0 h2 hw
  have h16 : slice w 16 4 = 0 := h16
  have hcond : condOf w = cond := by rw [condOf, h28, UInt8.ofNat_toNat]
  refine decode_of_group0 (h28 ▸ hc) (.inl rfl) h26 ?_
  rw [group0Of?_dataWord hc ho hd h0 h2 hw hne]
  cases op <;> simp [dataOf?, h21, MoveOp.code, h20, h16, hcond, regAt_eq h12]

end Data

/-- The word of an instruction is read as that instruction. -/
theorem decode_encode {i : Instr} (h : i.InRange) (hb : ∀ cond label, i ≠ .branch cond label) :
    decode i.encode = some (.plain i) := by
  cases i with
  | alu op flags rd rn op2 => exact decode_alu op flags h.1 h.2.1 h.2.2
  | compare op rn op2 => exact decode_compare op h.1 h.2
  | move op cond rd op2 => exact decode_move op h.1 h.2.1 h.2.2
  | movw rd v => exact decode_half false h v
  | movt rd v => exact decode_half true h v
  | ldr rd rn off => exact decode_transfer true h.1 h.2 off
  | str rd rn off => exact decode_transfer false h.1 h.2 off
  | stmdb rn regs => exact decode_block false h regs
  | ldmia rn regs => exact decode_block true h regs
  | bx rm => exact decode_bx h
  | branch cond label => exact absurd rfl (hb cond label)
  | mull signed lo hi rn rm => exact decode_mull signed h.1 h.2.1 h.2.2.1 h.2.2.2

/-- The offset field of a branch holds the displacement. -/
theorem slice_ofInt {d : Int} (h : Items.InReach d) :
    (if slice (UInt32.ofInt d) 0 24 < 2 ^ 23 then (slice (UInt32.ofInt d) 0 24 : Int)
      else (slice (UInt32.ofInt d) 0 24 : Int) - 2 ^ 24) = d := by
  have hnat : (UInt32.ofInt d).toNat = (d % 2 ^ 32).toNat :=
    UInt32.toNat_ofNat_of_lt' (by simp only [UInt32.size]; omega)
  obtain ⟨hlo, hhi⟩ := h
  rw [slice, hnat, Nat.shiftRight_zero]
  split_ifs <;> omega

/-- The word of a branch with a displacement is read as that branch. -/
theorem decode_branchTo {cond : CondCode} {label : Label} {d : Int} (hc : cond.InRange)
    (h : Items.InReach d) :
    decode (Stream.branchTo (Instr.branch cond label).encode d) = some (.branch cond d) := by
  have hc' : cond.code.toUInt32.toNat < 2 ^ 4 := by
    rw [UInt8.toNat_toUInt32]
    exact Nat.lt_succ_of_lt hc
  generalize hw : Stream.branchTo (Instr.branch cond label).encode d = w
  have hs : slice w 28 4 = cond.code.toNat ∧ slice w 26 2 = 2 ∧ slice w 25 1 = 1 ∧
      slice w 24 1 = 0 ∧ slice w 0 24 = slice (UInt32.ofInt d) 0 24 := by
    have hupper : slice 0xFF000000 28 4 = 2 ^ 4 - 1 ∧ slice 0xFF000000 26 2 = 3 ∧
        slice 0xFF000000 25 1 = 1 ∧ slice 0xFF000000 24 1 = 1 ∧ slice 0xFF000000 0 24 = 0 := by
      decide
    have hlower : slice 0x00FFFFFF 28 4 = 0 ∧ slice 0x00FFFFFF 26 2 = 0 ∧
        slice 0x00FFFFFF 25 1 = 0 ∧ slice 0x00FFFFFF 24 1 = 0 ∧
        slice 0x00FFFFFF 0 24 = 2 ^ 24 - 1 := by decide
    have hop : slice 0x0A000000 28 4 = 0 ∧ slice 0x0A000000 26 2 = 2 ∧ slice 0x0A000000 25 1 = 1 ∧
        slice 0x0A000000 24 1 = 0 := by decide
    simp (disch := first | assumption | decide) only [← hw, Stream.branchTo, Instr.encode, field,
      slice_or, slice_and, slice_shift_self, slice_shift_zero hc', hupper, hlower, hop,
      Nat.and_zero, Nat.or_zero, Nat.zero_or, Nat.and_two_pow_sub_one_eq_mod]
    have hlt : slice (UInt32.ofInt d) 0 24 < 2 ^ 24 := Nat.mod_lt _ (Nat.two_pow_pos 24)
    rw [Nat.mod_eq_of_lt hc', Nat.mod_eq_of_lt hlt, UInt8.toNat_toUInt32]
    exact ⟨rfl, rfl, rfl, rfl, rfl⟩
  obtain ⟨h28, h26, h25, h24, h0⟩ := hs
  have hcond : condOf w = cond := by rw [condOf, h28, UInt8.ofNat_toNat]
  have hne : slice w 28 4 ≠ 15 := by
    rw [h28]
    exact Nat.ne_of_lt hc
  rw [decode, if_neg hne, if_pos ⟨h26, h25⟩, if_pos h24, hcond, wordsOf, h0, slice_ofInt h]

end A32Lowering
