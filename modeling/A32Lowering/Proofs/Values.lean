import Mathlib
import A32Lowering.Proofs.Execution
import A32Lowering.Proofs.Semantics

/-!
# Constants, sums and comparisons on the machine

What the instructions for constants and comparisons compute. A constant is built in one of several
forms, and each of them gives the constant; a comparison with a constant is written as a comparison
with its negation where only that can be an immediate, and the flags are the same.

## Main results

* `Immediate.value_of_ofWord?` : an immediate stands for the constant that it was made from.
* `Core.run?_load` : building a constant writes one register.
* `Arith.fst_eval_immediate?` : an operation with an immediate gives the result of the operation.
* `Core.run?_addConstant` : adding a constant writes the sum.
* `Core.run?_compare` : comparing with a constant sets the flags of a comparison.
* `CondCode.holds_ofCondition` : the condition code of a condition holds after a comparison when
  the condition does.
-/

namespace A32Lowering

/-! ### Immediates -/

namespace Immediate

theorem rotateRight_rotateLeft (x : BitVec 32) {n : Nat} (h : n < 32) :
    (x.rotateLeft n).rotateRight n = x := by
  refine BitVec.eq_of_getLsbD_eq fun i hi => ?_
  rw [BitVec.getLsbD_rotateRight_of_lt h, BitVec.getLsbD_rotateLeft_of_le h,
    BitVec.getLsbD_rotateLeft_of_le h]
  by_cases hlt : i < 32 - n
  · simp [hlt, show n + i < 32 by omega]
  · simp [hlt, hi, show i - (32 - n) < n by omega, show 32 - n + (i - (32 - n)) = i by omega]

/-- An immediate stands for the constant that it was made from. -/
theorem value_of_withRotation? {c : UInt32} {rot : Fin 16} {i : Immediate}
    (h : withRotation? c rot = some i) : i.value = c := by
  unfold withRotation? at h
  simp only at h
  split_ifs at h with hle
  obtain rfl := Option.some.inj h
  have hlt : (c.toBitVec.rotateLeft (2 * rot.val)).toNat < 2 ^ 8 := Nat.lt_succ_of_le hle
  have hbyte : ((c.toBitVec.rotateLeft (2 * rot.val)).setWidth 8).setWidth 32 =
      c.toBitVec.rotateLeft (2 * rot.val) := by
    refine BitVec.eq_of_toNat_eq ?_
    rw [BitVec.toNat_setWidth, BitVec.toNat_setWidth, Nat.mod_eq_of_lt hlt,
      Nat.mod_eq_of_lt (hlt.trans (by decide))]
  have hv : (value ⟨⟨(c.toBitVec.rotateLeft (2 * rot.val)).setWidth 8⟩, rot⟩).toBitVec =
      c.toBitVec := by
    show (((c.toBitVec.rotateLeft (2 * rot.val)).setWidth 8).setWidth 32).rotateRight
      (2 * rot.val) = c.toBitVec
    rw [hbyte, rotateRight_rotateLeft _ (by omega)]
  exact UInt32.toBitVec_inj.mp hv

theorem value_of_ofWord? {c : UInt32} {i : Immediate} (h : ofWord? c = some i) : i.value = c := by
  obtain ⟨rot, -, hr⟩ := List.exists_of_findSome?_eq_some h
  exact value_of_withRotation? hr

end Immediate

/-! ### Constants -/

theorem toNat_lowHalf (v : UInt32) : (Constant.lowHalf v).toUInt32.toNat = v.toNat % 2 ^ 16 := by
  simp [Constant.lowHalf]

theorem toNat_highHalf (v : UInt32) : (Constant.highHalf v).toUInt32.toNat = v.toNat / 2 ^ 16 := by
  have hv := v.toNat_lt
  simp [Constant.highHalf, Nat.shiftRight_eq_div_pow]
  omega

/-- A constant is put together from its two halves. -/
theorem low_or_high (v : UInt32) : ((Constant.lowHalf v).toUInt32 &&& (0xFFFF : UInt32)) |||
    (Constant.highHalf v).toUInt32 <<< 16 = v := by
  have hv := v.toNat_lt
  have hhi : (Constant.highHalf v).toUInt32.toNat < 2 ^ 16 := by
    rw [toNat_highHalf]
    omega
  have hmask : (v.toNat % 2 ^ 16) &&& (0xFFFF : UInt32).toNat = v.toNat % 2 ^ 16 :=
    (Nat.and_two_pow_sub_one_eq_mod _ 16).trans (Nat.mod_mod _ _)
  have h16 : (16 : UInt32).toNat = 16 := rfl
  rw [← UInt32.toNat_inj, UInt32.toNat_or, UInt32.toNat_and, toNat_lowHalf, hmask,
    toNat_shiftLeft_of_lt hhi (by decide), toNat_highHalf, Nat.or_comm, Nat.mul_comm, h16,
    ← Nat.two_pow_add_eq_or_of_lt (Nat.mod_lt _ (by decide))]
  exact Nat.div_add_mod v.toNat _

theorem low_of_high_eq_zero {v : UInt32} (h : Constant.highHalf v = 0) :
    (Constant.lowHalf v).toUInt32 = v := by
  have hhi := toNat_highHalf v
  have hz : (0 : UInt16).toUInt32.toNat = 0 := rfl
  rw [h] at hhi
  rw [← UInt32.toNat_inj, toNat_lowHalf]
  omega

theorem CondCode.holds_al (f : Flags) : CondCode.al.holds f = true := rfl

namespace Core

variable {c : Core} {r : Reg} {a b v : UInt32}

theorem set_set : (c.set r a).set r b = c.set r b := by
  simp only [set, Function.update_idem]

theorem effect?_move {op : MoveOp} {rd : Reg} {op2 : Operand2} :
    c.effect? (.move op .al rd op2) = some (c.set rd (op.eval (op2.eval c).1)) := by
  rw [effect?, CondCode.holds_al, if_pos rfl]

theorem effect?_alu {op : AluOp} {rd rn : Reg} {op2 : Operand2} :
    c.effect? (.alu op false rd rn op2) =
      some (c.set rd (op.eval c.flags (c.regs rn) (op2.eval c)).1) := rfl

theorem fst_eval_plain : ((Operand2.plain r).eval c).1 = c.regs r := by
  have hk : ShiftKind.lsl.code.toNat % 4 = 0 := rfl
  simp [Operand2.plain, Operand2.eval, Shift.none, Shift.eval, hk, ShiftKind.apply]

theorem effect?_mov {rd rm : Reg} : c.effect? (.mov rd rm) = some (c.set rd (c.regs rm)) := by
  rw [Instr.mov, effect?_move, fst_eval_plain, MoveOp.eval]

/-- The pair that linking can replace loads its constant. -/
theorem run?_loadPair : c.run? (Constant.loadPair r v) = some (c.set r v) := by
  rw [Constant.loadPair, run?_cons, effect?, Option.bind_some, run?_singleton, effect?,
    regs_set_self, low_or_high, set_set]

/-- Building a constant writes one register. -/
theorem run?_load : c.run? (Constant.load r v) = some (c.set r v) := by
  unfold Constant.load
  split
  next i h =>
    rw [run?_singleton, effect?_move]
    simp only [MoveOp.eval, Operand2.eval, Immediate.value_of_ofWord? h]
  next i h =>
    rw [run?_singleton, effect?_move]
    simp only [MoveOp.eval, Operand2.eval, Immediate.value_of_ofWord? h, UInt32.not_not]
  next =>
    split_ifs with hz
    · rw [run?_singleton, effect?, low_of_high_eq_zero hz]
    · exact run?_loadPair

end Core

/-! ### Sums -/

theorem fst_addWithCarry (x y : UInt32) (carry : Bool) :
    (addWithCarry x y carry).1 = x + y + UInt32.ofNat carry.toNat := by
  rw [addWithCarry]
  simp only [UInt32.ofNat_add, UInt32.ofNat_toNat]

/-- The sum of a word and the complement of another, with a carry, is their difference. -/
theorem fst_addWithCarry_not (x y : UInt32) : (addWithCarry x (~~~y) true).1 = x - y := by
  have h1 : UInt32.ofNat true.toNat = 1 := rfl
  rw [fst_addWithCarry, h1, add_assoc, ← UInt32.neg_eq_not_add, ← sub_eq_add_neg]

theorem toInt_not (y : UInt32) : (~~~y).toBitVec.toInt = -y.toBitVec.toInt - 1 := by
  rw [UInt32.toBitVec_not, BitVec.toInt_not, BitVec.toInt_eq_toNat_bmod]
  have h := y.toBitVec.isLt
  simp only [Int.bmod_def]
  omega

/-- Adding the negation of a constant sets the flags of subtracting the constant. The constants for
which it does not are immediates themselves. -/
theorem addWithCarry_neg {v : UInt32} (h0 : v ≠ 0) (hmin : v ≠ 0x80000000) (x : UInt32) :
    addWithCarry x (-v) false = addWithCarry x (~~~v) true := by
  have hnat : x.toNat + (-v).toNat + false.toNat = x.toNat + (~~~v).toNat + true.toNat := by
    have hv := v.toNat_lt
    have hpos : v.toNat ≠ 0 := fun h => h0 (UInt32.toNat_inj.mp h)
    rw [UInt32.toNat_neg, UInt32.toNat_not]
    simp only [Bool.toNat_false, Bool.toNat_true, UInt32.size]
    omega
  have hint : (-v).toBitVec.toInt + (false.toNat : Int) =
      (~~~v).toBitVec.toInt + (true.toNat : Int) := by
    have hne : v.toBitVec ≠ BitVec.intMin 32 := fun h => hmin (UInt32.toBitVec_inj.mp h)
    rw [toInt_not, UInt32.toBitVec_neg, BitVec.toInt_neg_of_ne_intMin hne]
    simp
  simp only [addWithCarry, hnat, add_assoc, hint]

/-- A difference and its flags: the sign, whether both words are equal, whether the difference does
not go below zero, and whether the difference of the signed numbers has more than thirty-two
bits. -/
theorem addWithCarry_not (a b : UInt32) : addWithCarry a (~~~b) true =
    (a - b, ⟨(a - b).toBitVec.msb, a = b, b ≤ a,
      a.toBitVec.toInt - b.toBitVec.toInt ≠ (a - b).toBitVec.toInt⟩) := by
  have hr : UInt32.ofNat (a.toNat + (~~~b).toNat + true.toNat) = a - b := fst_addWithCarry_not a b
  have hcarry : 2 ^ 32 ≤ a.toNat + (~~~b).toNat + true.toNat ↔ b ≤ a := by
    have hb := b.toNat_lt
    rw [UInt32.toNat_not, UInt32.le_iff_toNat_le]
    simp only [Bool.toNat_true, UInt32.size]
    omega
  have hsum : a.toBitVec.toInt + (-b.toBitVec.toInt - 1) + (true.toNat : Int) =
      a.toBitVec.toInt - b.toBitVec.toInt := by
    simp only [Bool.toNat_true]
    omega
  simp only [addWithCarry, hr, hcarry, toInt_not, hsum, sub_eq_zero]

/-- A difference has the zero flag when both words are equal. -/
theorem zero_sub (a b : UInt32) : (addWithCarry a (~~~b) true).2.zero = decide (a = b) := by
  rw [addWithCarry_not]

/-- A difference has the carry flag when it does not go below zero. -/
theorem carry_sub (a b : UInt32) : (addWithCarry a (~~~b) true).2.carry = decide (b ≤ a) := by
  rw [addWithCarry_not]

/-- The sign and the overflow of a difference together say whether it is less than zero. -/
theorem sign_sub (a b : UInt32) : ((addWithCarry a (~~~b) true).2.negative ==
    (addWithCarry a (~~~b) true).2.overflow) = decide (b.toInt32 ≤ a.toInt32) := by
  have hle : b.toInt32 ≤ a.toInt32 ↔ b.toBitVec.toInt ≤ a.toBitVec.toInt := Int32.le_iff_toInt_le
  have hsub : (a - b).toBitVec.toInt = (a.toBitVec.toInt - b.toBitVec.toInt).bmod (2 ^ 32) := by
    rw [UInt32.toBitVec_sub, BitVec.toInt_sub]
  have ha := a.toBitVec.toInt_lt
  have ha' := a.toBitVec.le_toInt
  have hb := b.toBitVec.toInt_lt
  have hb' := b.toBitVec.le_toInt
  simp only [addWithCarry_not, BitVec.msb_eq_toInt]
  rw [hsub, Int.bmod_def, Bool.eq_iff_iff, beq_iff_eq, decide_eq_decide, decide_eq_true_iff, hle]
  omega

/-- The condition code of a condition holds after a comparison exactly when the condition does. -/
theorem CondCode.holds_ofCondition {cond : Condition} {cc : CondCode}
    (h : CondCode.ofCondition cond = .ok cc) (a b : UInt32) :
    cc.holds (addWithCarry a (~~~b) true).2 = cond.holds a b := by
  have hz := zero_sub a b
  have hc := carry_sub a b
  have hs := sign_sub a b
  generalize (addWithCarry a (~~~b) true).2 = f at hz hc hs
  -- Unsigned comparisons are read from the carry, signed ones from sign and overflow.
  have hu : a = b ↔ a.toNat = b.toNat := UInt32.toNat_inj.symm
  have hi : a = b ↔ a.toInt32.toInt = b.toInt32.toInt :=
    ⟨fun h => h ▸ rfl, fun h => UInt32.toBitVec_inj.mp (BitVec.eq_of_toInt_eq h)⟩
  rw [Bool.eq_iff_iff]
  cases cond with
  | none | unknown => cases h
  | eq =>
    obtain rfl := Except.ok.inj h
    exact Bool.eq_iff_iff.mp hz
  | ne =>
    obtain rfl := Except.ok.inj h
    show (!f.zero) = true ↔ _
    simp [hz, Condition.holds]
  | ae =>
    obtain rfl := Except.ok.inj h
    exact Bool.eq_iff_iff.mp hc
  | bl =>
    obtain rfl := Except.ok.inj h
    show (!f.carry) = true ↔ _
    simp [hc, Condition.holds]
  | ab =>
    obtain rfl := Except.ok.inj h
    show (f.carry && !f.zero) = true ↔ _
    simp only [hc, hz, hu, Condition.holds, UInt32.le_iff_toNat_le, UInt32.lt_iff_toNat_lt,
      Bool.and_eq_true, decide_eq_true_eq, Bool.not_eq_eq_eq_not, Bool.not_true,
      decide_eq_false_iff_not]
    omega
  | be =>
    obtain rfl := Except.ok.inj h
    show (!(f.carry && !f.zero)) = true ↔ _
    simp only [hc, hz, hu, Condition.holds, UInt32.le_iff_toNat_le, Bool.not_and, Bool.not_not,
      Bool.or_eq_true, Bool.not_eq_eq_eq_not, Bool.not_true, decide_eq_false_iff_not,
      decide_eq_true_eq]
    omega
  | ge =>
    obtain rfl := Except.ok.inj h
    exact Bool.eq_iff_iff.mp hs
  | lt =>
    obtain rfl := Except.ok.inj h
    show (!(f.negative == f.overflow)) = true ↔ _
    simp [hs, Condition.holds]
  | gt =>
    obtain rfl := Except.ok.inj h
    show (!f.zero && f.negative == f.overflow) = true ↔ _
    simp only [hs, hz, hi, Condition.holds, Int32.le_iff_toInt_le, Int32.lt_iff_toInt_lt,
      Bool.and_eq_true, decide_eq_true_eq, Bool.not_eq_eq_eq_not, Bool.not_true,
      decide_eq_false_iff_not]
    omega
  | le =>
    obtain rfl := Except.ok.inj h
    show (!(!f.zero && f.negative == f.overflow)) = true ↔ _
    simp only [hs, hz, hi, Condition.holds, Int32.le_iff_toInt_le, Bool.not_and, Bool.not_not,
      Bool.or_eq_true, Bool.not_eq_eq_eq_not, Bool.not_true, decide_eq_false_iff_not,
      decide_eq_true_eq]
    omega

theorem CondCode.holds_inverse {cond : Condition} {cc : CondCode}
    (h : CondCode.ofCondition cond = .ok cc) (f : Flags) :
    cc.inverse.holds f = !cc.holds f := by
  cases cond with
  | none | unknown => cases h
  | _ =>
    obtain rfl := Except.ok.inj h
    simp [CondCode.holds, CondCode.inverse, CondCode.eq, CondCode.ne, CondCode.lt, CondCode.le,
      CondCode.gt, CondCode.ge, CondCode.cc, CondCode.ls, CondCode.hi, CondCode.cs]

/-! ### Operations with a constant -/

theorem Arith.fst_eval_direct (a : Arith) (f : Flags) (x : UInt32) (y : UInt32 × Bool) :
    (a.direct.eval f x y).1 = a.eval x y.1 := by
  have h1 : UInt32.ofNat false.toNat = 0 := rfl
  cases a with
  | add => rw [direct, AluOp.eval, fst_addWithCarry, h1, add_zero, Arith.eval]
  | sub => rw [direct, AluOp.eval, fst_addWithCarry_not, Arith.eval]
  | and | or | xor => rfl

theorem AluOp.fst_eval_add (f : Flags) (x : UInt32) (y : UInt32 × Bool) :
    (AluOp.add.eval f x y).1 = x + y.1 := Arith.fst_eval_direct .add f x y

/-- The three ways to combine a register with a constant in one instruction. -/
theorem Arith.immediate?_eq_some {a : Arith} {v : UInt32} {op : AluOp} {i : Immediate}
    (h : a.immediate? v = some (op, i)) :
    (op = a.direct ∧ i.value = v) ∨ (a.negated? = some op ∧ i.value = -v) ∨
      (a.complemented? = some op ∧ i.value = ~~~v) := by
  simp only [immediate?, Option.orElse_eq_orElse, Option.orElse_eq_or, Option.or_eq_some_iff,
    Option.map_eq_some_iff, Option.bind_eq_bind, Option.bind_eq_some_iff, Option.pure_def,
    Option.some.injEq, Prod.mk.injEq] at h
  rcases h with ⟨j, hj, rfl, rfl⟩ | ⟨-, ⟨o, ho, j, hj, rfl, rfl⟩ | ⟨-, o, ho, j, hj, rfl, rfl⟩⟩
  · exact .inl ⟨rfl, Immediate.value_of_ofWord? hj⟩
  · exact .inr (.inl ⟨ho, Immediate.value_of_ofWord? hj⟩)
  · exact .inr (.inr ⟨ho, Immediate.value_of_ofWord? hj⟩)

/-- The instruction and the immediate that stand for an operation with a constant give the result
of the operation. -/
theorem Arith.fst_eval_immediate? {a : Arith} {v : UInt32} {op : AluOp} {i : Immediate}
    (h : a.immediate? v = some (op, i)) (f : Flags) (x : UInt32) (carry : Bool) :
    (op.eval f x (i.value, carry)).1 = a.eval x v := by
  have h1 : UInt32.ofNat false.toNat = 0 := rfl
  rcases immediate?_eq_some h with ⟨rfl, hi⟩ | ⟨hop, hi⟩ | ⟨hop, hi⟩
  · rw [fst_eval_direct, hi]
  · cases a with
    | add =>
      obtain rfl := Option.some.inj hop
      rw [AluOp.eval, fst_addWithCarry_not, hi, Arith.eval, sub_neg_eq_add]
    | sub =>
      obtain rfl := Option.some.inj hop
      rw [AluOp.eval, fst_addWithCarry, h1, add_zero, hi, Arith.eval, sub_eq_add_neg]
    | and | or | xor => cases hop
  · cases a with
    | and =>
      obtain rfl := Option.some.inj hop
      rw [AluOp.eval, hi, UInt32.not_not, Arith.eval]
    | add | sub | or | xor => cases hop

namespace Core

variable {c : Core} {l : List Instr}

/-- Adding a constant to a register writes the sum, and before it at most the scratch register. -/
theorem run?_addConstant {rd rn scratch : Reg} {v : UInt32}
    (h : Constant.add rd rn v scratch = .ok l) : ∃ c₁, (c₁ = c ∨ c₁ = c.set scratch v) ∧
      c.run? l = some (c₁.set rd (c.regs rn + v)) := by
  unfold Constant.add at h
  split at h
  next i hi =>
    obtain rfl := Except.ok.inj h
    refine ⟨c, .inl rfl, ?_⟩
    rw [run?_singleton, effect?_alu, AluOp.fst_eval_add, Operand2.eval,
      Immediate.value_of_ofWord? hi]
  next i hn hi =>
    obtain rfl := Except.ok.inj h
    refine ⟨c, .inl rfl, ?_⟩
    rw [run?_singleton, effect?_alu, AluOp.eval, fst_addWithCarry_not, Operand2.eval,
      Immediate.value_of_ofWord? hi, sub_neg_eq_add]
  next =>
    split_ifs at h with hne
    obtain rfl := Except.ok.inj h
    refine ⟨_, .inr rfl, ?_⟩
    rw [run?_append_of_eq run?_load, run?_singleton, effect?_alu, AluOp.fst_eval_add,
      fst_eval_plain, regs_set_self, regs_set_of_ne (Ne.symm hne)]

/-- Comparing a register with a constant sets the flags of the comparison and writes at most the
scratch register. -/
theorem run?_compare {rn scratch : Reg} {v : UInt32}
    (h : Constant.compare rn v scratch = .ok l) : ∃ c', c.run? l = some c' ∧
      c'.flags = (addWithCarry (c.regs rn) (~~~v) true).2 ∧ c'.mem = c.mem ∧
      ∀ r ≠ scratch, c'.regs r = c.regs r := by
  unfold Constant.compare at h
  split at h
  next i hi =>
    obtain rfl := Except.ok.inj h
    refine ⟨_, rfl, ?_, rfl, fun r _ => rfl⟩
    simp only [CompareOp.eval, Operand2.eval, Immediate.value_of_ofWord? hi]
  next i hn hi =>
    obtain rfl := Except.ok.inj h
    refine ⟨_, rfl, ?_, rfl, fun r _ => rfl⟩
    have h0 : v ≠ 0 := by
      rintro rfl
      exact absurd hn (by decide)
    have hmin : v ≠ 0x80000000 := by
      rintro rfl
      exact absurd hn (by decide)
    simp only [CompareOp.eval, Operand2.eval, Immediate.value_of_ofWord? hi,
      addWithCarry_neg h0 hmin]
  next =>
    split_ifs at h with hr
    obtain rfl := Except.ok.inj h
    refine ⟨{ c.set scratch v with flags := (addWithCarry (c.regs rn) (~~~v) true).2 }, ?_, rfl,
      rfl, fun r hr => regs_set_of_ne hr⟩
    rw [run?_append_of_eq run?_load, run?_singleton, effect?, fst_eval_plain, regs_set_self,
      regs_set_of_ne hr, CompareOp.eval]

/-- A register gets one when a condition holds and zero when it does not. -/
theorem run?_flag {r : Reg} {cond : Condition} (h : Straight.flag r cond = .ok l) {a b : UInt32}
    (hf : c.flags = (addWithCarry a (~~~b) true).2) :
    c.run? l = some (c.set r (if cond.holds a b then 1 else 0)) := by
  simp only [Straight.flag, Except.bind_eq_ok_iff, Except.pure_eq_ok_iff] at h
  obtain ⟨cc, hcc, rfl⟩ := h
  have h0 : Immediate.value ⟨0, 0⟩ = 0 := by decide
  have h1 : Immediate.value ⟨1, 0⟩ = 1 := by decide
  have hholds : cc.holds c.flags = cond.holds a b := hf ▸ CondCode.holds_ofCondition hcc a b
  rw [run?_cons, effect?, CondCode.holds_inverse hcc, hholds, Option.bind_some, run?_singleton]
  cases hb : cond.holds a b <;>
    simp [effect?, MoveOp.eval, Operand2.eval, hholds, hb, h0, h1]

end Core

end A32Lowering
