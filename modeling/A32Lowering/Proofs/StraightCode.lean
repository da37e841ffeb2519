import Mathlib
import A32Lowering.Proofs.Action

/-!
# The parts of straight-line code

A straight-line lowering succeeds when the operands that it takes are there, when they have the
classes that it asks for and when each part of its code can be had. This file says once, lowering
by lowering, which operands and which parts these are. What a lowering does is then a case analysis
on them.

## Main definitions

* `Straight.Gives` : the code that a lowering gives for a statement, case by case.

## Main results

* `Straight.arithCstCode_eq_ok`, `Straight.multiplyCode_eq_ok`, `Straight.arith64Code_eq_ok` : the
  parts of the codes that depend on their operands.
* `Straight.code_eq_ok_iff` : the code of a lowering is what the lowering gives.
-/

namespace A32Lowering

namespace Access

variable {s : Operand}

theorem expect_eq_ok_iff {what : Expected} {kind : Kind} {u : Unit} :
    expect what kind s = .ok u ↔ s.kind = kind := by
  unfold expect
  split_ifs with h <;> simp [h]

theorem need_eq_ok_iff {o : Option Operand} : need o = .ok s ↔ o = some s := by
  cases o <;> simp [need]

end Access

namespace Straight

section Parts

variable {level : UInt32} {d s t : Operand} {l : List Instr}

/-- The parts of the code of a binary operation with a constant. The constant is an immediate, or
it takes a scratch register. -/
theorem arithCstCode_eq_ok {a : Arith} (h : arithCstCode level a d s t = .ok l) :
    t.kind = .constant ∧ ∃ rd ra la mid lc,
    Access.define d .r0 = .ok rd ∧ Access.use level s .r1 = .ok (ra, la) ∧
    Access.use level t .r2 = .ok (.r2, Constant.load .r2 t.low) ∧
    Access.commit level d rd = .ok lc ∧ l = la ++ mid ++ lc ∧
    ((∃ op i, a.immediate? t.low = some (op, i) ∧ mid = [.alu op false rd ra (.imm i)]) ∨
      mid = Constant.load .r2 t.low ++ [.alu a.direct false rd ra (.plain .r2)]) := by
  simp only [arithCstCode, Except.bind_eq_ok_iff, Access.expect_eq_ok_iff] at h
  obtain ⟨_, hk, rd, hrd, ⟨ra, la⟩, ha, h⟩ := h
  have hb : Access.use level t .r2 = .ok (.r2, Constant.load .r2 t.low) := by
    simp [Access.use, hk, Operand.isMemory]
  refine ⟨hk, rd, ra, la, ?_⟩
  split at h
  next op i hi =>
    simp only [Except.bind_eq_ok_iff, Except.pure_eq_ok_iff] at h
    obtain ⟨mid, rfl, lc, hc, rfl⟩ := h
    exact ⟨_, lc, hrd, ha, hb, hc, rfl, .inl ⟨op, i, hi, rfl⟩⟩
  next =>
    simp only [Except.bind_eq_ok_iff, hb, Except.ok.injEq, exists_eq_left'] at h
    split_ifs at h
    · simp at h
    · simp only [Except.bind_eq_ok_iff, Except.pure_eq_ok_iff] at h
      obtain ⟨mid, rfl, lc, hc, rfl⟩ := h
      exact ⟨_, lc, hrd, ha, hb, hc, rfl, .inr rfl⟩

/-- The parts of the code of a product. -/
theorem multiplyCode_eq_ok {signed : Bool} (h : multiplyCode level signed d s t = .ok l) :
    ∃ ra la rb lb ls, Access.use level s .r2 = .ok (ra, la) ∧
      Access.use level t .r3 = .ok (rb, lb) ∧ storePair level d .r0 .r1 = .ok ls ∧
      l = la ++ lb ++ [.mull signed .r0 .r1 ra rb] ++ ls := by
  simp only [multiplyCode, Except.bind_eq_ok_iff] at h
  obtain ⟨_, -, ⟨ra, la⟩, ha, ⟨rb, lb⟩, hb, h⟩ := h
  split_ifs at h
  · simp at h
  · simp only [Except.bind_eq_ok_iff, Except.pure_eq_ok_iff] at h
    obtain ⟨ls, hs, rfl⟩ := h
    exact ⟨ra, la, rb, lb, ls, ha, hb, hs, rfl⟩

/-- The parts of the code of an operation on two words. -/
theorem arith64Code_eq_ok {op₁ op₂ : AluOp} {flags : Bool}
    (h : arith64Code level op₁ flags op₂ d s t = .ok l) : ∃ l₁ l₂ l₃,
      loadPair level .r0 .r1 s = .ok l₁ ∧
      ((t.kind = .constant64 ∧ l₂ = Constant.load .r2 t.low ++ Constant.load .r3 t.high) ∨
        loadPair level .r2 .r3 t = .ok l₂) ∧
      storePair level d .r0 .r1 = .ok l₃ ∧ l = l₁ ++ l₂ ++
        [.alu op₁ flags .r0 .r0 (.plain .r2), .alu op₂ false .r1 .r1 (.plain .r3)] ++ l₃ := by
  simp only [arith64Code, Except.bind_eq_ok_iff] at h
  obtain ⟨l₁, h₁, h⟩ := h
  split_ifs at h with hk
  · simp only [Except.bind_eq_ok_iff, Except.pure_eq_ok_iff] at h
    obtain ⟨l₂, h₂, l₃, h₃, hl⟩ := h
    exact ⟨l₁, l₂, l₃, h₁, .inl ⟨hk, h₂.symm⟩, h₃, hl.symm⟩
  · simp only [Except.bind_eq_ok_iff, Except.pure_eq_ok_iff] at h
    obtain ⟨l₂, h₂, l₃, h₃, hl⟩ := h
    exact ⟨l₁, l₂, l₃, h₁, .inr h₂, h₃, hl.symm⟩

end Parts

/-- What a straight-line lowering gives for a statement, with the operands that it takes for it and
the parts of its code. The classes of operands are those that it asks for. -/
inductive Gives (level : UInt32) (x : Statement) : Straight → List Instr → Prop
  | nothing : Gives level x .nothing []
  | movRegReg {d s : Operand} {rd rs : Reg} (hd : x.dst = some d) (hs : x.src1 = some s)
      (hrd : Abi.register d.low = .ok rd) (hrs : Abi.register s.low = .ok rs) :
      Gives level x .movRegReg [.mov rd rs]
  | movRegMem {d s : Operand} {rd : Reg} {l : List Instr} (hd : x.dst = some d)
      (hs : x.src1 = some s) (hrd : Abi.register d.low = .ok rd)
      (hl : Access.load level rd s = .ok l) : Gives level x .movRegMem l
  | movRegCst {d s : Operand} {rd : Reg} (hd : x.dst = some d) (hs : x.src1 = some s)
      (hkd : d.kind = .register) (hks : s.kind = .constant)
      (hrd : Abi.register d.low = .ok rd) : Gives level x .movRegCst (Constant.load rd s.low)
  | movMemReg {d s : Operand} {rs : Reg} {l : List Instr} (hd : x.dst = some d)
      (hs : x.src1 = some s) (hk : s.kind = .register) (hrs : Abi.register s.low = .ok rs)
      (hl : Access.store level d rs = .ok l) : Gives level x .movMemReg l
  | movMemMem {d s : Operand} {la lb : List Instr} (hd : x.dst = some d) (hs : x.src1 = some s)
      (ha : Access.load level .r0 s = .ok la) (hb : Access.store level d .r0 = .ok lb) :
      Gives level x .movMemMem (la ++ lb)
  | movMemCst {d s : Operand} {l : List Instr} (hd : x.dst = some d) (hs : x.src1 = some s)
      (hk : s.kind = .constant) (hl : Access.store level d .r0 = .ok l) :
      Gives level x .movMemCst (Constant.load .r0 s.low ++ l)
  | arithCst {a : Arith} {d s t : Operand} {l : List Instr} (hd : x.dst = some d)
      (hs : x.src1 = some s) (ht : x.src2 = some t) (hl : arithCstCode level a d s t = .ok l) :
      Gives level x (.arithCst a) l
  | arith {a : Arith} {d s t : Operand} {l : List Instr} (hd : x.dst = some d)
      (hs : x.src1 = some s) (ht : x.src2 = some t) (hl : arithCode level a d s t = .ok l) :
      Gives level x (.arith a) l
  | shift {kind : ShiftKind} {d s t : Operand} {l : List Instr} (hd : x.dst = some d)
      (hs : x.src1 = some s) (ht : x.src2 = some t) (hl : shiftCode level kind d s t = .ok l) :
      Gives level x (.shift kind) l
  | compareCst {d s t : Operand} {rd : Reg} {la lf lc : List Instr} (hd : x.dst = some d)
      (hs : x.src1 = some s) (ht : x.src2 = some t) (hk : t.kind = .constant)
      (hrd : Access.define d .r0 = .ok rd) (ha : compareCstCode level s t = .ok la)
      (hf : flag rd x.cond = .ok lf) (hc : Access.commit level d rd = .ok lc) :
      Gives level x .compareCst (la ++ lf ++ lc)
  | compare {d s t : Operand} {rd : Reg} {la lf lc : List Instr} (hd : x.dst = some d)
      (hs : x.src1 = some s) (ht : x.src2 = some t) (hrd : Access.define d .r0 = .ok rd)
      (ha : compareCode level s t = .ok la) (hf : flag rd x.cond = .ok lf)
      (hc : Access.commit level d rd = .ok lc) : Gives level x .compare (la ++ lf ++ lc)
  | notRegReg {d s : Operand} {rd rs : Reg} (hd : x.dst = some d) (hs : x.src1 = some s)
      (hkd : d.kind = .register) (hks : s.kind = .register) (hrd : Abi.register d.low = .ok rd)
      (hrs : Abi.register s.low = .ok rs) :
      Gives level x .notRegReg [.move .mvn .al rd (.plain rs)]
  | notMemReg {d s : Operand} {rs : Reg} {l : List Instr} (hd : x.dst = some d)
      (hs : x.src1 = some s) (hk : s.kind = .register) (hrs : Abi.register s.low = .ok rs)
      (hl : Access.store level d .r1 = .ok l) :
      Gives level x .notMemReg ([.move .mvn .al .r1 (.plain rs)] ++ l)
  | notMemMem {d s : Operand} {la lb : List Instr} (hd : x.dst = some d) (hs : x.src1 = some s)
      (ha : Access.load level .r0 s = .ok la) (hb : Access.store level d .r1 = .ok lb) :
      Gives level x .notMemMem (la ++ [.move .mvn .al .r1 (.plain .r0)] ++ lb)
  | resultReg {d : Operand} {rd : Reg} (hd : x.dst = some d) (hk : d.kind = .register)
      (hrd : Abi.register d.low = .ok rd) : Gives level x .resultReg [.mov rd .r0]
  | resultTmp {d : Operand} {l : List Instr} (hd : x.dst = some d)
      (hl : Access.storeTemporary level d .r0 = .ok l) : Gives level x .resultTmp l
  | resultMem64 {d : Operand} {l : List Instr} (hd : x.dst = some d)
      (hl : storePair level d .r0 .r1 = .ok l) : Gives level x .resultMem64 l
  | multiply {signed : Bool} {d s t : Operand} {l : List Instr} (hd : x.dst = some d)
      (hs : x.src1 = some s) (ht : x.src2 = some t)
      (hl : multiplyCode level signed d s t = .ok l) : Gives level x (.multiply signed) l
  | refAddReg {d s t : Operand} {rt : Reg} {la lb : List Instr} (hd : x.dst = some d)
      (hs : x.src1 = some s) (ht : x.src2 = some t) (hk : t.kind = .register)
      (hrt : Abi.register t.low = .ok rt) (ha : Access.loadRelReference .r0 s = .ok la)
      (hb : Access.storeTmpReference level d .r0 = .ok lb) :
      Gives level x .refAddReg (la ++ [.alu .add false .r0 .r0 (.plain rt)] ++ lb)
  | refAddCst {d s t : Operand} {la lc lb : List Instr} (hd : x.dst = some d)
      (hs : x.src1 = some s) (ht : x.src2 = some t) (hk : t.kind = .constant)
      (ha : Access.loadRelReference .r0 s = .ok la) (hc : Constant.add .r0 .r0 t.low .r1 = .ok lc)
      (hb : Access.storeTmpReference level d .r0 = .ok lb) :
      Gives level x .refAddCst (la ++ lc ++ lb)
  | refLoadReg {d s : Operand} {rd : Reg} {l : List Instr} (hd : x.dst = some d)
      (hs : x.src1 = some s) (hk : d.kind = .register) (hrd : Abi.register d.low = .ok rd)
      (hl : Access.loadTmpReference level .r0 s = .ok l) :
      Gives level x .refLoadReg (l ++ [.ldr rd .r0 0])
  | refLoadMem {d s : Operand} {la lb : List Instr} (hd : x.dst = some d) (hs : x.src1 = some s)
      (ha : Access.loadTmpReference level .r0 s = .ok la)
      (hb : Access.store level d .r1 = .ok lb) :
      Gives level x .refLoadMem (la ++ [.ldr .r1 .r0 0] ++ lb)
  | refStoreReg {s t : Operand} {rt : Reg} {l : List Instr} (hs : x.src1 = some s)
      (ht : x.src2 = some t) (hk : t.kind = .register) (hrt : Abi.register t.low = .ok rt)
      (hl : Access.loadTmpReference level .r0 s = .ok l) :
      Gives level x .refStoreReg (l ++ [.str rt .r0 0])
  | refStoreRel {s t : Operand} {la lb : List Instr} (hs : x.src1 = some s)
      (ht : x.src2 = some t) (ha : Access.loadTmpReference level .r0 s = .ok la)
      (hb : Access.loadRelative .r1 t = .ok lb) :
      Gives level x .refStoreRel (la ++ lb ++ [.str .r1 .r0 0])
  | refStoreCst {s t : Operand} {l : List Instr} (hs : x.src1 = some s) (ht : x.src2 = some t)
      (hk : t.kind = .constant) (hl : Access.loadTmpReference level .r0 s = .ok l) :
      Gives level x .refStoreCst (l ++ Constant.load .r1 t.low ++ [.str .r1 .r0 0])
  | mov64Mem {d s : Operand} {la lb : List Instr} (hd : x.dst = some d) (hs : x.src1 = some s)
      (ha : loadPair level .r0 .r1 s = .ok la) (hb : storePair level d .r0 .r1 = .ok lb) :
      Gives level x .mov64Mem (la ++ lb)
  | mov64Cst {d s : Operand} {l : List Instr} (hd : x.dst = some d) (hs : x.src1 = some s)
      (hl : storePair level d .r0 .r1 = .ok l) :
      Gives level x .mov64Cst (Constant.load .r0 s.low ++ Constant.load .r1 s.high ++ l)
  | arith64 {op₁ op₂ : AluOp} {flags : Bool} {d s t : Operand} {l : List Instr}
      (hd : x.dst = some d) (hs : x.src1 = some s) (ht : x.src2 = some t)
      (hl : arith64Code level op₁ flags op₂ d s t = .ok l) :
      Gives level x (.arith64 op₁ flags op₂) l

variable {level : UInt32} {x : Statement} {a : Straight} {l : List Instr}

theorem gives_of_code (h : a.code level x = .ok l) : a.Gives level x l := by
  cases a
  all_goals
    simp only [code, Except.bind_eq_ok_iff, Except.pure_eq_ok_iff, Access.need_eq_ok_iff,
      Access.expect_eq_ok_iff] at h
  case nothing =>
    exact h ▸ .nothing
  case movRegReg =>
    obtain ⟨d, hd, rd, hrd, s, hs, rs, hrs, rfl⟩ := h
    exact .movRegReg hd hs hrd hrs
  case movRegMem =>
    obtain ⟨d, hd, rd, hrd, s, hs, hl⟩ := h
    exact .movRegMem hd hs hrd hl
  case movRegCst =>
    obtain ⟨d, hd, s, hs, _, hkd, _, hks, rd, hrd, rfl⟩ := h
    exact .movRegCst hd hs hkd hks hrd
  case movMemReg =>
    obtain ⟨s, hs, _, hk, d, hd, rs, hrs, hl⟩ := h
    exact .movMemReg hd hs hk hrs hl
  case movMemMem =>
    obtain ⟨s, hs, la, ha, d, hd, lb, hb, rfl⟩ := h
    exact .movMemMem hd hs ha hb
  case movMemCst =>
    obtain ⟨s, hs, _, hk, d, hd, lb, hb, rfl⟩ := h
    exact .movMemCst hd hs hk hb
  case arithCst =>
    obtain ⟨d, hd, s, hs, t, ht, hl⟩ := h
    exact .arithCst hd hs ht hl
  case arith =>
    obtain ⟨d, hd, s, hs, t, ht, hl⟩ := h
    exact .arith hd hs ht hl
  case shift =>
    obtain ⟨d, hd, s, hs, t, ht, hl⟩ := h
    exact .shift hd hs ht hl
  case compareCst =>
    obtain ⟨t, ht, _, hk, d, hd, rd, hrd, s, hs, la, ha, lf, hf, lc, hc, rfl⟩ := h
    exact .compareCst hd hs ht hk hrd ha hf hc
  case compare =>
    obtain ⟨d, hd, rd, hrd, s, hs, t, ht, la, ha, lf, hf, lc, hc, rfl⟩ := h
    exact .compare hd hs ht hrd ha hf hc
  case notRegReg =>
    obtain ⟨d, hd, s, hs, _, hkd, _, hks, rd, hrd, rs, hrs, rfl⟩ := h
    exact .notRegReg hd hs hkd hks hrd hrs
  case notMemReg =>
    obtain ⟨s, hs, _, hk, rs, hrs, d, hd, lb, hb, rfl⟩ := h
    exact .notMemReg hd hs hk hrs hb
  case notMemMem =>
    obtain ⟨s, hs, la, ha, d, hd, lb, hb, rfl⟩ := h
    exact .notMemMem hd hs ha hb
  case resultReg =>
    obtain ⟨d, hd, _, hk, rd, hrd, rfl⟩ := h
    exact .resultReg hd hk hrd
  case resultTmp =>
    obtain ⟨d, hd, hl⟩ := h
    exact .resultTmp hd hl
  case resultMem64 =>
    obtain ⟨d, hd, hl⟩ := h
    exact .resultMem64 hd hl
  case multiply =>
    obtain ⟨d, hd, s, hs, t, ht, hl⟩ := h
    exact .multiply hd hs ht hl
  case refAddReg =>
    obtain ⟨t, ht, _, hk, s, hs, la, ha, rt, hrt, d, hd, lb, hb, rfl⟩ := h
    exact .refAddReg hd hs ht hk hrt ha hb
  case refAddCst =>
    obtain ⟨t, ht, _, hk, s, hs, la, ha, lc, hc, d, hd, lb, hb, rfl⟩ := h
    exact .refAddCst hd hs ht hk ha hc hb
  case refLoadReg =>
    obtain ⟨d, hd, _, hk, s, hs, la, ha, rd, hrd, rfl⟩ := h
    exact .refLoadReg hd hs hk hrd ha
  case refLoadMem =>
    obtain ⟨s, hs, la, ha, d, hd, lb, hb, rfl⟩ := h
    exact .refLoadMem hd hs ha hb
  case refStoreReg =>
    obtain ⟨t, ht, _, hk, s, hs, la, ha, rt, hrt, rfl⟩ := h
    exact .refStoreReg hs ht hk hrt ha
  case refStoreRel =>
    obtain ⟨s, hs, la, ha, t, ht, lb, hb, rfl⟩ := h
    exact .refStoreRel hs ht ha hb
  case refStoreCst =>
    obtain ⟨t, ht, _, hk, s, hs, la, ha, rfl⟩ := h
    exact .refStoreCst hs ht hk ha
  case mov64Mem =>
    obtain ⟨s, hs, la, ha, d, hd, lb, hb, rfl⟩ := h
    exact .mov64Mem hd hs ha hb
  case mov64Cst =>
    obtain ⟨s, hs, d, hd, lb, hb, rfl⟩ := h
    exact .mov64Cst hd hs hb
  case arith64 =>
    obtain ⟨d, hd, s, hs, t, ht, hl⟩ := h
    exact .arith64 hd hs ht hl

theorem Gives.code_eq (h : a.Gives level x l) : a.code level x = .ok l := by
  cases h <;> simp [code, Access.need, Access.expect, *]

/-- The code of a straight-line lowering can be had exactly when the lowering gives it. -/
theorem code_eq_ok_iff : a.code level x = .ok l ↔ a.Gives level x l :=
  ⟨gives_of_code, Gives.code_eq⟩

end Straight

end A32Lowering
