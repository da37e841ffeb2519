import A32Lowering.Lowering.Access

/-!
# Straight-line lowerings

The lowerings whose code neither jumps nor calls: moves, arithmetic, shifts, comparisons, products,
references and operations on two words. Each of them is a list of instructions that depends on the
statement and the stack level only.

## Main definitions

* `Arith` : the binary operations with an immediate form.
* `CondCode.ofCondition` : the condition code of a condition.
* `Straight` and `Straight.code`.
-/

namespace A32Lowering

/-- A binary operation on words. -/
inductive Arith where
  | add | sub | and | or | xor
  deriving DecidableEq, Repr

namespace Arith

/-- The name of the operation in rule names. -/
def name : Arith → String
  | add => "add" | sub => "sub" | and => "and" | or => "or" | xor => "xor"

/-- The instruction that computes the operation. -/
def direct : Arith → AluOp
  | add => .add | sub => .sub | and => .and | or => .orr | xor => .eor

/-- The instruction that computes the operation from the negated constant. -/
def negated? : Arith → Option AluOp
  | add => some .sub
  | sub => some .add
  | _ => none

/-- The instruction that computes the operation from the complemented constant. -/
def complemented? : Arith → Option AluOp
  | and => some .bic
  | _ => none

/-- The instruction and the immediate that combine a register with a constant, in the cheapest
tier that the operation has. -/
def immediate? (a : Arith) (c : UInt32) : Option (AluOp × Immediate) :=
  ((Immediate.ofWord? c).map fun i => (a.direct, i))
    <|> (do return (← a.negated?, ← Immediate.ofWord? (-c)))
    <|> (do return (← a.complemented?, ← Immediate.ofWord? (~~~c)))

end Arith

/-- The condition code of a condition. -/
def CondCode.ofCondition : Condition → Except Fault CondCode
  | .eq => .ok .eq
  | .ne => .ok .ne
  | .lt => .ok .lt
  | .le => .ok .le
  | .gt => .ok .gt
  | .ge => .ok .ge
  | .bl => .ok .cc
  | .be => .ok .ls
  | .ab => .ok .hi
  | .ae => .ok .cs
  | c => .error (.unsupportedCondition c)

/-- A lowering whose code neither jumps nor calls. -/
inductive Straight where
  | nothing
  | movRegReg | movRegMem | movRegCst | movMemReg | movMemMem | movMemCst
  | arithCst (a : Arith) | arith (a : Arith)
  | shift (kind : ShiftKind)
  | compareCst | compare
  | notRegReg | notMemReg | notMemMem
  | resultReg | resultTmp | resultMem64
  | multiply (signed : Bool)
  | refAddReg | refAddCst | refLoadReg | refLoadMem | refStoreReg | refStoreRel | refStoreCst
  | mov64Mem | mov64Cst
  | arith64 (lo : AluOp) (flags : Bool) (hi : AluOp)
  deriving DecidableEq, Repr

namespace Straight

open Access (need expect)

/-- Puts one into a register when a condition holds and zero when it does not. -/
def flag (r : Reg) (c : Condition) : Except Fault (List Instr) := do
  let cc ← CondCode.ofCondition c
  return [.move .mov cc.inverse r (.imm ⟨0, 0⟩), .move .mov cc r (.imm ⟨1, 0⟩)]

/-- Stores a pair of registers to the two words of an operand. -/
def storePair (level : UInt32) (s : Operand) (lo hi : Reg) : Except Fault (List Instr) := do
  return (← Access.store64 level s lo 0) ++ (← Access.store64 level s hi 4)

/-- Loads the two words of an operand into a pair of registers. -/
def loadPair (level : UInt32) (lo hi : Reg) (s : Operand) : Except Fault (List Instr) := do
  return (← Access.load64 level lo s 0) ++ (← Access.load64 level hi s 4)

/-- Compares the values of two operands that are not constant. -/
def compareCode (level : UInt32) (a b : Operand) : Except Fault (List Instr) := do
  let (r1, l1) ← Access.use level a .r1
  let (r2, l2) ← Access.use level b .r2
  return l1 ++ l2 ++ [.compare .cmp r1 (.plain r2)]

/-- Compares the value of an operand with a constant. -/
def compareCstCode (level : UInt32) (a b : Operand) : Except Fault (List Instr) := do
  let (r1, l1) ← Access.use level a .r1
  return l1 ++ (← Constant.compare r1 b.low .r2)

/-- A binary operation with two operands in registers. -/
def arithCode (level : UInt32) (a : Arith) (d s1 s2 : Operand) : Except Fault (List Instr) := do
  let rd ← Access.define d .r0
  let (r1, l1) ← Access.use level s1 .r1
  let (r2, l2) ← Access.use level s2 .r2
  return l1 ++ l2 ++ [.alu a.direct false rd r1 (.plain r2)] ++ (← Access.commit level d rd)

/-- A binary operation with a constant, in the cheapest tier. -/
def arithCstCode (level : UInt32) (a : Arith) (d s1 s2 : Operand) : Except Fault (List Instr) := do
  expect .constant .constant s2
  let rd ← Access.define d .r0
  let (r1, l1) ← Access.use level s1 .r1
  let middle ← match a.immediate? s2.low with
    | some (op, i) => pure [Instr.alu op false rd r1 (.imm i)]
    | none => do
      let (r2, l2) ← Access.use level s2 .r2
      if r2 = rd ∨ r2 = r1 then throw (.constantClash r2)
      pure (l2 ++ [.alu a.direct false rd r1 (.plain r2)])
  return l1 ++ middle ++ (← Access.commit level d rd)

/-- A shift. -/
def shiftCode (level : UInt32) (kind : ShiftKind) (d s1 s2 : Operand) :
    Except Fault (List Instr) := do
  let rd ← Access.define d .r0
  let (r1, l1) ← Access.use level s1 .r1
  let (by_, l2) ← Access.shift level kind s2 .r2
  return l1 ++ l2 ++ [.move .mov .al rd (.reg r1 by_)] ++ (← Access.commit level d rd)

/-- A product of two words into two words. -/
def multiplyCode (level : UInt32) (signed : Bool) (d s1 s2 : Operand) :
    Except Fault (List Instr) := do
  expect .temporary64 .temporary64 d
  let (r1, l1) ← Access.use level s1 .r2
  let (r2, l2) ← Access.use level s2 .r3
  if r1 = .r0 ∨ r2 = .r0 ∨ r1 = .r1 ∨ r2 = .r1 then throw .resultClash
  return l1 ++ l2 ++ [.mull signed .r0 .r1 r1 r2] ++ (← storePair level d .r0 .r1)

/-- An operation on two words, word by word; the low one sets the carry that the high one reads
where the operation has one. -/
def arith64Code (level : UInt32) (lo : AluOp) (flags : Bool) (hi : AluOp) (d s1 s2 : Operand) :
    Except Fault (List Instr) := do
  let l1 ← loadPair level .r0 .r1 s1
  let l2 ← if s2.kind = .constant64 then
      pure (Constant.load .r2 s2.low ++ Constant.load .r3 s2.high)
    else loadPair level .r2 .r3 s2
  return l1 ++ l2
    ++ [.alu lo flags .r0 .r0 (.plain .r2), .alu hi false .r1 .r1 (.plain .r3)]
    ++ (← storePair level d .r0 .r1)

/-- The code of a straight-line lowering at a stack level. -/
def code (level : UInt32) (x : Statement) : Straight → Except Fault (List Instr)
  | nothing => return []
  | movRegReg => do
    let rd ← Abi.register (← need x.dst).low
    return [.mov rd (← Abi.register (← need x.src1).low)]
  | movRegMem => do
    let rd ← Abi.register (← need x.dst).low
    Access.load level rd (← need x.src1)
  | movRegCst => do
    let d ← need x.dst
    let s ← need x.src1
    expect .register .register d
    expect .constant .constant s
    return Constant.load (← Abi.register d.low) s.low
  | movMemReg => do
    let s ← need x.src1
    expect .register .register s
    Access.store level (← need x.dst) (← Abi.register s.low)
  | movMemMem => do
    return (← Access.load level .r0 (← need x.src1)) ++ (← Access.store level (← need x.dst) .r0)
  | movMemCst => do
    let s ← need x.src1
    expect .constant .constant s
    return Constant.load .r0 s.low ++ (← Access.store level (← need x.dst) .r0)
  | arithCst a => do arithCstCode level a (← need x.dst) (← need x.src1) (← need x.src2)
  | arith a => do arithCode level a (← need x.dst) (← need x.src1) (← need x.src2)
  | shift kind => do shiftCode level kind (← need x.dst) (← need x.src1) (← need x.src2)
  | compareCst => do
    let b ← need x.src2
    expect .constant .constant b
    let d ← need x.dst
    let rd ← Access.define d .r0
    let l ← compareCstCode level (← need x.src1) b
    return l ++ (← flag rd x.cond) ++ (← Access.commit level d rd)
  | compare => do
    let d ← need x.dst
    let rd ← Access.define d .r0
    let l ← compareCode level (← need x.src1) (← need x.src2)
    return l ++ (← flag rd x.cond) ++ (← Access.commit level d rd)
  | notRegReg => do
    let d ← need x.dst
    let s ← need x.src1
    expect .register .register d
    expect .register .register s
    let rd ← Abi.register d.low
    return [.move .mvn .al rd (.plain (← Abi.register s.low))]
  | notMemReg => do
    let s ← need x.src1
    expect .register .register s
    let rm ← Abi.register s.low
    return [.move .mvn .al .r1 (.plain rm)] ++ (← Access.store level (← need x.dst) .r1)
  | notMemMem => do
    return (← Access.load level .r0 (← need x.src1)) ++ [.move .mvn .al .r1 (.plain .r0)]
      ++ (← Access.store level (← need x.dst) .r1)
  | resultReg => do
    let d ← need x.dst
    expect .register .register d
    return [.mov (← Abi.register d.low) .r0]
  | resultTmp => do Access.storeTemporary level (← need x.dst) .r0
  | resultMem64 => do storePair level (← need x.dst) .r0 .r1
  | multiply signed => do multiplyCode level signed (← need x.dst) (← need x.src1) (← need x.src2)
  | refAddReg => do
    let s ← need x.src2
    expect .register .register s
    let l ← Access.loadRelReference .r0 (← need x.src1)
    return l ++ [.alu .add false .r0 .r0 (.plain (← Abi.register s.low))]
      ++ (← Access.storeTmpReference level (← need x.dst) .r0)
  | refAddCst => do
    let s ← need x.src2
    expect .constant .constant s
    let l ← Access.loadRelReference .r0 (← need x.src1)
    return l ++ (← Constant.add .r0 .r0 s.low .r1)
      ++ (← Access.storeTmpReference level (← need x.dst) .r0)
  | refLoadReg => do
    let d ← need x.dst
    expect .register .register d
    let l ← Access.loadTmpReference level .r0 (← need x.src1)
    return l ++ [.ldr (← Abi.register d.low) .r0 0]
  | refLoadMem => do
    let l ← Access.loadTmpReference level .r0 (← need x.src1)
    return l ++ [.ldr .r1 .r0 0] ++ (← Access.store level (← need x.dst) .r1)
  | refStoreReg => do
    let s ← need x.src2
    expect .register .register s
    let l ← Access.loadTmpReference level .r0 (← need x.src1)
    return l ++ [.str (← Abi.register s.low) .r0 0]
  | refStoreRel => do
    let l ← Access.loadTmpReference level .r0 (← need x.src1)
    return l ++ (← Access.loadRelative .r1 (← need x.src2)) ++ [.str .r1 .r0 0]
  | refStoreCst => do
    let s ← need x.src2
    expect .constant .constant s
    let l ← Access.loadTmpReference level .r0 (← need x.src1)
    return l ++ Constant.load .r1 s.low ++ [.str .r1 .r0 0]
  | mov64Mem => do
    return (← loadPair level .r0 .r1 (← need x.src1)) ++ (← storePair level (← need x.dst) .r0 .r1)
  | mov64Cst => do
    let s ← need x.src1
    return Constant.load .r0 s.low ++ Constant.load .r1 s.high
      ++ (← storePair level (← need x.dst) .r0 .r1)
  | arith64 lo flags hi => do
    arith64Code level lo flags hi (← need x.dst) (← need x.src1) (← need x.src2)

end Straight

end A32Lowering
