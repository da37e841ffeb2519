import Mathlib
import A32Lowering.Lowering.Straight

/-!
# What programs mean

The meaning of programs on words, apart from any machine. A program has the registers of the
allocator, words on the stack and words of the context block; arithmetic wraps around at thirty-two
bits. A constant shift counts modulo thirty-two and any other one by its lowest byte.

## Main definitions

* `Condition.holds`, `Arith.eval` : conditions and operations on words.
* `Storage`, `Storage.value`, `Storage.set` : the variables of a program.
* `Statement.result`, `Statement.apply` : what a statement computes, and where it puts it.
* `State`, `Program.step` : one statement of a program; behind the last one nothing happens.
-/

namespace A32Lowering

/-- Whether two words satisfy a condition. The last four compare without sign. -/
def Condition.holds (a b : UInt32) : Condition → Bool
  | eq => a = b
  | ne => a ≠ b
  | lt => a.toInt32 < b.toInt32
  | le => a.toInt32 ≤ b.toInt32
  | gt => b.toInt32 < a.toInt32
  | ge => b.toInt32 ≤ a.toInt32
  | bl => a < b
  | be => a ≤ b
  | ab => b < a
  | ae => b ≤ a
  | none | unknown _ => false

/-- The result of a binary operation. -/
def Arith.eval (a b : UInt32) : Arith → UInt32
  | add => a + b
  | sub => a - b
  | and => a &&& b
  | or => a ||| b
  | xor => a ^^^ b

/-- The operations on words that a program of this kind has. -/
def Op.isBasic : Op → Bool
  | .nop | .label | .jmp | .condjmp | .mov | .add | .sub | .and | .or | .xor | .not | .srl | .sra
  | .sll | .cmp => true
  | _ => false

/-- The variables of a program: registers by index, words on the stack by location, and words of
the context block by offset. -/
structure Storage where
  regs : UInt32 → UInt32
  temps : UInt32 → UInt32
  rels : UInt32 → UInt32

namespace Storage

/-- The value of an operand. -/
def value (s : Storage) (o : Operand) : UInt32 :=
  match o.kind with
  | .register => s.regs o.low
  | .temporary => s.temps o.slot
  | .relative => s.rels o.low
  | .constant => o.low
  | _ => 0

/-- The variables with a new value of an operand. -/
def set (s : Storage) (o : Operand) (v : UInt32) : Storage :=
  match o.kind with
  | .register => { s with regs := Function.update s.regs o.low v }
  | .temporary => { s with temps := Function.update s.temps o.slot v }
  | .relative => { s with rels := Function.update s.rels o.low v }
  | _ => s

end Storage

namespace Statement

/-- By how much a shift moves: a constant counts modulo thirty-two, and any other amount by its
lowest byte. -/
def amount (val : Operand → UInt32) (o : Operand) : Nat :=
  if o.kind = .constant then o.low.toNat % 32 else (val o).toNat % 256

/-- What a statement with two operands computes. -/
def result₂ (val : Operand → UInt32) (x : Statement) (a b : Operand) : UInt32 :=
  match x.op with
  | .add => Arith.eval (val a) (val b) .add
  | .sub => Arith.eval (val a) (val b) .sub
  | .and => Arith.eval (val a) (val b) .and
  | .or => Arith.eval (val a) (val b) .or
  | .xor => Arith.eval (val a) (val b) .xor
  | .srl => ⟨(val a).toBitVec >>> amount val b⟩
  | .sra => ⟨(val a).toBitVec.sshiftRight (amount val b)⟩
  | .sll => ⟨(val a).toBitVec <<< amount val b⟩
  | .cmp => if x.cond.holds (val a) (val b) then 1 else 0
  | _ => 0

/-- What a statement computes from the values of its operands. -/
def result (val : Operand → UInt32) (x : Statement) : UInt32 :=
  match x.op, x.src1, x.src2 with
  | .mov, some a, _ => val a
  | .not, some a, _ => ~~~val a
  | _, some a, some b => x.result₂ val a b
  | _, _, _ => 0

/-- The variables behind a statement: its destination has the result. -/
def apply (s : Storage) (x : Statement) : Storage :=
  match x.dst with
  | some d => s.set d (x.result s.value)
  | none => s

/-- Whether a jump is taken. -/
def taken (val : Operand → UInt32) (x : Statement) : Bool :=
  match x.op, x.src1, x.src2 with
  | .jmp, _, _ => true
  | .condjmp, some a, some b => x.cond.holds (val a) (val b)
  | _, _, _ => false

end Statement

/-- The variables of a program, and the index of the statement that is next. -/
structure State extends Storage where
  next : Nat

namespace Program

/-- The index of the label statement of a block. -/
def labelIndex (p : Program) (b : UInt32) : Nat :=
  p.findIdx fun x => x.op = .label ∧ x.block = b

/-- One statement of a program. A jump that is taken continues at the label of its block. -/
def step (p : Program) (s : State) : State :=
  match p[s.next]? with
  | none => s
  | some x =>
    { x.apply s.toStorage with
      next := if x.taken s.value then p.labelIndex x.block else s.next + 1 }

end Program

end A32Lowering
