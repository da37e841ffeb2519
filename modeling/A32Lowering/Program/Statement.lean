import A32Lowering.Program.Op
import A32Lowering.Program.Operand

/-!
# Statements

A statement has an operation, up to three operands, a condition and a block number. The printed
form drops absent operands at the end, writes `_` for those before a present one, and shows the
block number only for operations that refer to a block.

## Main definitions

* `Statement` and `Statement.text`.
* `Program` : a list of statements, and `Program.text` with one statement a line.
* `Statement.normal` : the statement with everything that is not printed set to zero.
-/

namespace A32Lowering

/-- One operation on up to three operands. -/
structure Statement where
  op : Op
  cond : Condition := .none
  dst : Option Operand := none
  src1 : Option Operand := none
  src2 : Option Operand := none
  block : UInt32 := 0
  deriving DecidableEq, Repr

/-- The statements of one function, in order. -/
abbrev Program := List Statement

namespace Statement

/-- The operands in order, without the absent ones at the end. -/
def operands (x : Statement) : List (Option Operand) :=
  match x.dst, x.src1, x.src2 with
  | none, none, none => []
  | d, none, none => [d]
  | d, s, none => [d, s]
  | d, s, t => [d, s, t]

/-- Operands after the first one, each behind a comma. -/
def textRest : List (Option Operand) → Text
  | [] => []
  | s :: rest => Text.ascii ", " ++ Operand.textOrBlank s ++ textRest rest

/-- The printed operands of a statement with the blank before them. -/
def textOperands : List (Option Operand) → Text
  | [] => []
  | s :: rest => Text.ascii " " ++ Operand.textOrBlank s ++ textRest rest

/-- The printed form of a statement. -/
def text (x : Statement) : Text :=
  Text.ascii x.op.name
    ++ (if x.cond = .none then [] else Text.ascii "." ++ Text.ascii x.cond.name)
    ++ textOperands x.operands
    ++ (if x.op.jumps then Text.ascii " -> " ++ Text.decimal x.block.toNat else [])

/-- The statement with everything that its printed form does not show set to zero. -/
def normal (x : Statement) : Statement :=
  { x with
    dst := x.dst.map Operand.normal
    src1 := x.src1.map Operand.normal
    src2 := x.src2.map Operand.normal
    block := if x.op.jumps then x.block else 0 }

end Statement

/-- The printed form of a program: each statement on a line of its own. -/
def Program.text (p : Program) : Text :=
  p.flatMap fun x => x.text ++ ['\n'.toUInt8]

end A32Lowering
