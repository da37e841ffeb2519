import A32Lowering.Text.Basic

/-!
# Operations and conditions of statements

Operations and conditions are known by name and by number. A number that names nothing is kept: it
can be printed, and no reader accepts it and no lowering rule applies to it.

## Main definitions

* `Op`, `Op.named`, `Op.ofCode`, `Op.name`, `Op.ofName?`.
* `Condition`, `Condition.named`, `Condition.ofCode`, `Condition.name`, `Condition.ofName?`.
* `Op.jumps` : whether a statement of this operation carries a block number.
-/

namespace A32Lowering

/-- The operation of a statement. -/
inductive Op where
  | nop | label
  | mov | add | sub | and | or | xor | not
  | srl | sra | sll
  | cmp | jmp | condjmp
  | mul | muls | div | divs
  | param | paramRet | call | retval
  | addref | loadfromref | storeatref
  | mov64 | add64 | sub64 | and64
  | unknown (code : Int)
  deriving DecidableEq, Repr

namespace Op

/-- The operations that have a name, in the order of their numbers. -/
def named : List Op :=
  [nop, label, mov, add, sub, and, or, xor, not, srl, sra, sll, cmp, jmp, condjmp, mul, muls, div,
    divs, param, paramRet, call, retval, addref, loadfromref, storeatref, mov64, add64, sub64,
    and64]

/-- The operation with a number. -/
def ofCode (code : Int) : Op :=
  if code < 0 then unknown code else named.getD code.toNat (unknown code)

/-- The name of an operation. -/
def name : Op → String
  | nop => "nop" | label => "label"
  | mov => "mov" | add => "add" | sub => "sub" | and => "and" | or => "or" | xor => "xor"
  | not => "not"
  | srl => "srl" | sra => "sra" | sll => "sll"
  | cmp => "cmp" | jmp => "jmp" | condjmp => "condjmp"
  | mul => "mul" | muls => "muls" | div => "div" | divs => "divs"
  | param => "param" | paramRet => "param_ret" | call => "call" | retval => "retval"
  | addref => "addref" | loadfromref => "loadfromref" | storeatref => "storeatref"
  | mov64 => "mov64" | add64 => "add64" | sub64 => "sub64" | and64 => "and64"
  | unknown code => "op(" ++ toString code ++ ")"

/-- The operation with a name. -/
def ofName? (w : Text) : Option Op :=
  named.find? fun op => Text.ascii op.name == w

/-- Whether a statement of this operation refers to a block. -/
def jumps : Op → Bool
  | label | jmp | condjmp => true
  | _ => false

end Op

/-- The condition of a comparison or a conditional jump. The last four compare without sign. -/
inductive Condition where
  | none | eq | ne | lt | le | gt | ge | bl | be | ab | ae
  | unknown (code : Int)
  deriving DecidableEq, Repr

namespace Condition

/-- The conditions that have a name, in the order of their numbers from one on. -/
def named : List Condition :=
  [eq, ne, lt, le, gt, ge, bl, be, ab, ae]

/-- The condition with a number; zero is the absent condition. -/
def ofCode (code : Int) : Condition :=
  if code < 0 then unknown code else (none :: named).getD code.toNat (unknown code)

/-- The name of a condition, empty for the absent one. -/
def name : Condition → String
  | none => ""
  | eq => "eq" | ne => "ne" | lt => "lt" | le => "le" | gt => "gt" | ge => "ge"
  | bl => "bl" | be => "be" | ab => "ab" | ae => "ae"
  | unknown code => "cond(" ++ toString code ++ ")"

/-- The condition with a name. -/
def ofName? (w : Text) : Option Condition :=
  named.find? fun c => Text.ascii c.name == w

end Condition

end A32Lowering
