import A32Lowering.Lowering.Fault

/-!
# Constants

Building a constant in a register, adding a constant and comparing with one, each in the cheapest
form that the constant allows.

## Main definitions

* `Constant.load` : a constant in a register.
* `Constant.loadPair` : the same by MOVW and MOVT always, so that linking can replace it.
* `Constant.add` : a register plus a constant.
* `Constant.compare` : the flags of a register minus a constant.
-/

namespace A32Lowering.Constant

/-- The low half of a word. -/
def lowHalf (c : UInt32) : UInt16 := c.toUInt16

/-- The high half of a word. -/
def highHalf (c : UInt32) : UInt16 := (c >>> 16).toUInt16

/-- The pair that loads a constant that linking can replace. -/
def loadPair (r : Reg) (c : UInt32) : List Instr :=
  [.movw r (lowHalf c), .movt r (highHalf c)]

/-- Puts a constant into a register: as an immediate, as a complemented immediate, by MOVW when the
high half is zero, else by a pair. -/
def load (r : Reg) (c : UInt32) : List Instr :=
  match Immediate.ofWord? c, Immediate.ofWord? (~~~c) with
  | some i, _ => [.move .mov .al r (.imm i)]
  | none, some i => [.move .mvn .al r (.imm i)]
  | none, none => if highHalf c = 0 then [.movw r (lowHalf c)] else loadPair r c

/-- Puts `rn` plus a constant into `rd`. The scratch register is written only when neither the
constant nor its negation is an immediate. -/
def add (rd rn : Reg) (c : UInt32) (scratch : Reg) : Except Fault (List Instr) :=
  match Immediate.ofWord? c, Immediate.ofWord? (-c) with
  | some i, _ => .ok [.alu .add false rd rn (.imm i)]
  | none, some i => .ok [.alu .sub false rd rn (.imm i)]
  | none, none =>
    if scratch = rn then .error (.scratchIsOperand scratch)
    else .ok (load scratch c ++ [.alu .add false rd rn (.plain scratch)])

/-- Sets the flags as for `rn` minus a constant. The scratch register is written only when neither
the constant nor its negation is an immediate. -/
def compare (rn : Reg) (c : UInt32) (scratch : Reg) : Except Fault (List Instr) :=
  match Immediate.ofWord? c, Immediate.ofWord? (-c) with
  | some i, _ => .ok [.compare .cmp rn (.imm i)]
  | none, some i => .ok [.compare .cmn rn (.imm i)]
  | none, none =>
    if rn = scratch then .error (.scratchIsOperand scratch)
    else .ok (load scratch c ++ [.compare .cmp rn (.plain scratch)])

end A32Lowering.Constant
