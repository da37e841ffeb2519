import A32Lowering.Lowering.Access

/-!
# Call parameters

A parameter statement only declares a parameter. Its code is written when a call takes it, because
only then its argument registers are known. A call takes the parameters declared last, the last one
first. A parameter of two words starts at an even slot, and one of four words is passed by address.

## Main definitions

* `Parameter` : a declared parameter.
* `Parameter.declare` : the parameter of a statement, by its class.
* `Parameter.code` : the code that puts a parameter into its slots.
* `Parameter.codeAll` : the code for the parameters of one call.
-/

namespace A32Lowering

/-- A parameter that waits for its call. -/
inductive Parameter where
  | context
  | register (r : Reg)
  | memory (s : Operand)
  | constant (c : UInt32)
  | memory64 (s : Operand)
  | constant64 (lo hi : UInt32)
  | address128 (s : Operand)
  deriving DecidableEq, Repr

/-- The ways to declare a parameter. -/
inductive ParameterClass where
  | context | register | memory | constant | memory64 | constant64 | memory128
  deriving DecidableEq, Repr

namespace Parameter

open Access (expect)

/-- The parameter of a class with a given operand. -/
def declare (s : Operand) : ParameterClass → Except Fault Parameter
  | .context => do
    expect .context .context s
    return .context
  | .register => do return .register (← Abi.register s.low)
  | .memory => return .memory s
  | .constant => do
    expect .constant .constant s
    return .constant s.low
  | .memory64 => return .memory64 s
  | .constant64 => return .constant64 s.low s.high
  | .memory128 => return .address128 s

/-- The argument register of a slot. -/
def register? (slot : Nat) : Except Fault Reg :=
  match Abi.arguments[slot]? with
  | some r => .ok r
  | none => .error (.tooManyArguments slot)

/-- The slot at which a parameter of two words starts: the next even one. -/
def evenSlot (slot : Nat) : Nat := slot + slot % 2

/-- The code that puts a parameter into argument registers from a slot on, and the next free
slot. -/
def code (level : UInt32) (slot : Nat) : Parameter → Except Fault (List Instr × Nat)
  | context => do return ([.mov (← register? slot) Abi.base], slot + 1)
  | register r => do return ([.mov (← register? slot) r], slot + 1)
  | memory s => do return (← Access.load level (← register? slot) s, slot + 1)
  | constant c => do return (Constant.load (← register? slot) c, slot + 1)
  | memory64 s => do
    let slot := evenSlot slot
    let lo ← Access.load64 level (← register? slot) s 0
    let hi ← Access.load64 level (← register? (slot + 1)) s 4
    return (lo ++ hi, slot + 2)
  | constant64 lo hi => do
    let slot := evenSlot slot
    let first := Constant.load (← register? slot) lo
    let second := Constant.load (← register? (slot + 1)) hi
    return (first ++ second, slot + 2)
  | address128 s => do return (← Access.address128 level (← register? slot) s, slot + 1)

/-- The code that puts parameters into argument registers from a slot on, in order. -/
def codeAll (level : UInt32) : Nat → List Parameter → Except Fault (List Instr)
  | _, [] => return []
  | slot, p :: rest => do
    let (l, next) ← code level slot p
    return l ++ (← codeAll level next rest)

end Parameter

end A32Lowering
