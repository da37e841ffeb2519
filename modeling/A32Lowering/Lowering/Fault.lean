import A32Lowering.Code.Stream
import A32Lowering.Program.Statement

/-!
# Faults of lowering

A fault is a broken promise about the statements: an operand of the wrong class, a register or an
offset out of range, a parameter without a call. Lowering gives up the whole function on a fault.

## Main definitions

* `Fault` : what can be wrong.
* `Fault.message` : the wording.
-/

namespace A32Lowering

/-- What an operand was expected to be. -/
inductive Expected where
  | register
  | temporary | temporary64
  | relative
  | relReference | tmpReference
  | constant | callTarget | parameterCount
  | context
  deriving DecidableEq, Repr

/-- The wording of an expectation. -/
def Expected.name : Expected → String
  | register => "register"
  | temporary => "temporary"
  | temporary64 => "temporary64"
  | relative => "relative"
  | relReference => "relative reference"
  | tmpReference => "temporary reference"
  | constant => "constant"
  | callTarget => "constant call target"
  | parameterCount => "constant parameter count"
  | context => "context"

/-- The use for which an operand has the wrong class. -/
inductive Role where
  | definition | use | memory | memory64 | memory128 | shiftAmount
  deriving DecidableEq, Repr

/-- The wording of a use. -/
def Role.name : Role → String
  | definition => "definition"
  | use => "use"
  | memory => "memory"
  | memory64 => "memory64"
  | memory128 => "memory128"
  | shiftAmount => "shift amount"

/-- Why a function could not be lowered. -/
inductive Fault where
  /-- A register index that the allocator does not have. -/
  | registerIndex (i : UInt32)
  /-- A frame size that is no multiple of four. -/
  | unalignedFrame (size : UInt32)
  /-- A second label statement for one block. -/
  | markedTwice (block : UInt32)
  /-- A constant that has to be built in the register it is combined with. -/
  | scratchIsOperand (r : Reg)
  /-- A register operand whose value was computed somewhere else. -/
  | definedElsewhere (i : UInt32) (r : Reg)
  /-- An offset from the context pointer that is no multiple of four. -/
  | unalignedRelative (offset : UInt32)
  /-- An offset that a load or store cannot hold. -/
  | offsetOutOfRange (offset : UInt32)
  /-- An operand of another class than the rule says. -/
  | expected (what : Expected) (kind : Kind)
  /-- An operand of a class that the use has no code for. -/
  | unexpected (role : Role) (kind : Kind)
  /-- A constant in the register that an operand already takes. -/
  | constantClash (r : Reg)
  /-- A constant where two registers are compared. -/
  | constantCompared
  /-- A product that would overwrite its own factors. -/
  | resultClash
  /-- More words of arguments than there are argument registers. -/
  | tooManyArguments (slot : Nat)
  /-- A call that takes more parameters than were declared. -/
  | missingParameters (wanted declared : Nat)
  /-- Parameters that no call took. -/
  | unusedParameters (n : Nat)
  /-- A stack level that is not back to zero at the end of the function. -/
  | unbalancedStack (level : UInt32)
  /-- A condition that has no condition code. -/
  | unsupportedCondition (c : Condition)
  /-- A statement that no rule of the selection table matches. -/
  | noRule (x : Statement)
  /-- A branch that could not be resolved. -/
  | unresolved (e : ResolveError)
  /-- An operand that is absent although the rule needs it. -/
  | operandMissing
  deriving DecidableEq, Repr

/-- Wording of a fault that an explicit check found. -/
private def asserted (s : String) : String := "assertion failed: " ++ s

/-- The wording of a fault. -/
def Fault.message : Fault → String
  | registerIndex i => asserted ("register index out of range: " ++ toString i.toNat)
  | unalignedFrame size => asserted ("unaligned frame size: " ++ toString size.toNat)
  | markedTwice block => asserted ("block " ++ toString block.toNat ++ " marked twice")
  | scratchIsOperand r => asserted ("scratch register " ++ r.name ++ " is the operand")
  | definedElsewhere i r =>
    asserted ("register symbol " ++ toString i.toNat ++ " defined in " ++ r.name)
  | unalignedRelative offset =>
    asserted ("unaligned relative offset: " ++ toString offset.toNat)
  | offsetOutOfRange offset =>
    asserted ("memory offset out of range: " ++ toString offset.toNat)
  | expected what kind => asserted (what.name ++ " expected: " ++ kind.name)
  | unexpected role kind => "unexpected " ++ role.name ++ " symbol: " ++ kind.name
  | constantClash r => asserted ("constant register " ++ r.name ++ " clashes with operands")
  | constantCompared => asserted "constant operand in register compare"
  | resultClash => asserted "result registers clash with operands"
  | tooManyArguments slot => asserted ("too many call arguments: slot " ++ toString slot)
  | missingParameters wanted declared =>
    asserted ("call takes " ++ toString wanted ++ " parameters, " ++ toString declared
      ++ " declared")
  | unusedParameters n => asserted (toString n ++ " parameters not consumed by a call")
  | unbalancedStack level =>
    asserted ("stack level " ++ toString level.toNat ++ " at function end")
  | unsupportedCondition c => "unsupported condition: " ++ c.name
  | noRule x => "no lowering rule for " ++ x.text.toString
  | unresolved e => "resolve labels: " ++ e.message
  | operandMissing => asserted "operand missing"

end A32Lowering
