import A32Lowering.Text.Basic

/-!
# Operands

An operand names a storage class and the values that class uses: a register index, a stack slot,
an offset from the context pointer, or a constant. The record keeps every field whatever the class
is; the printed form shows only those the class uses.

## Main definitions

* `Kind` : the storage classes.
* `Operand` : a class with its values, and one constructor function per class.
* `Operand.text` : the printed form.
* `Operand.normal` : the operand with the fields its class does not print set to zero.
-/

namespace A32Lowering

/-- The storage class of an operand. -/
inductive Kind where
  | register
  | temporary | temporary64 | temporary128
  | relative | relative64 | relative128
  | relReference | tmpReference
  | constant | constant64
  | context
  | unknown (code : Int)
  deriving DecidableEq, Repr

namespace Kind

/-- The storage classes that have a name, in the order of their numbers. -/
def named : List Kind :=
  [register, temporary, temporary64, temporary128, relative, relative64, relative128,
    relReference, tmpReference, constant, constant64, context]

/-- The storage class with a number. -/
def ofCode (code : Int) : Kind :=
  if code < 0 then unknown code else named.getD code.toNat (unknown code)

/-- The name of a storage class. -/
def name : Kind → String
  | register => "register"
  | temporary => "temporary" | temporary64 => "temporary64" | temporary128 => "temporary128"
  | relative => "relative" | relative64 => "relative64" | relative128 => "relative128"
  | relReference => "rel_reference" | tmpReference => "tmp_reference"
  | constant => "constant" | constant64 => "constant64"
  | context => "context"
  | unknown code => "kind(" ++ toString code ++ ")"

/-- The storage class with a name. -/
def ofName? (s : String) : Option Kind :=
  named.find? fun k => k.name == s

end Kind

/-- One operand of a statement: `low` holds a register index, an offset from the context pointer
or the low word of a constant, `high` the high word of a constant, `slot` a stack location. -/
structure Operand where
  kind : Kind
  low : UInt32 := 0
  high : UInt32 := 0
  slot : UInt32 := 0
  deriving DecidableEq, Repr

namespace Operand

/-- The register the allocator gave the index `i`. -/
def register (i : UInt32) : Operand := { kind := .register, low := i }

/-- A word on the stack. -/
def temporary (slot : UInt32) : Operand := { kind := .temporary, slot }

/-- Two words on the stack. -/
def temporary64 (slot : UInt32) : Operand := { kind := .temporary64, slot }

/-- Four words on the stack. -/
def temporary128 (slot : UInt32) : Operand := { kind := .temporary128, slot }

/-- A word of the context block. -/
def relative (offset : UInt32) : Operand := { kind := .relative, low := offset }

/-- Two words of the context block. -/
def relative64 (offset : UInt32) : Operand := { kind := .relative64, low := offset }

/-- Four words of the context block. -/
def relative128 (offset : UInt32) : Operand := { kind := .relative128, low := offset }

/-- A reference kept in the context block. -/
def relReference (offset : UInt32) : Operand := { kind := .relReference, low := offset }

/-- A reference kept on the stack. -/
def tmpReference (slot : UInt32) : Operand := { kind := .tmpReference, slot }

/-- A word constant. -/
def constant (v : UInt32) : Operand := { kind := .constant, low := v }

/-- A constant of two words. -/
def constant64 (v : UInt64) : Operand :=
  { kind := .constant64, low := v.toUInt32, high := (v >>> 32).toUInt32 }

/-- The context pointer itself. -/
def context : Operand := { kind := .context }

/-- Whether the operand is a word in memory. -/
def isMemory (s : Operand) : Bool := s.kind = .temporary || s.kind = .relative

/-- Whether the operand is two words in memory. -/
def isMemory64 (s : Operand) : Bool := s.kind = .temporary64 || s.kind = .relative64

/-- Whether the operand is four words in memory. -/
def isMemory128 (s : Operand) : Bool := s.kind = .temporary128 || s.kind = .relative128

/-- The two value words as one number, whatever the class. -/
def value64 (s : Operand) : UInt64 := s.high.toUInt64 <<< 32 ||| s.low.toUInt64

/-- The printed form of an operand. -/
def text (s : Operand) : Text :=
  match s.kind with
  | .register => Text.ascii "r" ++ Text.decimal s.low.toNat
  | .temporary => Text.ascii "t" ++ Text.decimal s.slot.toNat
  | .temporary64 => Text.ascii "t64:" ++ Text.decimal s.slot.toNat
  | .temporary128 => Text.ascii "t128:" ++ Text.decimal s.slot.toNat
  | .relative => Text.ascii "m" ++ Text.decimal s.low.toNat
  | .relative64 => Text.ascii "m64:" ++ Text.decimal s.low.toNat
  | .relative128 => Text.ascii "m128:" ++ Text.decimal s.low.toNat
  | .relReference => Text.ascii "rref:" ++ Text.decimal s.low.toNat
  | .tmpReference => Text.ascii "tref:" ++ Text.decimal s.slot.toNat
  | .constant => Text.ascii "#0x" ++ Text.hex s.low.toNat
  | .constant64 => Text.ascii "#64:0x" ++ Text.hex s.value64.toNat
  | .context => Text.ascii "ctx"
  | .unknown code => Text.ascii (Kind.unknown code).name

/-- The operand with every field that its printed form does not show set to zero. -/
def normal (s : Operand) : Operand :=
  match s.kind with
  | .register | .relative | .relative64 | .relative128 | .relReference | .constant =>
    { kind := s.kind, low := s.low }
  | .temporary | .temporary64 | .temporary128 | .tmpReference => { kind := s.kind, slot := s.slot }
  | .constant64 => { kind := s.kind, low := s.low, high := s.high }
  | .context | .unknown _ => { kind := s.kind }

/-- The printed form of an operand that may be absent. -/
def textOrBlank : Option Operand → Text
  | none => Text.ascii "_"
  | some s => s.text

end Operand

end A32Lowering
