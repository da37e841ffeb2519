import A32Lowering.Program.Operand

/-!
# Operand patterns

A rule of the selection table describes each operand by a pattern: absent, or of one of several
classes.

## Main definitions

* `Pattern`, `Pattern.ofCode`.
* `Pattern.admits` : whether a pattern describes an operand.
* `Pattern.test` : the same, refusing a number that is no pattern.
-/

namespace A32Lowering

/-- A description of an operand. -/
inductive Pattern where
  | absent
  | any | var
  | memory | memory64 | memory128
  | register
  | temporary | temporary64 | temporary128
  | relative
  | constant | constant64
  | context
  | relRef | tmpRef
  | unknown (code : Int)
  deriving DecidableEq, Repr

namespace Pattern

/-- The patterns in the order of their numbers. -/
def named : List Pattern :=
  [absent, any, var, memory, memory64, memory128, register, temporary, temporary64, temporary128,
    relative, constant, constant64, context, relRef, tmpRef]

/-- The pattern with a number. -/
def ofCode (code : Int) : Pattern :=
  if code < 0 then unknown code else named.getD code.toNat (unknown code)

/-- Whether a pattern describes an operand that is present. A number that is no pattern describes
none. -/
def admitsOperand (s : Operand) : Pattern → Bool
  | absent => false
  | any => s.kind = .register || s.isMemory || s.kind = .constant
  | var => s.kind = .register || s.isMemory
  | memory => s.isMemory
  | memory64 => s.isMemory64
  | memory128 => s.isMemory128
  | register => s.kind = .register
  | temporary => s.kind = .temporary
  | temporary64 => s.kind = .temporary64
  | temporary128 => s.kind = .temporary128
  | relative => s.kind = .relative
  | constant => s.kind = .constant
  | constant64 => s.kind = .constant64
  | context => s.kind = .context
  | relRef => s.kind = .relReference
  | tmpRef => s.kind = .tmpReference
  | unknown _ => false

/-- Whether a pattern describes an operand that may be absent. -/
def admits (p : Pattern) : Option Operand → Bool
  | none => p = absent
  | some s => p.admitsOperand s

/-- A number that is no pattern, met with an operand to describe. -/
structure Unknown where
  code : Int
  deriving DecidableEq, Repr

/-- The wording of the error for a number that is no pattern. -/
def Unknown.message (e : Unknown) : String := toString e.code

/-- Whether a pattern describes an operand that may be absent, refusing a number that is no
pattern when there is an operand. -/
def test (p : Pattern) (s : Option Operand) : Except Unknown Bool :=
  match p, s with
  | unknown code, some _ => .error ⟨code⟩
  | p, s => .ok (p.admits s)

end Pattern

end A32Lowering
