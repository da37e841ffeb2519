import A32Lowering.Text.Basic

/-!
# Rotated immediates

A data-processing instruction can hold a constant that is an 8-bit value rotated right by an even
amount. Every other constant has to be built in a register.

## Main definitions

* `Immediate`, `Immediate.value` : the field pair and the constant it stands for.
* `Immediate.ofFields` : the immediate of two bytes, refusing a rotate field above fifteen.
* `Immediate.ofWord?` : the immediate of a constant with the least rotate field.
* `Immediate.Tier` : the cheapest way to use a constant.
-/

namespace A32Lowering

/-- Rotate fields are written as numerals. -/
instance neZeroRotations : @NeZero Nat Zero.ofOfNat0 16 := ⟨by decide⟩

/-- An 8-bit value to be rotated right by twice the rotate field. -/
structure Immediate where
  imm : UInt8
  rot : Fin 16
  deriving DecidableEq, Repr

namespace Immediate

/-- A rotate field above fifteen. -/
structure RotateOutOfRange where
  rot : UInt8
  deriving DecidableEq, Repr

/-- The wording of the error for a rotate field above fifteen. -/
def RotateOutOfRange.message (e : RotateOutOfRange) : String :=
  "rotate out of range: " ++ toString e.rot.toNat

/-- The immediate with the given fields. -/
def ofFields (imm rot : UInt8) : Except RotateOutOfRange Immediate :=
  if h : rot.toNat < 16 then .ok ⟨imm, ⟨rot.toNat, h⟩⟩ else .error ⟨rot⟩

/-- The constant that an immediate stands for. -/
def value (i : Immediate) : UInt32 :=
  ⟨i.imm.toUInt32.toBitVec.rotateRight (2 * i.rot.val)⟩

/-- The immediate as the second operand of an instruction word. -/
def bits (i : Immediate) : UInt32 :=
  (0x02000000 : UInt32) ||| (UInt32.ofNat i.rot.val) <<< 8 ||| i.imm.toUInt32

/-- The printed form of an immediate. -/
def text (i : Immediate) : String := "#" ++ toString i.value.toNat

/-- The immediate that stands for a constant with a given rotate field, if there is one. -/
def withRotation? (c : UInt32) (rot : Fin 16) : Option Immediate :=
  let v := c.toBitVec.rotateLeft (2 * rot.val)
  if v ≤ 0xff then some ⟨⟨v.setWidth 8⟩, rot⟩ else none

/-- The immediate that stands for a constant, if there is one; of several the one with the least
rotate field. -/
def ofWord? (c : UInt32) : Option Immediate :=
  (List.finRange 16).findSome? (withRotation? c)

/-- The cheapest way in which an instruction can use a constant: as it is, negated, complemented,
or from a register. -/
inductive Tier where
  | direct (i : Immediate)
  | negated (i : Immediate)
  | complemented (i : Immediate)
  | register
  deriving DecidableEq, Repr

/-- The cheapest way to use a constant. -/
def tier (c : UInt32) : Tier :=
  match ofWord? c, ofWord? (-c), ofWord? (~~~c) with
  | some i, _, _ => .direct i
  | none, some i, _ => .negated i
  | none, none, some i => .complemented i
  | none, none, none => .register

/-- The field pair of an immediate: the 8-bit value in hexadecimal and the rotation. -/
def fieldsText (i : Immediate) : String :=
  "0x" ++ Text.toString (Text.hex i.imm.toNat) ++ " ror " ++ toString (2 * i.rot.val)

/-- The printed form of the cheapest way to use a constant. -/
def Tier.text : Tier → String
  | .direct i => "imm " ++ i.fieldsText
  | .negated i => "neg " ++ i.fieldsText
  | .complemented i => "not " ++ i.fieldsText
  | .register => "register (MOVW/MOVT)"

end Immediate

end A32Lowering
