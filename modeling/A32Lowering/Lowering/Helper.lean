/-!
# Divide helpers

There is no divide instruction: a division calls one routine for the quotient and one for the
remainder. The routines belong to the host, and so does the choice where they are entered. Code
calls a routine by the low word of its entry, and the linker knows it by its name.

## Main definitions

* `Helper` : the four routines, with `name`.
* `Helper.Entries`, `Helper.address` : where the routines are entered, and the addresses that code
  has for them.
* `Helper.value?` : what a routine returns, nothing for a zero divisor.
* `Helper.quotient`, `Helper.remainder` : the routines for a division with or without sign.
-/

namespace A32Lowering

/-- A routine that divides two words. -/
inductive Helper where
  | divUnsigned | divSigned | modUnsigned | modSigned
  deriving DecidableEq, Repr

namespace Helper

/-- All routines, in the order in which they are registered. -/
def all : List Helper := [divUnsigned, divSigned, modUnsigned, modSigned]

/-- The name the linker knows a routine by. -/
def name : Helper → String
  | divUnsigned => "_CodeGen_Arm_div_unsigned"
  | divSigned => "_CodeGen_Arm_div_signed"
  | modUnsigned => "_CodeGen_Arm_mod_unsigned"
  | modSigned => "_CodeGen_Arm_mod_signed"

/-- Where the host has the routines. Its addresses can be wider than a word. -/
class Entries where
  entry : Helper → UInt64

/-- Entries for a host that names none. -/
instance : Entries where
  entry
    | divUnsigned => 0x80001000
    | divSigned => 0x80002000
    | modUnsigned => 0x80003000
    | modSigned => 0x80004000

/-- The address of a routine in code, which is the low word of its entry. -/
def address [Entries] (h : Helper) : UInt32 := (Entries.entry h).toUInt32

theorem mem_all (h : Helper) : h ∈ all := by cases h <;> decide

theorem name_injective : Function.Injective name := by
  intro g h
  cases g <;> cases h <;> decide

/-- What no two routines share tells the routine. -/
theorem find?_of_injective {α : Type} [DecidableEq α] {f : Helper → α}
    (hf : Function.Injective f) (h : Helper) : all.find? (fun g => f g = f h) = some h := by
  obtain ⟨g, hg⟩ : ∃ g, all.find? (fun g => f g = f h) = some g :=
    Option.isSome_iff_exists.mp (List.find?_isSome.mpr ⟨h, h.mem_all, by simp⟩)
  have he : f g = f h := by simpa using List.find?_some hg
  rw [hg, hf he]

/-- The routine for the quotient. -/
def quotient (signed : Bool) : Helper := if signed then divSigned else divUnsigned

/-- The routine for the remainder. -/
def remainder (signed : Bool) : Helper := if signed then modSigned else modUnsigned

/-- What a routine returns. Signed division goes toward zero, the remainder has the sign of the
dividend, and the least number divided by minus one is itself. -/
def value? (h : Helper) (a b : UInt32) : Option UInt32 :=
  if b = 0 then none
  else some <| match h with
    | divUnsigned => a / b
    | modUnsigned => a % b
    | divSigned => (a.toInt32 / b.toInt32).toUInt32
    | modSigned => (a.toInt32 % b.toInt32).toUInt32

end Helper

end A32Lowering
