import A32Lowering.Machine.RegisterSet

/-!
# Registers, condition codes and shift kinds

The fields of an instruction that name a register, a condition or a kind of shift. They are bytes:
the encoder shifts them into place without a check, so a value that is too large reaches into the
neighbouring field.

## Main definitions

* `Reg`, `CondCode`, `ShiftKind` with their names.
* `CondCode.inverse` : the condition that holds exactly when another does not.
* `RegisterSet.text` : the register list of a block transfer.
-/

namespace A32Lowering

/-- A register number. -/
structure Reg where
  code : UInt8
  deriving DecidableEq, Repr

namespace Reg

def r0 : Reg := ⟨0⟩
def r1 : Reg := ⟨1⟩
def r2 : Reg := ⟨2⟩
def r3 : Reg := ⟨3⟩
def r4 : Reg := ⟨4⟩
def r5 : Reg := ⟨5⟩
def r6 : Reg := ⟨6⟩
def r7 : Reg := ⟨7⟩
def r8 : Reg := ⟨8⟩
def r10 : Reg := ⟨10⟩
def r11 : Reg := ⟨11⟩
def r12 : Reg := ⟨12⟩
/-- The stack pointer. -/
def sp : Reg := ⟨13⟩
/-- The link register. -/
def lr : Reg := ⟨14⟩
/-- The program counter. -/
def pc : Reg := ⟨15⟩

/-- The name of a register in listings. -/
def name (r : Reg) : String :=
  if r = sp then "SP"
  else if r = lr then "LR"
  else if r = pc then "PC"
  else "R" ++ toString r.code.toNat

end Reg

/-- A condition code of the instruction set. -/
structure CondCode where
  code : UInt8
  deriving DecidableEq, Repr

namespace CondCode

/-- Equal. -/
def eq : CondCode := ⟨0⟩
/-- Not equal. -/
def ne : CondCode := ⟨1⟩
/-- Carry set: unsigned higher or same. -/
def cs : CondCode := ⟨2⟩
/-- Carry clear: unsigned lower. -/
def cc : CondCode := ⟨3⟩
/-- Unsigned higher. -/
def hi : CondCode := ⟨8⟩
/-- Unsigned lower or same. -/
def ls : CondCode := ⟨9⟩
/-- Signed greater or equal. -/
def ge : CondCode := ⟨10⟩
/-- Signed less. -/
def lt : CondCode := ⟨11⟩
/-- Signed greater. -/
def gt : CondCode := ⟨12⟩
/-- Signed less or equal. -/
def le : CondCode := ⟨13⟩
/-- Always. -/
def al : CondCode := ⟨14⟩

/-- The suffixes of the condition codes, in the order of their numbers. -/
def names : List String :=
  ["EQ", "NE", "CS", "CC", "MI", "PL", "VS", "VC", "HI", "LS", "GE", "LT", "GT", "LE", ""]

/-- The suffix of a condition code in listings. -/
def name (c : CondCode) : String :=
  names.getD c.code.toNat ("cond(" ++ toString c.code.toNat ++ ")")

/-- The condition that holds exactly when `c` does not: codes come in pairs that differ in the
lowest bit. -/
def inverse (c : CondCode) : CondCode := ⟨c.code ^^^ 1⟩

end CondCode

/-- A kind of shift. -/
structure ShiftKind where
  code : UInt8
  deriving DecidableEq, Repr

namespace ShiftKind

/-- Logical shift left. -/
def lsl : ShiftKind := ⟨0⟩
/-- Logical shift right. -/
def lsr : ShiftKind := ⟨1⟩
/-- Arithmetic shift right. -/
def asr : ShiftKind := ⟨2⟩
/-- Rotate right. -/
def ror : ShiftKind := ⟨3⟩

/-- The name of a shift kind in listings, taken from its two lowest bits. -/
def name (s : ShiftKind) : String :=
  if s.code &&& 3 = 0 then "LSL"
  else if s.code &&& 3 = 1 then "LSR"
  else if s.code &&& 3 = 2 then "ASR"
  else "ROR"

end ShiftKind

/-- The register list of a block transfer in listings. -/
def RegisterSet.text (s : RegisterSet) : String :=
  "\x7b" ++ String.intercalate ", " (s.toList.map fun k => (Reg.mk (UInt8.ofNat k)).name) ++ "\x7d"

end A32Lowering
