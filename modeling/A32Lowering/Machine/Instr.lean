import A32Lowering.Machine.Immediate
import A32Lowering.Machine.Register

/-!
# Instructions

The instructions that lowering uses, each with its 32-bit word and its line in a listing.

## Main definitions

* `Shift`, `Operand2` : the shifter operand of a data-processing instruction.
* `Instr` : the instructions.
* `Instr.encode` : the instruction word. A branch has a zero offset until its label is placed.
* `Instr.text` : the listing line.
-/

namespace A32Lowering

/-- The number of a label in a stream. A number that no label has is found out when branches are
resolved. -/
abbrev Label := Int

/-- Shift amounts are written as numerals. -/
instance neZeroAmounts : @NeZero Nat Zero.ofOfNat0 32 := ⟨by decide⟩

/-- A shift by a constant amount or by the low byte of a register. -/
inductive Shift where
  | byAmount (kind : ShiftKind) (amount : Fin 32)
  | byRegister (kind : ShiftKind) (amount : Reg)
  deriving DecidableEq, Repr

namespace Shift

/-- A shift amount above thirty-one. -/
structure AmountOutOfRange where
  amount : UInt8
  deriving DecidableEq, Repr

/-- The wording of the error for a shift amount above thirty-one. -/
def AmountOutOfRange.message (e : AmountOutOfRange) : String :=
  "shift amount out of range: " ++ toString e.amount.toNat

/-- The shift by a constant amount. -/
def ofAmount (kind : ShiftKind) (amount : UInt8) : Except AmountOutOfRange Shift :=
  if h : amount.toNat < 32 then .ok (.byAmount kind ⟨amount.toNat, h⟩) else .error ⟨amount⟩

/-- No shift at all. -/
def none : Shift := .byAmount .lsl 0

end Shift

/-- A byte moved to its place in an instruction word. It is not masked: a value that is too large
reaches into the fields above. -/
def field (v : UInt8) (pos : UInt32) : UInt32 := v.toUInt32 <<< pos

/-- The second operand of a data-processing instruction. -/
inductive Operand2 where
  | reg (r : Reg) (shift : Shift)
  | imm (i : Immediate)
  deriving DecidableEq, Repr

namespace Operand2

/-- A register as it is. -/
def plain (r : Reg) : Operand2 := .reg r .none

/-- The bits of the second operand in an instruction word, the immediate bit included. -/
def bits : Operand2 → UInt32
  | imm i => i.bits
  | reg r (.byAmount kind amount) =>
    (UInt32.ofNat amount.val) <<< 7 ||| field kind.code 5 ||| field r.code 0
  | reg r (.byRegister kind amount) =>
    field amount.code 8 ||| field kind.code 5 ||| 0x10 ||| field r.code 0

/-- The printed form of a second operand. -/
def text : Operand2 → String
  | imm i => i.text
  | reg r (.byAmount kind amount) =>
    if amount = 0 ∧ kind = .lsl then r.name
    else r.name ++ ", " ++ kind.name ++ " #" ++ toString amount.val
  | reg r (.byRegister kind amount) => r.name ++ ", " ++ kind.name ++ " " ++ amount.name

end Operand2

/-- The offset of a load or store, below 4096. -/
abbrev LoadOffset := Fin 4096

/-- Offsets of loads and stores are written as numerals. -/
instance neZeroOffsets : @NeZero Nat Zero.ofOfNat0 4096 := ⟨by decide⟩

/-- An offset of a load or store that does not fit. -/
structure OffsetOutOfRange where
  offset : UInt32
  deriving DecidableEq, Repr

/-- The wording of the error for an offset that does not fit. -/
def OffsetOutOfRange.message (e : OffsetOutOfRange) : String :=
  "ldr offset out of range: " ++ toString e.offset.toNat

/-- The offset of a load or store. -/
def LoadOffset.ofWord (offset : UInt32) : Except OffsetOutOfRange LoadOffset :=
  if h : offset.toNat < 4096 then .ok ⟨offset.toNat, h⟩ else .error ⟨offset⟩

/-- The offset field of a load or store word. -/
def LoadOffset.bits (offset : LoadOffset) : UInt32 := UInt32.ofNat offset.val

/-- Data-processing operations that combine two operands into a register. -/
inductive AluOp where
  | and | eor | sub | add | adc | sbc | orr | bic
  deriving DecidableEq, Repr

/-- The operation field of an instruction word. -/
def AluOp.code : AluOp → UInt32
  | and => 0 | eor => 1 | sub => 2 | add => 4 | adc => 5 | sbc => 6 | orr => 12 | bic => 14

/-- The mnemonic. -/
def AluOp.name : AluOp → String
  | and => "AND" | eor => "EOR" | sub => "SUB" | add => "ADD" | adc => "ADC" | sbc => "SBC"
  | orr => "ORR" | bic => "BIC"

/-- Data-processing operations that only set the flags. -/
inductive CompareOp where
  | cmp | cmn
  deriving DecidableEq, Repr

/-- The operation field of an instruction word. -/
def CompareOp.code : CompareOp → UInt32
  | cmp => 10 | cmn => 11

/-- The mnemonic. -/
def CompareOp.name : CompareOp → String
  | cmp => "CMP" | cmn => "CMN"

/-- Data-processing operations with one operand. -/
inductive MoveOp where
  | mov | mvn
  deriving DecidableEq, Repr

/-- The operation field of an instruction word. -/
def MoveOp.code : MoveOp → UInt32
  | mov => 13 | mvn => 15

/-- The mnemonic. -/
def MoveOp.name : MoveOp → String
  | mov => "MOV" | mvn => "MVN"

/-- An instruction. -/
inductive Instr where
  /-- Combines `rn` and the second operand into `rd`. -/
  | alu (op : AluOp) (flags : Bool) (rd rn : Reg) (op2 : Operand2)
  /-- Sets the flags from `rn` and the second operand. -/
  | compare (op : CompareOp) (rn : Reg) (op2 : Operand2)
  /-- Puts the second operand, or its complement, into `rd`. -/
  | move (op : MoveOp) (cond : CondCode) (rd : Reg) (op2 : Operand2)
  /-- Puts a 16-bit value into `rd` and clears its upper half. -/
  | movw (rd : Reg) (v : UInt16)
  /-- Replaces the upper half of `rd`. -/
  | movt (rd : Reg) (v : UInt16)
  /-- Loads the word at `rn` plus the offset. -/
  | ldr (rd rn : Reg) (offset : LoadOffset)
  /-- Stores to the word at `rn` plus the offset. -/
  | str (rd rn : Reg) (offset : LoadOffset)
  /-- Stores registers below `rn` and moves `rn` down. -/
  | stmdb (rn : Reg) (regs : RegisterSet)
  /-- Loads registers from `rn` upwards and moves `rn` up. -/
  | ldmia (rn : Reg) (regs : RegisterSet)
  /-- Continues at the address in `rm`. -/
  | bx (rm : Reg)
  /-- Continues at a label. -/
  | branch (cond : CondCode) (label : Label)
  /-- The 64-bit product of `rn` and `rm`, with or without sign. -/
  | mull (signed : Bool) (lo hi rn rm : Reg)
  deriving DecidableEq, Repr

namespace Instr

/-- A register copied to another one. -/
def mov (rd rm : Reg) : Instr := .move .mov .al rd (.plain rm)

/-- The word of a data-processing instruction. -/
def dataWord (cond : CondCode) (op : UInt32) (flags : Bool) (rd rn : Reg) (op2 : Operand2) :
    UInt32 :=
  field cond.code 28 ||| op <<< 21 ||| field rn.code 16 ||| field rd.code 12 ||| op2.bits
    ||| (if flags then 0x00100000 else 0)

/-- A 16-bit value split over the two immediate fields of MOVW and MOVT. -/
def split16 (v : UInt16) : UInt32 :=
  (v >>> 12).toUInt32 <<< 16 ||| (v &&& 0xfff).toUInt32

/-- The word of an instruction. -/
def encode : Instr → UInt32
  | alu op flags rd rn op2 => dataWord .al op.code flags rd rn op2
  | compare op rn op2 => dataWord .al op.code true .r0 rn op2
  | move op cond rd op2 => dataWord cond op.code false rd .r0 op2
  | movw rd v => 0xE3000000 ||| split16 v ||| field rd.code 12
  | movt rd v => 0xE3400000 ||| split16 v ||| field rd.code 12
  | ldr rd rn offset => 0xE5900000 ||| field rn.code 16 ||| field rd.code 12 ||| offset.bits
  | str rd rn offset => 0xE5800000 ||| field rn.code 16 ||| field rd.code 12 ||| offset.bits
  | stmdb rn regs => 0xE9200000 ||| field rn.code 16 ||| regs.mask.toUInt32
  | ldmia rn regs => 0xE8B00000 ||| field rn.code 16 ||| regs.mask.toUInt32
  | bx rm => 0xE12FFF10 ||| field rm.code 0
  | branch cond _ => 0x0A000000 ||| field cond.code 28
  | mull signed lo hi rn rm =>
    (if signed then 0xE0C00090 else 0xE0800090) ||| field hi.code 16 ||| field lo.code 12
      ||| field rm.code 8 ||| field rn.code 0

/-- Operands in a listing line: the mnemonic, a tab, and the operands behind it. -/
def line (mnemonic : String) (operands : List String) : String :=
  mnemonic ++ "\t" ++ String.intercalate ", " operands

/-- An address in a listing line. -/
def addressText (rn : Reg) (offset : LoadOffset) : String :=
  "[" ++ rn.name ++ ", #" ++ toString offset.val ++ "]"

/-- The listing line of an instruction. -/
def text : Instr → String
  | alu op flags rd rn op2 =>
    line (op.name ++ if flags then "S" else "") [rd.name, rn.name, op2.text]
  | compare op rn op2 => line op.name [rn.name, op2.text]
  | move op cond rd op2 => line (op.name ++ cond.name) [rd.name, op2.text]
  | movw rd v => line "MOVW" [rd.name, "#" ++ toString v.toNat]
  | movt rd v => line "MOVT" [rd.name, "#" ++ toString v.toNat]
  | ldr rd rn offset => line "LDR" [rd.name, addressText rn offset]
  | str rd rn offset => line "STR" [rd.name, addressText rn offset]
  | stmdb rn regs => line "STMDB" [rn.name ++ "!", regs.text]
  | ldmia rn regs => line "LDMIA" [rn.name ++ "!", regs.text]
  | bx rm => line "BX" [rm.name]
  | branch cond label => line ("B" ++ cond.name) ["L" ++ toString label]
  | mull signed lo hi rn rm =>
    line (if signed then "SMULL" else "UMULL") [lo.name, hi.name, rn.name, rm.name]

end Instr

end A32Lowering
