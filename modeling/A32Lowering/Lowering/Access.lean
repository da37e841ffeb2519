import A32Lowering.Lowering.Constant

/-!
# Access to operands

How the value of an operand gets into a register and back. Words on the stack are addressed from
the stack pointer, which moves when arguments are pushed: the stack level says by how much. Words
of the context block are addressed from a register that holds the context pointer for the whole
function.

## Main definitions

* `Abi` : the registers that operands, arguments and the context pointer take.
* `Access.load`, `Access.store`, `Access.load64`, `Access.store64`, `Access.address128`.
* `Access.use`, `Access.define`, `Access.commit` : the value of a word operand as a source and as a
  destination.
* `Access.shift` : a shift by the value of an operand.
-/

namespace A32Lowering

namespace Abi

/-- The registers of the allocator, in the order of their indices. -/
def registers : List Reg := [.r4, .r5, .r6, .r7, .r8, .r10]

/-- The argument registers. -/
def arguments : List Reg := [.r0, .r1, .r2, .r3]

/-- The register that holds the context pointer. -/
def base : Reg := .r11

/-- The register that takes the address of a called routine. -/
def callAddress : Reg := .r4

/-- The register with an index of the allocator. -/
def register (i : UInt32) : Except Fault Reg :=
  match registers[i.toNat]? with
  | some r => .ok r
  | none => .error (.registerIndex i)

end Abi

namespace Access

/-- Refuses an operand of another class. -/
def expect (what : Expected) (kind : Kind) (s : Operand) : Except Fault Unit :=
  if s.kind = kind then .ok () else .error (.expected what s.kind)

/-- An operand that the statement has. -/
def need : Option Operand → Except Fault Operand
  | some s => .ok s
  | none => .error .operandMissing

/-- The offset of a load or store. -/
def offset (off : UInt32) : Except Fault LoadOffset :=
  (LoadOffset.ofWord off).mapError fun e => .offsetOutOfRange e.offset

/-- The offset from the context pointer of the word `half` bytes into an operand. -/
def relative (s : Operand) (half : UInt32) : Except Fault LoadOffset :=
  if s.low &&& 3 = 0 then offset (s.low + half) else .error (.unalignedRelative s.low)

/-- The offset from the stack pointer of the word `half` bytes into an operand. -/
def temporary (level : UInt32) (s : Operand) (half : UInt32) : Except Fault LoadOffset :=
  offset (s.slot + level + half)

/-- The base register and the offset of a word of the context block. -/
def relativeAddress (s : Operand) (half : UInt32) : Except Fault (Reg × LoadOffset) :=
  (relative s half).map fun o => (Abi.base, o)

/-- The base register and the offset of a word on the stack. -/
def temporaryAddress (level : UInt32) (s : Operand) (half : UInt32) :
    Except Fault (Reg × LoadOffset) :=
  (temporary level s half).map fun o => (.sp, o)

/-- The address of a word operand. -/
def address (level : UInt32) (s : Operand) : Except Fault (Reg × LoadOffset) :=
  match s.kind with
  | .relative => relativeAddress s 0
  | .temporary => temporaryAddress level s 0
  | k => .error (.unexpected .memory k)

/-- The address of the word `half` bytes into an operand of two words. -/
def address64 (level : UInt32) (s : Operand) (half : UInt32) : Except Fault (Reg × LoadOffset) :=
  match s.kind with
  | .relative64 => relativeAddress s half
  | .temporary64 => temporaryAddress level s half
  | k => .error (.unexpected .memory64 k)

/-- The instruction that loads `r` from an address. -/
def loadFrom (r : Reg) (a : Reg × LoadOffset) : List Instr := [.ldr r a.1 a.2]

/-- The instruction that stores `r` at an address. -/
def storeTo (r : Reg) (a : Reg × LoadOffset) : List Instr := [.str r a.1 a.2]

/-- Loads a word operand. -/
def load (level : UInt32) (r : Reg) (s : Operand) : Except Fault (List Instr) :=
  (address level s).map (loadFrom r)

/-- Stores to a word operand. -/
def store (level : UInt32) (s : Operand) (r : Reg) : Except Fault (List Instr) :=
  (address level s).map (storeTo r)

/-- Loads one word of an operand of two words. -/
def load64 (level : UInt32) (r : Reg) (s : Operand) (half : UInt32) : Except Fault (List Instr) :=
  (address64 level s half).map (loadFrom r)

/-- Stores to one word of an operand of two words. -/
def store64 (level : UInt32) (s : Operand) (r : Reg) (half : UInt32) : Except Fault (List Instr) :=
  (address64 level s half).map (storeTo r)

/-- Puts the address of an operand of four words into `r`. -/
def address128 (level : UInt32) (r : Reg) (s : Operand) : Except Fault (List Instr) :=
  match s.kind with
  | .relative128 =>
    if s.low &&& 3 = 0 then Constant.add r Abi.base s.low r
    else .error (.unalignedRelative s.low)
  | .temporary128 => Constant.add r .sp (s.slot + level) r
  | k => .error (.unexpected .memory128 k)

/-- Loads a word of the context block. -/
def loadRelative (r : Reg) (s : Operand) : Except Fault (List Instr) := do
  expect .relative .relative s
  return loadFrom r (← relativeAddress s 0)

/-- Stores to a word on the stack. -/
def storeTemporary (level : UInt32) (s : Operand) (r : Reg) : Except Fault (List Instr) := do
  expect .temporary .temporary s
  return storeTo r (← temporaryAddress level s 0)

/-- Loads a reference from the context block. -/
def loadRelReference (r : Reg) (s : Operand) : Except Fault (List Instr) := do
  expect .relReference .relReference s
  return loadFrom r (← relativeAddress s 0)

/-- Loads a reference from the stack. -/
def loadTmpReference (level : UInt32) (r : Reg) (s : Operand) : Except Fault (List Instr) := do
  expect .tmpReference .tmpReference s
  return loadFrom r (← temporaryAddress level s 0)

/-- Stores a reference on the stack. -/
def storeTmpReference (level : UInt32) (s : Operand) (r : Reg) : Except Fault (List Instr) := do
  expect .tmpReference .tmpReference s
  return storeTo r (← temporaryAddress level s 0)

/-- The register in which the new value of an operand is computed: its own one, or `pref` for a
word in memory. -/
def define (s : Operand) (pref : Reg) : Except Fault Reg :=
  if s.kind = .register then Abi.register s.low
  else if s.isMemory then .ok pref
  else .error (.unexpected .definition s.kind)

/-- The register that holds the value of an operand, and the code that puts it there: the value of
a word in memory and a constant go to `pref`. -/
def use (level : UInt32) (s : Operand) (pref : Reg) : Except Fault (Reg × List Instr) :=
  if s.kind = .register then (Abi.register s.low).map fun r => (r, [])
  else if s.isMemory then (load level pref s).map fun l => (pref, l)
  else if s.kind = .constant then .ok (pref, Constant.load pref s.low)
  else .error (.unexpected .use s.kind)

/-- Completes a definition whose value is in `r`. -/
def commit (level : UInt32) (s : Operand) (r : Reg) : Except Fault (List Instr) :=
  if s.kind = .register then do
    let own ← Abi.register s.low
    if r = own then return [] else throw (.definedElsewhere s.low r)
  else if s.isMemory then store level s r
  else .error (.unexpected .definition s.kind)

/-- Copies the value of an operand into `r`. -/
def argument (level : UInt32) (r : Reg) (s : Operand) : Except Fault (List Instr) := do
  let (src, code) ← use level s r
  return code ++ if src = r then [] else [.mov r src]

/-- The shift by the value of an operand, with the code that puts a word in memory into `pref`. A
constant counts modulo thirty-two, and a shift by nothing is always written as a shift left, since
the other kinds mean a shift by thirty-two then. -/
def shift (level : UInt32) (kind : ShiftKind) (s : Operand) (pref : Reg) :
    Except Fault (Shift × List Instr) :=
  if s.kind = .register then (Abi.register s.low).map fun r => (.byRegister kind r, [])
  else if s.isMemory then (load level pref s).map fun l => (.byRegister kind pref, l)
  else if s.kind = .constant then
    let n : Fin 32 := Fin.ofNat 32 s.low.toNat
    .ok (.byAmount (if n = 0 then .lsl else kind) n, [])
  else .error (.unexpected .shiftAmount s.kind)

end Access

end A32Lowering
