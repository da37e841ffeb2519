import A32Lowering.Lowering.Helper
import A32Lowering.Lowering.Rules

/-!
# Lowering sessions

A session lowers functions one after another into one stream. While a function is lowered it keeps
the label of each block, the parameters that no call has taken, and the stack level. An observer is
told about every relocatable constant: its value and the position of its load pair.

## Main definitions

* `Session`, `Session.isClean`.
* `Lower` : the actions of lowering.
* `Lower.labelOf`, `Lower.callAddress`, `Lower.statement`.
-/

namespace A32Lowering

variable [Helper.Entries]

/-- What becomes of a report about a relocatable constant. -/
inductive Observer where
  /-- Reports are kept. -/
  | recording
  /-- Nobody listens. -/
  | absent
  /-- The report is refused, which stops the session where it is. -/
  | refusing
  deriving DecidableEq, Repr

/-- A report about a relocatable constant: its value and the position of its load pair. -/
structure Report where
  value : UInt32
  offset : Nat
  deriving DecidableEq, Repr

/-- The state of a lowering session. -/
structure Session where
  stream : Stream := {}
  /-- The labels of the blocks that were referred to. -/
  blocks : List (UInt32 × Label) := []
  /-- The declared parameters that no call has taken, the last one first. -/
  params : List Parameter := []
  /-- By how much the stack pointer is below its place after the prolog. -/
  level : UInt32 := 0
  observer : Observer := .recording
  /-- The reports so far. -/
  reports : Array Report := #[]
  deriving DecidableEq, Repr

namespace Session

/-- Whether nothing is left of a function. -/
def isClean (s : Session) : Bool :=
  s.params.isEmpty && s.blocks.isEmpty && s.level = 0

/-- The session without what belongs to one function. The labels of the stream stay. -/
def forget (s : Session) : Session :=
  { s with blocks := [], params := [], level := 0 }

/-- The session as it was before a function that began at a position, up to reports. -/
def rollback (s : Session) (start : Nat) : Session :=
  { s.forget with stream := (s.stream.truncate start).clearLabels }

end Session

/-- Why an action of lowering stopped. -/
inductive Failure where
  /-- A fault, which undoes the function. -/
  | fault (f : Fault)
  /-- The observer refused a report. -/
  | refused
  /-- A branch or a label that the stream does not have. -/
  | stray
  deriving DecidableEq, Repr

/-- The actions of lowering: they change the session, also when they fail. -/
abbrev Lower := ExceptT Failure (StateM Session)

namespace Lower

/-- The result of a check that may be a fault. -/
def check {α : Type} (r : Except Fault α) : Lower α :=
  match r with
  | .ok a => pure a
  | .error f => throw (.fault f)

/-- Writes instructions. -/
def emit (l : List Instr) : Lower Unit :=
  modify fun s => { s with stream := s.stream.emitAll l }

/-- Writes the instructions of a result that may be a fault. -/
def emitChecked (r : Except Fault (List Instr)) : Lower Unit := do
  emit (← check r)

/-- The stack level. -/
def level : Lower UInt32 := return (← get).level

/-- Changes the stack level. -/
def moveLevel (delta : UInt32) : Lower Unit :=
  modify fun s => { s with level := s.level + delta }

/-- Reports a relocatable constant. -/
def report (r : Report) : Lower Unit := do
  match (← get).observer with
  | .absent => pure ()
  | .recording => modify fun s => { s with reports := s.reports.push r }
  | .refusing => throw .refused

/-- Puts a constant into a register so that linking can replace it. -/
def loadRelocatable (r : Reg) (c : UInt32) : Lower Unit := do
  let start := (← get).stream.size
  emit (Constant.loadPair r c)
  report ⟨c, start⟩

/-- Calls the routine at an address. The register for the address is free at a call. -/
def callAddress (addr : UInt32) : Lower Unit := do
  loadRelocatable Abi.callAddress addr
  emit [.mov .lr .pc, .mov .pc Abi.callAddress]

/-- The label of a block, created when the block is referred to for the first time. -/
def labelOf (block : UInt32) : Lower Label := do
  let s ← get
  match s.blocks.find? fun b => b.1 = block with
  | some b => return b.2
  | none =>
    let (l, stream) := s.stream.createLabel
    set { s with stream, blocks := s.blocks ++ [(block, l)] }
    return l

/-- Places the label of a block at the current position. -/
def markBlock (block : UInt32) : Lower Unit := do
  let l ← labelOf block
  let s ← get
  match s.stream.mark l with
  | .ok stream => set { s with stream }
  | .error (.markedTwice _) => throw (.fault (.markedTwice block))
  | .error (.unknown _) => throw .stray

/-- Jumps to a block. -/
def jumpTo (cond : CondCode) (block : UInt32) : Lower Unit := do
  let l ← labelOf block
  emit [.branch cond l]

/-- Jumps to the block of a statement under its condition. -/
def jumpOn (x : Statement) : Lower Unit := do
  let cc ← check (CondCode.ofCondition x.cond)
  jumpTo cc x.block

/-- Takes the last `n` declared parameters, the last one first. -/
def takeParameters (n : Nat) : Lower (List Parameter) := do
  let s ← get
  if s.params.length < n then throw (.fault (.missingParameters n s.params.length))
  set { s with params := s.params.drop n }
  return s.params.take n

/-- Passes parameters and calls a routine. -/
def call (target count : Operand) : Lower Unit := do
  check (Access.expect .callTarget .constant target)
  check (Access.expect .parameterCount .constant count)
  let params ← takeParameters count.low.toNat
  emitChecked (Parameter.codeAll (← level) 0 params)
  callAddress target.low

/-- The registers that a division passes its operands in. -/
def divideArguments : RegisterSet := ⟨3⟩

/-- Divides by calling the helpers: the quotient goes to the low word of the destination and the
remainder to the high word. The operands are kept on the stack for the second call. -/
def divide (signed : Bool) (d s1 s2 : Operand) : Lower Unit := do
  check (Access.expect .temporary64 .temporary64 d)
  emitChecked (Access.argument (← level) .r0 s1)
  emitChecked (Access.argument (← level) .r1 s2)
  emit [.stmdb .sp divideArguments]
  moveLevel 8
  callAddress (Helper.quotient signed).address
  emitChecked (Access.store64 (← level) d .r0 0)
  emit [.ldmia .sp divideArguments]
  moveLevel (-8)
  callAddress (Helper.remainder signed).address
  emitChecked (Access.store64 (← level) d .r0 4)

/-- Does what a rule says with a statement. -/
def action (x : Statement) : Action → Lower Unit
  | .straight a => do emitChecked (a.code (← level) x)
  | .mark => markBlock x.block
  | .jump => jumpTo .al x.block
  | .jumpIf => do
    let a ← check (Access.need x.src1)
    let b ← check (Access.need x.src2)
    if b.kind = .constant then throw (.fault .constantCompared)
    emitChecked (Straight.compareCode (← level) a b)
    jumpOn x
  | .jumpIfCst => do
    let a ← check (Access.need x.src1)
    let b ← check (Access.need x.src2)
    check (Access.expect .constant .constant b)
    emitChecked (Straight.compareCstCode (← level) a b)
    jumpOn x
  | .param c => do
    let p ← check (do Parameter.declare (← Access.need x.src1) c)
    modify fun s => { s with params := p :: s.params }
  | .call => do call (← check (Access.need x.src1)) (← check (Access.need x.src2))
  | .divide signed => do
    divide signed (← check (Access.need x.dst)) (← check (Access.need x.src1))
      (← check (Access.need x.src2))

/-- Lowers a statement. -/
def statement (x : Statement) : Lower Unit := do
  let r ← check (Rules.select x)
  action x r.action

end Lower

end A32Lowering
