import A32Lowering.Lowering.Session

/-!
# Lowering a function

A function is a prolog, the code of its statements and an epilog. The prolog saves the registers
that the function changes, makes room for the frame and keeps the context pointer; the epilog undoes
this and returns. A fault undoes the whole function: code and listing are as before, and only the
reports already made remain.

## Main definitions

* `Frame.saved` : the registers that a function saves.
* `Frame.prolog`, `Frame.epilog`.
* `Session.lower` : lowers a function.
* `LowerError` : why a function was not lowered.
-/

namespace A32Lowering

variable [Helper.Entries] [PendingHeap]

namespace Frame

/-- The register operands of a statement, in order. -/
def registerOperands (x : Statement) : List Operand :=
  ([x.dst, x.src1, x.src2].filterMap id).filter fun s => s.kind = .register

/-- The register indices that a function uses, as a set. -/
def usage (p : Program) : Except Fault RegisterSet :=
  (p.flatMap registerOperands).foldlM
    (fun used s => (used.insert s.low.toNat).mapError fun _ => .registerIndex s.low) .empty

/-- The set with a register added. -/
def withRegister (s : RegisterSet) (r : Reg) : RegisterSet :=
  s.union ⟨RegisterSet.bit r.code.toNat⟩

/-- The registers that a function with some used indices saves: those of the indices, the one for
call addresses, the one for the context pointer, and the link register. -/
def saved (used : RegisterSet) : Except Fault RegisterSet := do
  let own ← used.toList.foldlM
    (fun s i => (Abi.register (UInt32.ofNat i)).map (withRegister s)) RegisterSet.empty
  return [Abi.callAddress, Abi.base, Reg.lr].foldl withRegister own

/-- Moves the stack pointer by the frame size. -/
def adjust (op : AluOp) (size : UInt32) : List Instr :=
  if size = 0 then []
  else match Immediate.ofWord? size with
    | some i => [.alu op false .sp .sp (.imm i)]
    | none => Constant.load .r12 size ++ [.alu op false .sp .sp (.plain .r12)]

/-- The code at the start of a function. -/
def prolog (size : UInt32) (saved : RegisterSet) : Except Fault (List Instr) :=
  if size &&& 3 = 0 then
    .ok ([.stmdb .sp saved] ++ adjust .sub size ++ [.mov Abi.base .r0])
  else .error (.unalignedFrame size)

/-- The code at the end of a function. -/
def epilog (size : UInt32) (saved : RegisterSet) : List Instr :=
  adjust .add size ++ [.ldmia .sp saved, .bx .lr]

end Frame

/-- The place in a function at which lowering stopped: a statement with its index, or outside of
the statements. -/
abbrev Place := Option (Nat × Statement)

/-- Why a function was not lowered. -/
inductive LowerError where
  /-- Something is left of another function. -/
  | notClean (params labels : Nat) (level : UInt32)
  /-- A fault at a place. -/
  | faulted (place : Place) (f : Fault)
  /-- The observer refused a report. -/
  | refused
  /-- A branch or a label that the stream does not have. -/
  | stray
  deriving DecidableEq, Repr

/-- The wording of an error of lowering. The last two have none of their own: nothing catches
them. -/
def LowerError.message : LowerError → String
  | notClean params labels level =>
    "lowering state is not clean: params " ++ toString params ++ ", labels " ++ toString labels
      ++ ", stack level " ++ toString level.toNat
  | faulted (some (i, x)) f =>
    "statement " ++ toString i ++ ": " ++ x.text.toString ++ ": " ++ f.message
  | faulted none f => "lower: " ++ f.message
  | refused => ""
  | stray => ""

/-- Actions of lowering whose failures name their place. -/
abbrev LowerAt := ExceptT (Place × Failure) (StateM Session)

namespace LowerAt

/-- An action at a place. -/
def located {α : Type} (place : Place) (m : Lower α) : LowerAt α :=
  ExceptT.adapt (fun f => (place, f)) m

/-- Lowers statements, the first of them having index `i`. -/
def statements : Nat → Program → LowerAt Unit
  | _, [] => pure ()
  | i, x :: rest => do
    located (some (i, x)) (Lower.statement x)
    statements (i + 1) rest

/-- Refuses parameters and a stack level that are left at the end of a function. -/
def checkEnd : Lower Unit := do
  let s ← get
  if !s.params.isEmpty then throw (.fault (.unusedParameters s.params.length))
  if s.level ≠ 0 then throw (.fault (.unbalancedStack s.level))

/-- Fills in the branches of the function. -/
def resolve : Lower Unit := do
  let s ← get
  let (stream, r) := s.stream.resolve
  set { s with stream }
  match r with
  | .ok () => pure ()
  | .error (.unknownLabel _) => throw .stray
  | .error (.outside _) => throw .stray
  | .error e => throw (.fault (.unresolved e))

/-- Lowers a whole function. -/
def function (p : Program) (frame : UInt32) : LowerAt Unit := do
  let saved ← located none (Lower.check (do Frame.saved (← Frame.usage p)))
  located none (Lower.emitChecked (Frame.prolog frame saved))
  modify fun s => { s with level := 0 }
  statements 0 p
  located none do
    checkEnd
    Lower.emit (Frame.epilog frame saved)
    resolve
  modify fun s => { s with stream := s.stream.clearLabels }.forget

end LowerAt

/-- Lowers a function in a session. -/
def Session.lower (s : Session) (p : Program) (frame : UInt32) :
    Session × Except LowerError Unit :=
  if s.isClean then
    match (LowerAt.function p frame).run s with
    | (.ok (), t) => (t, .ok ())
    | (.error (place, .fault f), t) => (t.rollback s.stream.size, .error (.faulted place f))
    | (.error (_, .refused), t) => (t, .error .refused)
    | (.error (_, .stray), t) => (t, .error .stray)
  else (s, .error (.notClean s.params.length s.blocks.length s.level))

end A32Lowering
