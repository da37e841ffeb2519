import A32Lowering.Code.BinaryHeap
import A32Lowering.Code.LoadPair

/-!
# The instruction stream

A stream collects the words of instructions and, when its listing is on, a text line for each of
them. Labels are numbered in the order of their creation and placed at most once. A branch is
written with a zero offset and waits until its label is placed; resolving fills in the offsets in
the order of the branches in the stream.

## Main definitions

* `Stream`, with `emit`, `emitAll`, `createLabel`, `mark`, `position`, `truncate`, `clearLabels`,
  `reset`.
* `Stream.resolve` : fills in the offsets of the pending branches.
* `LabelError`, `ResolveError` : what can go wrong.
-/

namespace A32Lowering

/-- A listing line and the position in the stream at which it was written. -/
structure ListingLine where
  pos : Nat
  text : String
  deriving DecidableEq, Repr

/-- Why a label could not be placed or looked up. -/
inductive LabelError where
  | unknown (l : Label)
  | markedTwice (l : Label)
  deriving DecidableEq, Repr

/-- The wording of a label error. Using a label that does not exist has none: nothing catches
it. -/
def LabelError.message : LabelError → String
  | unknown _ => ""
  | markedTwice _ => "label marked twice"

/-- Why pending branches could not be resolved. -/
inductive ResolveError where
  | unmarked (b : PendingBranch)
  | tooFar (b : PendingBranch) (displacement : Int)
  | unknownLabel (b : PendingBranch)
  | outside (b : PendingBranch)
  deriving DecidableEq, Repr

/-- The wording of a resolve error. The last two have none: nothing catches them. -/
def ResolveError.message : ResolveError → String
  | unmarked b => "label L" ++ toString b.label ++ " referenced at " ++ toString b.pos
      ++ " is not marked"
  | tooFar b displacement =>
    "branch at " ++ toString b.pos ++ " out of range: " ++ toString displacement
  | unknownLabel _ => ""
  | outside _ => ""

/-- An instruction stream. -/
structure Stream where
  /-- The bytes so far. -/
  code : Code := #[]
  /-- Whether instructions and placed labels add a line to the listing. -/
  listing : Bool := false
  /-- The listing so far. -/
  lines : Array ListingLine := #[]
  /-- The position of each label, if it is placed. -/
  labels : Array (Option Nat) := #[]
  /-- The branches whose offset is not filled in. -/
  pending : PendingQueue := {}
  deriving DecidableEq, Repr

namespace Stream

/-- The number of bytes so far. -/
def size (s : Stream) : Nat := s.code.size

/-- The texts of the listing. -/
def listingText (s : Stream) : List String := s.lines.toList.map ListingLine.text

/-- The stream with a line added, when the listing is on. -/
def note (s : Stream) (text : String) : Stream :=
  if s.listing then { s with lines := s.lines.push ⟨s.size, text⟩ } else s

/-- The stream with a branch at the current position added to the pending ones. -/
def await (s : Stream) (l : Label) : Stream :=
  { s with pending := s.pending.push ⟨s.size, l⟩ }

/-- The stream with an instruction behind it. -/
def emit (s : Stream) (i : Instr) : Stream :=
  let s := s.note i.text
  let s := match i with
    | .branch _ l => s.await l
    | _ => s
  { s with code := s.code.append i.encode }

/-- The stream with instructions behind it. -/
def emitAll (s : Stream) (l : List Instr) : Stream :=
  l.foldl emit s

@[simp]
theorem size_emit (s : Stream) (i : Instr) : (s.emit i).size = s.size + 4 := by
  unfold emit
  cases i <;> simp [size, note, await] <;> split <;> simp

theorem emitAll_append (s : Stream) (l m : List Instr) :
    s.emitAll (l ++ m) = (s.emitAll l).emitAll m := by
  simp [emitAll]

@[simp]
theorem size_emitAll (s : Stream) (l : List Instr) :
    (s.emitAll l).size = s.size + 4 * l.length := by
  induction l generalizing s with
  | nil => rfl
  | cons i l ih =>
    have : s.emitAll (i :: l) = (s.emit i).emitAll l := rfl
    rw [this, ih, size_emit, List.length_cons]
    omega

/-- A new label that is not placed. -/
def createLabel (s : Stream) : Label × Stream :=
  (s.labels.size, { s with labels := s.labels.push none })

/-- The position of a label, `none` inside when it exists and is not placed. -/
def label? (s : Stream) (l : Label) : Option (Option Nat) :=
  if l < 0 then none else s.labels[l.toNat]?

/-- The position of a label that exists. -/
def position (s : Stream) (l : Label) : Except LabelError (Option Nat) :=
  match s.label? l with
  | none => .error (.unknown l)
  | some p => .ok p

/-- Places a label at the current position. -/
def mark (s : Stream) (l : Label) : Except LabelError Stream :=
  match s.label? l with
  | none => .error (.unknown l)
  | some (some _) => .error (.markedTwice l)
  | some none =>
    let s := s.note ("L" ++ toString l ++ ":")
    .ok { s with labels := s.labels.setIfInBounds l.toNat (some s.size) }

/-- The lines that are left when those at or after position `n` are dropped from the end. -/
def dropLines (n : Nat) (lines : Array ListingLine) : Array ListingLine :=
  lines.popWhile fun l => n ≤ l.pos

/-- The stream cut to its first `n` bytes, with the lines written after them dropped. Labels and
pending branches stay. -/
def truncate (s : Stream) (n : Nat) : Stream :=
  { s with code := s.code.take n, lines := dropLines n s.lines }

/-- The stream without labels and pending branches. -/
def clearLabels (s : Stream) : Stream :=
  { s with labels := #[], pending := {} }

/-- The stream emptied. -/
def reset (s : Stream) : Stream :=
  { listing := s.listing }

/-- The distance in words from a branch to a position; the machine counts from two instructions
after the branch. -/
def displacement (branch target : Nat) : Int :=
  Int.fdiv ((target : Int) - ((branch : Int) + 8)) 4

/-- A branch word with its offset filled in. -/
def branchTo (w : UInt32) (displacement : Int) : UInt32 :=
  w &&& 0xFF000000 ||| UInt32.ofInt displacement &&& 0x00FFFFFF

/-- The code with the offset of one branch filled in. -/
def resolveBranch (s : Stream) (b : PendingBranch) : Except ResolveError Code :=
  match s.label? b.label with
  | none => .error (.unknownLabel b)
  | some none => .error (.unmarked b)
  | some (some target) =>
    let d := displacement b.pos target
    if d < -0x800000 ∨ 0x800000 ≤ d then .error (.tooFar b d)
    else match s.code.word? b.pos with
      | none => .error (.outside b)
      | some w => .ok (s.code.write b.pos (branchTo w d))

/-- Fills in the offsets of up to `n` pending branches. A branch that cannot be resolved is taken
off the queue all the same. -/
def resolveSteps [PendingHeap] : Nat → Stream → Stream × Except ResolveError Unit
  | 0, s => (s, .ok ())
  | n + 1, s =>
    match PendingHeap.pop? s.pending with
    | none => (s, .ok ())
    | some (b, rest) =>
      match s.resolveBranch b with
      | .error e => ({ s with pending := rest }, .error e)
      | .ok code => resolveSteps n { s with code, pending := rest }

/-- Fills in the offsets of the pending branches, in the order of their positions. -/
def resolve [PendingHeap] (s : Stream) : Stream × Except ResolveError Unit :=
  resolveSteps s.pending.items.size s

/-- Replaces the constant of the load pair at an offset. -/
def patch (s : Stream) (offset : Int) (v : UInt32) : Except PatchError Stream :=
  (LoadPair.patch s.code offset v).map fun code => { s with code }

end Stream

end A32Lowering
