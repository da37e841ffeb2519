import A32Lowering.Program.Statement
import A32Lowering.Text.Blanks
import A32Lowering.Text.Numeral

/-!
# Reading statements

A program is read line by line. A line is cut at the first `//`; blank lines hold no statement.
Reading works on the text that is left: a reader returns what it read with the rest, and an error
carries the rest at which it is reported, so that positions are lengths of what came before.

## Main definitions

* `Reader.word` : the longest word at the start of a text.
* `Operand.read`, `Statement.read` : one operand and one statement at the start of a text.
* `Program.readLine`, `Program.read` : a line and a whole program.
* `OperandError`, `StatementError`, `ProgramError` : what can go wrong, with the wording in
  `message`.
-/

namespace A32Lowering

/-- Why an operand could not be read. -/
inductive OperandError where
  | missing
  | badConstant (e : NumeralError)
  | badNumber (word : Text) (e : NumeralError)
  | unknown (word : Text)
  deriving DecidableEq, Repr

/-- The wording of an operand error. -/
def OperandError.message : OperandError → String
  | missing => "symbol expected"
  | badConstant e => "constant: " ++ e.message
  | badNumber word e => "symbol " ++ word.quoted ++ ": " ++ e.message
  | unknown word => "unknown symbol: " ++ word.quoted

/-- Why a statement could not be read. -/
inductive StatementError where
  | unknownOp (name : Text)
  | unknownCondition (name : Text)
  | badBlock (e : NumeralError)
  | commaExpected
  | badOperand (index : Nat) (e : OperandError)
  | unexpectedText (rest : Text)
  deriving DecidableEq, Repr

/-- The wording of a statement error. -/
def StatementError.message : StatementError → String
  | unknownOp name => "unknown op: " ++ name.quoted
  | unknownCondition name => "unknown condition: " ++ name.quoted
  | badBlock e => "block id: " ++ e.message
  | commaExpected => "comma expected"
  | badOperand index e => "operand " ++ toString index ++ ": " ++ e.message
  | unexpectedText rest => "unexpected text: " ++ rest.quoted

/-- A statement error together with the text that was left where it is reported. -/
structure Misread where
  cause : StatementError
  rest : Text
  deriving DecidableEq, Repr

/-- A statement error with its line and column, both counted from one. -/
structure ProgramError where
  line : Nat
  col : Nat
  cause : StatementError
  deriving DecidableEq, Repr

/-- The wording of an error in a program. -/
def ProgramError.message (e : ProgramError) : String :=
  toString e.line ++ ":" ++ toString e.col ++ ": " ++ e.cause.message

namespace Reader

/-- Whether a word ends before this text: at its end, at a comma, a blank or a carriage return, and
at an arrow. -/
def atWordEnd : Text → Bool
  | [] => true
  | c :: rest =>
    c == ','.toUInt8 || c == ' '.toUInt8 || c == '\t'.toUInt8 || c == '\r'.toUInt8
      || (c == '-'.toUInt8 && rest.head? == some '>'.toUInt8)

/-- The longest word at the start of a text, and the rest. -/
def word : Text → Text × Text
  | [] => ([], [])
  | c :: rest =>
    if atWordEnd (c :: rest) then ([], c :: rest)
    else
      let (w, after) := word rest
      (c :: w, after)

/-- Nothing is lost when a word is split off. -/
theorem word_append (t : Text) : (word t).1 ++ (word t).2 = t := by
  induction t with
  | nil => rfl
  | cons c t ih => by_cases h : atWordEnd (c :: t) <;> simp [word, h, ih]

/-- The word is the longest one: it ends where words end. -/
theorem atWordEnd_word (t : Text) : atWordEnd (word t).2 = true := by
  induction t with
  | nil => rfl
  | cons c t ih => by_cases h : atWordEnd (c :: t) <;> simp [word, h, ih]

/-- The parts of a word before and from its first digit. -/
def splitAtDigit (w : Text) : Text × Text :=
  w.span fun b => !Text.isDigit b

/-- The parts of a storage name: before and after a colon if there is one, else before and from
the first digit. -/
def splitName (w : Text) : Text × Text :=
  (Text.cut ':'.toUInt8 w).getD (splitAtDigit w)

/-- The operand with a storage name and a number. -/
def named? (name : Text) (v : UInt32) : Option Operand :=
  if name = Text.ascii "r" then some (.register v)
  else if name = Text.ascii "t" then some (.temporary v)
  else if name = Text.ascii "t64" then some (.temporary64 v)
  else if name = Text.ascii "t128" then some (.temporary128 v)
  else if name = Text.ascii "m" then some (.relative v)
  else if name = Text.ascii "m64" then some (.relative64 v)
  else if name = Text.ascii "m128" then some (.relative128 v)
  else if name = Text.ascii "rref" then some (.relReference v)
  else if name = Text.ascii "tref" then some (.tmpReference v)
  else none

/-- The value of a constant of some width. One that starts with a minus sign has to fit the signed
word of that width and stands for its two's complement. -/
def constant (bits : Nat) (w : Text) : Except OperandError Int :=
  if w.head? = some '-'.toUInt8 then
    (Numeral.signed bits w).mapError .badConstant
  else
    ((Numeral.unsigned bits w).map Int.ofNat).mapError .badConstant

/-- The operand written as a non-empty word; `_` stands for an absent one. -/
def operand (w : Text) : Except OperandError (Option Operand) :=
  if w = Text.ascii "_" then .ok none
  else if w = Text.ascii "ctx" then .ok (some .context)
  else match Text.after? (Text.ascii "#64:") w, Text.after? (Text.ascii "#") w with
    | some value, _ => (constant 64 value).map fun v => some (.constant64 (UInt64.ofInt v))
    | none, some value => (constant 32 value).map fun v => some (.constant (UInt32.ofInt v))
    | none, none =>
      let (name, number) := splitName w
      match Numeral.unsigned 32 number with
      | .error e => .error (.badNumber w e)
      | .ok v =>
        match named? name (UInt32.ofNat v) with
        | none => .error (.unknown w)
        | some s => .ok (some s)

end Reader

/-- Reads one operand at the start of a text. -/
def Operand.read (t : Text) : Except OperandError (Option Operand × Text) :=
  let (w, rest) := Reader.word t
  if w.isEmpty then .error .missing else (Reader.operand w).map fun s => (s, rest)

namespace Reader

/-- Reads up to `count` operands, the first of them having index `n`. A comma stands before every
operand but the one with index zero, and a dash ends the list. -/
def operands : (count n : Nat) → Text → Except Misread (List (Option Operand) × Text)
  | 0, _, t => .ok ([], t)
  | count + 1, n, t =>
    match Blanks.inline.skip t with
    | [] => .ok ([], [])
    | c :: rest =>
      if c = '-'.toUInt8 then .ok ([], c :: rest)
      else if n ≠ 0 ∧ c ≠ ','.toUInt8 then .error ⟨.commaExpected, c :: rest⟩
      else
        let start := if n = 0 then c :: rest else Blanks.inline.skip rest
        match Operand.read start with
        | .error e => .error ⟨.badOperand n e, start⟩
        | .ok (s, rest) => (operands count (n + 1) rest).map fun p => (s :: p.1, p.2)

/-- Reads the block number at the start of a text. -/
def block (t : Text) : Except Misread (UInt32 × Text) :=
  let (w, rest) := word t
  match Numeral.unsigned 32 w with
  | .error e => .error ⟨.badBlock e, t⟩
  | .ok v => .ok (UInt32.ofNat v, rest)

/-- Reads an arrow and a block number, if the text starts with an arrow after blanks; without one
the block number is zero. -/
def target (t : Text) : Except Misread (UInt32 × Text) :=
  let start := Blanks.inline.skip t
  match Text.after? (Text.ascii "->") start with
  | some rest => block (Blanks.inline.skip rest)
  | none => .ok (0, start)

/-- Reads the head word of a statement: an operation, and after a dot a condition. -/
def head (t : Text) : Except Misread (Op × Condition × Text) :=
  let (w, rest) := word (Blanks.inline.skip t)
  let (name, cond) := (Text.cut '.'.toUInt8 w).getD (w, [])
  match Op.ofName? name with
  | none => .error ⟨.unknownOp name, t⟩
  | some op =>
    if cond.isEmpty then .ok (op, .none, rest)
    else match Condition.ofName? cond with
      | none => .error ⟨.unknownCondition cond, rest⟩
      | some c => .ok (op, c, rest)

end Reader

/-- Reads one statement at the start of a text. After `label` and `jmp` a number alone is the block
and ends the statement. -/
def Statement.read (t : Text) : Except Misread (Statement × Text) :=
  match Reader.head t with
  | .error e => .error e
  | .ok (op, cond, rest) =>
    let next := Blanks.inline.skip rest
    if (op = .label ∨ op = .jmp) ∧ next.head?.any Text.isDigit then
      (Reader.block next).map fun p => ({ op, cond, block := p.1 }, p.2)
    else
      match Reader.operands 3 0 rest with
      | .error e => .error e
      | .ok (ops, rest) =>
        (Reader.target rest).map fun p =>
          ({ op, cond
             dst := (ops[0]?).join
             src1 := (ops[1]?).join
             src2 := (ops[2]?).join
             block := p.1 }, p.2)

namespace Program

/-- A line up to its comment. -/
def uncommented : Text → Text
  | [] => []
  | c :: rest =>
    if c = '/'.toUInt8 ∧ rest.head? = some '/'.toUInt8 then [] else c :: uncommented rest

/-- Reads a line without its comment: nothing, or one statement and blanks. -/
def readLine (line : Text) : Except Misread (Option Statement) :=
  match Blanks.all.skip line with
  | [] => .ok none
  | c :: rest =>
    match Statement.read (c :: rest) with
    | .error e => .error e
    | .ok (x, rest) =>
      match Blanks.all.skip rest with
      | [] => .ok (some x)
      | left => .error ⟨.unexpectedText left, left⟩

/-- Reads lines, the first of them having number `n`. -/
def readLines : (n : Nat) → List Text → Except ProgramError Program
  | _, [] => .ok []
  | n, l :: ls =>
    let line := uncommented l
    match readLine line with
    | .error e => .error ⟨n, line.length - e.rest.length + 1, e.cause⟩
    | .ok x => (readLines (n + 1) ls).map fun p => x.toList ++ p

/-- Reads a program. -/
def read (t : Text) : Except ProgramError Program :=
  readLines 1 t.lines

end Program

end A32Lowering
