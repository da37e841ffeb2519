import A32Lowering.CommandLine.Arguments
import A32Lowering.Object.Compile

/-!
# The command line

Three commands: `lower` compiles files and prints their code, `imm` shows how constants can be used
by instructions, `targets` lists the architectures with a code generator. What a command prints
before an error stays printed.

## Main definitions

* `Surroundings` : what a command sees of the outside.
* `CommandLine.lower`, `CommandLine.immediate`, `CommandLine.targets` : the commands.
* `CommandLine.run` : the outcome of a command line.
-/

namespace A32Lowering

variable [Helper.Entries] [PendingHeap]

/-- What a command sees of the outside. Telling the arguments apart and decoding a word are left to
others and come from there as well. -/
structure Surroundings where
  /-- The environment settings. -/
  settings : List (String × String) := []
  /-- What the arguments of a command are read as. -/
  arguments : Command → List String → Except ArgumentError Arguments :=
    fun c args => (Arguments.initial settings).read c args
  /-- The outcome of reading the file at a path. -/
  file : String → Except ReadFailure Text := fun _ => .error .notFound
  /-- The text of the instruction that a word is decoded as, if it is one. -/
  instruction : UInt32 → Option String := fun _ => none
  /-- The printed address at which a block is placed. -/
  address : String := ""
  /-- The printed target the program itself runs on. -/
  host : String := ""

/-- What is left of a command line: its exit code, its output, and the text of its error. -/
structure Outcome where
  exit : Nat
  stdout : String
  error : Option String
  deriving DecidableEq, Repr

/-- The first line of the error. A path with a line feed in it spreads the error over several. -/
def Outcome.errorLine (o : Outcome) : Option String :=
  o.error.map fun s => String.ofList (s.toList.takeWhile (· ≠ '\n'))

namespace CommandLine

/-- Why a command failed. -/
inductive Error where
  | arguments (e : ArgumentError)
  | target (e : TargetError)
  | negativeFrame (n : Int)
  | lower (path : String) (e : FileError)
  | place (path : String) (e : PlaceError)
  | badConstant (arg : String)
  deriving DecidableEq, Repr

/-- The wording of an error of a command. -/
def Error.message : Error → String
  | arguments e => e.message
  | target e => "target: " ++ e.message
  | negativeFrame n => "negative frame size: " ++ toString n
  | lower path e => "lower " ++ path ++ ": " ++ e.message
  | place path e => "place " ++ path ++ ": " ++ e.message
  | badConstant arg => "bad constant: " ++ (Text.ofString arg).quoted

/-- A number in hexadecimal, filled up on the left to a width with blanks. -/
def hexColumn (width n : Nat) : String :=
  let s := Text.toString (Text.hex n)
  String.ofList (List.replicate (width - s.length) ' ') ++ s

/-- A text filled up on the right to a width with blanks. -/
def column (width : Nat) (s : String) : String :=
  s ++ String.ofList (List.replicate (width - s.length) ' ')

/-- The printed line of a relocation. -/
def relocationLine (r : Relocation) : String :=
  "reloc " ++ hexColumn 6 r.offset.toNat ++ "  0x" ++ Text.hexPadded 10 r.value.toNat ++ "  "
    ++ r.symbol ++ "\n"

/-- The printed line of a word at a position, with a question mark for a word that is no
instruction. -/
def wordLine (instruction : UInt32 → Option String) (pos : Nat) (v : UInt32) : String :=
  hexColumn 6 pos ++ ":  " ++ Text.hexWord v ++ "  " ++ (instruction v).getD "?" ++ "\n"

/-- The printed lines of the words of code. Bytes behind the last whole word are left out. -/
def wordLines (instruction : UInt32 → Option String) (code : Code) : List String :=
  (List.range (code.size / 4)).filterMap fun k =>
    (code.word? (4 * k)).map (wordLine instruction (4 * k))

/-- The printed form of a compiled function: a dump, its decoded words or its listing, and its
relocations. A dump wins over decoded words. -/
def objectText (w : Surroundings) (a : Arguments) (o : CodeObject) : String :=
  (if a.hex then Text.hexDump o.code.toList
    else if a.disasm then String.join (wordLines w.instruction o.code)
    else String.join (o.lines.map fun l => "\t" ++ l ++ "\n"))
    ++ String.join (o.file.relocs.map relocationLine)

/-- Compiles and prints one file, and places it when that is asked for. -/
def lowerFile (w : Surroundings) (a : Arguments) (o : CompileOptions) (path : String) :
    String × Except Error Unit :=
  match compileFile path (w.file path) o with
  | .error e => ("", .error (.lower path e))
  | .ok obj =>
    let out := objectText w a obj
    if a.place then
      match obj.place with
      | .error e => (out, .error (.place path e))
      | .ok _ =>
        (out ++ "placed " ++ toString obj.code.size ++ " bytes at " ++ w.address ++ "\n", .ok ())
    else (out, .ok ())

/-- Does something for each argument up to the first failure, and joins what is printed. -/
def each (f : String → String × Except Error Unit) : List String → String × Except Error Unit
  | [] => ("", .ok ())
  | arg :: rest =>
    match f arg with
    | (out, .error e) => (out, .error e)
    | (out, .ok ()) =>
      let (more, r) := each f rest
      (out ++ more, r)

/-- The command `lower`. The frame size is cut to 32 bits. -/
def lower (w : Surroundings) (a : Arguments) : String × Except Error Unit :=
  match Target.parse a.os a.arch with
  | (_, .error e) => ("", .error (.target e))
  | (target, .ok ()) =>
    if a.frame < 0 then ("", .error (.negativeFrame a.frame))
    else each (lowerFile w a { target, frame := UInt32.ofInt a.frame, listing := true }) a.plain

/-- Shows how one constant can be used. Constants are words with or without sign. -/
def immediate (arg : String) : String × Except Error Unit :=
  match Numeral.signed 64 (Text.ofString arg) with
  | .error _ => ("", .error (.badConstant arg))
  | .ok v =>
    if v < Int32.minValue.toInt ∨ (UInt32.size : Int) ≤ v then ("", .error (.badConstant arg))
    else (column 12 arg ++ " " ++ (Immediate.tier (UInt32.ofInt v)).text ++ "\n", .ok ())

/-- The command `targets`. -/
def targets (w : Surroundings) : String :=
  String.join (Target.supported.map fun a => a ++ "\n") ++ "host: " ++ w.host ++ "\n"

/-- The output and the failure of a command. -/
def command (w : Surroundings) (c : Command) (args : List String) : String × Except Error Unit :=
  match w.arguments c args with
  | .error e => ("", .error (.arguments e))
  | .ok a =>
    match c with
    | .lower => lower w a
    | .imm => each immediate a.plain
    | .targets => (targets w, .ok ())

/-- The outcome of a failure: the program exits with one and says what is wrong. -/
def failure (out message : String) : Outcome := ⟨1, out, some ("error: " ++ message)⟩

/-- The outcome of a command line, its first argument being the name of the command. -/
def run (w : Surroundings) : List String → Outcome
  | [] => ⟨0, "", none⟩
  | name :: args =>
    match Command.ofName? name with
    | none => failure "" (ArgumentError.unexpected name).message
    | some c =>
      match command w c args with
      | (out, .ok ()) => ⟨0, out, none⟩
      | (out, .error e) => failure out (c.name ++ ": " ++ e.message)

end CommandLine

end A32Lowering
