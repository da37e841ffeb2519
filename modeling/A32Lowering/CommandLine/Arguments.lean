import A32Lowering.Text.Basic

/-!
# Commands and their arguments

The first argument names the command, and the others are its flags and plain arguments. A flag
starts with a dash or two and has its value behind an equals sign or a blank, or in the next
argument. A switch is a flag that needs no value. Flags may stand anywhere before a lone `--`, and
of several values the last one counts.

## Main definitions

* `Command`, `Command.ofName?` : the commands, and what each of them takes.
* `Arguments` : the flags and plain arguments of a command.
* `Arguments.initial` : the arguments that environment settings give.
* `Arguments.read` : tells flags and plain arguments apart.
-/

namespace A32Lowering

/-- The commands. -/
inductive Command where
  | lower | imm | targets
  deriving DecidableEq, Repr

namespace Command

/-- All commands. -/
def all : List Command := [lower, imm, targets]

/-- The name of a command. -/
def name : Command → String
  | lower => "lower"
  | imm => "imm"
  | targets => "targets"

/-- The command with a name. -/
def ofName? (s : String) : Option Command := all.find? fun c => c.name == s

/-- Whether a command has plain arguments. -/
def takesPlain : Command → Bool
  | lower | imm => true
  | targets => false

/-- Whether a command has flags. -/
def takesFlags : Command → Bool
  | lower => true
  | imm | targets => false

end Command

/-- The flags of `lower` and the plain arguments of a command. -/
structure Arguments where
  arch : String := "arm"
  os : String := "linux"
  frame : Int := 0
  hex : Bool := false
  disasm : Bool := false
  place : Bool := false
  plain : List String := []
  deriving DecidableEq, Repr

/-- Why arguments do not fit a command. -/
inductive ArgumentError where
  | badFlag (arg : String)
  | unexpected (arg : String)
  deriving DecidableEq, Repr

/-- The wording of an argument error. -/
def ArgumentError.message : ArgumentError → String
  | badFlag arg => "bad flag: " ++ arg
  | unexpected arg => "no args expected, got " ++ arg

namespace Arguments

/-- A whole number in base ten with an optional sign, in the range of a signed 64-bit word. -/
def number? (s : String) : Option Int :=
  let (negative, body) :=
    match s.toList with
    | '-' :: rest => (true, rest)
    | '+' :: rest => (false, rest)
    | cs => (false, cs)
  if body.isEmpty || !body.all Char.isDigit then none
  else
    let n : Nat := body.foldl (fun (n : Nat) c => n * 10 + (c.toNat - 48)) 0
    let v : Int := if negative then -(n : Int) else n
    if Int64.minValue.toInt ≤ v ∧ v ≤ Int64.maxValue.toInt then some v else none

/-- The words that turn a switch on, in lower case. A switch without a value is on. -/
def onWords : List String := ["", "1", "t", "true", "y", "yes", "on"]

/-- The words that turn a switch off, in lower case. -/
def offWords : List String := ["0", "f", "false", "n", "no", "off"]

/-- The value of a switch, written in upper or lower case. -/
def switch? (v : String) : Option Bool :=
  let w := String.ofList (v.toList.map Char.toLower)
  if w ∈ onWords then some true else if w ∈ offWords then some false else none

/-- The value of an environment variable that is set and not empty. -/
def setting? (settings : List (String × String)) (name : String) : Option String :=
  (settings.lookup name).filter fun v => !v.isEmpty

/-- The arguments before any flag is seen: environment settings replace the built-in values, and a
frame size that is no number counts as none. -/
def initial (settings : List (String × String)) : Arguments :=
  { arch := (setting? settings "ARMJIT_ARCH").getD "arm"
    os := (setting? settings "ARMJIT_OS").getD "linux"
    frame := ((setting? settings "ARMJIT_FRAME").bind number?).getD 0 }

/-- The arguments with the value of a flag set, if there is such a flag and the value fits. -/
def set? (a : Arguments) (name value : String) : Option Arguments :=
  match name with
  | "arch" => some { a with arch := value }
  | "os" => some { a with os := value }
  | "frame" => (number? value).map fun n => { a with frame := n }
  | "hex" => (switch? value).map fun b => { a with hex := b }
  | "disasm" => (switch? value).map fun b => { a with disasm := b }
  | "place" => (switch? value).map fun b => { a with place := b }
  | _ => none

/-- Whether a flag needs no value. -/
def isSwitch (name : String) : Bool := name ∈ ["hex", "disasm", "place"]

/-- Whether a character stands between the name of a flag and its value. -/
def joins (c : Char) : Bool := c = '=' || c = ' '

/-- The name of a flag and its value, if it is written in the same argument. -/
def splitFlag (s : List Char) : String × Option String :=
  match s.dropWhile fun c => !joins c with
  | [] => (String.ofList s, none)
  | _ :: value => (String.ofList (s.takeWhile fun c => !joins c), some (String.ofList value))

/-- What a single argument is. -/
inductive Form where
  /-- A lone `--`: only plain arguments follow. -/
  | plainOnly
  /-- A flag without its dashes. -/
  | flag (s : List Char)
  /-- A plain argument; a lone dash is one. -/
  | plain
  deriving DecidableEq, Repr

/-- What a single argument is. -/
def form (arg : String) : Form :=
  match arg.toList with
  | ['-', '-'] => .plainOnly
  | '-' :: '-' :: s => .flag s
  | ['-'] => .plain
  | '-' :: s => .flag s
  | _ => .plain

/-- The arguments with plain ones added, if the command takes them; `arg` is the argument at which
they start, which may be the lone `--` before them. -/
def addPlain (c : Command) (a : Arguments) (arg : String) (args : List String) :
    Except ArgumentError Arguments :=
  if c.takesPlain then .ok { a with plain := a.plain ++ args } else .error (.unexpected arg)

/-- The arguments with the value of a flag set, if the command has flags. -/
def setFlag (c : Command) (a : Arguments) (arg name value : String) :
    Except ArgumentError Arguments :=
  match a.set? name value with
  | some a => if c.takesFlags then .ok a else .error (.badFlag arg)
  | none => .error (.badFlag arg)

/-- Tells flags and plain arguments of a command apart, up to the first that does not fit. -/
def read (c : Command) (a : Arguments) : List String → Except ArgumentError Arguments
  | [] => .ok a
  | arg :: rest =>
    match form arg with
    | .plainOnly => a.addPlain c arg rest
    | .plain => do (← a.addPlain c arg [arg]).read c rest
    | .flag s =>
      match splitFlag s with
      | (name, some value) => do (← a.setFlag c arg name value).read c rest
      | (name, none) =>
        if isSwitch name then do (← a.setFlag c arg name "").read c rest
        else match rest with
          | [] => .error (.badFlag arg)
          | value :: rest => do (← a.setFlag c arg name value).read c rest

end Arguments

end A32Lowering
