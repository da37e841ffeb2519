import A32Lowering.Lowering.Function
import A32Lowering.Object.File
import A32Lowering.Object.Memory
import A32Lowering.Object.Target
import A32Lowering.Program.Folder
import A32Lowering.Program.Reader

/-!
# Compiling a function

Compiling lowers one function on a fresh session and keeps what is needed to link it: its code, its
listing, the divide helpers as external symbols, and its relocations. A compiled function can be
linked, and placed in a memory block.

## Main definitions

* `CompileOptions`, `CodeObject`, `compile`, `compileFile`.
* `CodeObject.link`, `CodeObject.place`.
* `CompileError`, `FileError`, `PlaceError` : what can go wrong.
-/

namespace A32Lowering

variable [Helper.Entries] [PendingHeap]

/-- What a function is compiled for. -/
structure CompileOptions where
  target : Target
  frame : UInt32 := 0
  listing : Bool := false
  deriving DecidableEq, Repr

/-- A compiled function. -/
structure CodeObject where
  target : Target
  code : Code
  lines : List String
  file : ObjectFile
  deriving DecidableEq, Repr

/-- Why a function could not be compiled. -/
inductive CompileError where
  | target (e : TargetError)
  | lower (e : LowerError)
  deriving DecidableEq, Repr

/-- The wording of a compile error. -/
def CompileError.message : CompileError → String
  | target e => "backend: " ++ e.message
  | lower e => "lower: " ++ e.message

/-- The divide helpers as external symbols. -/
def helperSymbols : ObjectFile :=
  Helper.all.foldl (fun f h => f.addSymbol h.name (Helper.Entries.entry h)) {}

/-- Compiles a function. -/
def compile (p : Program) (o : CompileOptions) : Except CompileError CodeObject :=
  match o.target.support with
  | .error e => .error (.target e)
  | .ok () =>
    match Session.lower { stream := { listing := o.listing } } p o.frame with
    | (_, .error e) => .error (.lower e)
    | (s, .ok ()) =>
      .ok { target := o.target
            code := s.stream.code
            lines := s.stream.listingText
            file := s.reports.foldl (fun f r => f.record r.value r.offset) helperSymbols }

/-- Why a function could not be compiled from a file. -/
inductive FileError where
  | unopened (path : String) (e : ReadFailure)
  | unreadable (path : String) (e : ProgramError)
  | compile (e : CompileError)
  deriving DecidableEq, Repr

/-- The wording of an error about a file. -/
def FileError.message : FileError → String
  | unopened path e => "parse " ++ path ++ ": read file: " ++ e.message path
  | unreadable path e => "parse " ++ path ++ ": " ++ e.message
  | compile e => e.message

/-- Compiles the function in the file at a path, given the outcome of reading that file. -/
def compileFile (path : String) (content : Except ReadFailure Text) (o : CompileOptions) :
    Except FileError CodeObject :=
  match content with
  | .error e => .error (.unopened path e)
  | .ok t =>
    match Program.read t with
    | .error e => .error (.unreadable path e)
    | .ok p => (compile p o).mapError .compile

/-- Why a compiled function could not be placed. -/
inductive PlaceError where
  | link (e : LinkError)
  | allocate (e : MemoryError)
  | write (e : MemoryError)
  deriving DecidableEq, Repr

/-- The wording of a link error of a compiled function. -/
def LinkError.linkMessage (e : LinkError) : String := "link: " ++ e.message

/-- The wording of a place error. -/
def PlaceError.message : PlaceError → String
  | link e => e.linkMessage
  | allocate e => "alloc: " ++ e.message
  | write e => "place: " ++ e.message

namespace CodeObject

/-- The code with its relocations resolved. -/
def link (o : CodeObject) (resolver : Option Resolver) : Except LinkError Code :=
  match o.file.link o.code resolver with
  | (code, .ok ()) => .ok code
  | (_, .error e) => .error e

/-- Links the code and copies it into a sealed block. -/
def place (o : CodeObject) : Except PlaceError MemoryBlock := do
  let code ← (o.link none).mapError .link
  let b ← (MemoryBlock.allocate code.size).mapError .allocate
  let b ← (b.write code).mapError .write
  b.freeze.mapError .write

end CodeObject

end A32Lowering
