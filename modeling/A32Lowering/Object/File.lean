import A32Lowering.Code.LoadPair

/-!
# Symbols and relocations

An object file keeps the external symbols and the places in the code that load an address, so that
linking can put the final addresses there. A relocation remembers the symbol whose address it
loads, found by the low 32 bits of the address when the relocation is recorded.

## Main definitions

* `Symbol`, `Relocation`, `ObjectFile`.
* `ObjectFile.addSymbol`, `ObjectFile.lookup`, `ObjectFile.record`, `ObjectFile.truncate`,
  `ObjectFile.reset`.
* `ObjectFile.resolve`, `ObjectFile.link`.

## Main results

* `ObjectFile.lookup_addSymbol` : a name has the address that was registered last.
-/

namespace A32Lowering

/-- An external routine. -/
structure Symbol where
  name : String
  addr : UInt64
  deriving DecidableEq, Repr

/-- A load pair at an offset that loads a value, and the name of the symbol the value was taken
from, empty if there is none. -/
structure Relocation where
  offset : Int
  value : UInt32
  symbol : String := ""
  deriving DecidableEq, Repr

/-- Why a relocation has no final value. -/
inductive ResolverError where
  | undefined (name : String)
  | refused (name : String)
  deriving DecidableEq, Repr

/-- The wording of a resolver error. -/
def ResolverError.message : ResolverError → String
  | undefined name => "undefined symbol: " ++ name
  | refused name => "resolver refused " ++ (Text.ofString name).quoted

/-- Why linking failed. -/
inductive LinkCause where
  | resolver (e : ResolverError)
  | patch (e : PatchError)
  deriving DecidableEq, Repr

/-- Why linking failed, with the offset of the relocation. -/
structure LinkError where
  offset : Int
  cause : LinkCause
  deriving DecidableEq, Repr

/-- The wording of a link error. -/
def LinkError.message (e : LinkError) : String :=
  "relocation at " ++ toString e.offset ++ ": " ++
    match e.cause with
    | .resolver e => e.message
    | .patch e => e.message

/-- A function that gives the final value of a relocation. -/
abbrev Resolver := Relocation → Except ResolverError UInt32

/-- Symbols and relocations. -/
structure ObjectFile where
  symbols : List Symbol := []
  relocs : List Relocation := []
  deriving DecidableEq, Repr

namespace ObjectFile

/-- The symbols with one added behind them, or with a new address if the name is known. -/
def setSymbol (s : Symbol) : List Symbol → List Symbol
  | [] => [s]
  | t :: rest => if t.name = s.name then s :: rest else t :: setSymbol s rest

/-- Registers a symbol. A name that is known gets the new address. -/
def addSymbol (f : ObjectFile) (name : String) (addr : UInt64) : ObjectFile :=
  { f with symbols := setSymbol ⟨name, addr⟩ f.symbols }

/-- The symbol with a name. -/
def lookup (f : ObjectFile) (name : String) : Option Symbol :=
  f.symbols.find? fun s => s.name = name

private theorem find?_setSymbol (s : Symbol) (l : List Symbol) (name : String) :
    (setSymbol s l).find? (fun t => t.name = name) =
      if name = s.name then some s else l.find? fun t => t.name = name := by
  induction l with
  | nil => by_cases h : s.name = name <;> simp [setSymbol, h, eq_comm]
  | cons t l ih =>
    by_cases h : t.name = s.name <;> by_cases h' : t.name = name <;> grind [setSymbol]

/-- A name has the address that was registered last. -/
theorem lookup_addSymbol (f : ObjectFile) (name : String) (addr : UInt64) (other : String) :
    (f.addSymbol name addr).lookup other =
      if other = name then some ⟨name, addr⟩ else f.lookup other :=
  find?_setSymbol ⟨name, addr⟩ f.symbols other

/-- The first symbol with some low 32 bits of its address. -/
def symbolAt (f : ObjectFile) (value : UInt32) : Option Symbol :=
  f.symbols.find? fun s => s.addr.toUInt32 = value

/-- Records a relocation. -/
def record (f : ObjectFile) (value : UInt32) (offset : Int) : ObjectFile :=
  let symbol := ((f.symbolAt value).map Symbol.name).getD ""
  { f with relocs := f.relocs ++ [{ offset, value, symbol }] }

/-- Forgets the relocations at or after an offset. -/
def truncate (f : ObjectFile) (n : Int) : ObjectFile :=
  { f with relocs := f.relocs.filter fun r => r.offset < n }

/-- Forgets all relocations. -/
def reset (f : ObjectFile) : ObjectFile :=
  { f with relocs := [] }

/-- The recorded value, or the present address of the symbol of a relocation. -/
def resolve (f : ObjectFile) : Resolver := fun r =>
  if r.symbol.isEmpty then .ok r.value
  else match f.lookup r.symbol with
    | some s => .ok s.addr.toUInt32
    | none => .error (.undefined r.symbol)

/-- Puts the final values of relocations into code, in order, up to the first that fails. -/
def linkAll (resolver : Resolver) : List Relocation → Code → Code × Except LinkError Unit
  | [], code => (code, .ok ())
  | r :: rest, code =>
    match resolver r with
    | .error e => (code, .error ⟨r.offset, .resolver e⟩)
    | .ok v =>
      match LoadPair.patch code r.offset v with
      | .error e => (code, .error ⟨r.offset, .patch e⟩)
      | .ok code => linkAll resolver rest code

/-- Puts the final values of all relocations into code. Without a resolver the file's own symbols
count. -/
def link (f : ObjectFile) (code : Code) (resolver : Option Resolver) :
    Code × Except LinkError Unit :=
  linkAll (resolver.getD f.resolve) f.relocs code

end ObjectFile

end A32Lowering
