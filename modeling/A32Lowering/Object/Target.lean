/-!
# Targets

A target is an operating system, an architecture and a calling convention. Names of architectures
have aliases. Only one architecture has a code generator, and only for systems that use its
standard calling convention.

## Main definitions

* `CallingConvention`, `Target`, `Target.text`.
* `Target.parse` : the target of an operating system and an architecture name.
* `Target.support` : whether there is a code generator for a target.
* `TargetError` : why a target is refused.
-/

namespace A32Lowering

/-- A calling convention. -/
inductive CallingConvention where
  | none | aapcs | sysv | win64
  | unknown (code : Int)
  deriving DecidableEq, Repr

namespace CallingConvention

/-- The calling conventions in the order of their numbers. -/
def named : List CallingConvention := [none, aapcs, sysv, win64]

/-- The calling convention with a number. -/
def ofCode (code : Int) : CallingConvention :=
  if code < 0 then unknown code else named.getD code.toNat (unknown code)

/-- The number of a calling convention. -/
def code : CallingConvention → Int
  | none => 0 | aapcs => 1 | sysv => 2 | win64 => 3
  | unknown code => code

/-- The name of a calling convention. -/
def name : CallingConvention → String
  | none => "unknown" | aapcs => "aapcs" | sysv => "sysv" | win64 => "win64"
  | unknown _ => "abi(?)"

end CallingConvention

/-- What code is generated for. -/
structure Target where
  os : String
  arch : String
  abi : CallingConvention := .none
  deriving DecidableEq, Repr

/-- Why a target is refused. -/
inductive TargetError where
  | unsupportedArch (arch : String)
  | unsupportedPlatform (t : Target)
  deriving DecidableEq, Repr

namespace Target

/-- The printed form of a target. -/
def text (t : Target) : String := t.os ++ "/" ++ t.arch ++ "/" ++ t.abi.name

/-- The names of architectures with the architecture each stands for. -/
def aliases : List (String × String) :=
  [("arm", "arm"), ("armv7", "arm"), ("armv7l", "arm"), ("armhf", "arm"), ("amd64", "amd64"),
    ("x86_64", "amd64"), ("x86-64", "amd64"), ("386", "386"), ("i386", "386"), ("arm64", "arm64"),
    ("aarch64", "arm64")]

/-- The calling convention of an architecture under an operating system. -/
def convention (os arch : String) : CallingConvention :=
  if arch = "arm" then .aapcs
  else if arch = "amd64" then if os = "windows" then .win64 else .sysv
  else if arch = "arm64" then .aapcs
  else .none

/-- The target of an operating system and an architecture name. A name that stands for no
architecture is kept in the target. -/
def parse (os arch : String) : Target × Except TargetError Unit :=
  match aliases.lookup arch with
  | some a => ({ os, arch := a, abi := convention os a }, .ok ())
  | none => ({ os, arch }, .error (.unsupportedArch arch))

/-- The architectures that have a code generator. -/
def supported : List String := ["arm"]

/-- The operating systems whose calling convention the code generator follows. -/
def systems : List String :=
  ["linux", "android", "freebsd", "netbsd", "openbsd", "darwin", "ios", ""]

/-- Whether there is a code generator for a target. -/
def support (t : Target) : Except TargetError Unit :=
  if t.arch ∉ supported then .error (.unsupportedArch t.arch)
  else if t.abi ≠ .aapcs ∨ t.os ∉ systems then .error (.unsupportedPlatform t)
  else .ok ()

end Target

/-- A message behind what it is about, which may be empty. -/
def explained (about message : String) : String :=
  if about.isEmpty then message else about ++ ": " ++ message

/-- The wording of a target error. -/
def TargetError.message : TargetError → String
  | unsupportedArch arch => explained arch "unsupported architecture"
  | unsupportedPlatform t => explained t.text "unsupported platform"

end A32Lowering
