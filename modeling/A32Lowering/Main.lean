import A32Lowering.CommandLine

/-!
# The program

Collects what the command line sees of the outside, runs it, and prints its outcome. Blocks live in
the program's own memory and never run, so the address that is shown for one is always zero. There
is no decoder for words either, so each of them shows a question mark.
-/

open A32Lowering

/-- The number of a system error, which may come negated. -/
def systemNumber (code : UInt32) : UInt32 := if code < 0x80000000 then code else -code

/-- Why a file could not be read, by the error that reading it gave. -/
def readFailure : IO.Error → ReadFailure
  | .inappropriateType _ code _ => if systemNumber code = 21 then .isFolder else .notFolder
  | .invalidArgument _ code _ => if systemNumber code = 36 then .nameTooLong else .badName
  | _ => .notFound

/-- The outcome of reading the file at a path. -/
def readText (path : String) : IO (Except ReadFailure Text) := do
  try
    let bytes ← IO.FS.readBinFile path
    return .ok bytes.toList
  catch e => return .error (readFailure e)

def main (args : List String) : IO UInt32 := do
  let mut settings := []
  for name in ["ARMJIT_ARCH", "ARMJIT_OS", "ARMJIT_FRAME"] do
    if let some value ← IO.getEnv name then
      settings := settings ++ [(name, value)]
  let mut files := []
  for path in args do
    files := files ++ [(path, ← readText path)]
  let outcome := CommandLine.run
    { settings, file := fun path => (files.lookup path).getD (.error .notFound), address := "0x0"
      host := "linux/amd64/sysv" } args
  IO.print outcome.stdout
  if let some text := outcome.error then
    IO.eprintln text
  return UInt32.ofNat outcome.exit
