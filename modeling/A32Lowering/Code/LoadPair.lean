import A32Lowering.Code.Word
import A32Lowering.Machine.Instr
import A32Lowering.Text.Hexadecimal

/-!
# Patching the constant of a load pair

A relocatable constant is loaded by a MOVW followed by a MOVT. Linking replaces the constant in
place and keeps the condition and the destination register of both instructions.

## Main definitions

* `LoadPair.patch` : the code with the constant of the pair at an offset replaced.
* `PatchError` : why there is nothing to patch.
-/

namespace A32Lowering

/-- Why a constant could not be patched. -/
inductive PatchError where
  | outOfRange (offset : Int)
  | noPair (offset : Int) (lo hi : UInt32)
  | outside (offset : Int)
  deriving DecidableEq, Repr

/-- The wording of a patch error. A read outside the stream has none: nothing catches it. -/
def PatchError.message : PatchError → String
  | outOfRange offset => "patch site out of range: " ++ toString offset
  | noPair offset lo hi =>
    "no MOVW/MOVT pair at " ++ toString offset ++ ": " ++ Text.hexWord lo ++ " "
      ++ Text.hexWord hi
  | outside _ => ""

namespace LoadPair

/-- The bits of a MOVW or MOVT that a patch keeps: the condition and the destination register. -/
def keep : UInt32 := 0xF000F000

/-- Whether a word is a MOVW, whatever its condition, register and value. -/
def isMovw (w : UInt32) : Bool := w &&& 0x0FF00000 == 0x03000000

/-- Whether a word is a MOVT, whatever its condition, register and value. -/
def isMovt (w : UInt32) : Bool := w &&& 0x0FF00000 == 0x03400000

/-- The MOVW word `w` with its value replaced by the low half of `v`. -/
def withLow (w v : UInt32) : UInt32 :=
  w &&& keep ||| (0x03000000 : UInt32) ||| Instr.split16 v.toUInt16

/-- The MOVT word `w` with its value replaced by the high half of `v`. -/
def withHigh (w v : UInt32) : UInt32 :=
  w &&& keep ||| (0x03400000 : UInt32) ||| Instr.split16 (v >>> 16).toUInt16

/-- The code with the constant of the load pair at `offset` replaced by `v`. Offsets are signed
64-bit numbers: the sum that is compared with the size wraps around, so that an offset close to the
largest one is only found out when the code is read. -/
def patch (code : Code) (offset : Int) (v : UInt32) : Except PatchError Code :=
  if offset < 0 ∨ (code.size : Int) < Int.bmod (offset + 8) UInt64.size then
    .error (.outOfRange offset)
  else
    match code.word? offset.toNat, code.word? (offset.toNat + 4) with
    | some lo, some hi =>
      if isMovw lo && isMovt hi then
        .ok ((code.write offset.toNat (withLow lo v)).write (offset.toNat + 4) (withHigh hi v))
      else .error (.noPair offset lo hi)
    | _, _ => .error (.outside offset)

end LoadPair

end A32Lowering
