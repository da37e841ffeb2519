import A32Lowering.Text.Basic
import A32Lowering.Text.Printable

/-!
# Quoted text

Words taken from the input are shown in error messages between double quotes. Text is read as
UTF-8; a byte that starts no well-formed sequence is shown by its value, and so is everything that
would not be visible.

## Main definitions

* `Text.decodeFirst` : the first code point of a text with its width, if it is well formed.
* `Text.quoted` : the quoted form.
-/

namespace A32Lowering.Text

/-- The value of a continuation byte `10xxxxxx`. -/
private def continuation? (b : UInt8) : Option Nat :=
  if 0x80 ≤ b && b ≤ 0xbf then some (b.toNat - 0x80) else none

/-- The first code point of a text and the number of bytes it takes. Overlong forms, surrogates,
values above U+10FFFF and truncated sequences are not well formed. -/
def decodeFirst : Text → Option (Nat × Nat)
  | [] => none
  | a :: rest =>
    if a < 0x80 then some (a.toNat, 1)
    else if 0xc2 ≤ a && a ≤ 0xdf then
      match rest with
      | b :: _ => do
        let b ← continuation? b
        return ((a.toNat - 0xc0) * 64 + b, 2)
      | [] => none
    else if 0xe0 ≤ a && a ≤ 0xef then
      match rest with
      | b :: c :: _ => do
        let b ← continuation? b
        let c ← continuation? c
        let v := (a.toNat - 0xe0) * 4096 + b * 64 + c
        if v < 0x800 ∨ (0xd800 ≤ v ∧ v ≤ 0xdfff) then none else return (v, 3)
      | _ => none
    else if 0xf0 ≤ a && a ≤ 0xf4 then
      match rest with
      | b :: c :: d :: _ => do
        let b ← continuation? b
        let c ← continuation? c
        let d ← continuation? d
        let v := (a.toNat - 0xf0) * 262144 + b * 4096 + c * 64 + d
        if v < 0x10000 ∨ 0x10ffff < v then none else return (v, 4)
      | _ => none
    else none

/-- Hexadecimal digits of a number, filled up with zeros on the left to a width. -/
def hexPadded (width n : Nat) : String :=
  let d := hex n
  toString (List.replicate (width - d.length) '0'.toUInt8 ++ d)

/-- How one code point is shown between quotes. -/
def quotedPoint (c : Nat) : String :=
  if c = 0x22 then "\\\""
  else if c = 0x5c then "\\\\"
  else if isPrintable c then String.singleton (Char.ofNat c)
  else if c = 0x07 then "\\a"
  else if c = 0x08 then "\\b"
  else if c = 0x0c then "\\f"
  else if c = 0x0a then "\\n"
  else if c = 0x0d then "\\r"
  else if c = 0x09 then "\\t"
  else if c = 0x0b then "\\v"
  else if c < 0x20 ∨ c = 0x7f then "\\x" ++ hexPadded 2 c
  else if c < 0x10000 then "\\u" ++ hexPadded 4 c
  else "\\U" ++ hexPadded 8 c

/-- The inside of a quoted text. The number of bytes left bounds the number of code points. -/
private def quotedInside : Nat → Text → String
  | 0, _ => ""
  | _, [] => ""
  | n + 1, b :: rest =>
    match decodeFirst (b :: rest) with
    | some (c, width) => quotedPoint c ++ quotedInside n ((b :: rest).drop width)
    | none => "\\x" ++ hexPadded 2 b.toNat ++ quotedInside n rest

/-- Text between double quotes, with invisible characters and ill-formed bytes escaped. -/
def quoted (t : Text) : String :=
  "\"" ++ quotedInside t.length t ++ "\""

end A32Lowering.Text
