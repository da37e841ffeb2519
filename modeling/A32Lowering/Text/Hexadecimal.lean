import A32Lowering.Text.Quoted

/-!
# Bytes in hexadecimal

Code is shown as two hexadecimal digits per byte, either without separators or as a dump with
sixteen bytes a line, each line starting with the offset and ending with the visible characters.

## Main definitions

* `Text.hexBytes` : the bytes without separators, and `Text.ofHexBytes?` to read them back.
* `Text.hexDump` : the dump.
-/

namespace A32Lowering.Text

/-- Two hexadecimal digits per byte, in memory order, without separators. -/
def hexBytes (bytes : List UInt8) : String :=
  toString (bytes.flatMap fun b => [digit (b.toNat / 16), digit (b.toNat % 16)])

/-- The value of a hexadecimal digit. -/
private def hexValue? (c : Char) : Option Nat :=
  if '0' ≤ c ∧ c ≤ '9' then some (c.toNat - 48)
  else if 'a' ≤ c ∧ c ≤ 'f' then some (c.toNat - 87)
  else if 'A' ≤ c ∧ c ≤ 'F' then some (c.toNat - 55)
  else none

private def pairs? : List Char → Option (List UInt8)
  | [] => some []
  | [_] => none
  | a :: b :: rest => do
    let hi ← hexValue? a
    let lo ← hexValue? b
    let tail ← pairs? rest
    return UInt8.ofNat (16 * hi + lo) :: tail

/-- Reads bytes written as pairs of hexadecimal digits. -/
def ofHexBytes? (s : String) : Option (List UInt8) :=
  pairs? s.toList

/-- One line of a dump: the offset, up to sixteen bytes in two groups of eight, and the same bytes
as characters, a dot for each byte that is not visible ASCII. -/
def hexDumpLine (offset : Nat) (bytes : List UInt8) : String :=
  let cell (i : Nat) : String :=
    (match bytes[i]? with
      | some b => " " ++ hexPadded 2 b.toNat
      | none => "   ") ++ (if i = 7 then " " else "")
  let shown (b : UInt8) : Char := if 0x20 ≤ b && b ≤ 0x7e then Char.ofNat b.toNat else '.'
  hexPadded 8 offset ++ " " ++ String.join ((List.range 16).map cell) ++ "  |"
    ++ String.ofList (bytes.map shown) ++ "|\n"

/-- The lines of a dump from an offset on; `n` bounds their number. -/
private def hexDumpFrom : Nat → Nat → List UInt8 → String
  | 0, _, _ => ""
  | _, _, [] => ""
  | n + 1, offset, bytes =>
    hexDumpLine offset (bytes.take 16) ++ hexDumpFrom n (offset + 16) (bytes.drop 16)

/-- A dump of the bytes, sixteen on a line. -/
def hexDump (bytes : List UInt8) : String :=
  hexDumpFrom bytes.length 0 bytes

/-- A word as eight hexadecimal digits. -/
def hexWord (w : UInt32) : String :=
  hexPadded 8 w.toNat

end A32Lowering.Text
