import A32Lowering.Machine.RegisterSet
import A32Lowering.Program.Statement

/-!
# Wire form

Log records carry operands, statements and register sets in a compact binary form: an item starts
with a tag whose upper three bits tell its type, and a string is its printed text behind its
length.

## Main definitions

* `Wire.string` : a text with its tag and length.
* `Operand.wire`, `Statement.wire`, `RegisterSet.wire`.
-/

namespace A32Lowering

namespace Wire

/-- A text behind its tag and its length: in the tag below 24, else in one or two bytes. -/
def string (t : Text) : List UInt8 :=
  let n := t.length
  (if n < 24 then [0x60 ||| UInt8.ofNat n]
    else if n < 256 then [0x78, UInt8.ofNat n]
    else [0x79, UInt8.ofNat (n / 256), UInt8.ofNat n]) ++ t

/-- The mark of an absent item. -/
def absent : List UInt8 := [0xf6]

/-- The items of an array without a length, between its start and its end. -/
def array (items : List (List UInt8)) : List UInt8 :=
  [0x9f] ++ items.flatten ++ [0xff]

end Wire

/-- The wire form of an operand that may be absent. -/
def Operand.wire : Option Operand → List UInt8
  | none => Wire.absent
  | some s => Wire.string s.text

/-- The wire form of a statement. -/
def Statement.wire (x : Statement) : List UInt8 := Wire.string x.text

/-- The wire form of a register set: its members in increasing order. -/
def RegisterSet.wire (s : RegisterSet) : List UInt8 :=
  Wire.array (s.toList.map fun k => [UInt8.ofNat k])

end A32Lowering
