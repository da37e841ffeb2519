import A32Lowering.Text.Basic

/-!
# Blank bytes

A set of bytes below 64, held as a mask of 64 bits, and the text without a leading run of them.

## Main definitions

* `Blanks.ofBytes` : the set of some bytes, an error when one of them is too large.
* `Blanks.skip` : the text without its leading blanks; `Blanks.skipFrom?` works with positions.
* `Blanks.inline`, `Blanks.all` : blanks within a line, and with line ends.
-/

namespace A32Lowering

/-- A set of bytes below 64: byte `b` is a member when bit `b` of the mask is set. -/
structure Blanks where
  mask : UInt64
  deriving DecidableEq, Repr

namespace Blanks

/-- A byte that has no bit in the mask. -/
structure TooHigh where
  byte : UInt8
  deriving DecidableEq, Repr

/-- The wording of the error for a byte that has no bit. -/
def TooHigh.message (_ : TooHigh) : String := "too high char code"

/-- The mask of one byte. -/
def bit (b : UInt8) : UInt64 := (1 : UInt64) <<< b.toUInt64

/-- The set of the bytes in a list, added to a set. -/
def insertAll (s : Blanks) : List UInt8 → Except TooHigh Blanks
  | [] => .ok s
  | b :: rest => if b < 64 then insertAll ⟨s.mask ||| bit b⟩ rest else .error ⟨b⟩

/-- The set of the bytes in a list. -/
def ofBytes (bytes : List UInt8) : Except TooHigh Blanks :=
  insertAll ⟨0⟩ bytes

/-- Whether a byte belongs to the set. -/
def contains (s : Blanks) (b : UInt8) : Bool :=
  b < 64 && s.mask &&& bit b != 0

/-- The text without its leading blanks. -/
def skip (s : Blanks) (t : Text) : Text :=
  t.dropWhile s.contains

/-- The first position from `st` on that holds no blank. Positions at or beyond the end stay where
they are, and there is no position before the start. -/
def skipFrom? (s : Blanks) (t : Text) (st : Int) : Option Int :=
  if st < 0 then none
  else if (t.length : Int) ≤ st then some st
  else some (t.length - (s.skip (t.drop st.toNat)).length)

/-- Space and tab. -/
def inline : Blanks := ⟨bit ' '.toUInt8 ||| bit '\t'.toUInt8⟩

/-- Space, tab, carriage return and line feed. -/
def all : Blanks := ⟨inline.mask ||| bit '\r'.toUInt8 ||| bit '\n'.toUInt8⟩

end Blanks

end A32Lowering
