import A32Lowering.Text.Basic
import A32Lowering.Text.Quoted

/-!
# Numerals

A numeral may start with a radix mark: `0x`, `0b` or `0o` in either case, when at least one more
byte follows, or a leading `0` for base eight. An underscore may stand between two digits or right
after the radix mark. Digits are taken from left to right, so of a bad digit and a value that is
too large the one that comes first is reported; underscores are looked at last.

## Main definitions

* `Numeral.radix` : the base of a numeral and the bytes that hold its digits.
* `Numeral.accumulate` : the value of a digit sequence below a bound.
* `Numeral.separated` : every underscore stands between two digits.
* `Numeral.unsigned`, `Numeral.signed` : reading a numeral of a given width.
-/

namespace A32Lowering

/-- What can be wrong with a numeral. -/
inductive NumeralFlaw where
  | malformed
  | tooLarge
  deriving DecidableEq, Repr

/-- A numeral that could not be read: whether a sign was allowed, the text, and what is wrong. -/
structure NumeralError where
  isSigned : Bool
  word : Text
  flaw : NumeralFlaw
  deriving DecidableEq, Repr

/-- The wording of a numeral error. -/
def NumeralError.message (e : NumeralError) : String :=
  (if e.isSigned then "strconv.ParseInt" else "strconv.ParseUint") ++ ": parsing "
    ++ e.word.quoted ++ ": "
    ++ match e.flaw with
      | .malformed => "invalid syntax"
      | .tooLarge => "value out of range"

namespace Numeral

/-- The byte with an upper-case letter made lower case; other bytes may change as well. -/
def lowered (b : UInt8) : UInt8 := b ||| 0x20

/-- The value of a digit or letter, letters of either case counting from ten. -/
def digitValue? (b : UInt8) : Option Nat :=
  if Text.isDigit b then some (b.toNat - 48)
  else if 'a'.toUInt8 ≤ lowered b && lowered b ≤ 'z'.toUInt8 then some ((lowered b).toNat - 87)
  else none

/-- The base of a numeral, the bytes that hold its digits, and whether something that counts as a
digit (a radix mark or a leading zero) stands before them. -/
def radix (t : Text) : Nat × Text × Bool :=
  match Text.after? (Text.ascii "0") t with
  | none => (10, t, false)
  | some (m :: d :: rest) =>
    if lowered m = 'b'.toUInt8 then (2, d :: rest, true)
    else if lowered m = 'o'.toUInt8 then (8, d :: rest, true)
    else if lowered m = 'x'.toUInt8 then (16, d :: rest, true)
    else (8, m :: d :: rest, true)
  | some rest => (8, rest, true)

/-- The value of the digits in a base, skipping underscores, starting from `n`. A digit that the
base does not have and a value above `max` are errors; the first one met counts. -/
def accumulate (base max : Nat) : Nat → Text → Except NumeralFlaw Nat
  | n, [] => .ok n
  | n, b :: rest =>
    if b = '_'.toUInt8 then accumulate base max n rest
    else match digitValue? b with
      | none => .error .malformed
      | some d =>
        if base ≤ d then .error .malformed
        else if max < n * base + d then .error .tooLarge
        else accumulate base max (n * base + d) rest

/-- Every underscore follows a digit and is followed by one; `afterDigit` tells whether a digit
stands right before the text. -/
def separated : (afterDigit : Bool) → Text → Bool
  | afterDigit, [] => afterDigit
  | afterDigit, b :: rest =>
    if b = '_'.toUInt8 then afterDigit && separated false rest else separated true rest

/-- The value of an unsigned numeral of at most `bits` bits. -/
def magnitude (bits : Nat) (w : Text) : Except NumeralFlaw Nat :=
  if w.isEmpty then .error .malformed
  else
    let (base, body, lead) := radix w
    match accumulate base (1 <<< bits - 1) 0 body with
    | .error e => .error e
    | .ok n => if separated lead body then .ok n else .error .malformed

/-- Reads an unsigned numeral of at most `bits` bits. -/
def unsigned (bits : Nat) (w : Text) : Except NumeralError Nat :=
  (magnitude bits w).mapError fun flaw => ⟨false, w, flaw⟩

/-- Reads a numeral with an optional sign whose value fits a signed word of `bits` bits. -/
def signed (bits : Nat) (w : Text) : Except NumeralError Int :=
  let (negative, body) :=
    match Text.after? (Text.ascii "+") w, Text.after? (Text.ascii "-") w with
    | some rest, _ => (false, rest)
    | none, some rest => (true, rest)
    | none, none => (false, w)
  match magnitude bits body with
  | .error flaw => .error ⟨true, w, flaw⟩
  | .ok n =>
    if negative then
      if 1 <<< (bits - 1) < n then .error ⟨true, w, .tooLarge⟩ else .ok (-(n : Int))
    else
      if 1 <<< (bits - 1) ≤ n then .error ⟨true, w, .tooLarge⟩ else .ok n

end Numeral

end A32Lowering
