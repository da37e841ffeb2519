/-!
# Text as bytes

Programs are read from files that need not be valid UTF-8, and every position reported to the user
counts bytes, so text is a list of bytes. Printed statements are text as well, which keeps the
printer and the reader on one alphabet; only error messages and listings are `String`s.

## Main definitions

* `Text.ascii` : the bytes of an ASCII string.
* `Text.decimal`, `Text.hex` : a number in base ten and in base sixteen.
* `Text.toString` : text, each byte read as one character.
* `Text.cut` : the parts before and after the first occurrence of a byte.
* `Text.after?` : the text behind a given start.
* `Text.fields`, `Text.lines` : the parts between separators, and between line feeds.

## Main results

* `Text.after?_eq_some_iff`, `Text.cut_eq_some_iff` : the parts put together give the text back.
* `Text.fields_append`, `Text.lines_append` : the parts of two texts with a separator between them.
-/

namespace A32Lowering

/-- A sequence of bytes. -/
abbrev Text := List UInt8

namespace Text

/-- The bytes of a string of ASCII characters. -/
def ascii (s : String) : Text :=
  s.toList.map Char.toUInt8

@[simp]
theorem ascii_append (s t : String) : ascii (s ++ t) = ascii s ++ ascii t := by
  simp [ascii]

/-- The UTF-8 bytes of a string. -/
def ofString (s : String) : Text :=
  s.toUTF8.toList

/-- Text with each byte read as the character of that code. -/
def toString (t : Text) : String :=
  String.ofList (t.map fun b => Char.ofNat b.toNat)

/-- The digit for a value below sixteen, in lower case. -/
def digit (d : Nat) : UInt8 :=
  if d < 10 then UInt8.ofNat (48 + d) else UInt8.ofNat (87 + d)

/-- A number written in a base from two to sixteen, most significant digit first. -/
def digits (base n : Nat) : Text :=
  if n < base ∨ base < 2 then [digit n] else digits base (n / base) ++ [digit (n % base)]
termination_by n
decreasing_by
  exact Nat.div_lt_self (by omega) (by omega)

theorem digits_ne_nil (base n : Nat) : digits base n ≠ [] := by
  unfold digits
  split <;> simp

/-- A number in base ten. -/
def decimal (n : Nat) : Text := digits 10 n

/-- A number in base sixteen, without a radix mark. -/
def hex (n : Nat) : Text := digits 16 n

/-- Whether a byte is one of `0` to `9`. -/
def isDigit (b : UInt8) : Bool := '0'.toUInt8 ≤ b && b ≤ '9'.toUInt8

/-- The parts before and after the first occurrence of `b`, if there is one. -/
def cut (b : UInt8) : Text → Option (Text × Text)
  | [] => none
  | c :: cs => if c = b then some ([], cs) else (cut b cs).map fun p => (c :: p.1, p.2)

theorem cut_eq_none_iff {b : UInt8} {t : Text} : cut b t = none ↔ b ∉ t := by
  fun_induction cut b t with
  | case1 => simp
  | case2 => simp
  | case3 c t h ih => simp [ih, Ne.symm h]

/-- The parts of a cut give the text back, and the byte does not occur in the first one. -/
theorem cut_eq_some_iff {b : UInt8} {t l r : Text} :
    cut b t = some (l, r) ↔ t = l ++ b :: r ∧ b ∉ l := by
  induction t generalizing l with
  | nil => simp [cut]
  | cons c t ih =>
    by_cases h : c = b
    · cases l <;> grind [cut]
    · cases l with
      | nil => simp [cut, h]
      | cons d l =>
        simp only [cut, h, if_false, Option.map_eq_some_iff, Prod.exists, Prod.mk.injEq,
          List.cons.injEq, List.cons_append, List.mem_cons, not_or]
        grind

/-- The text behind a given start, if it has that start. -/
def after? : (start : Text) → Text → Option Text
  | [], t => some t
  | _ :: _, [] => none
  | s :: start, c :: t => if s = c then after? start t else none

theorem after?_eq_some_iff {start t rest : Text} :
    after? start t = some rest ↔ t = start ++ rest := by
  fun_induction after? start t with
  | case1 t => simp [eq_comm]
  | case2 => simp
  | case3 s start t ih => simpa using ih
  | case4 s start c t h => simp [Ne.symm h]

/-- The parts of the text between the occurrences of `sep`: always one more than there are of
them. -/
def fields (sep : UInt8) : Text → List Text
  | [] => [[]]
  | c :: cs =>
    if c = sep then [] :: fields sep cs
    else match fields sep cs with
      | [] => [[c]]
      | l :: ls => (c :: l) :: ls

theorem fields_ne_nil (sep : UInt8) (t : Text) : fields sep t ≠ [] := by
  unfold fields
  split
  · simp
  · split
    · simp
    · split <;> simp

/-- A separator between two texts keeps their parts apart. -/
theorem fields_append (sep : UInt8) (a b : Text) :
    fields sep (a ++ sep :: b) = fields sep a ++ fields sep b := by
  induction a with
  | nil => simp [fields]
  | cons c a ih =>
    by_cases h : c = sep
    · simp [fields, h, ih]
    · cases hl : fields sep a with
      | nil => exact absurd hl (fields_ne_nil sep a)
      | cons l ls => simp [fields, h, ih, hl]

/-- The parts of the text between line feeds. -/
def lines (t : Text) : List Text := fields '\n'.toUInt8 t

/-- A line feed between two texts separates their lines. -/
theorem lines_append (a b : Text) :
    lines (a ++ '\n'.toUInt8 :: b) = lines a ++ lines b :=
  fields_append _ a b

/-- The text from byte position `st` on, if `st` lies within the text or at its end. -/
def dropAt? (t : Text) (st : Int) : Option Text :=
  if 0 ≤ st ∧ st ≤ t.length then some (t.drop st.toNat) else none

end Text

end A32Lowering
