import Mathlib
import A32Lowering.Program.Reader
import A32Lowering.Proofs.Numerals

/-!
# Printed programs are read back

Reading the printed form of a program gives the program back, less what is not printed, exactly if
every operation, condition and storage class in it has a name.

Printed words hold none of the bytes that end a word, so a word read at the start of printed text is
the word that was printed there, and everything else follows the printer from left to right.

## Main definitions

* `Text.Solid` : text of bytes that stand in printed words.
* `Operand.IsNamed`, `Statement.IsNamed` : everything in it has a name.

## Main results

* `Operand.toOption_read_textOrBlank`, `Reader.toOption_operands_textFrom`,
  `Statement.toOption_read`, `Program.toOption_readLines` : what reading the printed form of an
  operand, of a list of them, of a statement and of the lines of a program gives.
* `Program.toOption_read_text` : what reading a printed program gives.
-/

namespace A32Lowering

namespace Text

/-- Whether a byte neither ends a word nor stands between words, lines or comments. -/
def isSolid (b : UInt8) : Bool :=
  b != ','.toUInt8 && b != ' '.toUInt8 && b != '\t'.toUInt8 && b != '\r'.toUInt8
    && b != '\n'.toUInt8 && b != '>'.toUInt8 && b != '/'.toUInt8

/-- Text of bytes that stand in printed words. -/
def Solid (t : Text) : Prop := t.all isSolid = true

instance (t : Text) : Decidable (Solid t) := inferInstanceAs (Decidable (_ = true))

theorem solid_iff {t : Text} : Solid t ↔ ∀ b ∈ t, isSolid b = true := List.all_eq_true

@[simp]
theorem solid_append {a b : Text} : Solid (a ++ b) ↔ Solid a ∧ Solid b := by
  simp [Solid]

theorem isSolid_of_isDigit {b : UInt8} (h : isDigit b = true) : isSolid b = true := by
  simp only [isSolid, Bool.and_eq_true, bne_iff_ne, ne_eq]
  refine ⟨⟨⟨⟨⟨⟨?_, ?_⟩, ?_⟩, ?_⟩, ?_⟩, ?_⟩, ?_⟩ <;> rintro rfl <;> exact absurd h (by decide)

theorem solid_decimal (n : Nat) : Solid (decimal n) :=
  solid_iff.mpr fun _ h => isSolid_of_isDigit (isDigit_of_mem_decimal h)

theorem solid_hex (n : Nat) : Solid (hex n) := by
  refine solid_iff.mpr fun b h => ?_
  obtain ⟨d, hd, rfl⟩ := mem_digits (by omega) h
  have hs : ∀ d < 16, isSolid (digit d) = true := by decide
  exact hs d hd

theorem solid_toString (n : Int) : Solid (ascii (ToString.toString n)) := by
  refine solid_iff.mpr fun b h => ?_
  rcases mem_ascii_toString h with h | rfl
  · exact isSolid_of_isDigit h
  · decide

end Text

open Text

/-- A reader that succeeds under a condition, as two cases. -/
theorem ok_or_error_of_toOption {ε α : Type} {e : Except ε α} {c : Prop} [Decidable c] {a : α}
    (h : e.toOption = if c then some a else none) :
    (c ∧ e = .ok a) ∨ (¬ c ∧ ∃ x, e = .error x) := by
  cases e with
  | error x =>
    refine .inr ⟨fun hc => ?_, x, rfl⟩
    simp [hc, Except.toOption] at h
  | ok b =>
    by_cases hc : c
    · exact .inl ⟨hc, by simpa [hc, Except.toOption] using h⟩
    · simp [hc, Except.toOption] at h

namespace Blanks

theorem skip_cons {s : Blanks} {c : UInt8} (h : s.contains c = false) (t : Text) :
    s.skip (c :: t) = c :: t := by
  simp [skip, h]

/-- One blank before a word is skipped. -/
theorem skip_space {c : UInt8} (h : inline.contains c = false) (t : Text) :
    inline.skip (ascii " " ++ c :: t) = c :: t := by
  have hs : inline.contains ' '.toUInt8 = true := by decide
  change List.dropWhile _ (' '.toUInt8 :: c :: t) = _
  simp [hs, h]

end Blanks

namespace Reader

/-- A solid word is read whole if a word can end behind it. -/
theorem word_solid {w r : Text} (hw : w.Solid) (hr : atWordEnd r = true) :
    word (w ++ r) = (w, r) := by
  induction w with
  | nil => cases r <;> simp_all [word]
  | cons c w ih =>
    obtain ⟨hc, hw⟩ : isSolid c = true ∧ Solid w := by simpa [Solid] using hw
    have ih := ih hw
    -- An arrow cannot begin in the word: its second byte is not solid and does not end a word.
    have harrow : (w ++ r).head? ≠ some '>'.toUInt8 := by
      cases w with
      | nil =>
        intro h
        obtain ⟨r', rfl⟩ := List.head?_eq_some_iff.mp h
        have hgt : atWordEnd ('>'.toUInt8 :: r') = false := rfl
        simp [hgt] at hr
      | cons d w =>
        intro h
        obtain rfl : d = '>'.toUInt8 := by simpa using h
        exact absurd (solid_iff.mp hw _ List.mem_cons_self) (by decide)
    have hend : atWordEnd (c :: (w ++ r)) = false := by
      simp only [isSolid, Bool.and_eq_true, bne_iff_ne] at hc
      simp only [atWordEnd, hc, beq_eq_false_iff_ne.mpr harrow, beq_eq_false_iff_ne.mpr, ne_eq,
        not_false_eq_true, Bool.or_false, Bool.and_false]
    rw [List.cons_append, word, hend, ih]
    simp

theorem splitName_colon {name : Text} (h : ':'.toUInt8 ∉ name) (t : Text) :
    splitName (name ++ ':'.toUInt8 :: t) = (name, t) := by
  rw [splitName, cut_eq_some_iff.mpr ⟨rfl, h⟩, Option.getD_some]

theorem colon_notMem_decimal (n : Nat) : ':'.toUInt8 ∉ decimal n :=
  fun h => absurd (isDigit_of_mem_decimal h) (by decide)

/-- A name of one letter that is no digit is split off before a number. -/
theorem splitName_decimal {c : UInt8} (h : isDigit c = false) (hc : c ≠ ':'.toUInt8) (n : Nat) :
    splitName (c :: decimal n) = ([c], decimal n) := by
  have hcut : cut ':'.toUInt8 (c :: decimal n) = none :=
    cut_eq_none_iff.mpr (by simp [Ne.symm hc, colon_notMem_decimal])
  rw [splitName, hcut, Option.getD_none, splitAtDigit, List.span_eq_takeWhile_dropWhile]
  cases hn : decimal n with
  | nil => simp [h]
  | cons d t =>
    have hd : isDigit d = true := isDigit_of_mem_decimal (n := n) (by simp [hn])
    simp [h, hd]

/-- A word that starts neither as `_` nor as `ctx` does is a constant or has a storage name. -/
theorem operand_cons {c : UInt8} (h : c ∉ ascii "_c") (t : Text) : operand (c :: t) =
    match after? (ascii "#64:") (c :: t), after? (ascii "#") (c :: t) with
    | some value, _ => (constant 64 value).map fun v => some (.constant64 (UInt64.ofInt v))
    | none, some value => (constant 32 value).map fun v => some (.constant (UInt32.ofInt v))
    | none, none =>
      match Numeral.unsigned 32 (splitName (c :: t)).2 with
      | .error e => .error (.badNumber (c :: t) e)
      | .ok v =>
        match named? (splitName (c :: t)).1 (UInt32.ofNat v) with
        | none => .error (.unknown (c :: t))
        | some s => .ok (some s) := by
  have hne {d : UInt8} {u : Text} (hd : d ∈ ascii "_c") : c :: t ≠ d :: u := by
    rintro he
    exact h ((List.cons.inj he).1 ▸ hd)
  have hb : c :: t ≠ ascii "_" := hne (by decide)
  have hx : c :: t ≠ ascii "ctx" := hne (by decide)
  exact (if_neg hb).trans (if_neg hx)

/-- A word that does not start with `#` either has a storage name. -/
theorem operand_storage {c : UInt8} (h : c ∉ ascii "_c#") (t : Text) : operand (c :: t) =
    match Numeral.unsigned 32 (splitName (c :: t)).2 with
    | .error e => .error (.badNumber (c :: t) e)
    | .ok v =>
      match named? (splitName (c :: t)).1 (UInt32.ofNat v) with
      | none => .error (.unknown (c :: t))
      | some s => .ok (some s) := by
  have hh : '#'.toUInt8 ≠ c := by
    rintro rfl
    exact h (by decide)
  have h64 : after? (ascii "#64:") (c :: t) = none := by simp [ascii, after?, hh]
  have h32 : after? (ascii "#") (c :: t) = none := by simp [ascii, after?, hh]
  rw [operand_cons (fun hc => h (List.mem_append_left (ascii "#") hc)), h64, h32]

theorem operand_named {c : UInt8} {t name : Text} {v : UInt32} {s : Operand}
    (hc : c ∉ ascii "_c#") (hsplit : splitName (c :: t) = (name, decimal v.toNat))
    (hname : named? name v = some s) : operand (c :: t) = .ok (some s) := by
  simp only [operand_storage hc, hsplit, Numeral.unsigned_decimal v.toNat_lt, UInt32.ofNat_toNat,
    hname]

theorem operand_bare {c : UInt8} (hc : c ∉ ascii "_c#") (hd : isDigit c = false)
    (hn : c ≠ ':'.toUInt8) {v : UInt32} {s : Operand} (h : named? [c] v = some s) :
    operand (c :: decimal v.toNat) = .ok (some s) :=
  operand_named hc (splitName_decimal hd hn _) h

theorem operand_colon (name : Text) {c : UInt8} (hc : c ∉ ascii "_c#")
    (hn : ':'.toUInt8 ∉ c :: name) {v : UInt32} {s : Operand} (h : named? (c :: name) v = some s) :
    operand (c :: (name ++ ':'.toUInt8 :: decimal v.toNat)) = .ok (some s) :=
  operand_named hc (splitName_colon hn _) h

/-- The two halves of a word of eight bytes. -/
theorem constant64_value64 (s : Operand) :
    Operand.constant64 s.value64 = { kind := .constant64, low := s.low, high := s.high } := by
  have hh := s.high.toNat_lt
  have hl := s.low.toNat_lt
  have hv : s.value64.toNat = s.high.toNat * 2 ^ 32 + s.low.toNat := by
    have hs : s.high.toNat <<< 32 < 2 ^ 64 := by
      rw [Nat.shiftLeft_eq]
      omega
    rw [Operand.value64, UInt64.toNat_or, UInt64.toNat_shiftLeft, UInt32.toNat_toUInt64,
      UInt32.toNat_toUInt64]
    change s.high.toNat <<< 32 % 2 ^ 64 ||| s.low.toNat = _
    rw [Nat.mod_eq_of_lt hs, ← Nat.shiftLeft_add_eq_or_of_lt hl, Nat.shiftLeft_eq]
  have hlow : s.value64.toUInt32 = s.low := by
    apply UInt32.toNat_inj.mp
    rw [UInt64.toNat_toUInt32, hv]
    omega
  have hhigh : (s.value64 >>> 32).toUInt32 = s.high := by
    apply UInt32.toNat_inj.mp
    rw [UInt64.toNat_toUInt32, UInt64.toNat_shiftRight, hv]
    simp [Nat.shiftRight_eq_div_pow]
    omega
  rw [Operand.constant64, hlow, hhigh]

theorem constant_hex {bits n : Nat} (h : n < 2 ^ bits) :
    constant bits (ascii "0x" ++ hex n) = .ok (Int.ofNat n) := by
  have hm : (ascii "0x" ++ hex n).head? ≠ some '-'.toUInt8 := by
    have h0 : (ascii "0x" ++ hex n).head? = some '0'.toUInt8 := rfl
    rw [h0]
    decide
  rw [constant, if_neg hm, Numeral.unsigned_hex h]
  rfl

theorem operand_constant (v : UInt32) :
    operand (ascii "#0x" ++ hex v.toNat) = .ok (some (.constant v)) := by
  change operand ('#'.toUInt8 :: (ascii "0x" ++ hex v.toNat)) = _
  have h64 : after? (ascii "#64:") ('#'.toUInt8 :: (ascii "0x" ++ hex v.toNat)) = none := rfl
  have h32 : after? (ascii "#") ('#'.toUInt8 :: (ascii "0x" ++ hex v.toNat)) =
    some (ascii "0x" ++ hex v.toNat) := rfl
  have hv : ((v.toNat : Int) % 2 ^ 32).toNat = v.toNat := by
    have := v.toNat_lt
    omega
  rw [operand_cons (by decide), h64, h32]
  simp only [constant_hex v.toNat_lt, Except.map, UInt32.ofInt, Int.ofNat_eq_natCast, hv,
    UInt32.ofNat_toNat]

theorem operand_constant64 (v : UInt64) :
    operand (ascii "#64:0x" ++ hex v.toNat) = .ok (some (.constant64 v)) := by
  change operand ('#'.toUInt8 :: (ascii "64:0x" ++ hex v.toNat)) = _
  have h64 : after? (ascii "#64:") ('#'.toUInt8 :: (ascii "64:0x" ++ hex v.toNat)) =
    some (ascii "0x" ++ hex v.toNat) := rfl
  have hv : ((v.toNat : Int) % 2 ^ 64).toNat = v.toNat := by
    have := v.toNat_lt
    omega
  rw [operand_cons (by decide), h64]
  simp only [constant_hex v.toNat_lt, Except.map, UInt64.ofInt, Int.ofNat_eq_natCast, hv,
    UInt64.ofNat_toNat]

/-- The printed form of an operand that has a named storage class is read back. -/
theorem operand_text {s : Operand} (h : s.kind ∈ Kind.named) :
    operand s.text = .ok (some s.normal) := by
  obtain ⟨k, low, high, slot⟩ := s
  cases k with
  | register => exact operand_bare (by decide) rfl (by decide) rfl
  | temporary => exact operand_bare (by decide) rfl (by decide) rfl
  | temporary64 => exact operand_colon (ascii "64") (by decide) (by decide) rfl
  | temporary128 => exact operand_colon (ascii "128") (by decide) (by decide) rfl
  | relative => exact operand_bare (by decide) rfl (by decide) rfl
  | relative64 => exact operand_colon (ascii "64") (by decide) (by decide) rfl
  | relative128 => exact operand_colon (ascii "128") (by decide) (by decide) rfl
  | relReference => exact operand_colon (ascii "ref") (by decide) (by decide) rfl
  | tmpReference => exact operand_colon (ascii "ref") (by decide) (by decide) rfl
  | constant => exact operand_constant low
  | constant64 =>
    have h := operand_constant64 (Operand.value64 ⟨.constant64, low, high, slot⟩)
    rwa [constant64_value64] at h
  | context => rfl
  | unknown => simp [Kind.named] at h

theorem splitName_suffix (w : Text) : (splitName w).2 <:+ w := by
  unfold splitName
  cases hc : cut ':'.toUInt8 w with
  | none =>
    rw [Option.getD_none, splitAtDigit, List.span_eq_takeWhile_dropWhile]
    exact List.dropWhile_suffix _
  | some p =>
    obtain ⟨hw, -⟩ := cut_eq_some_iff.mp hc
    exact ⟨p.1 ++ [':'.toUInt8], by simpa using hw.symm⟩

/-- A bracket at the end of a word spoils its number, whatever is taken for the name. -/
theorem unsigned_splitName_ne_ok (w : Text) (n : Nat) :
    Numeral.unsigned 32 (splitName (w ++ [')'.toUInt8])).2 ≠ .ok n := by
  rcases List.suffix_concat_iff.mp (splitName_suffix (w ++ [')'.toUInt8])) with hs | ⟨t, hs, -⟩
  · simp [hs, Numeral.unsigned, Numeral.magnitude, Except.mapError]
  · exact Numeral.unsigned_ne_ok (b := ')'.toUInt8) (by simp [hs]) (by decide) (by decide) n

/-- An operand of a storage class without a name is not read back. -/
theorem operand_text_ne_ok {s : Operand} (h : s.kind ∉ Kind.named) (o : Option Operand) :
    operand s.text ≠ .ok o := by
  obtain ⟨k, low, high, slot⟩ := s
  cases k with
  | unknown code =>
    obtain ⟨w, hw⟩ : ∃ w, Operand.text ⟨.unknown code, low, high, slot⟩ =
        'k'.toUInt8 :: w ++ [')'.toUInt8] :=
      ⟨ascii "ind(" ++ ascii (ToString.toString code), by
        simp only [Operand.text, Kind.name, ascii_append]
        rfl⟩
    have hn := unsigned_splitName_ne_ok ('k'.toUInt8 :: w)
    rw [hw]
    rw [List.cons_append] at hn ⊢
    rw [operand_storage (by decide)]
    cases hr : Numeral.unsigned 32 (splitName ('k'.toUInt8 :: (w ++ [')'.toUInt8]))).2 with
    | error e => simp
    | ok n => exact absurd hr (hn n)
  | _ => exact absurd (by simp [Kind.named]) h

end Reader

namespace Operand

theorem solid_text (s : Operand) : s.text.Solid := by
  obtain ⟨k, low, high, slot⟩ := s
  cases k
  case unknown code =>
    simp only [text, Kind.name, ascii_append, solid_append]
    exact ⟨⟨by decide, solid_toString code⟩, by decide⟩
  case context => exact (by decide : (ascii "ctx").Solid)
  case constant => exact solid_append.mpr ⟨by decide, solid_hex _⟩
  case constant64 => exact solid_append.mpr ⟨by decide, solid_hex _⟩
  all_goals exact solid_append.mpr ⟨by decide, solid_decimal _⟩

theorem solid_textOrBlank (o : Option Operand) : (textOrBlank o).Solid := by
  cases o with
  | none => decide
  | some s => exact s.solid_text

/-- The bytes that printed operands start with. -/
theorem textOrBlank_cons (o : Option Operand) :
    ∃ c ∈ ascii "rtm#ck_", ∃ t, textOrBlank o = c :: t := by
  cases o with
  | none => exact ⟨_, by decide, _, rfl⟩
  | some s =>
    obtain ⟨k, low, high, slot⟩ := s
    cases k
    case unknown code =>
      simp only [textOrBlank, text, Kind.name, ascii_append]
      exact ⟨_, by decide, _, rfl⟩
    all_goals exact ⟨_, by decide, _, rfl⟩

/-- The bytes that printed operands start with are no blanks, dashes or digits. -/
theorem mem_start {c : UInt8} (hc : c ∈ ascii "rtm#ck_") :
    Blanks.inline.contains c = false ∧ c ≠ '-'.toUInt8 ∧ isDigit c = false := by
  have hlist : ascii "rtm#ck_" = ['r'.toUInt8, 't'.toUInt8, 'm'.toUInt8, '#'.toUInt8, 'c'.toUInt8,
      'k'.toUInt8, '_'.toUInt8] := rfl
  simp only [hlist, List.mem_cons, List.not_mem_nil, or_false] at hc
  rcases hc with rfl | rfl | rfl | rfl | rfl | rfl | rfl <;> decide

/-- An operand that is absent or has a named storage class. -/
def IsNamed (o : Option Operand) : Prop := ∀ s ∈ o, s.kind ∈ Kind.named

instance (o : Option Operand) : Decidable (IsNamed o) := inferInstanceAs (Decidable (∀ s ∈ o, _))

/-- An operand is read back exactly if its storage class has a name. -/
theorem toOption_read_textOrBlank (o : Option Operand) {r : Text}
    (hr : Reader.atWordEnd r = true) :
    (Operand.read (textOrBlank o ++ r)).toOption =
      if IsNamed o then some (o.map normal, r) else none := by
  obtain ⟨c, -, t, ht⟩ := textOrBlank_cons o
  have hne : textOrBlank o ≠ [] := ht ▸ List.cons_ne_nil c t
  have hread : Operand.read (textOrBlank o ++ r) =
      (Reader.operand (textOrBlank o)).map fun s => (s, r) := by
    simp [Operand.read, Reader.word_solid (solid_textOrBlank o) hr, hne]
  rw [hread]
  split
  · next h =>
    have ho : Reader.operand (textOrBlank o) = .ok (o.map normal) := by
      cases o with
      | none => rfl
      | some s => exact Reader.operand_text (h s rfl)
    rw [ho]
    rfl
  · next h =>
    obtain ⟨s, rfl, hs⟩ : ∃ s, o = some s ∧ s.kind ∉ Kind.named := by simpa [IsNamed] using h
    cases ho : Reader.operand (textOrBlank (some s)) with
    | error e => rfl
    | ok o => exact absurd ho (Reader.operand_text_ne_ok hs o)

end Operand

namespace Reader

/-- The text behind printed operands: nothing, or an arrow behind a blank. -/
def IsTail (r : Text) : Prop := r = [] ∨ ∃ t, r = ascii " -> " ++ t

theorem IsTail.atWordEnd {r : Text} (h : IsTail r) : atWordEnd r = true := by
  obtain rfl | ⟨t, rfl⟩ := h <;> rfl

theorem atWordEnd_textRest (l : List (Option Operand)) {r : Text} (hr : IsTail r) :
    atWordEnd (Statement.textRest l ++ r) = true := by
  cases l with
  | nil => exact hr.atWordEnd
  | cons o l => rfl

/-- At the end of the operands the list ends, with nothing lost but blanks. -/
theorem operands_tail (count n : Nat) {r : Text} (hr : IsTail r) :
    ∃ r', operands count n r = .ok ([], r') ∧ Blanks.inline.skip r' = Blanks.inline.skip r := by
  cases count with
  | zero => exact ⟨r, rfl, rfl⟩
  | succ count =>
    obtain rfl | ⟨t, rfl⟩ := hr
    · exact ⟨[], rfl, rfl⟩
    · exact ⟨ascii "-> " ++ t, rfl, rfl⟩

theorem skip_textOrBlank (o : Option Operand) (r : Text) :
    Blanks.inline.skip (ascii " " ++ Operand.textOrBlank o ++ r) = Operand.textOrBlank o ++ r := by
  obtain ⟨c, hc, t, ht⟩ := Operand.textOrBlank_cons o
  rw [ht]
  exact Blanks.skip_space (Operand.mem_start hc).1 (t ++ r)

/-- One operand, once the blanks before its separator are skipped. -/
theorem toOption_operands_of_skip {count n : Nat} {t rest : Text} {c : UInt8}
    (ht : Blanks.inline.skip t = c :: rest) (hc : c ≠ '-'.toUInt8)
    (hn : ¬ (n ≠ 0 ∧ c ≠ ','.toUInt8)) :
    (operands (count + 1) n t).toOption =
      (Operand.read (if n = 0 then c :: rest else Blanks.inline.skip rest)).toOption.bind fun p =>
        (operands count (n + 1) p.2).toOption.map fun q => (p.1 :: q.1, q.2) := by
  simp only [operands, ht, if_neg hc, if_neg hn]
  cases Operand.read (if n = 0 then c :: rest else Blanks.inline.skip rest) with
  | error e => rfl
  | ok p => cases h : operands count (n + 1) p.2 <;> simp [h, Except.map, Except.toOption]

/-- One operand behind its separator: a blank before the first, a comma before the others. -/
theorem toOption_operands_succ (count n : Nat) (o : Option Operand) (r : Text) :
    (operands (count + 1) n ((if n = 0 then ascii " " else ascii ", ")
      ++ Operand.textOrBlank o ++ r)).toOption =
      (Operand.read (Operand.textOrBlank o ++ r)).toOption.bind fun p =>
        (operands count (n + 1) p.2).toOption.map fun q => (p.1 :: q.1, q.2) := by
  have hskip := skip_textOrBlank o r
  by_cases hn : n = 0
  · obtain ⟨c, hc, t, ht⟩ := Operand.textOrBlank_cons o
    rw [ht, List.cons_append] at hskip ⊢
    rw [if_pos hn, toOption_operands_of_skip hskip (Operand.mem_start hc).2.1 fun h => h.1 hn,
      if_pos hn]
  · have hcomma : Blanks.inline.skip (ascii ", " ++ Operand.textOrBlank o ++ r) =
      ','.toUInt8 :: (ascii " " ++ Operand.textOrBlank o ++ r) := rfl
    rw [if_neg hn, toOption_operands_of_skip hcomma (by decide) fun h => h.2 rfl, if_neg hn, hskip]

/-- The printed operands from the one with index `n` on. -/
def textFrom (n : Nat) : List (Option Operand) → Text
  | [] => []
  | o :: l => (if n = 0 then ascii " " else ascii ", ") ++ Operand.textOrBlank o
      ++ Statement.textRest l

theorem textFrom_zero (l : List (Option Operand)) : textFrom 0 l = Statement.textOperands l := by
  cases l <;> rfl

theorem textFrom_succ (n : Nat) (l : List (Option Operand)) :
    textFrom (n + 1) l = Statement.textRest l := by
  cases l <;> rfl

/-- Printed operands are read back exactly if their storage classes have names. -/
theorem toOption_operands_textFrom (l : List (Option Operand)) {count n : Nat}
    (hc : l.length ≤ count) {r : Text} (hr : IsTail r) :
    ∃ r', Blanks.inline.skip r' = Blanks.inline.skip r ∧
      (operands count n (textFrom n l ++ r)).toOption =
        if ∀ o ∈ l, Operand.IsNamed o then some (l.map (·.map Operand.normal), r') else none := by
  induction l generalizing count n with
  | nil =>
    obtain ⟨r', hr', h⟩ := operands_tail count n hr
    exact ⟨r', h, by simp [textFrom, hr', Except.toOption]⟩
  | cons o l ih =>
    obtain ⟨count, rfl⟩ : ∃ k, count = k + 1 := ⟨count - 1, by simp at hc; omega⟩
    obtain ⟨r', hr', ih⟩ := @ih count (n + 1) (by simpa using hc)
    rw [textFrom_succ] at ih
    refine ⟨r', hr', ?_⟩
    rw [textFrom, List.append_assoc, toOption_operands_succ,
      Operand.toOption_read_textOrBlank o (atWordEnd_textRest l hr)]
    by_cases ho : Operand.IsNamed o
    · by_cases hl : ∀ o ∈ l, Operand.IsNamed o <;> simp [ho, hl, ih]
    · simp [ho]

/-- Without an arrow there is no block number. -/
theorem target_nil {r : Text} (hr : Blanks.inline.skip r = []) : target r = .ok (0, []) := by
  rw [target, hr]
  rfl

/-- The printed block number is read back. -/
theorem target_arrow {r : Text} (b : UInt32)
    (hr : Blanks.inline.skip r = Blanks.inline.skip (ascii " -> " ++ decimal b.toNat)) :
    target r = .ok (b, []) := by
  have hstart : Blanks.inline.skip r = ascii "->" ++ (ascii " " ++ decimal b.toNat) := hr
  have hnum : Blanks.inline.skip (ascii " " ++ decimal b.toNat) = decimal b.toNat := by
    obtain ⟨c, t, ht⟩ := List.exists_cons_of_ne_nil (digits_ne_nil 10 b.toNat)
    obtain ⟨d, hd, rfl⟩ := mem_digits (by omega : 2 ≤ 10) (ht ▸ List.mem_cons_self)
    have hb : ∀ d < 10, Blanks.inline.contains (digit d) = false := by decide
    rw [decimal, ht]
    exact Blanks.skip_space (hb d hd) t
  have hw : word (decimal b.toNat) = (decimal b.toNat, []) := by
    simpa using word_solid (r := []) (solid_decimal b.toNat) rfl
  rw [target, hstart, after?_eq_some_iff.mpr rfl]
  simp [block, hnum, hw, Numeral.unsigned_decimal b.toNat_lt]

end Reader

namespace Op

theorem solid_name (op : Op) : (ascii op.name).Solid := by
  cases op
  case unknown code =>
    simp only [name, ascii_append, solid_append]
    exact ⟨⟨by decide, solid_toString code⟩, by decide⟩
  all_goals decide

theorem dot_notMem_name (op : Op) : '.'.toUInt8 ∉ ascii op.name := by
  cases op
  case unknown code =>
    simp only [name, ascii_append, List.mem_append, not_or]
    refine ⟨⟨by decide, fun h => ?_⟩, by decide⟩
    exact absurd (mem_ascii_toString h) (by decide)
  all_goals decide

theorem name_cons (op : Op) : ∃ c t, ascii op.name = c :: t ∧
    Blanks.inline.contains c = false ∧ Blanks.all.contains c = false := by
  cases op
  case unknown code =>
    simp only [name, ascii_append]
    exact ⟨_, _, rfl, by decide, by decide⟩
  all_goals exact ⟨_, _, rfl, by decide, by decide⟩

/-- An operation is found by its printed name exactly if it has one. -/
theorem ofName?_name (op : Op) :
    ofName? (ascii op.name) = if op ∈ named then some op else none := by
  by_cases h : op ∈ named
  · rw [if_pos h]
    revert op
    decide
  · have hb : ∀ op ∈ named, '('.toUInt8 ∉ ascii op.name := by decide
    rw [if_neg h]
    cases op
    case unknown code =>
      refine List.find?_eq_none.mpr fun op hop he => hb op hop ?_
      rw [beq_iff_eq.mp he]
      simp [name, ascii]
    all_goals exact absurd (by decide) h

end Op

namespace Condition

theorem solid_name (c : Condition) : (ascii c.name).Solid := by
  cases c
  case unknown code =>
    simp only [name, ascii_append, solid_append]
    exact ⟨⟨by decide, solid_toString code⟩, by decide⟩
  all_goals decide

theorem name_ne_nil {c : Condition} (h : c ≠ .none) : ascii c.name ≠ [] := by
  cases c
  case none => contradiction
  case unknown code => simp [name, ascii]
  all_goals decide

/-- A condition is found by its printed name exactly if it has one. -/
theorem ofName?_name (c : Condition) :
    ofName? (ascii c.name) = if c ∈ named then some c else .none := by
  by_cases h : c ∈ named
  · rw [if_pos h]
    revert c
    decide
  · have hb : ∀ c ∈ named, '('.toUInt8 ∉ ascii c.name ∧ ascii c.name ≠ [] := by decide
    rw [if_neg h]
    cases c
    case none =>
      exact List.find?_eq_none.mpr fun c hc he => (hb c hc).2 (beq_iff_eq.mp he)
    case unknown code =>
      refine List.find?_eq_none.mpr fun c hc he => (hb c hc).1 ?_
      rw [beq_iff_eq.mp he]
      simp [name, ascii]
    all_goals exact absurd (by decide) h

end Condition

namespace Statement

/-- A statement whose operation, condition and storage classes all have names. -/
def IsNamed (x : Statement) : Prop :=
  x.op ∈ Op.named ∧ (x.cond = .none ∨ x.cond ∈ Condition.named) ∧
    Operand.IsNamed x.dst ∧ Operand.IsNamed x.src1 ∧ Operand.IsNamed x.src2

instance (x : Statement) : Decidable x.IsNamed := inferInstanceAs (Decidable (_ ∧ _))

/-- The printed head word of a statement. -/
def headText (x : Statement) : Text :=
  ascii x.op.name ++ if x.cond = .none then [] else ascii "." ++ ascii x.cond.name

theorem solid_headText (x : Statement) : x.headText.Solid := by
  unfold headText
  rw [solid_append]
  refine ⟨x.op.solid_name, ?_⟩
  split
  · simp [Solid]
  · exact solid_append.mpr ⟨by decide, x.cond.solid_name⟩

theorem cut_headText (x : Statement) : (cut '.'.toUInt8 x.headText).getD (x.headText, []) =
    (ascii x.op.name, ascii x.cond.name) := by
  unfold headText
  by_cases h : x.cond = .none
  · have hc : cut '.'.toUInt8 (ascii x.op.name) = none :=
      cut_eq_none_iff.mpr x.op.dot_notMem_name
    simp [h, hc]
    rfl
  · rw [if_neg h, show ascii "." = ['.'.toUInt8] from rfl, List.singleton_append,
      cut_eq_some_iff.mpr ⟨rfl, x.op.dot_notMem_name⟩, Option.getD_some]

/-- The head word of a statement is read back exactly if operation and condition have names. -/
theorem toOption_head_text (x : Statement) {r : Text} (hr : Reader.atWordEnd r = true) :
    (Reader.head (x.headText ++ r)).toOption =
      if x.op ∈ Op.named ∧ (x.cond = .none ∨ x.cond ∈ Condition.named) then some (x.op, x.cond, r)
      else none := by
  obtain ⟨c, t, hc, hb, -⟩ := x.op.name_cons
  have hskip : Blanks.inline.skip (x.headText ++ r) = x.headText ++ r := by
    rw [headText, hc]
    exact Blanks.skip_cons hb _
  have hword := Reader.word_solid x.solid_headText hr
  unfold Reader.head
  simp only [hskip, hword, cut_headText, Op.ofName?_name, Condition.ofName?_name]
  by_cases hop : x.op ∈ Op.named
  · by_cases hn : x.cond = .none
    · simp [hop, hn, show ascii Condition.none.name = [] from rfl, Except.toOption]
    · have hne := Condition.name_ne_nil hn
      by_cases hcond : x.cond ∈ Condition.named <;> simp [hop, hn, hne, hcond, Except.toOption]
  · simp [hop, Except.toOption]

/-- The printed block number of a statement with the arrow before it. -/
def tailText (x : Statement) : Text :=
  if x.op.jumps then ascii " -> " ++ decimal x.block.toNat else []

theorem isTail_tailText (x : Statement) : Reader.IsTail x.tailText := by
  unfold tailText
  split
  · exact .inr ⟨_, rfl⟩
  · exact .inl rfl

theorem target_tailText (x : Statement) {r : Text}
    (hr : Blanks.inline.skip r = Blanks.inline.skip x.tailText) :
    Reader.target r = .ok (x.normal.block, []) := by
  unfold tailText at hr
  by_cases h : x.op.jumps
  · rw [if_pos h] at hr
    simpa [normal, h] using Reader.target_arrow x.block hr
  · rw [if_neg h] at hr
    simpa [normal, h] using Reader.target_nil hr

theorem text_eq (x : Statement) :
    x.text = x.headText ++ (textOperands x.operands ++ x.tailText) := by
  simp [text, headText, tailText]

theorem atWordEnd_textOperands (l : List (Option Operand)) {r : Text} (hr : Reader.IsTail r) :
    Reader.atWordEnd (textOperands l ++ r) = true := by
  cases l with
  | nil => exact hr.atWordEnd
  | cons o l => rfl

/-- Behind the head word no number stands alone. -/
theorem not_isDigit_skip (l : List (Option Operand)) {r : Text} (hr : Reader.IsTail r) :
    (Blanks.inline.skip (textOperands l ++ r)).head?.any isDigit = false := by
  cases l with
  | nil => obtain rfl | ⟨t, rfl⟩ := hr <;> rfl
  | cons o l =>
    obtain ⟨c, hc, t, ht⟩ := Operand.textOrBlank_cons o
    rw [textOperands, List.append_assoc, Reader.skip_textOrBlank, ht]
    simp [(Operand.mem_start hc).2.2]

theorem length_operands_le (x : Statement) : x.operands.length ≤ 3 := by
  obtain ⟨op, cond, dst, src1, src2, block⟩ := x
  cases dst <;> cases src1 <;> cases src2 <;> simp [operands]

theorem forall_operands_isNamed (x : Statement) : (∀ o ∈ x.operands, Operand.IsNamed o) ↔
    Operand.IsNamed x.dst ∧ Operand.IsNamed x.src1 ∧ Operand.IsNamed x.src2 := by
  obtain ⟨op, cond, dst, src1, src2, block⟩ := x
  cases dst <;> cases src1 <;> cases src2 <;> simp [operands, Operand.IsNamed]

theorem getElem?_operands (x : Statement) (f : Operand → Operand) :
    ((x.operands.map (·.map f))[0]?).join = x.dst.map f ∧
    ((x.operands.map (·.map f))[1]?).join = x.src1.map f ∧
    ((x.operands.map (·.map f))[2]?).join = x.src2.map f := by
  obtain ⟨op, cond, dst, src1, src2, block⟩ := x
  cases dst <;> cases src1 <;> cases src2 <;> simp [operands]

/-- A statement is read back exactly if everything in it has a name. -/
theorem toOption_read (x : Statement) :
    (Statement.read x.text).toOption = if x.IsNamed then some (x.normal, []) else none := by
  have hhead := toOption_head_text x (atWordEnd_textOperands x.operands x.isTail_tailText)
  rw [← text_eq] at hhead
  obtain ⟨hx, hhead⟩ | ⟨hx, e, hhead⟩ := ok_or_error_of_toOption hhead
  · have hiff : x.IsNamed ↔ ∀ o ∈ x.operands, Operand.IsNamed o := by
      rw [forall_operands_isNamed]
      exact ⟨fun h => h.2.2, fun h => ⟨hx.1, hx.2, h⟩⟩
    have hd := not_isDigit_skip x.operands x.isTail_tailText
    obtain ⟨r', hr', hops⟩ := Reader.toOption_operands_textFrom x.operands (n := 0)
      x.length_operands_le x.isTail_tailText
    rw [Reader.textFrom_zero] at hops
    obtain ⟨h, hops⟩ | ⟨h, e, hops⟩ := ok_or_error_of_toOption hops <;> rw [← hiff] at h
    · obtain ⟨h0, h1, h2⟩ := x.getElem?_operands Operand.normal
      simp only [Statement.read, hhead, hd, hops, x.target_tailText hr', h, h0, h1, h2, if_true,
        Bool.false_eq_true, and_false, if_false]
      rfl
    · simp [Statement.read, hhead, hd, hops, h, Except.toOption]
  · have hn : ¬ x.IsNamed := fun h => hx ⟨h.1, h.2.1⟩
    simp [Statement.read, hhead, hn, Except.toOption]

/-- The bytes of printed operands. -/
theorem mem_textRest {l : List (Option Operand)} {b : UInt8} (h : b ∈ textRest l) :
    isSolid b = true ∨ b ∈ ascii ", ->" := by
  induction l with
  | nil => simp [textRest] at h
  | cons o l ih =>
    simp only [textRest, List.mem_append] at h
    rcases h with (h | h) | h
    · exact .inr (List.mem_append_left (ascii "->") h)
    · exact .inl (solid_iff.mp (Operand.solid_textOrBlank o) b h)
    · exact ih h

/-- The bytes of a printed statement. -/
theorem mem_text {x : Statement} {b : UInt8} (h : b ∈ x.text) :
    isSolid b = true ∨ b ∈ ascii ", ->" := by
  have hspace : ascii " " ⊆ ascii ", ->" := by decide
  have harrow : ascii " -> " ⊆ ascii ", ->" := by decide
  simp only [text_eq, List.mem_append] at h
  rcases h with h | h | h
  · exact .inl (solid_iff.mp x.solid_headText b h)
  · cases hl : x.operands with
    | nil => simp [hl, textOperands] at h
    | cons o l =>
      simp only [hl, textOperands, List.mem_append] at h
      rcases h with (h | h) | h
      · exact .inr (hspace h)
      · exact .inl (solid_iff.mp (Operand.solid_textOrBlank o) b h)
      · exact mem_textRest h
  · unfold tailText at h
    split at h
    · rcases List.mem_append.mp h with h | h
      · exact .inr (harrow h)
      · exact .inl (solid_iff.mp (solid_decimal _) b h)
    · simp at h

theorem notMem_text {b : UInt8} (hs : isSolid b = false) (hb : b ∉ ascii ", ->") (x : Statement) :
    b ∉ x.text := by
  intro h
  rcases mem_text h with h | h
  · simp [h] at hs
  · exact hb h

end Statement

namespace Text

theorem fields_of_notMem {sep : UInt8} {t : Text} (h : sep ∉ t) : fields sep t = [t] := by
  induction t with
  | nil => rfl
  | cons c t ih =>
    simp only [List.mem_cons, not_or] at h
    simp [fields, Ne.symm h.1, ih h.2]

end Text

namespace Program

theorem toOption_readLine_text (x : Statement) :
    (readLine x.text).toOption = if x.IsNamed then some (some x.normal) else none := by
  obtain ⟨c, t, hc, -, hb⟩ := x.op.name_cons
  obtain ⟨u, hu⟩ : ∃ u, x.text = c :: u := by
    rw [Statement.text_eq, Statement.headText, hc]
    exact ⟨_, rfl⟩
  have hskip : Blanks.all.skip x.text = c :: u := by rw [hu, Blanks.skip_cons hb]
  obtain ⟨h, hr⟩ | ⟨h, e, hr⟩ := ok_or_error_of_toOption x.toOption_read
  · rw [hu] at hr
    simp [readLine, hskip, hr, h, show Blanks.all.skip [] = [] from rfl, Except.toOption]
  · rw [hu] at hr
    simp [readLine, hskip, hr, h, Except.toOption]

theorem uncommented_of_notMem {t : Text} (h : '/'.toUInt8 ∉ t) : uncommented t = t := by
  induction t with
  | nil => rfl
  | cons c t ih =>
    simp only [List.mem_cons, not_or] at h
    simp [uncommented, Ne.symm h.1, ih h.2]

theorem lines_text (p : Program) : p.text.lines = p.map Statement.text ++ [[]] := by
  induction p with
  | nil => rfl
  | cons x p ih =>
    have hx : '\n'.toUInt8 ∉ x.text := x.notMem_text (by decide) (by decide)
    have hcons : Program.text (x :: p) = x.text ++ '\n'.toUInt8 :: Program.text p := by
      simp [Program.text]
    rw [hcons, lines_append, ih, lines, fields_of_notMem hx]
    rfl

theorem toOption_readLines (p : Program) (n : Nat) :
    (readLines n (p.map Statement.text ++ [[]])).toOption =
      if ∀ x ∈ p, x.IsNamed then some (p.map Statement.normal) else none := by
  induction p generalizing n with
  | nil => rfl
  | cons x p ih =>
    have hx : '/'.toUInt8 ∉ x.text := x.notMem_text (by decide) (by decide)
    simp only [List.map_cons, List.cons_append, readLines, uncommented_of_notMem hx]
    obtain ⟨h, hr⟩ | ⟨h, e, hr⟩ := ok_or_error_of_toOption (toOption_readLine_text x)
    · obtain ⟨hp, hps⟩ | ⟨hp, e, hps⟩ := ok_or_error_of_toOption (ih (n + 1))
      · rw [if_pos (List.forall_mem_cons.mpr ⟨h, hp⟩)]
        simp [hr, hps, Except.map, Except.toOption]
      · simp [hr, hps, h, hp, Except.map, Except.toOption]
    · simp [hr, h, Except.toOption]

/-- A program in which everything has a name is read back, less what is not printed. -/
theorem read_text {p : Program} (h : ∀ x ∈ p, x.IsNamed) :
    Program.read p.text = .ok (p.map Statement.normal) := by
  rw [read, lines_text]
  obtain ⟨-, hp⟩ | ⟨hp, -⟩ := ok_or_error_of_toOption (toOption_readLines p 1)
  · exact hp
  · exact absurd h hp

/-- A program is read back, less what is not printed, exactly if everything in it has a name. -/
theorem toOption_read_text (p : Program) :
    (Program.read p.text).toOption =
      if ∀ x ∈ p, x.IsNamed then some (p.map Statement.normal) else none := by
  rw [read, lines_text]
  exact toOption_readLines p 1

end Program

end A32Lowering
