import Mathlib
import A32Lowering.Text.Numeral

/-!
# Printed numbers are read back

A number is printed without leading zeros and without underscores, in base ten as it is and in base
sixteen behind `0x`. Read as a numeral, both forms give the number back if the width allows it.

## Main results

* `Numeral.accumulate_digits` : the digits of a number add up to it.
* `Numeral.unsigned_decimal`, `Numeral.unsigned_hex` : the printed forms are read back.
* `Numeral.unsigned_ne_ok` : a byte that is no digit in any base spoils a numeral.
* `Text.mem_ascii_toString` : the bytes of a printed integer.
-/

namespace A32Lowering

namespace Text

theorem isDigit_digit {d : Nat} (h : d < 10) : isDigit (digit d) = true := by
  decide +revert

theorem digit_ne_underscore {d : Nat} (h : d < 16) : digit d ≠ '_'.toUInt8 := by
  decide +revert

theorem digit_ne_zero {d : Nat} (h : d < 10) (h0 : 0 < d) : digit d ≠ '0'.toUInt8 := by
  decide +revert

theorem mem_digits {base n : Nat} (hb : 2 ≤ base) {b : UInt8} (h : b ∈ digits base n) :
    ∃ d < base, b = digit d := by
  fun_induction digits base n with
  | case1 n hn => exact ⟨n, by omega, by simpa using h⟩
  | case2 n hn ih =>
    rcases List.mem_append.mp h with h | h
    · exact ih h
    · exact ⟨n % base, Nat.mod_lt _ (by omega), by simpa using h⟩

theorem isDigit_of_mem_decimal {n : Nat} {b : UInt8} (h : b ∈ decimal n) : isDigit b = true := by
  obtain ⟨d, hd, rfl⟩ := mem_digits (by omega) h
  exact isDigit_digit hd

/-- Only zero is printed with a leading zero. -/
theorem head?_decimal {n : Nat} (h : 0 < n) :
    ∃ d, 0 < d ∧ d < 10 ∧ (decimal n).head? = some (digit d) := by
  unfold decimal
  fun_induction digits 10 n with
  | case1 n hn => exact ⟨n, h, by omega, rfl⟩
  | case2 n hn ih =>
    obtain ⟨d, h0, hd, hh⟩ := ih (by omega)
    exact ⟨d, h0, hd, by simp [List.head?_append, hh]⟩

theorem isDigit_toUInt8 {c : Char} (h : c.isDigit = true) : isDigit c.toUInt8 = true := by
  have hc : 48 ≤ c.toNat ∧ c.toNat ≤ 57 := Char.isDigit_iff_toNat.mp h
  have hn : c.toUInt8.toNat = c.toNat := by
    change c.toNat % 256 = c.toNat
    omega
  simp only [isDigit, Bool.and_eq_true, decide_eq_true_eq, UInt8.le_iff_toNat_le, hn]
  exact hc

/-- The bytes of a printed integer are digits and at most a sign. -/
theorem mem_ascii_toString {n : Int} {b : UInt8} (h : b ∈ ascii (ToString.toString n)) :
    isDigit b = true ∨ b = '-'.toUInt8 := by
  have digits {k : Nat} {c : Char} (hc : c ∈ k.repr.toList) : isDigit c.toUInt8 = true := by
    rw [Nat.toList_repr] at hc
    exact isDigit_toUInt8 (Nat.isDigit_of_mem_toDigits (by omega) (by omega) hc)
  obtain ⟨c, hc, rfl⟩ := List.mem_map.mp h
  rw [Int.toString_eq_repr, Int.repr_eq_if] at hc
  split at hc
  · exact .inl (digits hc)
  · rw [String.toList_append, List.mem_append] at hc
    rcases hc with hc | hc
    · exact .inr (by simp_all)
    · exact .inl (digits hc)

end Text

namespace Numeral

open Text

theorem digitValue?_digit {d : Nat} (h : d < 16) : digitValue? (digit d) = some d := by
  decide +revert

theorem accumulate_append {base max n m : Nat} {a : Text} (b : Text)
    (h : accumulate base max n a = .ok m) :
    accumulate base max n (a ++ b) = accumulate base max m b := by
  fun_induction accumulate base max n a with
  | case1 n => simp_all
  | case2 n rest ih => simpa [accumulate] using ih h
  | case3 => simp at h
  | case4 => simp at h
  | case5 => simp at h
  | case6 n c rest hc d hd hb hm ih => simpa [accumulate, hc, hd, hb, hm] using ih h

theorem accumulate_singleton {base max n d : Nat} (hb : base ≤ 16) (hd : d < base)
    (hm : n * base + d ≤ max) : accumulate base max n [digit d] = .ok (n * base + d) := by
  have hd' : d < 16 := by omega
  simp [accumulate, digit_ne_underscore hd', digitValue?_digit hd', Nat.not_le.mpr hd,
    Nat.not_lt.mpr hm]

/-- The digits of a number add up to it. -/
theorem accumulate_digits {base max n : Nat} (h2 : 2 ≤ base) (hb : base ≤ 16) (hn : n ≤ max) :
    accumulate base max 0 (digits base n) = .ok n := by
  fun_induction digits base n with
  | case1 n h => simpa using accumulate_singleton (n := 0) hb (show n < base by omega) (by omega)
  | case2 n h ih =>
    have hdiv : n / base * base + n % base = n := Nat.div_add_mod' n base
    rw [accumulate_append _ (ih (Nat.le_trans (Nat.div_le_self n base) hn)),
      accumulate_singleton hb (Nat.mod_lt _ (by omega)) (by omega), hdiv]

/-- Without underscores every place for one is right. -/
theorem separated_of_notMem {t : Text} (h : '_'.toUInt8 ∉ t) (b : Bool) :
    separated b t = (b || !t.isEmpty) := by
  induction t generalizing b with
  | nil => simp [separated]
  | cons c t ih =>
    simp only [List.mem_cons, not_or] at h
    simp [separated, Ne.symm h.1, ih h.2]

theorem underscore_notMem_digits {base : Nat} (h2 : 2 ≤ base) (hb : base ≤ 16) (n : Nat) :
    '_'.toUInt8 ∉ digits base n := by
  intro h
  obtain ⟨d, hd, he⟩ := mem_digits h2 h
  exact digit_ne_underscore (by omega) he.symm

theorem magnitude_eq {bits n : Nat} {w : Text} (hw : w ≠ []) {base : Nat} {body : Text}
    {lead : Bool} (hr : radix w = (base, body, lead))
    (ha : accumulate base (1 <<< bits - 1) 0 body = .ok n) (hu : '_'.toUInt8 ∉ body)
    (hl : lead = true ∨ body ≠ []) : magnitude bits w = .ok n := by
  have : (lead || !body.isEmpty) = true := by simpa using hl
  simp [magnitude, hw, hr, ha, separated_of_notMem hu, this]

theorem radix_decimal {n : Nat} (h : 0 < n) : radix (decimal n) = (10, decimal n, false) := by
  obtain ⟨d, h0, hd, hh⟩ := head?_decimal h
  cases hn : decimal n with
  | nil => simp [hn] at hh
  | cons c t =>
    have hc : c = digit d := by simpa [hn] using hh
    have h : after? (ascii "0") (c :: t) = none := by
      simp [ascii, after?, hc, Ne.symm (digit_ne_zero hd h0)]
    simp [radix, h]

/-- A number in base ten is read back. -/
theorem unsigned_decimal {bits n : Nat} (h : n < 2 ^ bits) :
    unsigned bits (decimal n) = .ok n := by
  have hm : magnitude bits (decimal n) = .ok n := by
    rcases Nat.eq_zero_or_pos n with rfl | h0
    · have hz : decimal 0 = ascii "0" := by simp [decimal, digits]; rfl
      rw [hz]
      exact magnitude_eq (by simp [ascii]) rfl rfl (by simp) (.inl rfl)
    · exact magnitude_eq (digits_ne_nil 10 n) (radix_decimal h0)
        (accumulate_digits (by omega) (by omega) (by omega))
        (underscore_notMem_digits (by omega) (by omega) n) (.inr (digits_ne_nil 10 n))
  rw [unsigned, hm]
  rfl

theorem radix_hex (t : Text) (ht : t ≠ []) : radix (ascii "0x" ++ t) = (16, t, true) := by
  cases t with
  | nil => contradiction
  | cons c t => rfl

/-- A number in base sixteen is read back behind its radix mark. -/
theorem unsigned_hex {bits n : Nat} (h : n < 2 ^ bits) :
    unsigned bits (ascii "0x" ++ hex n) = .ok n := by
  have hm : magnitude bits (ascii "0x" ++ hex n) = .ok n :=
    magnitude_eq (by simp [ascii]) (radix_hex _ (digits_ne_nil 16 n))
      (accumulate_digits (by omega) (by omega) (by omega))
      (underscore_notMem_digits (by omega) (by omega) n) (.inl rfl)
  rw [unsigned, hm]
  rfl

theorem accumulate_ne_ok {base max n : Nat} {t : Text} {b : UInt8} (h : b ∈ t)
    (hu : b ≠ '_'.toUInt8) (hv : digitValue? b = none) (m : Nat) :
    accumulate base max n t ≠ .ok m := by
  fun_induction accumulate base max n t with
  | case1 => simp at h
  | case2 n rest ih => exact ih (by simpa [hu] using h)
  | case3 => simp
  | case4 => simp
  | case5 => simp
  | case6 n c rest hc d hd hb hm ih =>
    refine ih ((List.mem_cons.mp h).resolve_left ?_)
    rintro rfl
    simp [hv] at hd

/-- A byte that is neither a digit nor a letter is in no radix mark. -/
theorem mem_radix {t : Text} {b : UInt8} (h : b ∈ t) (hv : digitValue? b = none) :
    b ∈ (radix t).2.1 := by
  have h0 : b ≠ '0'.toUInt8 := by
    rintro rfl
    exact absurd hv (by decide)
  have hl {m c : UInt8} (hm : lowered m = c) (hc : 'a'.toUInt8 ≤ c ∧ c ≤ 'z'.toUInt8) : b ≠ m := by
    rintro rfl
    subst hm
    grind [digitValue?]
  unfold radix
  split
  · exact h
  · next m d rest ht =>
    rw [after?_eq_some_iff.mp ht] at h
    have h : b = m ∨ b ∈ d :: rest := by simpa [ascii, h0] using h
    split
    · next hm => exact h.resolve_left (hl hm (by decide))
    split
    · next hm => exact h.resolve_left (hl hm (by decide))
    split
    · next hm => exact h.resolve_left (hl hm (by decide))
    · exact List.mem_cons.mpr h
  · next rest _ ht =>
    rw [after?_eq_some_iff.mp ht] at h
    simpa [ascii, h0] using h

/-- A byte that is no digit in any base spoils a numeral. -/
theorem unsigned_ne_ok {bits : Nat} {w : Text} {b : UInt8} (h : b ∈ w)
    (hu : b ≠ '_'.toUInt8) (hv : digitValue? b = none) (n : Nat) : unsigned bits w ≠ .ok n := by
  have ha : ∀ m, accumulate (radix w).1 (1 <<< bits - 1) 0 (radix w).2.1 ≠ .ok m :=
    accumulate_ne_ok (mem_radix h hv) hu hv
  have hm : ∀ n, magnitude bits w ≠ .ok n := by
    intro n
    unfold magnitude
    cases hr : accumulate (radix w).1 (1 <<< bits - 1) 0 (radix w).2.1 with
    | error e => by_cases hw : w.isEmpty <;> simp [hw, hr]
    | ok m => exact absurd hr (ha m)
  unfold unsigned
  cases hr : magnitude bits w with
  | error e => simp [Except.mapError]
  | ok m => exact absurd hr (hm m)

end Numeral

end A32Lowering
