import Mathlib
import A32Lowering.Proofs.ReadBack

/-!
# The grammar of numerals

A numeral is a leading part and digits that continue it. The leading part is a digit from `1` to
`9` for base ten, a `0` for base eight, or a radix mark; in front of every further digit may stand
one underscore. Reading a numeral gives a number exactly if the numeral spells it and the width
allows it.

## Main definitions

* `Numeral.HasDigit` : a byte stands for a digit.
* `Numeral.Continues` : digits that continue a number to another one.
* `Numeral.Spells` : a numeral and its value.
* `Numeral.SpellsConstant` : a numeral with or without a minus sign, and its value.

## Main results

* `Numeral.accumulate_eq_ok_iff` : the digits that are accepted behind a leading part.
* `Numeral.magnitude_eq_ok_iff`, `Numeral.unsigned_eq_ok_iff`, `Numeral.signed_eq_ok_iff` : what is
  read as a numeral.
* `Reader.constant_eq_ok_iff` : what is read as a constant.
-/

namespace A32Lowering

namespace Numeral

open Text

/-- The byte `b` is the digit of value `d`; letters of either case count from ten. -/
def HasDigit (b : UInt8) (d : Nat) : Prop :=
  (d < 10 ∧ b.toNat = 48 + d) ∨ (10 ≤ d ∧ d < 36 ∧ (b.toNat = 87 + d ∨ b.toNat = 55 + d))

instance (b : UInt8) (d : Nat) : Decidable (HasDigit b d) := inferInstanceAs (Decidable (_ ∨ _))

/-- The digits `t` in a base continue a number `n` to a number `m`: each of them may have one
underscore in front of it. -/
inductive Continues (base : Nat) : (n : Nat) → (t : Text) → (m : Nat) → Prop
  | nil (n : Nat) : Continues base n [] n
  | digit {n m d : Nat} {b : UInt8} {t : Text} (hb : HasDigit b d) (hd : d < base)
      (h : Continues base (n * base + d) t m) : Continues base n (b :: t) m
  | underscore {n m d : Nat} {b : UInt8} {t : Text} (hb : HasDigit b d) (hd : d < base)
      (h : Continues base (n * base + d) t m) : Continues base n ('_'.toUInt8 :: b :: t) m

/-- The letters of radix marks, with their bases. -/
def marks : List (UInt8 × Nat) :=
  [('b'.toUInt8, 2), ('B'.toUInt8, 2), ('o'.toUInt8, 8), ('O'.toUInt8, 8), ('x'.toUInt8, 16),
    ('X'.toUInt8, 16)]

/-- The numeral `w` has the value `n`. -/
inductive Spells : (w : Text) → (n : Nat) → Prop
  /-- Base ten: the first digit is not zero. -/
  | decimal {b : UInt8} {d n : Nat} {t : Text} (hb : HasDigit b d) (h0 : 0 < d) (hd : d < 10)
      (h : Continues 10 d t n) : Spells (b :: t) n
  /-- Base eight: digits, or none, behind a zero. -/
  | octal {n : Nat} {t : Text} (h : Continues 8 0 t n) : Spells ('0'.toUInt8 :: t) n
  /-- Digits behind a radix mark. -/
  | marked {m : UInt8} {base n : Nat} {t : Text} (hm : (m, base) ∈ marks) (ht : t ≠ [])
      (h : Continues base 0 t n) : Spells ('0'.toUInt8 :: m :: t) n

/-- The numeral `w`, which may have a minus sign, has the value `v` and fits a word of `bits` bits:
without the sign as an unsigned number, with it as a signed one. -/
inductive SpellsConstant (bits : Nat) : (w : Text) → (v : Int) → Prop
  | plain {w : Text} {n : Nat} (h : Spells w n) (hn : n < 2 ^ bits) : SpellsConstant bits w n
  | negative {w : Text} {n : Nat} (h : Spells w n) (hn : n ≤ 2 ^ (bits - 1)) :
      SpellsConstant bits ('-'.toUInt8 :: w) (-n)

/-! ### Bytes of numerals -/

theorem digitValue?_eq_some_iff {b : UInt8} {d : Nat} : digitValue? b = some d ↔ HasDigit b d := by
  have hsome : ∀ b : UInt8, ∀ d ∈ digitValue? b, HasDigit b d := by decide +kernel
  have hdigit : ∀ d < 10, digitValue? (UInt8.ofNat (48 + d)) = some d := by decide +kernel
  have hletter : ∀ d < 36, 10 ≤ d → digitValue? (UInt8.ofNat (87 + d)) = some d ∧
      digitValue? (UInt8.ofNat (55 + d)) = some d := by decide +kernel
  refine ⟨fun h => hsome b d h, fun h => ?_⟩
  obtain ⟨hd, hb⟩ | ⟨h10, hd, hb | hb⟩ := h <;> rw [← UInt8.ofNat_toNat (x := b), hb]
  · exact hdigit d hd
  · exact (hletter d hd h10).1
  · exact (hletter d hd h10).2

theorem HasDigit.ne_underscore {b : UInt8} {d : Nat} (h : HasDigit b d) : b ≠ '_'.toUInt8 := by
  rintro rfl
  have hnone : digitValue? '_'.toUInt8 = none := by decide
  rw [← digitValue?_eq_some_iff, hnone] at h
  cases h

theorem HasDigit.isDigit {b : UInt8} {d : Nat} (h : HasDigit b d) (hd : d < 10) :
    isDigit b = true := by
  obtain ⟨-, hb⟩ | ⟨hd', -⟩ := h
  · simp only [Text.isDigit, Bool.and_eq_true, decide_eq_true_eq, UInt8.le_iff_toNat_le]
    change 48 ≤ b.toNat ∧ b.toNat ≤ 57
    omega
  · omega

/-- A numeral starts with a digit. -/
theorem Spells.head {w : Text} {n : Nat} (h : Spells w n) :
    ∃ b t, w = b :: t ∧ isDigit b = true := by
  cases h with
  | decimal hb _ hd _ => exact ⟨_, _, rfl, hb.isDigit hd⟩
  | octal _ => exact ⟨_, _, rfl, by decide⟩
  | marked _ _ _ => exact ⟨_, _, rfl, by decide⟩

/-- Whether a byte is a letter, a digit or an underscore. -/
def isNumeralByte (b : UInt8) : Bool := (digitValue? b).isSome || b == '_'.toUInt8

theorem HasDigit.isNumeralByte {b : UInt8} {d : Nat} (h : HasDigit b d) :
    isNumeralByte b = true := by
  simp [Numeral.isNumeralByte, digitValue?_eq_some_iff.mpr h]

theorem Continues.isNumeralByte {base n m : Nat} {t : Text} (h : Continues base n t m) :
    ∀ b ∈ t, isNumeralByte b = true := by
  induction h with
  | nil => simp
  | digit hb _ _ ih => exact List.forall_mem_cons.mpr ⟨hb.isNumeralByte, ih⟩
  | underscore hb _ _ ih =>
    exact List.forall_mem_cons.mpr ⟨rfl, List.forall_mem_cons.mpr ⟨hb.isNumeralByte, ih⟩⟩

/-- A numeral is made of letters, digits and underscores. -/
theorem Spells.isNumeralByte {w : Text} {n : Nat} (h : Spells w n) :
    ∀ b ∈ w, isNumeralByte b = true := by
  have hmark : ∀ p ∈ marks, Numeral.isNumeralByte p.1 = true := by decide
  cases h with
  | decimal hb _ _ h => exact List.forall_mem_cons.mpr ⟨hb.isNumeralByte, h.isNumeralByte⟩
  | octal h => exact List.forall_mem_cons.mpr ⟨rfl, h.isNumeralByte⟩
  | marked hm _ h =>
    exact List.forall_mem_cons.mpr ⟨rfl, List.forall_mem_cons.mpr ⟨hmark _ hm, h.isNumeralByte⟩⟩

theorem isSolid_of_isNumeralByte {b : UInt8} (h : isNumeralByte b = true) : isSolid b = true := by
  revert b
  decide +kernel

/-- Numerals stand in words. -/
theorem Spells.solid {w : Text} {n : Nat} (h : Spells w n) : w.Solid :=
  solid_iff.mpr fun b hb => isSolid_of_isNumeralByte (h.isNumeralByte b hb)

theorem Spells.notMem {w : Text} {n : Nat} (h : Spells w n) {b : UInt8}
    (hb : Numeral.isNumeralByte b = false) : b ∉ w := by
  intro hmem
  simp [h.isNumeralByte b hmem] at hb

/-! ### Digits behind a leading part -/

theorem Continues.le {base n m : Nat} {t : Text} (h : Continues base n t m) (hb : 0 < base) :
    n ≤ m := by
  have hstep (n d : Nat) : n ≤ n * base + d :=
    (Nat.le_mul_of_pos_right n hb).trans (Nat.le_add_right _ _)
  induction h with
  | nil => exact le_rfl
  | digit _ _ _ ih => exact (hstep _ _).trans ih
  | underscore _ _ _ ih => exact (hstep _ _).trans ih

/-- One digit is taken if the value stays below the bound. -/
theorem accumulate_cons {base max n d : Nat} {b : UInt8} (hb : HasDigit b d) (hd : d < base)
    (hm : n * base + d ≤ max) (t : Text) :
    accumulate base max n (b :: t) = accumulate base max (n * base + d) t := by
  simp only [accumulate, if_neg hb.ne_underscore, digitValue?_eq_some_iff.mpr hb,
    if_neg (Nat.not_le.mpr hd), if_neg (Nat.not_lt.mpr hm)]

theorem separated_cons {b : UInt8} (hb : b ≠ '_'.toUInt8) (lead : Bool) (t : Text) :
    separated lead (b :: t) = separated true t := by
  simp only [separated, if_neg hb]

/-- The first digit that is taken. -/
theorem exists_of_accumulate_cons {base max n m : Nat} {b : UInt8} {t : Text}
    (hb : b ≠ '_'.toUInt8) (h : accumulate base max n (b :: t) = .ok m) :
    ∃ d, HasDigit b d ∧ d < base ∧ n * base + d ≤ max ∧
      accumulate base max (n * base + d) t = .ok m := by
  rw [accumulate, if_neg hb] at h
  split at h
  · cases h
  next d hd =>
    split_ifs at h with h1 h2
    exact ⟨d, digitValue?_eq_some_iff.mp hd, by omega, by omega, h⟩

theorem Continues.accumulate {base max n m : Nat} {t : Text} (h : Continues base n t m)
    (hb : 0 < base) (hm : m ≤ max) :
    accumulate base max n t = .ok m ∧ separated true t = true := by
  induction h with
  | nil => exact ⟨rfl, rfl⟩
  | digit hd hlt h ih =>
    obtain ⟨ha, hs⟩ := ih hm
    rw [accumulate_cons hd hlt ((h.le hb).trans hm), separated_cons hd.ne_underscore]
    exact ⟨ha, hs⟩
  | underscore hd hlt h ih =>
    obtain ⟨ha, hs⟩ := ih hm
    rw [Numeral.accumulate, if_pos rfl, accumulate_cons hd hlt ((h.le hb).trans hm)]
    refine ⟨ha, ?_⟩
    rw [separated, if_pos rfl, separated_cons hd.ne_underscore, hs]
    rfl

/-- Digits that are accepted continue the number before them; behind an underscore that stands
before them as well. -/
theorem continues_of_accumulate {base max m : Nat} (t : Text) {n : Nat} {lead : Bool}
    (hn : n ≤ max) (ha : accumulate base max n t = .ok m) (hs : separated lead t = true) :
    Continues base n (if lead then t else '_'.toUInt8 :: t) m ∧ m ≤ max := by
  induction t generalizing n lead with
  | nil =>
    obtain rfl : lead = true := hs
    obtain rfl : n = m := Except.ok.inj ha
    exact ⟨.nil n, hn⟩
  | cons b t ih =>
    by_cases hb : b = '_'.toUInt8
    · subst hb
      rw [accumulate, if_pos rfl] at ha
      rw [separated, if_pos rfl, Bool.and_eq_true] at hs
      obtain ⟨rfl, hs⟩ := hs
      exact ih hn ha hs
    · obtain ⟨d, hd, hlt, hle, ha⟩ := exists_of_accumulate_cons hb ha
      rw [separated_cons hb] at hs
      obtain ⟨h, hm⟩ := ih hle ha hs
      refine ⟨?_, hm⟩
      rw [if_pos rfl] at h
      split_ifs
      · exact .digit hd hlt h
      · exact .underscore hd hlt h

/-- The digits that are accepted behind something that counts as a digit. -/
theorem accumulate_eq_ok_iff {base max n m : Nat} {t : Text} (hb : 0 < base) (hn : n ≤ max) :
    (accumulate base max n t = .ok m ∧ separated true t = true) ↔
      Continues base n t m ∧ m ≤ max := by
  constructor
  · rintro ⟨ha, hs⟩
    simpa using continues_of_accumulate t hn ha hs
  · rintro ⟨h, hm⟩
    exact h.accumulate hb hm

/-! ### Numerals -/

/-- What is accepted as a numeral, by the parts that its radix gives. -/
theorem magnitude_eq_ok_iff_radix {bits n : Nat} {w : Text} : magnitude bits w = .ok n ↔
    w ≠ [] ∧ accumulate (radix w).1 (2 ^ bits - 1) 0 (radix w).2.1 = .ok n ∧
      separated (radix w).2.2 (radix w).2.1 = true := by
  unfold magnitude
  rw [Nat.one_shiftLeft]
  by_cases hw : w = []
  · simp [hw]
  · rw [if_neg (by simpa using hw)]
    cases ha : accumulate (radix w).1 (2 ^ bits - 1) 0 (radix w).2.1 with
    | error e => simp [ha]
    | ok m =>
      by_cases hs : separated (radix w).2.2 (radix w).2.1 = true <;> simp [ha, hs, hw]

theorem lowered_eq_iff {m : UInt8} :
    (lowered m = 'b'.toUInt8 ↔ (m, 2) ∈ marks) ∧ (lowered m = 'o'.toUInt8 ↔ (m, 8) ∈ marks) ∧
      (lowered m = 'x'.toUInt8 ↔ (m, 16) ∈ marks) := by
  revert m
  decide +kernel

/-- The radix of a numeral that does not start with a zero. -/
theorem radix_of_ne_zero {b : UInt8} (hb : b ≠ '0'.toUInt8) (t : Text) :
    radix (b :: t) = (10, b :: t, false) := by
  have h : after? (ascii "0") (b :: t) = none := by
    simp [ascii, after?, Ne.symm hb]
  rw [radix, h]

/-- The radix of a numeral with a radix mark. -/
theorem radix_of_mark {m : UInt8} {base : Nat} {t : Text} (hm : (m, base) ∈ marks) (ht : t ≠ []) :
    radix ('0'.toUInt8 :: m :: t) = (base, t, true) := by
  obtain ⟨d, t, rfl⟩ := List.exists_cons_of_ne_nil ht
  have hafter : after? (ascii "0") ('0'.toUInt8 :: m :: d :: t) = some (m :: d :: t) := rfl
  rw [radix, hafter]
  simp only [marks, List.mem_cons, Prod.mk.injEq, List.not_mem_nil, or_false] at hm
  rcases hm with ⟨rfl, rfl⟩ | ⟨rfl, rfl⟩ | ⟨rfl, rfl⟩ | ⟨rfl, rfl⟩ | ⟨rfl, rfl⟩ | ⟨rfl, rfl⟩ <;> rfl

/-- The radix of a numeral that starts with a zero and has no radix mark. -/
theorem radix_of_zero {t : Text} (h : ∀ m u base, t = m :: u → u ≠ [] → (m, base) ∉ marks) :
    radix ('0'.toUInt8 :: t) = (8, t, true) := by
  have hafter : after? (ascii "0") ('0'.toUInt8 :: t) = some t := rfl
  rw [radix, hafter]
  rcases t with _ | ⟨m, _ | ⟨d, t⟩⟩
  · rfl
  · rfl
  · have hm (base : Nat) : (m, base) ∉ marks := h m (d :: t) base rfl (List.cons_ne_nil d t)
    obtain ⟨hb, ho, hx⟩ := lowered_eq_iff (m := m)
    simp only [if_neg (mt hb.mp (hm 2)), if_neg (mt ho.mp (hm 8)), if_neg (mt hx.mp (hm 16))]

/-- Digits of base eight do not start with the letter of a radix mark. -/
theorem Continues.notMem_marks {n k base : Nat} {m : UInt8} {u : Text}
    (h : Continues 8 n (m :: u) k) : (m, base) ∉ marks := by
  have hmark : ∀ p ∈ marks, p.1 ≠ '_'.toUInt8 ∧ ∀ d < 8, ¬ HasDigit p.1 d := by decide
  intro hm
  cases h with
  | digit hb hd _ => exact (hmark _ hm).2 _ hd hb
  | underscore _ _ _ => exact (hmark _ hm).1 rfl

theorem pos_of_mem_marks {m : UInt8} {base : Nat} (h : (m, base) ∈ marks) : 0 < base := by
  have hbase : ∀ p ∈ marks, 0 < p.2 := by decide
  exact hbase _ h

/-- Only `0` is the digit of value zero. -/
theorem hasDigit_zero_iff {b : UInt8} : HasDigit b 0 ↔ b = '0'.toUInt8 := by
  constructor
  · rintro (⟨-, hb⟩ | ⟨h10, -⟩)
    · exact UInt8.toNat_inj.mp hb
    · omega
  · rintro rfl
    exact .inl ⟨by omega, rfl⟩

theorem HasDigit.eq {b : UInt8} {c d : Nat} (hc : HasDigit b c) (hd : HasDigit b d) : c = d :=
  Option.some.inj ((digitValue?_eq_some_iff.mpr hc).symm.trans (digitValue?_eq_some_iff.mpr hd))

/-- The digits that are accepted in base ten, where nothing stands before them. -/
theorem accumulate_decimal_iff {max n : Nat} {b : UInt8} {t : Text} (hb : b ≠ '0'.toUInt8) :
    (accumulate 10 max 0 (b :: t) = .ok n ∧ separated false (b :: t) = true) ↔
      ∃ d, HasDigit b d ∧ 0 < d ∧ d < 10 ∧ Continues 10 d t n ∧ n ≤ max := by
  constructor
  · rintro ⟨ha, hs⟩
    have hu : b ≠ '_'.toUInt8 := by
      rintro rfl
      rw [separated, if_pos rfl] at hs
      cases hs
    obtain ⟨d, hd, hlt, hle, ha⟩ := exists_of_accumulate_cons hu ha
    have h0 : 0 < d := by
      refine Nat.pos_of_ne_zero fun hd0 => hb ?_
      rwa [hd0, hasDigit_zero_iff] at hd
    rw [separated_cons hu] at hs
    rw [Nat.zero_mul, Nat.zero_add] at ha hle
    exact ⟨d, hd, h0, hlt, (accumulate_eq_ok_iff (by omega) hle).mp ⟨ha, hs⟩⟩
  · rintro ⟨d, hd, h0, hlt, h, hn⟩
    have hle : 0 * 10 + d ≤ max := by
      have := h.le (by omega)
      omega
    rw [accumulate_cons hd hlt hle, separated_cons hd.ne_underscore, Nat.zero_mul, Nat.zero_add]
    exact h.accumulate (by omega) hn

/-- A numeral of some width is read exactly if it spells its value. -/
theorem magnitude_eq_ok_iff {bits n : Nat} {w : Text} :
    magnitude bits w = .ok n ↔ Spells w n ∧ n < 2 ^ bits := by
  have hlt : n < 2 ^ bits ↔ n ≤ 2 ^ bits - 1 := by
    have := Nat.two_pow_pos bits
    omega
  rw [magnitude_eq_ok_iff_radix, hlt]
  constructor
  · rintro ⟨hw, hread⟩
    obtain ⟨b, t, rfl⟩ := List.exists_cons_of_ne_nil hw
    by_cases hb : b = '0'.toUInt8
    · subst hb
      by_cases hm : ∃ m u base, t = m :: u ∧ u ≠ [] ∧ (m, base) ∈ marks
      · obtain ⟨m, u, base, rfl, hu, hm⟩ := hm
        rw [radix_of_mark hm hu] at hread
        obtain ⟨h, hn⟩ :=
          (accumulate_eq_ok_iff (pos_of_mem_marks hm) (Nat.zero_le _)).mp hread
        exact ⟨.marked hm hu h, hn⟩
      · rw [radix_of_zero fun m u base ht hu hm' => hm ⟨m, u, base, ht, hu, hm'⟩] at hread
        obtain ⟨h, hn⟩ := (accumulate_eq_ok_iff (by omega) (Nat.zero_le _)).mp hread
        exact ⟨.octal h, hn⟩
    · rw [radix_of_ne_zero hb] at hread
      obtain ⟨d, hd, h0, hlt, h, hn⟩ := (accumulate_decimal_iff hb).mp hread
      exact ⟨.decimal hd h0 hlt h, hn⟩
  · rintro ⟨h, hn⟩
    cases h with
    | @decimal b d n t hb h0 hd h =>
      have hne : b ≠ '0'.toUInt8 := fun hzero =>
        absurd (hb.eq (hasDigit_zero_iff.mpr hzero)) (by omega)
      rw [radix_of_ne_zero hne]
      exact ⟨List.cons_ne_nil _ _, (accumulate_decimal_iff hne).mpr ⟨d, hb, h0, hd, h, hn⟩⟩
    | octal h =>
      rw [radix_of_zero fun m u base ht _ => (ht ▸ h).notMem_marks]
      exact ⟨List.cons_ne_nil _ _, h.accumulate (by omega) hn⟩
    | marked hm ht h =>
      rw [radix_of_mark hm ht]
      exact ⟨List.cons_ne_nil _ _, h.accumulate (pos_of_mem_marks hm) hn⟩

theorem unsigned_eq_ok_iff {bits n : Nat} {w : Text} :
    unsigned bits w = .ok n ↔ Spells w n ∧ n < 2 ^ bits := by
  rw [← magnitude_eq_ok_iff, unsigned]
  cases magnitude bits w <;> simp [Except.mapError]

/-- A numeral with a minus sign is read exactly if it fits the signed word. -/
theorem signed_eq_ok_iff {bits : Nat} (hb : 0 < bits) {w : Text} {v : Int} :
    signed bits ('-'.toUInt8 :: w) = .ok v ↔
      ∃ n : Nat, Spells w n ∧ n ≤ 2 ^ (bits - 1) ∧ v = -n := by
  have hpow : 2 ^ (bits - 1) < 2 ^ bits := Nat.pow_lt_pow_right (by omega) (by omega)
  have hplus : after? (ascii "+") ('-'.toUInt8 :: w) = none := rfl
  have hminus : after? (ascii "-") ('-'.toUInt8 :: w) = some w := rfl
  simp only [signed, hplus, hminus, Nat.one_shiftLeft]
  cases hm : magnitude bits w with
  | error e =>
    refine iff_of_false (by simp) ?_
    rintro ⟨n, h, hn, -⟩
    cases hm.symm.trans (magnitude_eq_ok_iff.mpr ⟨h, hn.trans_lt hpow⟩)
  | ok n =>
    obtain ⟨h, -⟩ := magnitude_eq_ok_iff.mp hm
    simp only [if_true]
    constructor
    · intro hv
      split_ifs at hv with hle
      exact ⟨n, h, by omega, (Except.ok.inj hv).symm⟩
    · rintro ⟨k, hk, hle, rfl⟩
      obtain rfl : n = k :=
        Except.ok.inj (hm.symm.trans (magnitude_eq_ok_iff.mpr ⟨hk, hle.trans_lt hpow⟩))
      rw [if_neg (by omega)]

end Numeral

/-- A constant of some width is read exactly if it is spelled with its value. -/
theorem Reader.constant_eq_ok_iff {bits : Nat} (hb : 0 < bits) {w : Text} {v : Int} :
    constant bits w = .ok v ↔ Numeral.SpellsConstant bits w v := by
  by_cases hw : w.head? = some '-'.toUInt8
  · obtain ⟨u, rfl⟩ := List.head?_eq_some_iff.mp hw
    have hread : constant bits ('-'.toUInt8 :: u) = .ok v ↔
        Numeral.signed bits ('-'.toUInt8 :: u) = .ok v := by
      rw [constant, if_pos hw]
      cases Numeral.signed bits ('-'.toUInt8 :: u) <;> simp [Except.mapError]
    rw [hread, Numeral.signed_eq_ok_iff hb]
    constructor
    · rintro ⟨n, h, hn, rfl⟩
      exact .negative h hn
    · intro h
      cases h with
      | plain h hn =>
        obtain ⟨b, t, he, hd⟩ := h.head
        obtain rfl := (List.cons.inj he).1
        exact absurd hd (by decide)
      | negative h hn => exact ⟨_, h, hn, rfl⟩
  · have hread : constant bits w = .ok v ↔ ∃ n : Nat, Numeral.unsigned bits w = .ok n ∧ v = n := by
      rw [constant, if_neg hw]
      cases Numeral.unsigned bits w <;> simp [Except.map, Except.mapError, eq_comm]
    rw [hread]
    constructor
    · rintro ⟨n, h, rfl⟩
      obtain ⟨h, hn⟩ := Numeral.unsigned_eq_ok_iff.mp h
      exact .plain h hn
    · intro h
      cases h with
      | plain h hn => exact ⟨_, Numeral.unsigned_eq_ok_iff.mpr ⟨h, hn⟩, rfl⟩
      | negative h hn => exact absurd rfl hw

end A32Lowering
