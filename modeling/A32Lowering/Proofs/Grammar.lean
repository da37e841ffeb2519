import Mathlib
import A32Lowering.Proofs.NumeralGrammar

/-!
# The grammar of a line

A line holds nothing but blanks, or a sentence between blanks: a head word, operands and a block
number. The grammar says which texts are sentences without reading them.

The head word needs a blank behind it where an operand or a number follows; behind every other word
the grammar itself puts a comma, a blank, an arrow or the end of the line. So each word is as long
as it can be.

## Main definitions

* `Text.Blank`, `Text.Trailing`, `Text.Uncommented` : text of blanks, text at the end of a line, and
  a line without its comment.
* `Operand.Spelled` : an operand and a word for it.
* `Sentence` : what stands in a line, with its statement `Sentence.statement`.
* `Sentence.Spelled`, `Sentence.FillsLine` : a sentence and a text for it, alone and between blanks.
* `Sentence.IsClosed` : a sentence to which nothing can be added.

## Main results

* `Reader.spelled_of_operand`, `Reader.operand_of_spelled` : what is read as an operand.
* `Reader.operands_append`, `Reader.exists_of_operands` : operands that are spelled are read, and
  operands that are read are spelled.
-/

namespace A32Lowering

open Text

/-! ### The grammar -/

namespace Text

/-- Text of spaces and tabs. -/
def Blank (t : Text) : Prop := ∀ b ∈ t, b = ' '.toUInt8 ∨ b = '\t'.toUInt8

instance (t : Text) : Decidable (Blank t) := inferInstanceAs (Decidable (∀ b ∈ t, _))

/-- Text of blanks and carriage returns, as it can stand at the end of a line. -/
def Trailing (t : Text) : Prop :=
  ∀ b ∈ t, b = ' '.toUInt8 ∨ b = '\t'.toUInt8 ∨ b = '\r'.toUInt8

/-- `kept` is what stands before the first `//` of a line, and all of it if there is none. -/
def Uncommented (line kept : Text) : Prop :=
  (line = kept ∧ ¬ ascii "//" <:+: line) ∨
    ∃ comment, line = kept ++ ascii "//" ++ comment ∧ ¬ ascii "//" <:+: kept ++ ascii "/"

end Text

namespace Operand

/-- The storage names that stand before a number. -/
def storage : List (String × (UInt32 → Operand)) :=
  [("r", register), ("t", temporary), ("t64", temporary64), ("t128", temporary128),
    ("m", relative), ("m64", relative64), ("m128", relative128), ("rref", relReference),
    ("tref", tmpReference)]

/-- The word `w` stands for an operand, or for an absent one. -/
inductive Spelled : (o : Option Operand) → (w : Text) → Prop
  | absent : Spelled none (ascii "_")
  | context : Spelled (some .context) (ascii "ctx")
  | constant {w : Text} {v : Int} (h : Numeral.SpellsConstant 32 w v) :
      Spelled (some (.constant (UInt32.ofInt v))) (ascii "#" ++ w)
  | constant64 {w : Text} {v : Int} (h : Numeral.SpellsConstant 64 w v) :
      Spelled (some (.constant64 (UInt64.ofInt v))) (ascii "#64:" ++ w)
  /-- A storage name, a colon and a number. -/
  | colon {name : String} {make : UInt32 → Operand} {w : Text} {n : Nat}
      (hs : (name, make) ∈ storage) (h : Numeral.Spells w n) (hn : n < 2 ^ 32) :
      Spelled (some (make (UInt32.ofNat n))) (ascii name ++ ascii ":" ++ w)
  /-- The colon can be left out behind a storage name without digits. -/
  | bare {name : String} {make : UInt32 → Operand} {w : Text} {n : Nat}
      (hs : (name, make) ∈ storage) (hd : ∀ b ∈ ascii name, isDigit b = false)
      (h : Numeral.Spells w n) (hn : n < 2 ^ 32) :
      Spelled (some (make (UInt32.ofNat n))) (ascii name ++ w)

end Operand

/-- What stands in a line: the operands that are written, and the block number if it is. -/
structure Sentence where
  op : Op
  cond : Condition
  operands : List (Option Operand)
  block : Option UInt32

namespace Sentence

/-- The statement that a sentence makes: operands that are not written are absent, and a block
number that is not written is zero. -/
def statement (s : Sentence) : Statement where
  op := s.op
  cond := s.cond
  dst := (s.operands[0]?).join
  src1 := (s.operands[1]?).join
  src2 := (s.operands[2]?).join
  block := s.block.getD 0

/-- The word `w` names an operation and a condition. -/
inductive HeadSpelled : (op : Op) → (cond : Condition) → (w : Text) → Prop
  | plain {op : Op} (h : op ∈ Op.named) : HeadSpelled op .none (ascii op.name)
  | dotted {op : Op} (h : op ∈ Op.named) : HeadSpelled op .none (ascii op.name ++ ascii ".")
  | conditional {op : Op} {cond : Condition} (h : op ∈ Op.named) (hc : cond ∈ Condition.named) :
      HeadSpelled op cond (ascii op.name ++ ascii "." ++ ascii cond.name)

/-- What stands before the operand with index `n`: a comma that may have blanks around it, and at
least one blank before the first operand. -/
def Separates (n : Nat) (t : Text) : Prop :=
  if n = 0 then Blank t ∧ t ≠ [] else ∃ a b, Blank a ∧ Blank b ∧ t = a ++ ascii "," ++ b

/-- The text `t` holds operands, the first of them with index `n`. -/
inductive OperandsSpelled : (n : Nat) → (os : List (Option Operand)) → (t : Text) → Prop
  | nil (n : Nat) : OperandsSpelled n [] []
  | cons {n : Nat} {o : Option Operand} {os : List (Option Operand)} {sep w t : Text}
      (hsep : Separates n sep) (ho : Operand.Spelled o w) (hos : OperandsSpelled (n + 1) os t) :
      OperandsSpelled n (o :: os) (sep ++ w ++ t)

/-- The text `t` is empty, or holds an arrow and a block number. -/
inductive TargetSpelled : (block : Option UInt32) → (t : Text) → Prop
  | none : TargetSpelled none []
  | arrow {a b w : Text} {n : Nat} (ha : Blank a) (hb : Blank b) (h : Numeral.Spells w n)
      (hn : n < 2 ^ 32) : TargetSpelled (some (UInt32.ofNat n)) (a ++ ascii "->" ++ b ++ w)

/-- The text `t` is a sentence: a head word, up to three operands and a block number, or, behind
`label` and `jmp`, a block number alone. -/
inductive Spelled : (s : Sentence) → (t : Text) → Prop
  | short {op : Op} {cond : Condition} {h b w : Text} {n : Nat} (hop : op = .label ∨ op = .jmp)
      (hh : HeadSpelled op cond h) (hb : Blank b) (hne : b ≠ []) (hw : Numeral.Spells w n)
      (hn : n < 2 ^ 32) : Spelled ⟨op, cond, [], some (UInt32.ofNat n)⟩ (h ++ b ++ w)
  | full {op : Op} {cond : Condition} {os : List (Option Operand)} {block : Option UInt32}
      {h t u : Text} (hh : HeadSpelled op cond h) (hos : OperandsSpelled 0 os t)
      (hlen : os.length ≤ 3) (hu : TargetSpelled block u) :
      Spelled ⟨op, cond, os, block⟩ (h ++ t ++ u)

/-- A sentence to which nothing can be added on its line: it has three operands or a block
number. -/
def IsClosed (s : Sentence) : Prop := s.operands.length = 3 ∨ s.block.isSome

/-- A line holds a sentence between blanks. -/
def FillsLine (s : Sentence) (line : Text) : Prop :=
  ∃ a t b, Blank a ∧ s.Spelled t ∧ Blank b ∧ line = a ++ t ++ b

end Sentence

/-! ### Blanks and words -/

theorem Numeral.SpellsConstant.solid {bits : Nat} {w : Text} {v : Int}
    (h : Numeral.SpellsConstant bits w v) : w.Solid := by
  cases h with
  | plain h _ => exact h.solid
  | negative h _ => exact solid_append.mpr ⟨(by decide : (ascii "-").Solid), h.solid⟩

theorem Numeral.SpellsConstant.colon_notMem {bits : Nat} {w : Text} {v : Int}
    (h : Numeral.SpellsConstant bits w v) : ':'.toUInt8 ∉ w := by
  cases h with
  | plain h _ => exact h.notMem (by decide)
  | negative h _ => exact List.not_mem_cons_of_ne_of_not_mem (by decide) (h.notMem (by decide))

theorem Text.blank_nil : Blank [] := fun _ hb => by cases hb

namespace Blanks

theorem exists_lt_of_contains {s : Blanks} {b : UInt8} (h : s.contains b = true) :
    ∃ n < 64, b = UInt8.ofNat n := by
  have hb : b < 64 := of_decide_eq_true (Bool.and_eq_true_iff.mp h).1
  exact ⟨b.toNat, UInt8.lt_iff_toNat_lt.mp hb, UInt8.ofNat_toNat.symm⟩

theorem inline_contains_iff {b : UInt8} :
    inline.contains b = true ↔ b = ' '.toUInt8 ∨ b = '\t'.toUInt8 := by
  have hlow : ∀ n < 64, inline.contains (UInt8.ofNat n) = true →
      UInt8.ofNat n = ' '.toUInt8 ∨ UInt8.ofNat n = '\t'.toUInt8 := by decide
  constructor
  · intro h
    obtain ⟨n, hn, rfl⟩ := exists_lt_of_contains h
    exact hlow n hn h
  · rintro (rfl | rfl) <;> rfl

theorem all_contains_iff {b : UInt8} : all.contains b = true ↔
    inline.contains b = true ∨ b = '\r'.toUInt8 ∨ b = '\n'.toUInt8 := by
  have hlow : ∀ n < 64, all.contains (UInt8.ofNat n) = true →
      inline.contains (UInt8.ofNat n) = true ∨ UInt8.ofNat n = '\r'.toUInt8 ∨
        UInt8.ofNat n = '\n'.toUInt8 := by decide
  rw [inline_contains_iff]
  constructor
  · intro h
    obtain ⟨n, hn, rfl⟩ := exists_lt_of_contains h
    rw [← inline_contains_iff]
    exact hlow n hn h
  · rintro ((rfl | rfl) | rfl | rfl) <;> rfl

theorem blank_iff {t : Text} : Blank t ↔ ∀ b ∈ t, inline.contains b = true := by
  simp only [Blank, inline_contains_iff]

theorem all_contains_of_blank {t : Text} (h : Blank t) : ∀ b ∈ t, all.contains b = true :=
  fun b hb => all_contains_iff.mpr (.inl (blank_iff.mp h b hb))

/-- Blanks in front of a text are skipped. -/
theorem skip_append {s : Blanks} {a : Text} (h : ∀ b ∈ a, s.contains b = true) (t : Text) :
    s.skip (a ++ t) = s.skip t :=
  List.dropWhile_append_of_pos h

theorem skip_eq_nil_iff {s : Blanks} {t : Text} :
    s.skip t = [] ↔ ∀ b ∈ t, s.contains b = true :=
  List.dropWhile_eq_nil_iff

/-- Blanks in front of a byte that is none. -/
theorem skip_blank {a : Text} (h : Blank a) {c : UInt8} (hc : inline.contains c = false)
    (t : Text) : inline.skip (a ++ c :: t) = c :: t := by
  rw [skip_append (blank_iff.mp h), skip_cons hc]

theorem inline_contains_of_all {b : UInt8} (h : all.contains b = false) :
    inline.contains b = false := by
  by_contra hb
  rw [Bool.not_eq_false] at hb
  rw [all_contains_iff.mpr (.inl hb)] at h
  cases h

theorem contains_of_isDigit {b : UInt8} (h : isDigit b = true) : inline.contains b = false := by
  by_contra hb
  rw [Bool.not_eq_false, inline_contains_iff] at hb
  rcases hb with rfl | rfl <;> exact absurd h (by decide)

/-- What is skipped is blank. -/
theorem exists_blank_skip (t : Text) : ∃ a, Blank a ∧ t = a ++ inline.skip t :=
  ⟨t.takeWhile inline.contains, blank_iff.mpr fun _ hb => List.mem_takeWhile_imp hb,
    List.takeWhile_append_dropWhile.symm⟩

/-- Behind skipped blanks stands no blank. -/
theorem contains_of_skip_eq_cons {s : Blanks} {c : UInt8} {t u : Text} (h : s.skip t = c :: u) :
    s.contains c = false := by
  have hne : t.dropWhile s.contains ≠ [] := by
    rw [show t.dropWhile s.contains = c :: u from h]
    exact List.cons_ne_nil c u
  have hhead := List.head_dropWhile_not s.contains hne
  simpa [show t.dropWhile s.contains = c :: u from h] using hhead

end Blanks

namespace Reader

theorem atWordEnd_append_blank {a t : Text} (ha : Blank a) (ht : atWordEnd t = true) :
    atWordEnd (a ++ t) = true := by
  rcases a with _ | ⟨c, a⟩
  · exact ht
  · rcases ha c List.mem_cons_self with rfl | rfl <;> rfl

theorem atWordEnd_cons_of_isDigit {c : UInt8} (h : isDigit c = true) (t : Text) :
    atWordEnd (c :: t) = false := by
  have hne {d : UInt8} (hd : isDigit d = false) : (c == d) = false := by
    refine beq_eq_false_iff_ne.mpr ?_
    rintro rfl
    rw [hd] at h
    cases h
  simp only [atWordEnd, hne (d := ','.toUInt8) (by decide), hne (d := ' '.toUInt8) (by decide),
    hne (d := '\t'.toUInt8) (by decide), hne (d := '\r'.toUInt8) (by decide),
    hne (d := '-'.toUInt8) (by decide), Bool.false_and, Bool.or_false]

/-- A word that is not empty does not start where words end. -/
theorem atWordEnd_eq_false {t : Text} (h : (word t).1 ≠ []) : atWordEnd t = false := by
  rcases t with _ | ⟨c, t⟩
  · exact absurd rfl h
  · by_contra hend
    rw [Bool.not_eq_false] at hend
    exact h (by simp [word, hend])

end Reader

theorem Text.Trailing.atWordEnd {r : Text} (h : Trailing r) : Reader.atWordEnd r = true := by
  rcases r with _ | ⟨c, r⟩
  · rfl
  · rcases h c List.mem_cons_self with rfl | rfl | rfl <;> rfl

theorem Text.Blank.trailing {r : Text} (h : Blank r) : Trailing r :=
  fun b hb => (h b hb).imp_right .inl

/-! ### Operands -/

namespace Reader

theorem named?_eq_some_iff {name : Text} {v : UInt32} {s : Operand} : named? name v = some s ↔
    ∃ e ∈ Operand.storage, name = ascii e.1 ∧ s = e.2 v := by
  constructor
  · intro h
    unfold named? at h
    have found (i : Fin Operand.storage.length) (hn : name = ascii Operand.storage[i].1)
        (hs : some (Operand.storage[i].2 v) = some s) :
        ∃ e ∈ Operand.storage, name = ascii e.1 ∧ s = e.2 v :=
      ⟨_, List.getElem_mem i.isLt, hn, (Option.some.inj hs).symm⟩
    split_ifs at h with h0 h1 h2 h3 h4 h5 h6 h7 h8
    exacts [found ⟨0, by decide⟩ h0 h, found ⟨1, by decide⟩ h1 h, found ⟨2, by decide⟩ h2 h,
      found ⟨3, by decide⟩ h3 h, found ⟨4, by decide⟩ h4 h, found ⟨5, by decide⟩ h5 h,
      found ⟨6, by decide⟩ h6 h, found ⟨7, by decide⟩ h7 h, found ⟨8, by decide⟩ h8 h]
  · rintro ⟨e, he, rfl, rfl⟩
    simp only [Operand.storage, List.mem_cons, List.not_mem_nil, or_false] at he
    rcases he with rfl | rfl | rfl | rfl | rfl | rfl | rfl | rfl | rfl <;> rfl

/-- The letters that storage names start with are those of no other operand. -/
theorem mem_rtm {c : UInt8} (hc : c ∈ ascii "rtm") :
    c ∉ ascii "_c#" ∧ c ∈ ascii "rtm#ck_" := by
  have hlist : ascii "rtm" = ['r'.toUInt8, 't'.toUInt8, 'm'.toUInt8] := rfl
  simp only [hlist, List.mem_cons, List.not_mem_nil, or_false] at hc
  rcases hc with rfl | rfl | rfl <;> decide

/-- Storage names start with a letter that no other operand starts with. -/
theorem storage_name {e : String × (UInt32 → Operand)} (he : e ∈ Operand.storage) :
    (∃ c ∈ ascii "rtm", ∃ t, ascii e.1 = c :: t) ∧ ':'.toUInt8 ∉ ascii e.1 ∧ (ascii e.1).Solid := by
  simp only [Operand.storage, List.mem_cons, List.not_mem_nil, or_false] at he
  rcases he with rfl | rfl | rfl | rfl | rfl | rfl | rfl | rfl | rfl <;>
    exact ⟨⟨_, by decide, _, rfl⟩, by decide, by decide⟩

/-- The parts of a word, put together again. -/
theorem splitName_cases (w : Text) :
    w = (splitName w).1 ++ ascii ":" ++ (splitName w).2 ∨
      w = (splitName w).1 ++ (splitName w).2 ∧ ∀ b ∈ (splitName w).1, isDigit b = false := by
  unfold splitName
  cases hc : cut ':'.toUInt8 w with
  | some p =>
    obtain ⟨hw, -⟩ := cut_eq_some_iff.mp hc
    exact .inl (by simpa [ascii] using hw)
  | none =>
    rw [Option.getD_none, splitAtDigit, List.span_eq_takeWhile_dropWhile]
    refine .inr ⟨List.takeWhile_append_dropWhile.symm, fun b hb => ?_⟩
    simpa using List.mem_takeWhile_imp hb

/-- A storage name without digits is split off before a numeral. -/
theorem splitName_bare {name w : Text} (hd : ∀ b ∈ name, isDigit b = false)
    (hc : ':'.toUInt8 ∉ name) {n : Nat} (h : Numeral.Spells w n) :
    splitName (name ++ w) = (name, w) := by
  have hcut : cut ':'.toUInt8 (name ++ w) = none := by
    rw [cut_eq_none_iff, List.mem_append, not_or]
    exact ⟨hc, h.notMem (by decide)⟩
  obtain ⟨b, t, rfl, hb⟩ := h.head
  have hname : ∀ b ∈ name, (!isDigit b) = true := by simpa using hd
  rw [splitName, hcut, Option.getD_none, splitAtDigit, List.span_eq_takeWhile_dropWhile,
    List.takeWhile_append_of_pos hname, List.dropWhile_append_of_pos hname]
  simp [hb]

/-- A word with a storage name and a number is read as the operand they make. -/
theorem operand_of_splitName {e : String × (UInt32 → Operand)} (he : e ∈ Operand.storage)
    {w r : Text} {n : Nat} (h : Numeral.Spells w n) (hn : n < 2 ^ 32)
    (hsplit : splitName (ascii e.1 ++ r) = (ascii e.1, w)) :
    operand (ascii e.1 ++ r) = .ok (some (e.2 (UInt32.ofNat n))) := by
  obtain ⟨⟨c, hc, t, ht⟩, -⟩ := storage_name he
  have hname : named? (ascii e.1) (UInt32.ofNat n) = some (e.2 (UInt32.ofNat n)) :=
    named?_eq_some_iff.mpr ⟨e, he, rfl, rfl⟩
  rw [ht] at hsplit hname ⊢
  rw [List.cons_append] at hsplit ⊢
  simp only [operand_storage (mem_rtm hc).1, hsplit, Numeral.unsigned_eq_ok_iff.mpr ⟨h, hn⟩, hname]

/-- The other way round: what the parts of a word make is what it spells. -/
theorem spelled_of_splitName {w : Text} {n : Nat} {s : Operand}
    (hn : Numeral.unsigned 32 (splitName w).2 = .ok n)
    (hs : named? (splitName w).1 (UInt32.ofNat n) = some s) : Operand.Spelled (some s) w := by
  obtain ⟨hw, hlt⟩ := Numeral.unsigned_eq_ok_iff.mp hn
  obtain ⟨⟨name, make⟩, he, hname, rfl⟩ := named?_eq_some_iff.mp hs
  rcases splitName_cases w with hsplit | ⟨hsplit, hd⟩
  · rw [hsplit, hname]
    exact .colon he hw hlt
  · rw [hsplit, hname]
    exact .bare he (hname ▸ hd) hw hlt

/-- A word that is read as an operand spells it. -/
theorem spelled_of_operand {w : Text} {o : Option Operand} (h : operand w = .ok o) :
    Operand.Spelled o w := by
  unfold operand at h
  split_ifs at h with hblank hctx
  · obtain rfl := Except.ok.inj h
    exact hblank ▸ .absent
  · obtain rfl := Except.ok.inj h
    exact hctx ▸ .context
  cases h64 : after? (ascii "#64:") w with
  | some value =>
    rw [after?_eq_some_iff.mp h64]
    cases hc : constant 64 value with
    | error e => simp [h64, hc, Except.map] at h
    | ok v =>
      obtain rfl : some (.constant64 (UInt64.ofInt v)) = o := by
        simpa [h64, hc, Except.map] using h
      exact .constant64 ((constant_eq_ok_iff (by omega)).mp hc)
  | none =>
    cases h32 : after? (ascii "#") w with
    | some value =>
      rw [after?_eq_some_iff.mp h32]
      cases hc : constant 32 value with
      | error e => simp [h64, h32, hc, Except.map] at h
      | ok v =>
        obtain rfl : some (.constant (UInt32.ofInt v)) = o := by
          simpa [h64, h32, hc, Except.map] using h
        exact .constant ((constant_eq_ok_iff (by omega)).mp hc)
    | none =>
      simp only [h64, h32] at h
      split at h
      next => cases h
      next n hn =>
        split at h
        next => cases h
        next s hs =>
          obtain rfl := Except.ok.inj h
          exact spelled_of_splitName hn hs

/-- A word is read as the operand that it spells. -/
theorem operand_of_spelled {w : Text} {o : Option Operand} (h : Operand.Spelled o w) :
    operand w = .ok o := by
  cases h with
  | absent => rfl
  | context => rfl
  | @constant w v h =>
    -- A numeral has no colon, so this is not the mark of a wide constant.
    have h64 : after? (ascii "#64:") ('#'.toUInt8 :: w) = none := by
      rw [Option.eq_none_iff_forall_ne_some]
      intro r hr
      obtain rfl : w = ascii "64:" ++ r := (List.cons.inj (after?_eq_some_iff.mp hr)).2
      exact h.colon_notMem (by simp [ascii])
    have h32 : after? (ascii "#") ('#'.toUInt8 :: w) = some w := rfl
    change operand ('#'.toUInt8 :: w) = _
    rw [operand_cons (by decide), h64, h32]
    simp only [(constant_eq_ok_iff (by omega)).mpr h, Except.map]
  | @constant64 w v h =>
    have h64 : after? (ascii "#64:") ('#'.toUInt8 :: (ascii "64:" ++ w)) = some w := rfl
    change operand ('#'.toUInt8 :: (ascii "64:" ++ w)) = _
    rw [operand_cons (by decide), h64]
    simp only [(constant_eq_ok_iff (by omega)).mpr h, Except.map]
  | @colon name make w n hs h hn =>
    rw [List.append_assoc]
    exact operand_of_splitName hs h hn (splitName_colon (storage_name hs).2.1 w)
  | @bare name make w n hs hd h hn =>
    exact operand_of_splitName hs h hn (splitName_bare hd (storage_name hs).2.1 h)

end Reader

namespace Operand

theorem Spelled.solid {o : Option Operand} {w : Text} (h : Spelled o w) : w.Solid := by
  cases h with
  | absent => decide
  | context => decide
  | constant h => exact solid_append.mpr ⟨by decide, h.solid⟩
  | constant64 h => exact solid_append.mpr ⟨by decide, h.solid⟩
  | colon hs h _ =>
    rw [List.append_assoc, solid_append, solid_append]
    exact ⟨(Reader.storage_name hs).2.2, by decide, h.solid⟩
  | bare hs _ h _ => exact solid_append.mpr ⟨(Reader.storage_name hs).2.2, h.solid⟩

/-- The bytes that operands start with. -/
theorem Spelled.cons {o : Option Operand} {w : Text} (h : Spelled o w) :
    ∃ c ∈ ascii "rtm#ck_", ∃ t, w = c :: t := by
  cases h with
  | absent => exact ⟨_, by decide, _, rfl⟩
  | context => exact ⟨_, by decide, _, rfl⟩
  | constant h => exact ⟨_, by decide, _, rfl⟩
  | constant64 h => exact ⟨_, by decide, _, rfl⟩
  | colon hs _ _ =>
    obtain ⟨c, hc, t, ht⟩ := (Reader.storage_name hs).1
    exact ⟨c, (Reader.mem_rtm hc).2, _, by rw [ht]; rfl⟩
  | bare hs _ _ _ =>
    obtain ⟨c, hc, t, ht⟩ := (Reader.storage_name hs).1
    exact ⟨c, (Reader.mem_rtm hc).2, _, by rw [ht]; rfl⟩

/-- An operand that is spelled is read if a word can end behind it. -/
theorem Spelled.read {o : Option Operand} {w : Text} (h : Spelled o w) {r : Text}
    (hr : Reader.atWordEnd r = true) : Operand.read (w ++ r) = .ok (o, r) := by
  have hne : w ≠ [] := by
    obtain ⟨c, -, t, rfl⟩ := h.cons
    exact List.cons_ne_nil c t
  rw [Operand.read, Reader.word_solid h.solid hr]
  simp [hne, Reader.operand_of_spelled h, Except.map]

/-- An operand that is read is spelled. -/
theorem exists_of_read {t r : Text} {o : Option Operand} (h : Operand.read t = .ok (o, r)) :
    ∃ w, Spelled o w ∧ t = w ++ r ∧ Reader.atWordEnd r = true ∧ Reader.atWordEnd t = false := by
  rcases hword : Reader.word t with ⟨w, rest⟩
  have happ := Reader.word_append t
  have hend := Reader.atWordEnd_word t
  have hstart := Reader.atWordEnd_eq_false (t := t)
  rw [Operand.read] at h
  rw [hword] at h happ hend hstart
  by_cases hw : w = []
  · simp [hw] at h
  · cases ho : Reader.operand w with
    | error e => simp [hw, ho, Except.map] at h
    | ok o' =>
      obtain ⟨rfl, rfl⟩ : o' = o ∧ rest = r := by simpa [hw, ho, Except.map] using h
      exact ⟨w, Reader.spelled_of_operand ho, happ.symm, hend, hstart hw⟩

end Operand

/-! ### Lists of operands -/

namespace Sentence

theorem Separates.atWordEnd {n : Nat} {sep : Text} (h : Separates n sep) (t : Text) :
    Reader.atWordEnd (sep ++ t) = true := by
  unfold Separates at h
  split_ifs at h
  · obtain ⟨hb, hne⟩ := h
    obtain ⟨c, u, rfl⟩ := List.exists_cons_of_ne_nil hne
    rcases hb c List.mem_cons_self with rfl | rfl <;> rfl
  · obtain ⟨a, b, ha, -, rfl⟩ := h
    rw [List.append_assoc, List.append_assoc]
    exact Reader.atWordEnd_append_blank ha rfl

theorem OperandsSpelled.atWordEnd {n : Nat} {os : List (Option Operand)} {t r : Text}
    (h : OperandsSpelled n os t) (hr : Reader.atWordEnd r = true) :
    Reader.atWordEnd (t ++ r) = true := by
  cases h with
  | nil => exact hr
  | cons hsep _ _ =>
    rw [List.append_assoc, List.append_assoc]
    exact hsep.atWordEnd _

end Sentence

namespace Reader

open Sentence

/-- One operand behind its separator is read, and the others after it. -/
theorem operands_succ {n : Nat} {sep w : Text} {o : Option Operand} (hsep : Separates n sep)
    (ho : Operand.Spelled o w) (m : Nat) {r : Text} (hr : atWordEnd r = true) :
    operands (m + 1) n (sep ++ w ++ r) =
      (operands m (n + 1) r).map fun p => (o :: p.1, p.2) := by
  obtain ⟨c, hc, v, hw⟩ := ho.cons
  obtain ⟨hblank, hdash, -⟩ := Operand.mem_start hc
  have hread := ho.read hr
  have hskip {a : Text} (ha : Blank a) : Blanks.inline.skip (a ++ (w ++ r)) = w ++ r := by
    rw [hw]
    exact Blanks.skip_blank ha hblank _
  unfold Separates at hsep
  rw [List.append_assoc]
  by_cases hn : n = 0
  · rw [if_pos hn] at hsep
    have hcons : Blanks.inline.skip (sep ++ (w ++ r)) = c :: (v ++ r) := by
      rw [hskip hsep.1, hw, List.cons_append]
    rw [hw, List.cons_append] at hread
    simp only [operands, hcons, if_neg hdash, hn, ne_eq, not_true_eq_false, false_and, if_false,
      if_true, hread]
  · rw [if_neg hn] at hsep
    obtain ⟨a, b, ha, hb, rfl⟩ := hsep
    have hcomma : Blanks.inline.skip (a ++ ascii "," ++ b ++ (w ++ r)) =
        ','.toUInt8 :: (b ++ (w ++ r)) := by
      rw [List.append_assoc, List.append_assoc]
      exact Blanks.skip_blank ha (by decide) _
    have hne : ','.toUInt8 ≠ '-'.toUInt8 := by decide
    simp only [operands, hcomma, if_neg hne, ne_eq, not_true_eq_false, and_false, if_false, hn,
      hskip hb, hread]

/-- Operands that are spelled are read, and what is behind them after them. -/
theorem operands_append {n : Nat} {os : List (Option Operand)} {t : Text}
    (h : OperandsSpelled n os t) (k : Nat) {r : Text} (hr : atWordEnd r = true) :
    operands (os.length + k) n (t ++ r) =
      (operands k (n + os.length) r).map fun p => (os ++ p.1, p.2) := by
  induction h with
  | nil n => cases ho : operands k n r <;> simp [ho, Except.map]
  | @cons n o os sep w t hsep ho hos ih =>
    have hlen : (o :: os).length + k = os.length + k + 1 := by
      rw [List.length_cons]
      omega
    have hidx : n + (o :: os).length = n + 1 + os.length := by
      rw [List.length_cons]
      omega
    rw [hlen, hidx, List.append_assoc, operands_succ hsep ho _ (hos.atWordEnd hr), ih]
    cases operands k (n + 1 + os.length) r <;> rfl

/-- What stands before an operand that is read: blanks before the first one, and a comma before the
others. -/
theorem exists_separates {n : Nat} {t v : Text} {c : UInt8}
    (hskip : Blanks.inline.skip t = c :: v) (hcomma : ¬ (n ≠ 0 ∧ c ≠ ','.toUInt8))
    (ht : n = 0 → atWordEnd t = true) :
    ∃ sep, t = sep ++ (if n = 0 then c :: v else Blanks.inline.skip v) ∧
      (atWordEnd (if n = 0 then c :: v else Blanks.inline.skip v) = false → Separates n sep) := by
  obtain ⟨a, ha, hta⟩ := Blanks.exists_blank_skip t
  rw [hskip] at hta
  unfold Separates
  by_cases hn : n = 0
  · simp only [if_pos hn]
    refine ⟨a, hta, fun hend => ⟨ha, fun hnil => ?_⟩⟩
    rw [hnil, List.nil_append] at hta
    rw [← hta, ht hn] at hend
    cases hend
  · obtain ⟨b, hb, hvb⟩ := Blanks.exists_blank_skip v
    obtain rfl : c = ','.toUInt8 := by
      by_contra hc
      exact hcomma ⟨hn, hc⟩
    simp only [if_neg hn]
    refine ⟨a ++ ascii "," ++ b, ?_, fun _ => ⟨a, b, ha, hb, rfl⟩⟩
    rw [hta, List.append_assoc, List.append_assoc, ← hvb]
    rfl

/-- Operands that are read are spelled, with blanks behind them. -/
theorem exists_of_operands {count n : Nat} {t r : Text} {os : List (Option Operand)}
    (h : operands count n t = .ok (os, r)) (ht : n = 0 → atWordEnd t = true) :
    ∃ u b, OperandsSpelled n os u ∧ os.length ≤ count ∧ Blank b ∧ t = u ++ b ++ r := by
  induction count generalizing n t os with
  | zero =>
    obtain ⟨rfl, rfl⟩ : [] = os ∧ t = r := by simpa [operands] using h
    exact ⟨[], [], .nil n, le_rfl, blank_nil, rfl⟩
  | succ count ih =>
    obtain ⟨a, ha, hta⟩ := Blanks.exists_blank_skip t
    rw [operands] at h
    split at h
    next hskip =>
      obtain ⟨rfl, rfl⟩ : [] = os ∧ [] = r := by simpa using h
      exact ⟨[], a, .nil n, Nat.zero_le _, ha, by rw [hta, hskip]; simp⟩
    next c v hskip =>
      rw [hskip] at hta
      by_cases hdash : c = '-'.toUInt8
      · rw [if_pos hdash] at h
        obtain ⟨rfl, rfl⟩ : [] = os ∧ c :: v = r := by simpa using h
        exact ⟨[], a, .nil n, Nat.zero_le _, ha, hta⟩
      rw [if_neg hdash] at h
      by_cases hcomma : n ≠ 0 ∧ c ≠ ','.toUInt8
      · rw [if_pos hcomma] at h
        cases h
      rw [if_neg hcomma] at h
      obtain ⟨sep, ht', hsep⟩ := exists_separates hskip hcomma ht
      generalize (if n = 0 then c :: v else Blanks.inline.skip v) = start at h ht' hsep
      cases hread : Operand.read start with
      | error e => simp [hread] at h
      | ok p =>
        obtain ⟨o, r'⟩ := p
        obtain ⟨w, hw, rfl, -, hfalse⟩ := Operand.exists_of_read hread
        cases hrest : operands count (n + 1) r' with
        | error e => simp [hread, hrest, Except.map] at h
        | ok q =>
          obtain ⟨os', r''⟩ := q
          obtain ⟨rfl, rfl⟩ : o :: os' = os ∧ r'' = r := by
            simpa [hread, hrest, Except.map] using h
          obtain ⟨u, b, hu, hlen, hb, rfl⟩ := ih hrest (fun h => by omega)
          refine ⟨sep ++ w ++ u, b, .cons (hsep hfalse) hw hu, ?_, hb, ?_⟩
          · rw [List.length_cons]
            omega
          · rw [ht']
            simp only [List.append_assoc]

end Reader

end A32Lowering
