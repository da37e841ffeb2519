import Mathlib
import A32Lowering.Proofs.Sentences

/-!
# Lines that end with a carriage return

With a carriage return before every line feed, each line but the last one gets one more byte. Behind
a comment it is not read, on a blank line and behind a closed sentence it is skipped. Behind a
sentence to which an operand could be added it is taken for the start of one, and the text is not
read at all.

## Main definitions

* `Text.returned` : the text with a carriage return before every line feed.
* `Text.BearsReturn` : a line behind which a carriage return does no harm.

## Main results

* `Text.lines_returned` : the lines of such a text.
* `Sentence.Spelled.read_return`, `Sentence.Spelled.readLine_open` : a sentence that is not closed
  is not read before a carriage return.
* `Program.read_returned_iff` : when a text is still read with carriage returns, and as what.
-/

namespace A32Lowering

open Text

namespace Text

/-- The text with a carriage return before every line feed. -/
def returned (t : Text) : Text :=
  t.flatMap fun b => if b = '\n'.toUInt8 then ['\r'.toUInt8, '\n'.toUInt8] else [b]

/-- A carriage return can follow on a line that has a comment, is blank, or holds a sentence to
which nothing can be added. -/
def BearsReturn (line : Text) : Prop :=
  ascii "//" <:+: line ∨ Blank line ∨ ∃ s : Sentence, s.IsClosed ∧ s.FillsLine line

/-- A text is one line, or a line before a line feed and another text. -/
@[elab_as_elim]
theorem lines_induction {motive : Text → Prop} (last : ∀ l, '\n'.toUInt8 ∉ l → motive l)
    (line : ∀ l t, '\n'.toUInt8 ∉ l → motive t → motive (l ++ '\n'.toUInt8 :: t)) (t : Text) :
    motive t := by
  cases hcut : cut '\n'.toUInt8 t with
  | none => exact last t (cut_eq_none_iff.mp hcut)
  | some p =>
    obtain ⟨ht, hl⟩ := cut_eq_some_iff.mp hcut
    rw [ht]
    exact line p.1 p.2 hl (lines_induction last line p.2)
termination_by t.length
decreasing_by
  rw [ht, List.length_append, List.length_cons]
  omega

/-- The lines of a text that starts with one. -/
theorem lines_line {l : Text} (hl : '\n'.toUInt8 ∉ l) (t : Text) :
    lines (l ++ '\n'.toUInt8 :: t) = l :: lines t := by
  rw [lines_append, lines, fields_of_notMem hl, List.singleton_append]

/-- The bytes of a line are bytes of the text, and none of them is a line feed. -/
theorem subset_of_mem_lines {t l : Text} (h : l ∈ t.lines) : l ⊆ t ∧ '\n'.toUInt8 ∉ l := by
  induction t using lines_induction with
  | last m hm =>
    rw [lines, fields_of_notMem hm] at h
    obtain rfl := List.mem_singleton.mp h
    exact ⟨List.Subset.refl l, hm⟩
  | line m t hm ih =>
    rw [lines_line hm, List.mem_cons] at h
    rcases h with rfl | h
    · exact ⟨List.subset_append_left _ _, hm⟩
    · obtain ⟨hsub, hn⟩ := ih h
      refine ⟨fun b hb => ?_, hn⟩
      exact List.mem_append_right _ (List.mem_cons_of_mem _ (hsub hb))

theorem returned_append (a b : Text) : (a ++ b).returned = a.returned ++ b.returned :=
  List.flatMap_append

theorem returned_of_notMem {l : Text} (hl : '\n'.toUInt8 ∉ l) : l.returned = l := by
  induction l with
  | nil => rfl
  | cons c l ih =>
    rw [List.mem_cons, not_or] at hl
    rw [returned, List.flatMap_cons, if_neg (Ne.symm hl.1), List.singleton_append]
    exact congrArg _ (ih hl.2)

/-- All lines but the last one get a carriage return. -/
theorem lines_returned (t : Text) : ∃ ls l, t.lines = ls ++ [l] ∧
    t.returned.lines = ls.map (· ++ ['\r'.toUInt8]) ++ [l] := by
  induction t using lines_induction with
  | last l hl =>
    have hlines : lines l = [] ++ [l] := fields_of_notMem hl
    exact ⟨[], l, hlines, by rw [returned_of_notMem hl, hlines]; rfl⟩
  | line m t hm ih =>
    obtain ⟨ls, l, ht, hreturned⟩ := ih
    have hreturn : '\n'.toUInt8 ∉ m ++ ['\r'.toUInt8] := by
      rw [List.mem_append, not_or]
      exact ⟨hm, by decide⟩
    have htext : (m ++ '\n'.toUInt8 :: t).returned =
        (m ++ ['\r'.toUInt8]) ++ '\n'.toUInt8 :: t.returned := by
      rw [returned_append, returned_of_notMem hm, List.append_assoc]
      rfl
    refine ⟨m :: ls, l, ?_, ?_⟩
    · rw [lines_line hm, ht, List.cons_append]
    · rw [htext, lines_line hreturn, hreturned, List.map_cons, List.cons_append]

end Text

/-! ### Sentences before a carriage return -/

/-- Where an operand could follow, a carriage return is an error. -/
theorem Reader.operands_return {b : Text} (hb : Blank b) (k n : Nat) :
    ∃ e, Reader.operands (k + 1) n (b ++ ['\r'.toUInt8]) = .error e := by
  have hskip : Blanks.inline.skip (b ++ ['\r'.toUInt8]) = ['\r'.toUInt8] :=
    Blanks.skip_blank hb (by decide) []
  have hdash : '\r'.toUInt8 ≠ '-'.toUInt8 := by decide
  have hcomma : '\r'.toUInt8 ≠ ','.toUInt8 := by decide
  rw [Reader.operands, hskip]
  by_cases hn : n = 0
  · subst hn
    exact ⟨_, rfl⟩
  · simp [hdash, hcomma, hn]

namespace Sentence

/-- A sentence that is not closed is not read before a carriage return. -/
theorem Spelled.read_return {s : Sentence} {t b : Text} (h : s.Spelled t) (hopen : ¬ s.IsClosed)
    (hb : Blank b) : ∃ e, Statement.read (t ++ (b ++ ['\r'.toUInt8])) = .error e := by
  have hr : Trailing (b ++ ['\r'.toUInt8]) :=
    List.forall_mem_append.mpr ⟨hb.trailing, by simp⟩
  cases h with
  | short => exact absurd (.inr rfl) hopen
  | @full op cond os block h t u hh hos hlen hu =>
    cases hu with
    | arrow => exact absurd (.inr rfl) hopen
    | none =>
      have hend := hos.atWordEnd hr.atWordEnd
      obtain ⟨k, hk⟩ : ∃ k, 3 = os.length + (k + 1) := by
        have hthree : os.length ≠ 3 := fun h => hopen (.inl h)
        exact ⟨2 - os.length, by omega⟩
      obtain ⟨e, he⟩ := Reader.operands_return hb k (0 + os.length)
      have hops : Reader.operands 3 0 (t ++ (b ++ ['\r'.toUInt8])) = .error e := by
        rw [hk, Reader.operands_append hos _ hr.atWordEnd, he]
        rfl
      have hhead : Reader.head (h ++ t ++ [] ++ (b ++ ['\r'.toUInt8])) =
          .ok (op, cond, t ++ (b ++ ['\r'.toUInt8])) := by
        simp only [List.append_assoc, List.nil_append]
        exact hh.read hend
      have hdigit := not_isDigit_skip hos .none hr
      rw [List.nil_append] at hdigit
      refine ⟨e, ?_⟩
      simp only [Statement.read, hhead, hdigit, Bool.false_eq_true, and_false, if_false, hops]

/-- Nor is the line with it. -/
theorem Spelled.readLine_open {s : Sentence} {a t b : Text} (ha : Blank a) (h : s.Spelled t)
    (hopen : ¬ s.IsClosed) (hb : Blank b) :
    ∃ e, Program.readLine (a ++ t ++ b ++ ['\r'.toUInt8]) = .error e := by
  obtain ⟨e, he⟩ := h.read_return hopen hb
  obtain ⟨c, u, rfl, hc⟩ := h.cons
  have hskip : Blanks.all.skip (a ++ (c :: u) ++ b ++ ['\r'.toUInt8]) =
      c :: (u ++ (b ++ ['\r'.toUInt8])) := by
    simp only [List.append_assoc]
    rw [Blanks.skip_append (Blanks.all_contains_of_blank ha), List.cons_append,
      Blanks.skip_cons hc]
  rw [List.cons_append] at he
  exact ⟨e, by simp only [Program.readLine, hskip, he]⟩

end Sentence

/-! ### Lines before a carriage return -/

namespace Program

/-- A carriage return behind a comment belongs to it. -/
theorem uncommented_return (line : Text) : uncommented (line ++ ['\r'.toUInt8]) =
    if ascii "//" <:+: line then uncommented line else line ++ ['\r'.toUInt8] := by
  obtain ⟨-, hno⟩ | ⟨comment, hline, hk⟩ := uncommented_uncommented line
  · rw [if_neg hno]
    refine uncommented_eq_of_uncommented (.inl ⟨rfl, ?_⟩)
    rw [List.infix_concat_iff, not_or]
    refine ⟨?_, hno⟩
    rintro ⟨u, hu⟩
    have hlast : u ++ ascii "/" ++ ascii "/" = line ++ ['\r'.toUInt8] := by
      rw [List.append_assoc]
      exact hu
    exact absurd (List.append_inj' hlast rfl).2 (by decide)
  · have hyes : ascii "//" <:+: line := ⟨uncommented line, comment, hline.symm⟩
    rw [if_pos hyes]
    refine uncommented_eq_of_uncommented (.inr ⟨comment ++ ['\r'.toUInt8], ?_, hk⟩)
    rw [← List.append_assoc, ← hline]

/-- A blank line stays blank, and behind a closed sentence the carriage return is skipped. -/
theorem readLine_return {line : Text} (hr : '\r'.toUInt8 ∉ line) (hn : '\n'.toUInt8 ∉ line)
    {x : Option Statement} (h : readLine line = .ok x)
    (hbears : Blank line ∨ ∃ s : Sentence, s.IsClosed ∧ s.FillsLine line) :
    readLine (line ++ ['\r'.toUInt8]) = .ok x := by
  rcases hbears with hblank | ⟨s, hclosed, a, t, b, ha, ht, hb, rfl⟩
  · rw [(Sentence.readLine_eq_none_iff hr hn).mpr hblank] at h
    have hskip : Blanks.all.skip (line ++ ['\r'.toUInt8]) = [] := by
      rw [Blanks.skip_append (Blanks.all_contains_of_blank hblank)]
      rfl
    simp only [readLine, hskip]
    exact h
  · rw [ht.readLine ha hb.trailing (.inl hclosed)] at h
    rw [List.append_assoc, ← h]
    exact ht.readLine ha (List.forall_mem_append.mpr ⟨hb.trailing, by simp⟩) (.inl hclosed)

/-- On a line that is read a carriage return can follow exactly if the line bears it, and what is
read stays the same. -/
theorem readLine_uncommented_return {line : Text} (hr : '\r'.toUInt8 ∉ line)
    (hn : '\n'.toUInt8 ∉ line) {x y : Option Statement} (h : readLine (uncommented line) = .ok x) :
    readLine (uncommented (line ++ ['\r'.toUInt8])) = .ok y ↔ BearsReturn line ∧ y = x := by
  rw [uncommented_return]
  by_cases hcomment : ascii "//" <:+: line
  · rw [if_pos hcomment, h, Except.ok.injEq]
    exact ⟨fun hxy => ⟨.inl hcomment, hxy.symm⟩, fun hxy => hxy.2.symm⟩
  rw [if_neg hcomment]
  rw [uncommented_eq_of_uncommented (.inl ⟨rfl, hcomment⟩)] at h
  constructor
  · intro hy
    have hbears : Blank line ∨ ∃ s : Sentence, s.IsClosed ∧ s.FillsLine line := by
      rcases x with _ | x
      · exact .inl ((Sentence.readLine_eq_none_iff hr hn).mp h)
      obtain ⟨s, -, hs⟩ := (Sentence.readLine_eq_some_iff hr hn).mp h
      refine .inr ⟨s, ?_, hs⟩
      by_contra hopen
      obtain ⟨a, t, b, ha, ht, hb, rfl⟩ := hs
      obtain ⟨e, he⟩ := ht.readLine_open ha hopen hb
      cases he.symm.trans hy
    rw [readLine_return hr hn h hbears] at hy
    exact ⟨.inr hbears, (Except.ok.inj hy).symm⟩
  · rintro ⟨hbears, rfl⟩
    exact readLine_return hr hn h (hbears.resolve_left hcomment)

/-! ### Texts with carriage returns -/

/-- Lines that are read, with carriage returns behind all but the last one. -/
theorem readLines_return {ls : List Text}
    (hls : ∀ line ∈ ls, '\r'.toUInt8 ∉ line ∧ '\n'.toUInt8 ∉ line) {n : Nat} {l : Text}
    {p q : Program} (h : readLines n (ls ++ [l]) = .ok p) :
    readLines n (ls.map (· ++ ['\r'.toUInt8]) ++ [l]) = .ok q ↔
      (∀ line ∈ ls, BearsReturn line) ∧ q = p := by
  induction ls generalizing n p q with
  | nil =>
    rw [List.nil_append] at h
    rw [List.map_nil, List.nil_append, h, Except.ok.injEq]
    simp [eq_comm]
  | cons line ls ih =>
    obtain ⟨⟨hr, hn⟩, hls⟩ := List.forall_mem_cons.mp hls
    rw [List.cons_append, readLines] at h
    cases hx : readLine (uncommented line) with
    | error e => simp [hx] at h
    | ok x =>
      cases hp : readLines (n + 1) (ls ++ [l]) with
      | error e => simp [hx, hp, Except.map] at h
      | ok p' =>
        obtain rfl : x.toList ++ p' = p := by simpa [hx, hp, Except.map] using h
        rw [List.map_cons, List.cons_append, readLines, List.forall_mem_cons]
        cases hy : readLine (uncommented (line ++ ['\r'.toUInt8])) with
        | error e =>
          have hno : ¬ BearsReturn line := fun hb =>
            absurd ((readLine_uncommented_return hr hn hx).mpr ⟨hb, rfl⟩) (by simp [hy])
          simp [hno]
        | ok y =>
          obtain ⟨hb, rfl⟩ := (readLine_uncommented_return hr hn hx).mp hy
          cases hq : readLines (n + 1) (ls.map (· ++ ['\r'.toUInt8]) ++ [l]) with
          | error e =>
            have hno : ¬ ∀ line ∈ ls, BearsReturn line := fun hall =>
              absurd ((ih hls hp).mpr ⟨hall, rfl⟩) (by simp [hq])
            simp [hno, Except.map]
          | ok q' =>
            obtain ⟨hall, rfl⟩ := (ih hls hp).mp hq
            simp only [Except.map, Except.ok.injEq]
            exact ⟨fun h => ⟨⟨hb, hall⟩, h.symm⟩, fun h => h.2.symm⟩

/-- A text without carriage returns that is read can get one before every line feed exactly if all
lines but the last one bear it; and then it is read as the same program. -/
theorem read_returned_iff {t : Text} {p q : Program} (hr : '\r'.toUInt8 ∉ t)
    (h : Program.read t = .ok p) :
    Program.read t.returned = .ok q ↔ (∀ line ∈ t.lines.dropLast, BearsReturn line) ∧ q = p := by
  obtain ⟨ls, l, hlines, hreturned⟩ := lines_returned t
  rw [Program.read, hlines] at h
  rw [Program.read, hreturned, hlines, List.dropLast_concat]
  refine readLines_return (fun line hline => ?_) h
  obtain ⟨hsub, hn⟩ := subset_of_mem_lines (hlines ▸ List.mem_append_left [l] hline)
  exact ⟨fun hmem => hr (hsub hmem), hn⟩

/-- A text whose lines all end with a comment, a block number, a third operand or nothing, the last
line apart. -/
def closedText : Text :=
  ascii "label 1\n\n  mov r0, r1 // copy\nadd r0,r0,#1 \n\tcondjmp.ab -> 0b1\nnop"

theorem read_returned_iff_closed :
    '\r'.toUInt8 ∉ closedText ∧ (∃ p, Program.read closedText = .ok p) ∧
      ∀ line ∈ closedText.lines.dropLast, BearsReturn line := by
  have hr : '\r'.toUInt8 ∉ closedText := by decide +kernel
  have hsame : ∃ p, Program.read closedText = .ok p ∧ Program.read closedText.returned = .ok p := by
    refine ⟨[{ op := .label, block := 1 },
      { op := .mov, dst := some (.register 0), src1 := some (.register 1) },
      { op := .add, dst := some (.register 0), src1 := some (.register 0),
        src2 := some (.constant 1) },
      { op := .condjmp, cond := .ab, block := 1 }, { op := .nop }], ?_⟩
    decide +kernel
  obtain ⟨p, hp, hreturned⟩ := hsame
  exact ⟨hr, ⟨p, hp⟩, ((read_returned_iff hr hp).mp hreturned).1⟩

/-- A move of two registers can have a third operand, so that a carriage return behind it is not
skipped. -/
theorem read_returned_move :
    Program.read (ascii "mov r0, r1\n") =
        .ok [{ op := .mov, dst := some (.register 0), src1 := some (.register 1) }] ∧
      (ascii "mov r0, r1\n").returned = ascii "mov r0, r1\r\n" ∧
      Program.read (ascii "mov r0, r1\r\n") = .error ⟨1, 11, .commaExpected⟩ := by
  decide +kernel

end Program

end A32Lowering
