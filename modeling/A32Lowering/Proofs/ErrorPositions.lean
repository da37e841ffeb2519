import Mathlib
import A32Lowering.Proofs.LineEnds

/-!
# Where errors are reported

A program is read line by line, so that the lines of one text do not matter to those of another, and
an error is that of the first line that cannot be read alone. Within the line every reader stays in
the text it is given: what it leaves, and where it reports an error, is an end of that text. So a
column is one more than the length of what stands before that end.

## Main definitions

* `Reader.StaysIn` : a reader that leaves an end of its text, or reports an error there.
* `Program.FirstError` : an error at the first line of a text that cannot be read alone.

## Main results

* `Statement.staysIn_read`, `Program.readLine_suffix` : readers stay in their text.
* `Program.readLines_append` : reading lines behind other lines.
* `Program.read_by_lines` : how the texts of two programs are read together, and where an error is.
-/

namespace A32Lowering

open Text

/-! ### Readers stay in their text -/

namespace Reader

/-- What a reader leaves of its text, and where it reports an error, is an end of the text. -/
def StaysIn {α : Type} (left : α → Text) (t : Text) : Except Misread α → Prop
  | .ok a => left a <:+ t
  | .error e => e.rest <:+ t

section StaysIn

variable {α β : Type} {left : α → Text} {t u : Text} {r : Except Misread α}

theorem StaysIn.mono (h : StaysIn left u r) (hu : u <:+ t) : StaysIn left t r := by
  cases r with
  | ok a => exact List.IsSuffix.trans h hu
  | error e => exact List.IsSuffix.trans h hu

theorem StaysIn.map {f : α → β} {leftover : β → Text} (h : StaysIn left t r)
    (hf : ∀ a, leftover (f a) = left a) : StaysIn leftover t (r.map f) := by
  cases r with
  | ok a => exact List.IsSuffix.trans (hf a ▸ List.suffix_rfl) h
  | error e => exact h

end StaysIn

theorem skip_suffix (s : Blanks) (t : Text) : s.skip t <:+ t := List.dropWhile_suffix _

theorem word_suffix (t : Text) : (word t).2 <:+ t := ⟨(word t).1, word_append t⟩

end Reader

theorem Operand.read_suffix {t rest : Text} {s : Option Operand}
    (h : Operand.read t = .ok (s, rest)) : rest <:+ t := by
  rw [Operand.read] at h
  dsimp only at h
  split at h
  · cases h
  cases ho : Reader.operand (Reader.word t).1 with
  | error e => simp [ho, Except.map] at h
  | ok o =>
    obtain ⟨-, rfl⟩ : o = s ∧ (Reader.word t).2 = rest := by simpa [ho, Except.map] using h
    exact Reader.word_suffix t

namespace Reader

theorem staysIn_operands (count n : Nat) (t : Text) : StaysIn Prod.snd t (operands count n t) := by
  induction count generalizing n t with
  | zero => exact List.suffix_rfl
  | succ count ih =>
    have hskip := skip_suffix Blanks.inline t
    rw [operands]
    split
    · exact List.nil_suffix
    next c rest hc =>
    rw [hc] at hskip
    split
    · exact hskip
    split
    · exact hskip
    have hstart : (if n = 0 then c :: rest else Blanks.inline.skip rest) <:+ t := by
      split
      · exact hskip
      · exact ((skip_suffix _ rest).trans (List.suffix_cons c rest)).trans hskip
    dsimp only
    split
    · exact hstart
    next s left hread =>
      exact ((ih (n + 1) left).mono ((Operand.read_suffix hread).trans hstart)).map fun _ => rfl

theorem staysIn_block (t : Text) : StaysIn Prod.snd t (block t) := by
  rw [block]
  dsimp only
  split
  · exact List.suffix_rfl
  · exact word_suffix t

theorem staysIn_target (t : Text) : StaysIn Prod.snd t (target t) := by
  have hskip := skip_suffix Blanks.inline t
  rw [target]
  split
  next rest hrest =>
    have hafter : rest <:+ Blanks.inline.skip t := by
      rw [after?_eq_some_iff.1 hrest]
      exact List.suffix_append _ _
    exact (staysIn_block _).mono (((skip_suffix _ rest).trans hafter).trans hskip)
  · exact hskip

theorem staysIn_head (t : Text) : StaysIn (fun p => p.2.2) t (head t) := by
  have hword := (word_suffix (Blanks.inline.skip t)).trans (skip_suffix Blanks.inline t)
  rw [head]
  dsimp only
  split
  · exact List.suffix_rfl
  split
  · exact hword
  split
  · exact hword
  · exact hword

end Reader

theorem Statement.staysIn_read (t : Text) : Reader.StaysIn Prod.snd t (Statement.read t) := by
  have hhead := Reader.staysIn_head t
  rw [Statement.read]
  cases hh : Reader.head t with
  | error e => rwa [hh] at hhead
  | ok p =>
    obtain ⟨op, cond, rest⟩ := p
    rw [hh] at hhead
    dsimp only
    split
    · have hnext := (Reader.skip_suffix Blanks.inline rest).trans hhead
      exact ((Reader.staysIn_block _).mono hnext).map fun _ => rfl
    have hops := (Reader.staysIn_operands 3 0 rest).mono hhead
    cases ho : Reader.operands 3 0 rest with
    | error e => rwa [ho] at hops
    | ok q =>
      rw [ho] at hops
      exact ((Reader.staysIn_target q.2).mono hops).map fun _ => rfl

namespace Program

/-- An error in a line is reported at an end of the line. -/
theorem readLine_suffix {line : Text} {e : Misread} (h : readLine line = .error e) :
    e.rest <:+ line := by
  have hskip := Reader.skip_suffix Blanks.all line
  rw [readLine] at h
  split at h
  · cases h
  next c rest hc =>
  rw [hc] at hskip
  have hread := (Statement.staysIn_read (c :: rest)).mono hskip
  cases hs : Statement.read (c :: rest) with
  | error e' =>
    obtain rfl : e' = e := by simpa [hs] using h
    rwa [hs] at hread
  | ok p =>
    rw [hs] at hread
    rw [hs] at h
    dsimp only at h
    split at h
    · cases h
    · cases h
      exact (Reader.skip_suffix Blanks.all p.2).trans hread

/-! ### Lines after lines -/

/-- Lines behind others are read as they are alone, with their own numbers. -/
theorem readLines_append (n : Nat) (ls ms : List Text) : readLines n (ls ++ ms) =
    match readLines n ls with
    | .error e => .error e
    | .ok p => (readLines (n + ls.length) ms).map fun q => p ++ q := by
  induction ls generalizing n with
  | nil => cases hm : readLines n ms <;> simp [readLines, hm, Except.map]
  | cons l ls ih =>
    rw [List.cons_append, readLines, readLines]
    cases readLine (uncommented l) with
    | error e => rfl
    | ok x =>
      dsimp only
      rw [ih, List.length_cons, Nat.add_assoc, Nat.add_comm 1]
      cases readLines (n + 1) ls with
      | error e => rfl
      | ok p => cases readLines (n + (ls.length + 1)) ms <;> simp [Except.map]

/-- The number of the first line only counts in errors. -/
theorem readLines_add (n k : Nat) (ls : List Text) : readLines (k + n) ls =
    (readLines n ls).mapError fun e => { e with line := k + e.line } := by
  induction ls generalizing n with
  | nil => rfl
  | cons l ls ih =>
    rw [readLines, readLines]
    cases readLine (uncommented l) with
    | error e => rfl
    | ok x =>
      dsimp only
      rw [Nat.add_assoc, ih]
      cases readLines (n + 1) ls <;> rfl

/-- The error of some lines is that of the first line that cannot be read. -/
theorem exists_of_readLines_error {n : Nat} {ls : List Text} {e : ProgramError}
    (h : readLines n ls = .error e) : ∃ before line after m, ls = before ++ line :: after ∧
      (∀ l ∈ before, ∃ x, readLine (uncommented l) = .ok x) ∧
      readLine (uncommented line) = .error m ∧
      e = ⟨n + before.length, (uncommented line).length - m.rest.length + 1, m.cause⟩ := by
  induction ls generalizing n with
  | nil => cases h
  | cons l ls ih =>
    rw [readLines] at h
    cases hl : readLine (uncommented l) with
    | error m =>
      rw [hl] at h
      cases h
      exact ⟨[], l, ls, m, rfl, by simp, hl, rfl⟩
    | ok x =>
      cases hls : readLines (n + 1) ls with
      | ok p => simp [hl, hls, Except.map] at h
      | error e' =>
        obtain rfl : e' = e := by simpa [hl, hls, Except.map] using h
        obtain ⟨before, line, after, m, rfl, hbefore, hline, rfl⟩ := ih hls
        refine ⟨l :: before, line, after, m, rfl, ?_, hline, ?_⟩
        · exact List.forall_mem_cons.2 ⟨⟨x, hl⟩, hbefore⟩
        · rw [List.length_cons, Nat.add_assoc, Nat.add_comm 1]

/-- A text without a line feed is one line. -/
theorem read_of_notMem {l : Text} (hl : '\n'.toUInt8 ∉ l) : read l = readLines 1 [l] := by
  rw [read, lines, fields_of_notMem hl]

/-! ### Two texts, and the place of an error -/

/-- Two texts with a line feed between them are read one after the other. An error in the first one
stays as it is, and one in the second one is as many lines further down as the first one has. -/
theorem read_append (a b : Text) : read (a ++ '\n'.toUInt8 :: b) =
    match read a, read b with
    | .error e, _ => .error e
    | .ok _, .error e => .error { e with line := a.lines.length + e.line }
    | .ok p, .ok q => .ok (p ++ q) := by
  rw [read, lines_append, readLines_append, read, read, Nat.add_comm, readLines_add]
  cases readLines 1 a.lines with
  | error e => rfl
  | ok p => cases readLines 1 b.lines <;> rfl

/-- An error of a text is at its first line that cannot be read alone. All lines before it can be,
and it has the same error alone. The column is one more than the length of what stands before the
text at which the error is reported, an end of the line without its comment. -/
def FirstError (t : Text) (e : ProgramError) : Prop :=
  ∃ before line after, t.lines = before ++ line :: after ∧ e.line = before.length + 1 ∧
    (∀ l ∈ before, ∃ p, read l = .ok p) ∧ read line = .error { e with line := 1 } ∧
    (1 ≤ e.col ∧ e.col ≤ (uncommented line).length + 1) ∧
    ∃ front rest, uncommented line = front ++ rest ∧ e.col = front.length + 1 ∧
      readLine (uncommented line) = .error ⟨e.cause, rest⟩

theorem firstError_of_read {t : Text} {e : ProgramError} (h : read t = .error e) :
    FirstError t e := by
  obtain ⟨before, line, after, m, hlines, hbefore, hline, rfl⟩ := exists_of_readLines_error h
  have hfeed : ∀ l ∈ t.lines, '\n'.toUInt8 ∉ l := fun l hl => (subset_of_mem_lines hl).2
  rw [hlines, List.forall_mem_append, List.forall_mem_cons] at hfeed
  obtain ⟨front, hfront⟩ := readLine_suffix hline
  have hlength := congrArg List.length hfront
  rw [List.length_append] at hlength
  refine ⟨before, line, after, hlines, Nat.add_comm .., ?_, ?_, ⟨Nat.le_add_left 1 _, ?_⟩, front,
    m.rest, hfront.symm, ?_, hline⟩
  · intro l hl
    obtain ⟨x, hx⟩ := hbefore l hl
    rw [read_of_notMem (hfeed.1 l hl), readLines, hx]
    exact ⟨_, rfl⟩
  · rw [read_of_notMem hfeed.2.1, readLines, hline]
  · dsimp only
    omega
  · dsimp only
    omega

/-- Reading goes line by line: two texts with a line feed between them are read one after the other,
and an error is at the first line that cannot be read alone, within that line. -/
theorem read_by_lines :
    (∀ a b : Text, read (a ++ '\n'.toUInt8 :: b) =
      match read a, read b with
      | .error e, _ => .error e
      | .ok _, .error e => .error { e with line := a.lines.length + e.line }
      | .ok p, .ok q => .ok (p ++ q)) ∧
    ∀ (t : Text) (e : ProgramError), read t = .error e → FirstError t e :=
  ⟨read_append, fun _ _ h => firstError_of_read h⟩

/-- A text whose second line lacks a comma between its operands. -/
def commalessText : Text := ascii "mov r0, r1\nadd r0 r1 // sum"

theorem read_by_lines_commaless : read commalessText = .error ⟨2, 8, .commaExpected⟩ ∧
    FirstError commalessText ⟨2, 8, .commaExpected⟩ := by
  have h : read commalessText = .error ⟨2, 8, .commaExpected⟩ := by decide +kernel
  exact ⟨h, read_by_lines.2 commalessText _ h⟩

end Program

end A32Lowering
