import Mathlib
import A32Lowering.Proofs.Grammar

/-!
# Lines are read by their grammar

Sentences are read as the statements that they make, and whatever is read is a sentence. Behind a
sentence to which something could be added only blanks may follow; behind a closed one a carriage
return does no harm.

## Main results

* `Reader.head_eq_ok_iff`, `Reader.target_of_spelled`, `Reader.exists_of_target` : head words and
  block numbers.
* `Sentence.Spelled.read`, `Sentence.exists_of_read` : sentences are read, and what is read is a
  sentence.
* `Sentence.readLine_eq_some_iff`, `Sentence.readLine_eq_none_iff` : what is read on a line.
* `Program.read_line_iff` : the grammar of a line is exact.
-/

namespace A32Lowering

open Text

/-! ### Head words and block numbers -/

namespace Sentence

theorem HeadSpelled.solid {op : Op} {cond : Condition} {w : Text} (h : HeadSpelled op cond w) :
    w.Solid := by
  have hdot : (ascii ".").Solid := by decide
  cases h with
  | plain _ => exact op.solid_name
  | dotted _ => exact solid_append.mpr ⟨op.solid_name, hdot⟩
  | conditional _ _ =>
    exact solid_append.mpr ⟨solid_append.mpr ⟨op.solid_name, hdot⟩, cond.solid_name⟩

theorem HeadSpelled.exists_append {op : Op} {cond : Condition} {w : Text}
    (h : HeadSpelled op cond w) : ∃ v, w = ascii op.name ++ v := by
  cases h with
  | plain _ => exact ⟨[], (List.append_nil _).symm⟩
  | dotted _ => exact ⟨_, rfl⟩
  | conditional _ _ => exact ⟨_, List.append_assoc _ _ _⟩

/-- A head word is cut at its dot. -/
theorem HeadSpelled.cut_dot {op : Op} {cond : Condition} {w : Text} (h : HeadSpelled op cond w) :
    op ∈ Op.named ∧ (cond = .none ∨ cond ∈ Condition.named) ∧
      (cut '.'.toUInt8 w).getD (w, []) = (ascii op.name, ascii cond.name) := by
  cases h with
  | plain h =>
    refine ⟨h, .inl rfl, ?_⟩
    rw [cut_eq_none_iff.mpr op.dot_notMem_name]
    rfl
  | dotted h =>
    have hcut : cut '.'.toUInt8 (ascii op.name ++ ascii ".") = some (ascii op.name, []) :=
      cut_eq_some_iff.mpr ⟨rfl, op.dot_notMem_name⟩
    refine ⟨h, .inl rfl, ?_⟩
    rw [hcut]
    rfl
  | conditional h hc =>
    refine ⟨h, .inr hc, ?_⟩
    rw [cut_eq_some_iff.mpr ⟨List.append_assoc _ _ _, op.dot_notMem_name⟩]
    rfl

end Sentence

namespace Reader

open Sentence

theorem ofName?_eq_some_iff {w : Text} {op : Op} :
    Op.ofName? w = some op ↔ op ∈ Op.named ∧ w = ascii op.name := by
  constructor
  · intro h
    have hname := List.find?_some h
    exact ⟨List.mem_of_find?_eq_some h, (beq_iff_eq.mp hname).symm⟩
  · rintro ⟨h, rfl⟩
    rw [Op.ofName?_name, if_pos h]

theorem conditionOfName?_eq_some_iff {w : Text} {c : Condition} :
    Condition.ofName? w = some c ↔ c ∈ Condition.named ∧ w = ascii c.name := by
  constructor
  · intro h
    have hname := List.find?_some h
    exact ⟨List.mem_of_find?_eq_some h, (beq_iff_eq.mp hname).symm⟩
  · rintro ⟨h, rfl⟩
    rw [Condition.ofName?_name, if_pos h]

/-- A head word is read exactly if it is spelled and a word can end behind it. -/
theorem head_eq_ok_iff {t r : Text} {op : Op} {cond : Condition} :
    head t = .ok (op, cond, r) ↔
      ∃ w, HeadSpelled op cond w ∧ Blanks.inline.skip t = w ++ r ∧ atWordEnd r = true := by
  constructor
  · intro h
    rcases hword : word (Blanks.inline.skip t) with ⟨w, rest⟩
    have happ := word_append (Blanks.inline.skip t)
    have hend := atWordEnd_word (Blanks.inline.skip t)
    rw [head, hword] at h
    rw [hword] at happ hend
    rcases hcut : cut '.'.toUInt8 w with _ | ⟨name, cond'⟩
    · simp only [hcut, Option.getD_none] at h
      cases hop : Op.ofName? w with
      | none => simp [hop] at h
      | some op' =>
        obtain ⟨rfl, rfl, rfl⟩ : op' = op ∧ .none = cond ∧ rest = r := by simpa [hop] using h
        obtain ⟨hnamed, rfl⟩ := ofName?_eq_some_iff.mp hop
        exact ⟨_, .plain hnamed, happ.symm, hend⟩
    · obtain ⟨hw, -⟩ := cut_eq_some_iff.mp hcut
      simp only [hcut, Option.getD_some] at h
      cases hop : Op.ofName? name with
      | none => simp [hop] at h
      | some op' =>
        obtain ⟨hnamed, rfl⟩ := ofName?_eq_some_iff.mp hop
        by_cases hnil : cond' = []
        · obtain ⟨rfl, rfl, rfl⟩ : op' = op ∧ .none = cond ∧ rest = r := by
            simpa [hop, hnil] using h
          subst hnil
          exact ⟨_, .dotted hnamed, happ.symm.trans (by rw [hw]; rfl), hend⟩
        · cases hc : Condition.ofName? cond' with
          | none => simp [hop, hnil, hc] at h
          | some c =>
            obtain ⟨rfl, rfl, rfl⟩ : op' = op ∧ c = cond ∧ rest = r := by
              simpa [hop, hnil, hc] using h
            obtain ⟨hcond, rfl⟩ := conditionOfName?_eq_some_iff.mp hc
            refine ⟨_, .conditional hnamed hcond, happ.symm.trans ?_, hend⟩
            rw [hw, List.append_assoc _ (ascii ".")]
            rfl
  · rintro ⟨w, hw, hskip, hend⟩
    have hword := word_solid hw.solid hend
    obtain ⟨hop, hcond, hcut⟩ := hw.cut_dot
    rw [head, hskip, hword]
    simp only [hcut, Op.ofName?_name, if_pos hop]
    rcases hcond with rfl | hcond
    · rfl
    · have hne : ascii cond.name ≠ [] := by
        refine Condition.name_ne_nil ?_
        rintro rfl
        exact absurd hcond (by decide)
      simp [hne, Condition.ofName?_name, hcond]

/-- A block number that is spelled is read if a word can end behind it. -/
theorem block_of_spells {w r : Text} {n : Nat} (h : Numeral.Spells w n) (hn : n < 2 ^ 32)
    (hr : atWordEnd r = true) : block (w ++ r) = .ok (UInt32.ofNat n, r) := by
  rw [block, word_solid h.solid hr]
  simp only [Numeral.unsigned_eq_ok_iff.mpr ⟨h, hn⟩]

/-- A block number that is read is spelled. -/
theorem exists_of_block {t r : Text} {b : UInt32} (h : block t = .ok (b, r)) :
    ∃ w n, Numeral.Spells w n ∧ n < 2 ^ 32 ∧ b = UInt32.ofNat n ∧ t = w ++ r := by
  rcases hword : word t with ⟨w, rest⟩
  have happ := word_append t
  rw [block, hword] at h
  rw [hword] at happ
  cases hw : Numeral.unsigned 32 w with
  | error e => simp [hw] at h
  | ok n =>
    obtain ⟨rfl, rfl⟩ : UInt32.ofNat n = b ∧ rest = r := by simpa [hw] using h
    obtain ⟨hs, hn⟩ := Numeral.unsigned_eq_ok_iff.mp hw
    exact ⟨w, n, hs, hn, rfl, happ.symm⟩

/-- Blanks before an arrow do not count. -/
theorem target_congr {t u : Text} (h : Blanks.inline.skip t = Blanks.inline.skip u) :
    target t = target u := by
  rw [target, target, h]

/-- A block number behind an arrow that is spelled is read; without one only blanks are skipped. -/
theorem target_of_spelled {block : Option UInt32} {u r : Text} (hu : TargetSpelled block u)
    (hr : Trailing r) : ∃ r', target (u ++ r) = .ok (block.getD 0, r') ∧ r' <:+ r := by
  cases hu with
  | none =>
    have hnone : after? (ascii "->") (Blanks.inline.skip r) = none := by
      rw [Option.eq_none_iff_forall_ne_some]
      intro v hv
      have hmem : '-'.toUInt8 ∈ r := by
        refine (List.dropWhile_suffix Blanks.inline.contains).subset ?_
        rw [show r.dropWhile Blanks.inline.contains = _ from after?_eq_some_iff.mp hv]
        exact List.mem_cons_self
      exact absurd (hr _ hmem) (by decide)
    refine ⟨Blanks.inline.skip r, ?_, List.dropWhile_suffix _⟩
    rw [List.nil_append, target, hnone]
    rfl
  | @arrow a b w n ha hb h hn =>
    obtain ⟨c, v, hw, hc⟩ := h.head
    have hskip : Blanks.inline.skip (a ++ ascii "->" ++ b ++ w ++ r) =
        ascii "->" ++ (b ++ (w ++ r)) := by
      simp only [List.append_assoc]
      exact Blanks.skip_blank ha (by decide) _
    have hnum : Blanks.inline.skip (b ++ (w ++ r)) = w ++ r := by
      rw [hw]
      exact Blanks.skip_blank hb (Blanks.contains_of_isDigit hc) _
    refine ⟨r, ?_, List.suffix_rfl⟩
    rw [target, hskip, after?_eq_some_iff.mpr rfl]
    simp only [hnum]
    exact block_of_spells h hn hr.atWordEnd

/-- What is read behind the operands is spelled, with blanks behind it. -/
theorem exists_of_target {t r : Text} {b : UInt32} (h : target t = .ok (b, r)) :
    ∃ block u v, TargetSpelled block u ∧ b = block.getD 0 ∧ Blank v ∧ t = u ++ v ++ r := by
  obtain ⟨a, ha, hta⟩ := Blanks.exists_blank_skip t
  rw [target] at h
  cases harrow : after? (ascii "->") (Blanks.inline.skip t) with
  | none =>
    obtain ⟨rfl, rfl⟩ : 0 = b ∧ Blanks.inline.skip t = r := by simpa [harrow] using h
    exact ⟨none, [], a, .none, rfl, ha, hta⟩
  | some rest =>
    simp only [harrow] at h
    obtain ⟨a', ha', hrest⟩ := Blanks.exists_blank_skip rest
    obtain ⟨w, n, hw, hn, rfl, hnum⟩ := exists_of_block h
    refine ⟨_, _, [], .arrow ha ha' hw hn, rfl, blank_nil, ?_⟩
    rw [hta, after?_eq_some_iff.mp harrow, hrest, hnum]
    simp only [List.append_assoc, List.nil_append]

/-- The operands end at a block number, at the end of the line, and after the third one. -/
theorem operands_of_target {block : Option UInt32} {u r : Text} (hu : TargetSpelled block u)
    {k : Nat} (hk : k = 0 ∨ block.isSome ∨ Blank r) (n : Nat) :
    ∃ v, operands k n (u ++ r) = .ok ([], v) ∧
      Blanks.inline.skip v = Blanks.inline.skip (u ++ r) := by
  cases k with
  | zero => exact ⟨u ++ r, rfl, rfl⟩
  | succ k =>
    cases hu with
    | none =>
      have hblank : Blank r := by simpa using hk
      have hskip : Blanks.inline.skip r = [] :=
        Blanks.skip_eq_nil_iff.mpr (Blanks.blank_iff.mp hblank)
      exact ⟨[], by simp [operands, hskip], hskip.symm⟩
    | @arrow a b w n ha hb h hn =>
      have hdash : Blanks.inline.contains '-'.toUInt8 = false := by decide
      have hskip : Blanks.inline.skip (a ++ ascii "->" ++ b ++ w ++ r) =
          '-'.toUInt8 :: ('>'.toUInt8 :: (b ++ (w ++ r))) := by
        simp only [List.append_assoc]
        exact Blanks.skip_blank ha hdash _
      refine ⟨'-'.toUInt8 :: ('>'.toUInt8 :: (b ++ (w ++ r))), ?_, ?_⟩
      · simp only [operands, hskip, if_true]
      · rw [hskip, Blanks.skip_cons hdash]

end Reader

/-! ### Statements -/

namespace Sentence

theorem TargetSpelled.atWordEnd {block : Option UInt32} {u r : Text} (h : TargetSpelled block u)
    (hr : Reader.atWordEnd r = true) : Reader.atWordEnd (u ++ r) = true := by
  cases h with
  | none => exact hr
  | arrow ha _ _ _ =>
    simp only [List.append_assoc]
    exact Reader.atWordEnd_append_blank ha rfl

/-- Behind the head word no number stands alone. -/
theorem not_isDigit_skip {os : List (Option Operand)} {block : Option UInt32} {t u r : Text}
    (ht : OperandsSpelled 0 os t) (hu : TargetSpelled block u) (hr : Trailing r) :
    (Blanks.inline.skip (t ++ (u ++ r))).head?.any isDigit = false := by
  cases ht with
  | nil =>
    cases hu with
    | none =>
      rw [List.nil_append, List.nil_append]
      rcases hskip : Blanks.inline.skip r with _ | ⟨c, v⟩
      · rfl
      · have hmem : c ∈ r := by
          refine (List.dropWhile_suffix Blanks.inline.contains).subset ?_
          rw [show r.dropWhile Blanks.inline.contains = c :: v from hskip]
          exact List.mem_cons_self
        rcases hr c hmem with rfl | rfl | rfl <;> rfl
    | arrow ha _ _ _ =>
      simp only [List.append_assoc, List.nil_append]
      rw [Blanks.skip_append (Blanks.blank_iff.mp ha)]
      rfl
  | cons hsep ho _ =>
    obtain ⟨c, hc, v, rfl⟩ := ho.cons
    obtain ⟨hb, -, hd⟩ := Operand.mem_start hc
    rw [Separates, if_pos rfl] at hsep
    simp only [List.append_assoc]
    rw [List.cons_append, Blanks.skip_blank hsep.1 hb]
    simpa using hd

/-- A head word starts with a byte that is never skipped. -/
theorem HeadSpelled.cons {op : Op} {cond : Condition} {w : Text} (h : HeadSpelled op cond w) :
    ∃ c u, w = c :: u ∧ Blanks.all.contains c = false := by
  obtain ⟨c, u, hc, -, hb⟩ := op.name_cons
  obtain ⟨v, rfl⟩ := h.exists_append
  rw [hc]
  exact ⟨c, _, rfl, hb⟩

/-- A head word is read if a word can end behind it. -/
theorem HeadSpelled.read {op : Op} {cond : Condition} {w r : Text} (h : HeadSpelled op cond w)
    (hr : Reader.atWordEnd r = true) : Reader.head (w ++ r) = .ok (op, cond, r) := by
  refine Reader.head_eq_ok_iff.mpr ⟨w, h, ?_, hr⟩
  obtain ⟨c, u, rfl, hc⟩ := h.cons
  exact Blanks.skip_cons (Blanks.inline_contains_of_all hc) _

/-- A sentence starts with its head word. -/
theorem Spelled.cons {s : Sentence} {t : Text} (h : s.Spelled t) :
    ∃ c u, t = c :: u ∧ Blanks.all.contains c = false := by
  cases h with
  | short _ hh _ _ _ _ =>
    obtain ⟨c, u, rfl, hc⟩ := hh.cons
    exact ⟨c, _, rfl, hc⟩
  | full hh _ _ _ =>
    obtain ⟨c, u, rfl, hc⟩ := hh.cons
    exact ⟨c, _, rfl, hc⟩

/-- A sentence is read as the statement that it makes. If more could be written behind it, no
carriage return may follow. -/
theorem Spelled.read {s : Sentence} {t r : Text} (h : s.Spelled t) (hr : Trailing r)
    (hclosed : s.IsClosed ∨ Blank r) :
    ∃ r', Statement.read (t ++ r) = .ok (s.statement, r') ∧ r' <:+ r := by
  cases h with
  | @short op cond h b w n hop hh hb hne hw hn =>
    obtain ⟨c, v, hwc, hc⟩ := hw.head
    have hnext : Blanks.inline.skip (b ++ (w ++ r)) = w ++ r := by
      rw [hwc]
      exact Blanks.skip_blank hb (Blanks.contains_of_isDigit hc) _
    have hhead : Reader.head (h ++ b ++ w ++ r) = .ok (op, cond, b ++ (w ++ r)) := by
      simp only [List.append_assoc]
      exact hh.read (Separates.atWordEnd (n := 0) ⟨hb, hne⟩ _)
    have hdigit : (w ++ r).head?.any isDigit = true := by simp [hwc, hc]
    refine ⟨r, ?_, List.suffix_rfl⟩
    simp only [Statement.read, hhead, hnext, hop, hdigit, and_self, if_true,
      Reader.block_of_spells hw hn hr.atWordEnd, Except.map]
    rfl
  | @full op cond os block h t u hh hos hlen hu =>
    have hend : Reader.atWordEnd (u ++ r) = true := hu.atWordEnd hr.atWordEnd
    have hhead : Reader.head (h ++ t ++ u ++ r) = .ok (op, cond, t ++ (u ++ r)) := by
      simp only [List.append_assoc]
      exact hh.read (hos.atWordEnd hend)
    obtain ⟨k, hk⟩ : ∃ k, 3 = os.length + k := ⟨3 - os.length, by omega⟩
    have hstop : k = 0 ∨ block.isSome ∨ Blank r := by
      rcases hclosed with (hthree | hsome) | hblank
      · exact .inl (by change os.length = 3 at hthree; omega)
      · exact .inr (.inl hsome)
      · exact .inr (.inr hblank)
    obtain ⟨v, hv, hvskip⟩ := Reader.operands_of_target hu hstop (0 + os.length)
    obtain ⟨r', htarget, hsuffix⟩ := Reader.target_of_spelled hu hr
    have hops : Reader.operands 3 0 (t ++ (u ++ r)) = .ok (os, v) := by
      rw [hk, Reader.operands_append hos k hend, hv]
      simp [Except.map]
    refine ⟨r', ?_, hsuffix⟩
    simp only [Statement.read, hhead, not_isDigit_skip hos hu hr, Bool.false_eq_true, and_false,
      if_false, hops, Reader.target_congr hvskip, htarget, Except.map]
    rfl

/-- A statement that is read is made by a sentence, with blanks behind it. -/
theorem exists_of_read {t r : Text} {x : Statement} (h : Statement.read t = .ok (x, r))
    (ht : Blanks.inline.skip t = t) :
    ∃ (s : Sentence) (u v : Text), s.Spelled u ∧ s.statement = x ∧ Blank v ∧ t = u ++ v ++ r := by
  rw [Statement.read] at h
  cases hhead : Reader.head t with
  | error e => simp [hhead] at h
  | ok p =>
    obtain ⟨op, cond, rest⟩ := p
    obtain ⟨w, hw, hskip, hend⟩ := Reader.head_eq_ok_iff.mp hhead
    rw [ht] at hskip
    simp only [hhead] at h
    by_cases hshort : (op = .label ∨ op = .jmp) ∧
        (Blanks.inline.skip rest).head?.any isDigit = true
    · rw [if_pos hshort] at h
      cases hblock : Reader.block (Blanks.inline.skip rest) with
      | error e => simp [hblock, Except.map] at h
      | ok q =>
        obtain ⟨b, r'⟩ := q
        obtain ⟨rfl, rfl⟩ : (⟨op, cond, none, none, none, b⟩ : Statement) = x ∧ r' = r := by
          simpa [hblock, Except.map] using h
        obtain ⟨a, ha, hrest⟩ := Blanks.exists_blank_skip rest
        obtain ⟨v, n, hv, hn, rfl, hnum⟩ := Reader.exists_of_block hblock
        have hne : a ≠ [] := by
          rintro rfl
          obtain ⟨c, v', rfl, hc⟩ := hv.head
          rw [hrest, hnum, List.nil_append, List.cons_append] at hend
          exact absurd hend (by simp [Reader.atWordEnd_cons_of_isDigit hc])
        refine ⟨_, _, [], .short hshort.1 hw ha hne hv hn, rfl, blank_nil, ?_⟩
        rw [hskip, hrest, hnum]
        simp only [List.append_assoc, List.nil_append]
    · rw [if_neg hshort] at h
      cases hops : Reader.operands 3 0 rest with
      | error e => simp [hops] at h
      | ok q =>
        obtain ⟨os, rest'⟩ := q
        cases htarget : Reader.target rest' with
        | error e => simp [hops, htarget, Except.map] at h
        | ok q =>
          obtain ⟨b, r'⟩ := q
          obtain ⟨rfl, rfl⟩ : (⟨op, cond, (os[0]?).join, (os[1]?).join, (os[2]?).join, b⟩ :
              Statement) = x ∧ r' = r := by
            simpa [hops, htarget, Except.map] using h
          obtain ⟨u, a, hu, hlen, ha, hrest⟩ := Reader.exists_of_operands hops fun _ => hend
          have hcongr : Reader.target (a ++ rest') = .ok (b, r') := by
            rw [← htarget]
            exact Reader.target_congr (Blanks.skip_append (Blanks.blank_iff.mp ha) _)
          obtain ⟨block, u', v, hu', rfl, hv, htail⟩ := Reader.exists_of_target hcongr
          refine ⟨_, _, v, .full hw hu hlen hu', rfl, hv, ?_⟩
          rw [hskip, hrest, List.append_assoc u, htail]
          simp only [List.append_assoc]

/-! ### Lines -/

/-- A line with a sentence is read as the statement that it makes. -/
theorem Spelled.readLine {s : Sentence} {a t r : Text} (ha : Blank a) (h : s.Spelled t)
    (hr : Trailing r) (hclosed : s.IsClosed ∨ Blank r) :
    Program.readLine (a ++ t ++ r) = .ok (some s.statement) := by
  obtain ⟨c, u, rfl, hc⟩ := h.cons
  obtain ⟨r', hread, hsuffix⟩ := h.read hr hclosed
  have hskip : Blanks.all.skip (a ++ (c :: u) ++ r) = c :: (u ++ r) := by
    rw [List.append_assoc, Blanks.skip_append (Blanks.all_contains_of_blank ha), List.cons_append,
      Blanks.skip_cons hc]
  have hend : Blanks.all.skip r' = [] := by
    refine Blanks.skip_eq_nil_iff.mpr fun b hb => Blanks.all_contains_iff.mpr ?_
    rw [Blanks.inline_contains_iff]
    rcases hr b (hsuffix.subset hb) with hb | hb | hb
    · exact .inl (.inl hb)
    · exact .inl (.inr hb)
    · exact .inr (.inl hb)
  rw [List.cons_append] at hread
  simp only [Program.readLine, hskip, hread, hend]

/-- A statement that is read on a line is made by a sentence, with nothing around it that is not
skipped. -/
theorem exists_of_readLine {line : Text} {x : Statement}
    (h : Program.readLine line = .ok (some x)) :
    ∃ (s : Sentence) (a t b : Text), s.Spelled t ∧ s.statement = x ∧ line = a ++ t ++ b ∧
      (∀ c ∈ a, Blanks.all.contains c = true) ∧ ∀ c ∈ b, Blanks.all.contains c = true := by
  have hline : line = line.takeWhile Blanks.all.contains ++ Blanks.all.skip line :=
    List.takeWhile_append_dropWhile.symm
  rcases hskip : Blanks.all.skip line with _ | ⟨c, u⟩
  · simp [Program.readLine, hskip] at h
  · have hc := Blanks.inline_contains_of_all (Blanks.contains_of_skip_eq_cons hskip)
    cases hread : Statement.read (c :: u) with
    | error e => simp [Program.readLine, hskip, hread] at h
    | ok p =>
      obtain ⟨y, r⟩ := p
      rcases hend : Blanks.all.skip r with _ | ⟨d, v⟩
      · obtain rfl : y = x := by simpa [Program.readLine, hskip, hread, hend] using h
        obtain ⟨s, t, b, ht, rfl, hb, htail⟩ := exists_of_read hread (Blanks.skip_cons hc u)
        refine ⟨s, line.takeWhile Blanks.all.contains, t, b ++ r, ht, rfl, ?_,
          fun d hd => List.mem_takeWhile_imp hd, ?_⟩
        · rw [List.append_assoc, ← List.append_assoc t, ← htail, ← hskip]
          exact hline
        · exact List.forall_mem_append.mpr
            ⟨Blanks.all_contains_of_blank hb, Blanks.skip_eq_nil_iff.mp hend⟩
      · simp [Program.readLine, hskip, hread, hend] at h

/-- Without line ends only blanks are skipped. -/
theorem blank_of_all_contains {t line : Text} (ht : t ⊆ line) (hr : '\r'.toUInt8 ∉ line)
    (hn : '\n'.toUInt8 ∉ line) (hall : ∀ b ∈ t, Blanks.all.contains b = true) : Blank t := by
  refine Blanks.blank_iff.mpr fun b hb => ?_
  rcases Blanks.all_contains_iff.mp (hall b hb) with h | rfl | rfl
  · exact h
  · exact absurd (ht hb) hr
  · exact absurd (ht hb) hn

/-- A line is read as a statement exactly if it holds a sentence that makes it. -/
theorem readLine_eq_some_iff {line : Text} (hr : '\r'.toUInt8 ∉ line) (hn : '\n'.toUInt8 ∉ line)
    {x : Statement} : Program.readLine line = .ok (some x) ↔
      ∃ s : Sentence, s.statement = x ∧ s.FillsLine line := by
  constructor
  · intro h
    obtain ⟨s, a, t, b, ht, hx, hline, ha, hb⟩ := exists_of_readLine h
    have hsub : a ⊆ line ∧ b ⊆ line := by
      rw [hline]
      exact ⟨fun c hc => List.mem_append_left _ (List.mem_append_left _ hc),
        List.subset_append_right _ _⟩
    exact ⟨s, hx, a, t, b, blank_of_all_contains hsub.1 hr hn ha, ht,
      blank_of_all_contains hsub.2 hr hn hb, hline⟩
  · rintro ⟨s, rfl, a, t, b, ha, ht, hb, rfl⟩
    exact ht.readLine ha hb.trailing (.inr hb)

theorem readLine_eq_none_iff {line : Text} (hr : '\r'.toUInt8 ∉ line) (hn : '\n'.toUInt8 ∉ line) :
    Program.readLine line = .ok none ↔ Blank line := by
  constructor
  · intro h
    rcases hskip : Blanks.all.skip line with _ | ⟨c, u⟩
    · exact blank_of_all_contains (List.Subset.refl line) hr hn (Blanks.skip_eq_nil_iff.mp hskip)
    · cases hread : Statement.read (c :: u) with
      | error e => simp [Program.readLine, hskip, hread] at h
      | ok p =>
        rcases hend : Blanks.all.skip p.2 <;>
          simp [Program.readLine, hskip, hread, hend] at h
  · intro h
    have hskip : Blanks.all.skip line = [] :=
      Blanks.skip_eq_nil_iff.mpr (Blanks.all_contains_of_blank h)
    simp only [Program.readLine, hskip]

end Sentence

namespace Program

/-- What a line keeps, read off its front. -/
theorem uncommented_eq_of_uncommented {line kept : Text} (h : Uncommented line kept) :
    uncommented line = kept := by
  obtain ⟨rfl, h⟩ | ⟨comment, rfl, h⟩ := h
  · induction line with
    | nil => rfl
    | cons c t ih =>
      rw [List.infix_cons_iff, not_or] at h
      have hc : ¬ (c = '/'.toUInt8 ∧ t.head? = some '/'.toUInt8) := by
        rintro ⟨rfl, ht⟩
        obtain ⟨u, rfl⟩ := List.head?_eq_some_iff.mp ht
        exact h.1 ⟨u, rfl⟩
      rw [uncommented, if_neg hc, ih h.2]
  · induction kept with
    | nil => rfl
    | cons c t ih =>
      rw [List.cons_append, List.infix_cons_iff, not_or] at h
      have hc : ¬ (c = '/'.toUInt8 ∧ (t ++ ascii "//" ++ comment).head? = some '/'.toUInt8) := by
        rintro ⟨rfl, ht⟩
        rcases t with _ | ⟨d, t⟩
        · exact h.1 ⟨[], rfl⟩
        · obtain rfl : d = '/'.toUInt8 := by simpa using ht
          exact h.1 ⟨t ++ ascii "/", rfl⟩
      rw [List.cons_append, List.cons_append, uncommented, if_neg hc, ih h.2]

/-- Every line keeps what stands before its first `//`. -/
theorem uncommented_uncommented (line : Text) : Uncommented line (uncommented line) := by
  induction line with
  | nil => exact .inl ⟨rfl, by decide⟩
  | cons c t ih =>
    by_cases hc : c = '/'.toUInt8 ∧ t.head? = some '/'.toUInt8
    · obtain ⟨u, rfl⟩ := List.head?_eq_some_iff.mp hc.2
      rw [uncommented, if_pos hc, hc.1]
      exact .inr ⟨u, rfl, by decide⟩
    · have hpre {v : Text} (hv : v.head? = some '/'.toUInt8 → t.head? = some '/'.toUInt8) :
          ¬ ascii "//" <+: c :: v := by
        rintro ⟨u, hu⟩
        obtain ⟨rfl, rfl⟩ := List.cons.inj hu
        exact hc ⟨rfl, hv rfl⟩
      rw [uncommented, if_neg hc]
      obtain ⟨ht, h⟩ | ⟨comment, ht, h⟩ := ih
      · refine .inl ⟨by rw [← ht], ?_⟩
        rw [List.infix_cons_iff, not_or]
        exact ⟨hpre id, h⟩
      · refine .inr ⟨comment, by rw [List.cons_append, List.cons_append, ← ht], ?_⟩
        rw [List.cons_append, List.infix_cons_iff, not_or]
        refine ⟨hpre fun hhead => ?_, h⟩
        rw [ht]
        rcases huc : uncommented t with _ | ⟨d, v⟩
        · rfl
        · rw [huc] at hhead
          exact hhead

/-- Lines are read exactly if each of them is, and their statements follow each other. -/
theorem readLines_eq_ok_iff {n : Nat} {ls : List Text} {p : Program} : readLines n ls = .ok p ↔
    ∃ xs, List.Forall₂ (fun l x => readLine (uncommented l) = .ok x) ls xs ∧
      p = xs.flatMap Option.toList := by
  induction ls generalizing n p with
  | nil =>
    simp only [readLines, List.forall₂_nil_left_iff, exists_eq_left, List.flatMap_nil,
      Except.ok.injEq]
    exact eq_comm
  | cons l ls ih =>
    simp only [List.forall₂_cons_left_iff]
    constructor
    · intro h
      rw [readLines] at h
      cases hx : readLine (uncommented l) with
      | error e => simp [hx] at h
      | ok x =>
        cases hp : readLines (n + 1) ls with
        | error e => simp [hx, hp, Except.map] at h
        | ok q =>
          obtain rfl : x.toList ++ q = p := by simpa [hx, hp, Except.map] using h
          obtain ⟨xs, hxs, rfl⟩ := ih.mp hp
          exact ⟨x :: xs, ⟨x, xs, rfl, hxs, rfl⟩, rfl⟩
    · rintro ⟨_, ⟨x, xs, hx, hxs, rfl⟩, rfl⟩
      simp only [readLines, hx, ih.mpr ⟨xs, hxs, rfl⟩, Except.map, List.flatMap_cons]

/-- A program of one line. -/
theorem read_eq_ok_iff_of_notMem {line : Text} (hn : '\n'.toUInt8 ∉ line) {p : Program} :
    Program.read line = .ok p ↔ ∃ x, readLine (uncommented line) = .ok x ∧ p = x.toList := by
  rw [Program.read, lines, fields_of_notMem hn]
  cases h : readLine (uncommented line) <;> simp [readLines, h, Except.map, eq_comm]

/-- The grammar of a line is exact. A line without line ends is read as no statement exactly if it
is blank up to its comment, as one statement exactly if a sentence that makes this statement stands
between blanks there, and never as more than one. -/
theorem read_line_iff {line kept : Text} (hn : '\n'.toUInt8 ∉ line) (hr : '\r'.toUInt8 ∉ line)
    (hk : Uncommented line kept) :
    (Program.read line = .ok [] ↔ Blank kept) ∧
      (∀ x, Program.read line = .ok [x] ↔ ∃ s : Sentence, s.statement = x ∧ s.FillsLine kept) ∧
      ∀ p, Program.read line = .ok p → p.length ≤ 1 := by
  have hsub : kept ⊆ line := by
    obtain ⟨rfl, -⟩ | ⟨comment, rfl, -⟩ := hk
    · exact List.Subset.refl _
    · rw [List.append_assoc]
      exact List.subset_append_left _ _
  have hr' : '\r'.toUInt8 ∉ kept := fun h => hr (hsub h)
  have hn' : '\n'.toUInt8 ∉ kept := fun h => hn (hsub h)
  have hread {p : Program} :
      Program.read line = .ok p ↔ ∃ x, readLine kept = .ok x ∧ p = x.toList := by
    rw [read_eq_ok_iff_of_notMem hn, uncommented_eq_of_uncommented hk]
  refine ⟨?_, fun x => ?_, fun p h => ?_⟩
  · rw [hread, ← Sentence.readLine_eq_none_iff hr' hn']
    constructor
    · rintro ⟨_ | x, hx, hp⟩
      · exact hx
      · cases hp
    · exact fun h => ⟨none, h, rfl⟩
  · rw [hread, ← Sentence.readLine_eq_some_iff hr' hn']
    constructor
    · rintro ⟨_ | y, hy, hp⟩
      · cases hp
      · rw [hy, (List.cons.inj hp).1]
    · exact fun h => ⟨some x, h, rfl⟩
  · obtain ⟨_ | x, -, rfl⟩ := hread.mp h
    · exact Nat.zero_le 1
    · exact le_rfl

/-- A line in which commas, numerals and an arrow follow each other without blanks. -/
def denseLine : Text := ascii "\tcondjmp.ab _ ,r1,#-0x_8->017 // out"

/-- The dense line up to its comment. -/
def denseSentence : Text := ascii "\tcondjmp.ab _ ,r1,#-0x_8->017 "

/-- The statement of the dense line. -/
def denseStatement : Statement where
  op := .condjmp
  cond := .ab
  src1 := some (.register 1)
  src2 := some (.constant 0xFFFFFFF8)
  block := 15

theorem read_line_iff_dense :
    '\n'.toUInt8 ∉ denseLine ∧ '\r'.toUInt8 ∉ denseLine ∧ Uncommented denseLine denseSentence ∧
      ∃ s : Sentence, s.statement = denseStatement ∧ s.FillsLine denseSentence := by
  have hn : '\n'.toUInt8 ∉ denseLine := by decide +kernel
  have hr : '\r'.toUInt8 ∉ denseLine := by decide +kernel
  have hk : Uncommented denseLine denseSentence := .inr ⟨ascii " out", rfl, by decide +kernel⟩
  have hread : Program.read denseLine = .ok [denseStatement] := by decide +kernel
  exact ⟨hn, hr, hk, ((read_line_iff hn hr hk).2.1 denseStatement).mp hread⟩

end Program

end A32Lowering
