import Mathlib
import A32Lowering.Proofs.Truncation

/-!
# The listing of a stream

The listing has a line for each instruction, and lines for labels between them. What a line says can
be read from the word of its instruction alone: the decoder finds the operation and its operands
again, and the line is the text of what it finds. Only the label of a branch is not in its word. The
word is added with a zero offset, the label waits at its position, and when it is filled in the word
is that of the same branch with a displacement.

## Main definitions

* `Instr.decoded` : what the word of an instruction stands for when it is added.
* `Decoded.Prints` : the text of what a word stands for.
* `Instr.WrittenAs` : the words that an instruction has in a stream.
* `Stream.instrLines` : the lines of instructions.
* `Stream.AddsLine`, `Stream.LinesTell` : the line of an instruction that is added, and of every
  instruction in a stream, says what its word stands for.

## Main results

* `Instr.InRange.decode_word`, `Instr.eq_of_encode_eq` : words are read as their instructions, and
  different instructions have different words.
* `Stream.Listed.edit`, `Stream.Written.edit` : every edit keeps the lines and the words of the
  instructions in step.
* `Stream.lines_tell_words` : all this for any instruction and after any edits of a new stream.
-/

namespace A32Lowering

/-! ### Words -/

/-- What the word of an instruction stands for when it is added. A branch has no offset yet. -/
def Instr.decoded : Instr → Decoded
  | .branch cond _ => .branch cond 0
  | i => .plain i

/-- The text of what a word stands for. That of a branch names a label, which its word does not
have. -/
def Decoded.Prints (text : String) : Decoded → Prop
  | .plain i => text = i.text
  | .branch cond _ => ∃ label, text = (Instr.branch cond label).text

namespace Stream

/-- Filling in an offset again. -/
theorem branchTo_branchTo (w : UInt32) (d e : Int) : branchTo (branchTo w d) e = branchTo w e := by
  have hupper (u v : UInt32) : (u &&& 0xFF000000 ||| v &&& 0x00FFFFFF) &&& 0xFF000000 =
      u &&& 0xFF000000 := by
    rw [or_and_mask, UInt32.and_assoc, UInt32.and_assoc, UInt32.and_self]
    have hmasks : (0x00FFFFFF : UInt32) &&& 0xFF000000 = 0 := by decide
    rw [hmasks, UInt32.and_zero, UInt32.or_zero]
  rw [branchTo, branchTo, hupper, branchTo]

/-- The word of a branch has a zero offset. -/
theorem branchTo_zero (cond : CondCode) (label : Label) :
    branchTo (Instr.branch cond label).encode 0 = (Instr.branch cond label).encode := by
  have hcond (c : UInt8) :
      branchTo (0x0A000000 ||| field c 28) 0 = 0x0A000000 ||| field c 28 := by
    decide +revert +kernel
  exact hcond cond.code

end Stream

theorem Items.inReach_zero : Items.InReach 0 := ⟨by decide, by decide⟩

namespace Instr

variable {i j : Instr}

/-- The word of an instruction is read as that instruction. -/
theorem InRange.decode_word (h : i.InRange) : decode i.encode = some i.decoded := by
  cases i with
  | branch cond label =>
    rw [← Stream.branchTo_zero, decode_branchTo h Items.inReach_zero]
    rfl
  | _ => exact decode_encode h (by simp)

/-- Different instructions have different words, but for the labels of branches. -/
theorem eq_of_encode_eq (hi : i.InRange) (hj : j.InRange) (h : i.encode = j.encode) :
    i = j ∨ ∃ cond l m, i = .branch cond l ∧ j = .branch cond m := by
  have hd : i.decoded = j.decoded := by
    rw [← Option.some_inj, ← hi.decode_word, ← hj.decode_word, h]
  cases i with
  | branch cond l =>
    cases j with
    | branch cond' m =>
      obtain ⟨rfl, -⟩ := Decoded.branch.inj hd
      exact .inr ⟨cond, l, m, rfl, rfl⟩
    | _ => cases hd
  | _ =>
    cases j with
    | branch cond m => cases hd
    | _ => exact .inl (Decoded.plain.inj hd)

/-- The words that an instruction has in a stream: its own, and for a branch those with an
offset. -/
def WrittenAs (w : UInt32) : Instr → Prop
  | .branch cond label =>
    ∃ d, Items.InReach d ∧ w = Stream.branchTo (Instr.branch cond label).encode d
  | i => w = i.encode

theorem writtenAs_encode (i : Instr) : i.WrittenAs i.encode := by
  cases i with
  | branch cond label => exact ⟨0, Items.inReach_zero, (Stream.branchTo_zero cond label).symm⟩
  | _ => rfl

/-- The words of an instruction are read as what the line of the instruction says. -/
theorem WrittenAs.decode {w : UInt32} (h : i.WrittenAs w) (hi : i.InRange) :
    ∃ x, decode w = some x ∧ x.Prints i.text := by
  cases i with
  | branch cond label =>
    obtain ⟨d, hd, rfl⟩ := h
    exact ⟨.branch cond d, decode_branchTo hi hd, label, rfl⟩
  | _ =>
    obtain rfl := h
    exact ⟨_, hi.decode_word, rfl⟩

/-- The line of an instruction has a tab between the mnemonic and the operands. -/
theorem tab_mem_text (i : Instr) : '\t' ∈ i.text.toList := by
  have hline (m : String) (l : List String) : '\t' ∈ (line m l).toList := by
    simp [line]
  cases i <;> exact hline _ _

end Instr

/-! ### Lines -/

/-- Whether a line is that of an instruction. -/
def ListingLine.isInstr (x : ListingLine) : Bool := '\t' ∈ x.text.toList

namespace Stream

variable {s t : Stream} {l : List Instr}

/-- The lines of instructions in the listing. -/
def instrLines (s : Stream) : List ListingLine := s.lines.toList.filter ListingLine.isInstr

/-- The line of a label has no tab. -/
theorem tab_notMem_label (n : Nat) : '\t' ∉ ("L" ++ toString (n : Int) ++ ":").toList := by
  have hrepr : toString (n : Int) = String.ofList (Nat.toDigits 10 n) := rfl
  have hdigit : '\t' ∉ Nat.toDigits 10 n := by
    intro h
    have := Nat.isDigit_of_mem_toDigits (by decide) (by decide) h
    exact absurd this (by decide)
  simp [hrepr, hdigit]

/-- Placing a label adds its line. -/
theorem lines_mark {k : Label} (h : s.mark k = .ok t) (hl : s.listing = true) :
    t.listing = s.listing ∧ ∃ n : Nat,
      t.lines = s.lines.push ⟨s.size, "L" ++ toString (n : Int) ++ ":"⟩ := by
  obtain ⟨hk, -⟩ := mark_eq_ok h
  have hpos : 0 ≤ k := by
    by_contra hneg
    rw [label?, if_pos (Int.not_le.mp hneg)] at hk
    cases hk
  obtain ⟨n, rfl⟩ := Int.eq_ofNat_of_zero_le hpos
  rw [mark, hk, note, if_pos hl] at h
  obtain rfl := Except.ok.inj h
  exact ⟨rfl, n, rfl⟩

/-- Lines whose positions go down. -/
theorem dropWhile_eq_filter {down : List ListingLine} (n : Nat)
    (h : down.Pairwise fun x y => y.pos ≤ x.pos) :
    (down.dropWhile fun x => n ≤ x.pos) = down.filter fun x => x.pos < n := by
  induction down with
  | nil => rfl
  | cons x down ih =>
    obtain ⟨hx, hdown⟩ := List.pairwise_cons.mp h
    by_cases hn : n ≤ x.pos
    · rw [List.dropWhile_cons_of_pos (by simpa using hn), ih hdown,
        List.filter_cons_of_neg (by simpa using hn)]
    · rw [List.dropWhile_cons_of_neg (by simpa using hn), eq_comm, List.filter_eq_self]
      intro y hy
      rcases List.mem_cons.mp hy with rfl | hy
      · simpa using hn
      · have := hx y hy
        simp only [decide_eq_true_eq]
        omega

/-- Dropping lines at or behind a position from the end of a listing that is in order. -/
theorem toList_dropLines {lines : Array ListingLine} (n : Nat)
    (h : lines.toList.Pairwise fun x y => x.pos ≤ y.pos) :
    (dropLines n lines).toList = lines.toList.filter fun x => x.pos < n := by
  obtain ⟨lines⟩ := lines
  rw [dropLines, List.popWhile_toArray, dropWhile_eq_filter n (List.pairwise_reverse.mpr h),
    List.filter_reverse, List.reverse_reverse]

/-- The lines of some instructions that stand behind each other. -/
def linesOf (l : List Instr) : List ListingLine := l.mapIdx fun j i => ⟨4 * j, i.text⟩

theorem linesOf_concat (l : List Instr) (i : Instr) :
    linesOf (l ++ [i]) = linesOf l ++ [⟨4 * l.length, i.text⟩] := by
  rw [linesOf, List.mapIdx_concat, linesOf]

/-- The lines in front of a position are those of the instructions in front of it. -/
theorem filter_linesOf (l : List Instr) (k : Nat) :
    (linesOf l).filter (fun x => x.pos < 4 * k) = linesOf (l.take k) := by
  induction l using List.reverseRecOn with
  | nil => simp [linesOf]
  | append_singleton l i ih =>
    rw [linesOf_concat, List.filter_append, ih]
    rcases Nat.lt_or_ge l.length k with hk | hk
    · rw [List.take_of_length_le hk.le, List.take_of_length_le (by simpa using hk),
        List.filter_cons_of_pos (by simpa using by omega), List.filter_nil, linesOf_concat]
    · rw [List.take_append_of_le_length hk, List.filter_cons_of_neg (by simpa using by omega),
        List.filter_nil, List.append_nil]

/-! ### Every edit keeps lines and words in step -/

namespace Edit

/-- An edit that leaves the listing on, and adds only instructions whose operands fit. -/
def Listable : Edit → Prop
  | .use (.emit i) => i.InRange
  | .listing on => on = true
  | _ => True

instance (e : Edit) : Decidable e.Listable := by
  unfold Listable
  split <;> infer_instance

theorem Listable.inRange {e : Edit} (h : e.Listable) (hl : ∀ i ∈ l, i.InRange) :
    ∀ i ∈ e.instrs l, i.InRange := by
  intro i hi
  cases e with
  | use u =>
    cases u with
    | emit j =>
      rcases List.mem_append.mp hi with hi | hi
      · exact hl i hi
      · exact List.mem_singleton.mp hi ▸ h
    | _ => exact hl i hi
  | truncate n => exact hl i (List.mem_of_mem_take hi)
  | reset => cases hi
  | listing on => exact hl i hi

end Edit

/-- Resolving a stream keeps whatever is kept when one branch is taken off the queue, and when its
word is filled in. -/
theorem resolveSteps_keeps [PendingHeap] {P : Stream → Prop}
    (hpop : ∀ {s : Stream} {b q}, PendingHeap.pop? s.pending = some (b, q) → P s →
      P { s with pending := q })
    (hwrite : ∀ {s : Stream} {b q w d code}, PendingHeap.pop? s.pending = some (b, q) →
      Items.InReach d → s.code.word? b.pos = some w → Writes s.code b.pos (branchTo w d) code →
      P s → P { s with code, pending := q })
    (n : Nat) (h : P s) : P (s.resolveSteps n).1 := by
  induction n generalizing s with
  | zero => exact h
  | succ n ih =>
    rw [resolveSteps]
    split
    next => exact h
    next b q hq =>
      rcases s.resolveBranch_cases b with ⟨p, w, code, -, hd, hw, hok, hcode⟩ | ⟨e, herr, -⟩
      · rw [hok]
        exact ih (hwrite hq hd hw hcode h)
      · rw [herr]
        exact hpop hq h

/-- The listing is on and in the order of positions, none of which is behind the stream, and its
lines of instructions are those of the instructions that are listed. -/
structure Listed (s : Stream) (l : List Instr) : Prop where
  listing : s.listing = true
  ordered : s.lines.toList.Pairwise fun x y => x.pos ≤ y.pos
  pos_le : ∀ x ∈ s.lines.toList, x.pos ≤ s.size
  lines : s.instrLines = linesOf l

/-- A stream whose listing stays. -/
theorem Listed.of_lines (h : s.Listed l) (hon : t.listing = s.listing) (hl : t.lines = s.lines)
    (hs : s.size ≤ t.size) : t.Listed l where
  listing := hon.trans h.listing
  ordered := hl ▸ h.ordered
  pos_le x hx := (h.pos_le x (hl ▸ hx)).trans hs
  lines := (congrArg (·.toList.filter ListingLine.isInstr) hl).trans h.lines

/-- A stream that gets a line for its end. -/
theorem Listed.of_push (h : s.Listed l) (hon : t.listing = s.listing) {text : String}
    (hl : t.lines = s.lines.push ⟨s.size, text⟩) (hs : s.size ≤ t.size) {m : List Instr}
    (hm : linesOf m = linesOf l ++ [⟨s.size, text⟩].filter ListingLine.isInstr) : t.Listed m where
  listing := hon.trans h.listing
  ordered := by
    rw [hl, Array.toList_push, List.pairwise_append]
    refine ⟨h.ordered, List.pairwise_singleton _ _, fun x hx y hy => ?_⟩
    exact List.mem_singleton.mp hy ▸ h.pos_le x hx
  pos_le x hx := by
    rw [hl, Array.toList_push, List.mem_append, List.mem_singleton] at hx
    rcases hx with hx | rfl
    · exact (h.pos_le x hx).trans hs
    · exact hs
  lines := by
    rw [instrLines, hl, Array.toList_push, List.filter_append, hm, ← h.lines, instrLines]

theorem Listed.emit (h : s.Listed l) (ht : s.Tracks l) (i : Instr) :
    (s.emit i).Listed (l ++ [i]) := by
  refine h.of_push (listing_emit _ _) ((lines_emit _ _).trans (if_pos h.listing)) ?_ ?_
  · rw [size_emit]
    omega
  · have hi : ListingLine.isInstr ⟨s.size, i.text⟩ = true := decide_eq_true i.tab_mem_text
    rw [linesOf_concat, List.filter_cons_of_pos hi, List.filter_nil, ht.size]

theorem Listed.mark (h : s.Listed l) {k : Label} (hm : s.mark k = .ok t) : t.Listed l := by
  obtain ⟨hon, n, hlines⟩ := lines_mark hm h.listing
  obtain ⟨-, hcode, -⟩ := mark_eq_ok hm
  refine h.of_push hon hlines (congrArg Array.size hcode).ge ?_
  have hn : ¬ ListingLine.isInstr ⟨s.size, "L" ++ toString (n : Int) ++ ":"⟩ = true :=
    fun htab => tab_notMem_label n (of_decide_eq_true htab)
  rw [List.filter_cons_of_neg hn, List.filter_nil, List.append_nil]

/-- Resolving leaves the listing. -/
theorem Listed.resolve [PendingHeap] (h : s.Listed l) : s.resolve.1.Listed l := by
  refine resolveSteps_keeps (P := fun s => s.Listed l) (fun _ h => ?_) (fun _ _ _ hcode h => ?_) _ h
  · exact h.of_lines rfl rfl le_rfl
  · exact h.of_lines rfl rfl hcode.size.ge

/-- A cut takes the lines behind it away. -/
theorem Listed.truncate (h : s.Listed l) {k : Nat} (hk : 4 * k ≤ s.size) :
    (s.truncate (4 * k)).Listed (l.take k) where
  listing := h.listing
  ordered := by
    change (dropLines (4 * k) s.lines).toList.Pairwise _
    rw [toList_dropLines _ h.ordered]
    exact h.ordered.filter _
  pos_le x hx := by
    change x ∈ (dropLines (4 * k) s.lines).toList at hx
    rw [toList_dropLines _ h.ordered, List.mem_filter] at hx
    rw [size_truncate hk]
    exact (of_decide_eq_true hx.2).le
  lines := by
    change (dropLines (4 * k) s.lines).toList.filter _ = _
    rw [toList_dropLines _ h.ordered, List.filter_comm, ← filter_linesOf, ← h.lines, instrLines]

/-- Every edit that leaves the listing on keeps it in step with the instructions. -/
theorem Listed.edit [PendingHeap] (h : s.Listed l) (ht : s.Tracks l) {e : Edit} (he : e.Allowed s)
    (hl : e.Listable) : (s.edit e).Listed (e.instrs l) := by
  cases e with
  | use u =>
    cases u with
    | emit i => exact h.emit ht i
    | create => exact h.of_lines rfl rfl le_rfl
    | mark k => exact use_mark_keeps (P := (Listed · l)) h h.mark
    | clear => exact h.of_lines rfl rfl le_rfl
    | resolve => exact h.resolve
  | truncate n =>
    obtain ⟨⟨k, rfl⟩, hn⟩ := he
    have hk : 4 * k / 4 = k := by omega
    simp only [Edit.instrs, hk]
    exact h.truncate hn
  | reset =>
    exact {
      listing := h.listing
      ordered := .nil
      pos_le := fun x hx => by cases hx
      lines := rfl }
  | listing on => exact h.of_lines (hl.trans h.listing.symm) rfl le_rfl

/-- Every instruction that is listed has one of its words in the stream. -/
def Written (s : Stream) (l : List Instr) : Prop :=
  ∀ j i, l[j]? = some i → ∃ w, s.code.word? (4 * j) = some w ∧ i.WrittenAs w

theorem Written.emit (h : s.Written l) (ht : s.Tracks l) (i : Instr) :
    (s.emit i).Written (l ++ [i]) := by
  intro j x hj
  rcases getElem?_concat_eq_some hj with ⟨hlt, hj⟩ | ⟨rfl, rfl⟩
  · rw [ht.word?_emit_of_lt i hlt]
    exact h j x hj
  · exact ⟨_, ht.word?_emit_length x, x.writtenAs_encode⟩

/-- Resolving gives the branches that it fills in another word, if they stand where they wait. -/
theorem Written.resolve [PendingHeap] (h : s.Written l) (hs : ∀ b ∈ s.pending.items, b.Stands l) :
    s.resolve.1.Written l := by
  refine (resolveSteps_keeps (P := fun s => s.Written l ∧ ∀ b ∈ s.pending.items, b.Stands l)
    (fun hq h => ?_) (fun hq hd hw hcode h => ?_) _ ⟨h, hs⟩).1
  · exact ⟨h.1, fun b hb => h.2 b ((mem_of_pop? hq).2 b hb)⟩
  · refine ⟨fun j i hj => ?_, fun b hb => h.2 b ((mem_of_pop? hq).2 b hb)⟩
    obtain ⟨k, cond, hpos, hk⟩ := h.2 _ (mem_of_pop? hq).1
    obtain ⟨w, hword, hwritten⟩ := h.1 j i hj
    by_cases hjk : j = k
    · subst hjk
      obtain rfl := Option.some.inj (hk.symm.trans hj)
      obtain ⟨d, -, rfl⟩ := hwritten
      obtain rfl := Option.some.inj (hw.symm.trans (hpos ▸ hword))
      rw [branchTo_branchTo] at hcode
      exact ⟨_, hpos ▸ hcode.word, _, hd, rfl⟩
    · refine ⟨w, (hcode.word?_of_ne ?_ ?_ ?_).trans hword, hwritten⟩ <;> omega

theorem Written.truncate (h : s.Written l) (k : Nat) : (s.truncate (4 * k)).Written (l.take k) := by
  intro j i hj
  obtain ⟨hlt, hj⟩ := getElem?_take_eq_some hj
  rw [s.word?_truncate hlt]
  exact h j i hj

/-- Every edit keeps the words in step with the instructions, if pending branches stand where they
wait. -/
theorem Written.edit [PendingHeap] (h : s.Written l) (ht : s.Tracks l)
    (hs : ∀ b ∈ s.pending.items, b.Stands l) {e : Edit} (he : e.Allowed s) :
    (s.edit e).Written (e.instrs l) := by
  cases e with
  | use u =>
    cases u with
    | emit i => exact h.emit ht i
    | create => exact h
    | mark k =>
      refine use_mark_keeps (P := (Written · l)) h fun hm j i hj => ?_
      obtain ⟨-, hcode, -⟩ := mark_eq_ok hm
      exact hcode ▸ h j i hj
    | clear => exact h
    | resolve => exact h.resolve hs
  | truncate n =>
    obtain ⟨⟨k, rfl⟩, -⟩ := he
    have hk : 4 * k / 4 = k := by omega
    simp only [Edit.instrs, hk]
    exact h.truncate k
  | reset => exact fun j i hj => by simp [Edit.instrs] at hj
  | listing on => exact h

/-! ### Any edits of a new stream -/

/-- Lines, words and instructions of a stream are in step. -/
structure InStep (s : Stream) (l : List Instr) : Prop where
  tracks : s.Tracks l
  whole : s.Whole l
  listed : s.Listed l
  written : s.Written l
  inRange : ∀ i ∈ l, i.InRange

theorem inStep_new : InStep { listing := true } [] where
  tracks := tracks_new true
  whole := whole_new true
  listed := {
    listing := rfl
    ordered := .nil
    pos_le := fun x hx => by cases hx
    lines := rfl }
  written j i hj := by simp at hj
  inRange i hi := by cases hi

theorem InStep.edit [PendingHeap] (h : s.InStep l) {e : Edit} (he : e.Allowed s) (hs : e.Spares s)
    (hl : e.Listable) : (s.edit e).InStep (e.instrs l) where
  tracks := h.tracks.edit he
  whole := h.whole.edit h.tracks he hs
  listed := h.listed.edit h.tracks he hl
  written := h.written.edit h.tracks h.whole.stands he
  inRange := hl.inRange h.inRange

theorem InStep.run [PendingHeap] {es : List Edit} (h : s.InStep l) (he : s.Each Edit.Allowed es)
    (hs : s.Each Edit.Spares es) (hl : ∀ e ∈ es, e.Listable) :
    (es.foldl Stream.edit s).InStep (es.foldl Edit.instrs l) := by
  induction es generalizing s l with
  | nil => exact h
  | cons e es ih =>
    obtain ⟨hle, hles⟩ := List.forall_mem_cons.mp hl
    exact ih (h.edit he.1 hs.1 hle) he.2 hs.2 hles

/-- What adding an instruction does: its word and, if the listing is on, its line are put behind the
stream, the line is the text of what the word stands for, and a branch waits for its label. -/
structure AddsLine (s : Stream) (i : Instr) : Prop where
  word : (s.emit i).code = s.code.append i.encode
  line : s.listing = true → (s.emit i).lines = s.lines.push ⟨s.size, i.text⟩
  tells : ∃ x, decode i.encode = some x ∧ x.Prints i.text
  waits : ∀ cond label, i = .branch cond label → ⟨s.size, label⟩ ∈ (s.emit i).pending.items

theorem addsLine {i : Instr} (h : i.InRange) (s : Stream) : s.AddsLine i where
  word := code_emit s i
  line hon := (lines_emit s i).trans (if_pos hon)
  tells := i.writtenAs_encode.decode h
  waits cond label hi := by
    subst hi
    rw [pending_emit_branch]
    exact Array.mem_push_self

/-- The lines of instructions are as many as the words of the stream, and each is the text of what
its word stands for. -/
structure LinesTell (s : Stream) : Prop where
  size : s.size = 4 * s.instrLines.length
  line : ∀ j x, s.instrLines[j]? = some x → x.pos = 4 * j ∧
    ∃ w y, s.code.word? (4 * j) = some w ∧ decode w = some y ∧ y.Prints x.text

theorem InStep.linesTell (h : s.InStep l) : s.LinesTell where
  size := by rw [h.tracks.size, h.listed.lines, linesOf, List.length_mapIdx]
  line j x hx := by
    rw [h.listed.lines, linesOf, List.getElem?_mapIdx, Option.map_eq_some_iff] at hx
    obtain ⟨i, hi, rfl⟩ := hx
    obtain ⟨w, hw, hwritten⟩ := h.written j i hi
    obtain ⟨y, hy, hprints⟩ := hwritten.decode (h.inRange i (List.mem_of_getElem? hi))
    exact ⟨rfl, w, y, hw, hy, hprints⟩

/-- Words and lines. The word of an instruction is read as its operation and all its operands, so
different instructions have different words; only the label of a branch, which has no offset yet, is
not in its word. An instruction that is added gets a line that says what its word stands for. And
after any edits of a new stream that leave the listing on and take no pending branch away, each line
of an instruction says what the word at its place stands for. -/
theorem lines_tell_words [PendingHeap] :
    (∀ i : Instr, i.InRange → decode i.encode = some i.decoded) ∧
      (∀ i j : Instr, i.InRange → j.InRange → i.encode = j.encode →
        i = j ∨ ∃ cond l m, i = .branch cond l ∧ j = .branch cond m) ∧
      (∀ (s : Stream) (i : Instr), i.InRange → s.AddsLine i) ∧
      ∀ es : List Edit, Each Edit.Allowed { listing := true } es →
        Each Edit.Spares { listing := true } es → (∀ e ∈ es, e.Listable) →
          (es.foldl edit { listing := true }).LinesTell :=
  ⟨fun _ h => h.decode_word, fun _ _ hi hj h => Instr.eq_of_encode_eq hi hj h,
    fun s _ h => addsLine h s, fun _ ha hs hl => (inStep_new.run ha hs hl).linesTell⟩

/-- Two branches in a stream with another instruction, each to the label in front of it. -/
def twoLoops : List Edit :=
  [.use .create, .use .create, .use (.mark 0), .use (.emit (.mov .r0 .r1)),
    .use (.emit (.branch .al 0)), .use (.mark 1), .use (.emit (.branch .al 1))]

theorem lines_tell_words_twoLoops :
    Each Edit.Allowed { listing := true } twoLoops ∧
      Each Edit.Spares { listing := true } twoLoops ∧ (∀ e ∈ twoLoops, e.Listable) ∧
      (twoLoops.foldl edit { listing := true }).LinesTell := by
  have ha : Each Edit.Allowed { listing := true } twoLoops := by decide +kernel
  have hs : Each Edit.Spares { listing := true } twoLoops := by decide +kernel
  have hl : ∀ e ∈ twoLoops, e.Listable := by decide +kernel
  exact ⟨ha, hs, hl, lines_tell_words.2.2.2 twoLoops ha hs hl⟩

/-- Branches to different labels have one word before their offsets are filled in, and it is read as
a branch with no offset. -/
theorem branches_share_word :
    twoLoops.foldl Edit.instrs [] = [.mov .r0 .r1, .branch .al 0, .branch .al 1] ∧
      (Instr.branch .al 0).InRange ∧ (Instr.branch .al 1).InRange ∧
      Instr.branch .al 0 ≠ Instr.branch .al 1 ∧
      (Instr.branch .al 0).encode = (Instr.branch .al 1).encode ∧
      (twoLoops.foldl edit {}).code.word? 4 = some 0xEA000000 ∧
      (twoLoops.foldl edit {}).code.word? 8 = some 0xEA000000 ∧
      decode 0xEA000000 = some (.branch .al 0) := by
  decide +kernel

end Stream

end A32Lowering
