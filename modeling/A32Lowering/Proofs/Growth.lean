import Mathlib
import A32Lowering.Proofs.Placement

/-!
# Growth of a session

While a function is lowered the session only grows: code, lines and reports are added behind those
that were there, and what is added begins no earlier than the function. Every label and every
pending branch belongs to the stream. This holds at every point at which lowering can stop, so a
fault can be undone by cutting the stream at the start of the function, and no other kind of
failure is met.

## Main definitions

* `Stream.HasLabel` : the labels of a stream.
* `Grown` : a session that has grown from another one.

## Main results

* `Lower.guarded_statement`, `LowerAt.guarded_function` : lowering lets the session grow, also when
  it fails, and fails by a fault only.
* `Grown.rollback` : cutting the stream at its old end undoes the growth, up to reports.
-/

namespace A32Lowering

namespace Code

theorem exists_word? {code : Code} {pos : Nat} (h : pos + 4 ≤ code.size) :
    ∃ w, code.word? pos = some w := by
  have hi (i : Nat) (hi : i < code.size) : ∃ v, code[i]? = some v :=
    ⟨_, Array.getElem?_eq_getElem hi⟩
  obtain ⟨v₀, h₀⟩ := hi pos (by omega)
  obtain ⟨v₁, h₁⟩ := hi (pos + 1) (by omega)
  obtain ⟨v₂, h₂⟩ := hi (pos + 2) (by omega)
  obtain ⟨v₃, h₃⟩ := hi (pos + 3) (by omega)
  exact ⟨wordOfBytes v₀ v₁ v₂ v₃, by rw [word?, h₀, h₁, h₂, h₃]; rfl⟩

theorem write_append (a c : Code) (w : UInt32) {pos : Nat} (h : a.size ≤ pos) :
    (a ++ c).write pos w = a ++ c.write (pos - a.size) w := by
  have hs (i : Nat) : pos + i - a.size = pos - a.size + i := by omega
  rw [write, Array.setIfInBounds_append_right h, Array.setIfInBounds_append_right (by omega),
    Array.setIfInBounds_append_right (by omega), Array.setIfInBounds_append_right (by omega),
    hs, hs, hs, write]

theorem word?_congr {code other : Code} {pos : Nat}
    (h : ∀ i, pos ≤ i → i < pos + 4 → other[i]? = code[i]?) : other.word? pos = code.word? pos := by
  unfold word?
  rw [h pos (by omega) (by omega), h (pos + 1) (by omega) (by omega),
    h (pos + 2) (by omega) (by omega), h (pos + 3) (by omega) (by omega)]

/-- A word that is written changes no word that has no byte in common with it. -/
theorem word?_write_of_apart {code : Code} {pos at_ : Nat} {w : UInt32}
    (h : pos + 4 ≤ at_ ∨ at_ + 4 ≤ pos) : (code.write at_ w).word? pos = code.word? pos := by
  refine word?_congr fun i hi hi' => getElem?_write_of_outside code w ?_
  omega

end Code

namespace Stream

/-- Whether a number is that of a label. -/
def HasLabel (s : Stream) (l : Label) : Prop := 0 ≤ l ∧ l.toNat < s.labels.size

theorem HasLabel.label? {s : Stream} {l : Label} (h : s.HasLabel l) :
    ∃ p, s.label? l = some p := by
  rw [Stream.label?, if_neg (Int.not_lt.mpr h.1)]
  exact ⟨_, Array.getElem?_eq_getElem h.2⟩

end Stream

/-- A session `t` that has grown from a session `s`. -/
structure Grown (s t : Session) : Prop where
  code : ∃ c, t.stream.code = s.stream.code ++ c
  listing : t.stream.listing = s.stream.listing
  lines : ∃ m, t.stream.lines = s.stream.lines ++ m ∧ ∀ l ∈ m, s.stream.size ≤ l.pos
  reports : ∃ r, t.reports = s.reports ++ r ∧ (∀ x ∈ r, s.stream.size ≤ x.offset) ∧
    (s.observer ≠ .recording → r = #[])
  observer : t.observer = s.observer
  blocks : ∀ b ∈ t.blocks, t.stream.HasLabel b.2
  pending : ∀ b ∈ t.stream.pending.items, t.stream.HasLabel b.label ∧
    s.stream.size ≤ b.pos ∧ b.pos + 4 ≤ t.stream.size

namespace Grown

variable {s t : Session}

theorem size_le (h : Grown s t) : s.stream.size ≤ t.stream.size := by
  obtain ⟨c, hc⟩ := h.code
  rw [Stream.size, Stream.size, hc, Array.size_append]
  omega

theorem refl (hb : s.blocks = []) (hp : s.stream.pending = {}) : Grown s s where
  code := ⟨#[], by simp⟩
  listing := rfl
  lines := ⟨#[], by simp⟩
  reports := ⟨#[], by simp⟩
  observer := rfl
  blocks := by simp [hb]
  pending := by simp [hp]

theorem note (h : Grown s t) (text : String) :
    Grown s { t with stream := t.stream.note text } := by
  unfold Stream.note
  split_ifs
  · obtain ⟨m, hm, hpos⟩ := h.lines
    refine { h with lines := ⟨m.push ⟨t.stream.size, text⟩, by simp [hm], ?_⟩ }
    intro l hl
    rcases Array.mem_push.mp hl with hl | rfl
    · exact hpos l hl
    · exact h.size_le
  · exact h

theorem append (h : Grown s t) (w : UInt32) :
    Grown s { t with stream := { t.stream with code := t.stream.code.append w } } where
  code := by
    obtain ⟨c, hc⟩ := h.code
    exact ⟨c.append w, by simp [hc, Code.append, Array.append_assoc]⟩
  listing := h.listing
  lines := h.lines
  reports := h.reports
  observer := h.observer
  blocks := h.blocks
  pending := by
    intro b hb
    obtain ⟨hl, hp, hs⟩ := h.pending b hb
    refine ⟨hl, hp, hs.trans ?_⟩
    simp [Stream.size]

theorem emit (h : Grown s t) {i : Instr} (hi : i.isBranch = false) :
    Grown s { t with stream := t.stream.emit i } := by
  cases i with
  | branch => cases hi
  | _ => exact (h.note _).append _

theorem branch (h : Grown s t) (c : CondCode) {l : Label} (hl : t.stream.HasLabel l) :
    Grown s { t with stream := t.stream.emit (.branch c l) } := by
  have hn := h.note (Instr.branch c l).text
  have ha := hn.append (Instr.branch c l).encode
  have hl' : (t.stream.note (Instr.branch c l).text).HasLabel l := by
    unfold Stream.note
    split_ifs <;> exact hl
  refine { ha with pending := fun b hb => ?_ }
  rcases Array.mem_push.mp hb with hb | rfl
  · exact ha.pending b hb
  · refine ⟨hl', hn.size_le, ?_⟩
    rw [Stream.size_note, Stream.size_emit]

theorem emitAll (h : Grown s t) {l : List Instr} (hl : ∀ i ∈ l, i.isBranch = false) :
    Grown s { t with stream := t.stream.emitAll l } := by
  induction l generalizing t with
  | nil => exact h
  | cons i l ih =>
    obtain ⟨hi, hl⟩ := List.forall_mem_cons.mp hl
    exact ih (h.emit hi) hl

theorem label (h : Grown s t) (b : UInt32) :
    Grown s (t.labelOf b).2 ∧ (t.labelOf b).2.stream.HasLabel (t.labelOf b).1 := by
  unfold Session.labelOf
  split
  next c hc => exact ⟨h, h.blocks c (List.mem_of_find?_eq_some hc)⟩
  next hc =>
    have hmono {l : Label} (hl : t.stream.HasLabel l) : t.stream.createLabel.2.HasLabel l :=
      ⟨hl.1, hl.2.trans (by simp [Stream.createLabel])⟩
    have hnew : t.stream.createLabel.2.HasLabel t.stream.createLabel.1 :=
      ⟨Int.natCast_nonneg _, by simp [Stream.createLabel]⟩
    refine ⟨{ h with blocks := fun c hc => ?_, pending := fun c hc => ?_ }, hnew⟩
    · rcases List.mem_append.mp hc with hc | hc
      · exact hmono (h.blocks c hc)
      · rw [List.mem_singleton.mp hc]
        exact hnew
    · exact ⟨hmono (h.pending c hc).1, (h.pending c hc).2⟩

theorem mark (h : Grown s t) {l : Label} {stream : Stream} (hm : t.stream.mark l = .ok stream) :
    Grown s { t with stream } := by
  unfold Stream.mark at hm
  split at hm
  · cases hm
  · cases hm
  · obtain rfl := Except.ok.inj hm
    have hn := h.note ("L" ++ toString l ++ ":")
    refine { hn with blocks := fun c hc => ?_, pending := fun c hc => ?_ }
    · simpa [Stream.HasLabel] using hn.blocks c hc
    · exact ⟨by simpa [Stream.HasLabel] using (hn.pending c hc).1, (hn.pending c hc).2⟩

theorem report (h : Grown s t) (v : UInt32) {pos : Nat} (hp : s.stream.size ≤ pos) :
    Grown s { t with
      reports := if t.observer = .recording then t.reports.push ⟨v, pos⟩ else t.reports } := by
  split_ifs with ho
  · obtain ⟨r, hr, hpos, hnone⟩ := h.reports
    refine { h with reports := ⟨r.push ⟨v, pos⟩, by simp [hr], fun x hx => ?_, fun hne => ?_⟩ }
    · rcases Array.mem_push.mp hx with hx | rfl
      · exact hpos x hx
      · exact hp
    · exact (hne (h.observer ▸ ho)).elim
  · exact h

theorem call (h : Grown s t) (addr : UInt32) : Grown s (t.call addr) := by
  have hr := h.report addr h.size_le
  exact hr.emitAll (by simp [Constant.loadPair, Instr.mov, Instr.isBranch])

theorem resolveBranch (h : Grown s t) {b : PendingBranch} (hb : b ∈ t.stream.pending.items) :
    (∃ code, t.stream.resolveBranch b = .ok code ∧
      Grown s { t with stream := { t.stream with code } }) ∨
    (∃ e, t.stream.resolveBranch b = .error e ∧
      (e = .unmarked b ∨ ∃ d, e = .tooFar b d)) := by
  obtain ⟨hl, hp, hs⟩ := h.pending b hb
  obtain ⟨p, hp'⟩ := hl.label?
  rw [Stream.resolveBranch, hp']
  cases p with
  | none => exact .inr ⟨_, rfl, .inl rfl⟩
  | some p =>
    simp only
    split_ifs
    · exact .inr ⟨_, rfl, .inr ⟨_, rfl⟩⟩
    · obtain ⟨w, hw⟩ := Code.exists_word? hs
      rw [hw]
      refine .inl ⟨_, rfl, { h with code := ?_, pending := fun c hc => ?_ }⟩
      · obtain ⟨c, hc⟩ := h.code
        exact ⟨_, by rw [hc, Code.write_append _ _ _ hp]⟩
      · obtain ⟨hl', hp', hs'⟩ := h.pending c hc
        exact ⟨hl', hp', by simpa [Stream.size] using hs'⟩

theorem resolveSteps [PendingHeap] (h : Grown s t) (n : Nat) :
    Grown s { t with stream := (t.stream.resolveSteps n).1 } ∧
      ∀ e, (t.stream.resolveSteps n).2 = .error e →
        ∃ b, e = .unmarked b ∨ ∃ d, e = .tooFar b d := by
  induction n generalizing t with
  | zero => exact ⟨h, fun _ he => by cases he⟩
  | succ n ih =>
    rw [Stream.resolveSteps]
    split
    · exact ⟨h, fun _ he => by cases he⟩
    next b rest hq =>
      have hperm := PendingHeap.pop?_perm hq
      have hb : b ∈ t.stream.pending.items := hperm.mem_iff.mpr Array.mem_push_self
      have hrest {u : Session} (hu : Grown s u) (hp : u.stream.pending = t.stream.pending) :
          Grown s { u with stream := { u.stream with pending := rest } } := by
        refine { hu with pending := fun c hc => hu.pending c ?_ }
        rw [hp]
        exact hperm.mem_iff.mpr (Array.mem_push_of_mem _ hc)
      rcases h.resolveBranch hb with ⟨code, hc, hg⟩ | ⟨e, he, hform⟩
      · rw [hc]
        exact ih (hrest hg rfl)
      · rw [he]
        refine ⟨hrest h rfl, fun e' he' => ⟨b, ?_⟩⟩
        rwa [← Except.error.inj he']

/-- Cutting the stream at its old end undoes the growth, up to the reports. The lines that are
dropped are those of the growth because all earlier ones belong to the earlier code. -/
theorem rollback (hs : s.Ready) (h : Grown s t) :
    t.rollback s.stream.size = { s with reports := t.reports } := by
  obtain ⟨c, hc⟩ := h.code
  obtain ⟨m, hm, hpos⟩ := h.lines
  have hcode : t.stream.code.take s.stream.size = s.stream.code := by
    rw [hc]
    simp [Stream.size]
  have hkeep : s.stream.lines.popWhile (fun l => decide (s.stream.size ≤ l.pos)) =
      s.stream.lines := by
    cases hl : s.stream.lines with
    | mk l =>
      rw [List.popWhile_toArray, List.dropWhile_eq_self_iff.mpr, List.reverse_reverse]
      intro hn
      have hmem : l.reverse[0] ∈ s.stream.lines := by
        rw [hl, List.mem_toArray]
        exact List.mem_reverse.mp (List.getElem_mem hn)
      simpa using hs.lines _ hmem
  have hlines : Stream.dropLines s.stream.size t.stream.lines = s.stream.lines := by
    rw [Stream.dropLines, hm, Array.popWhile_append_of_pos (by simpa using hpos), hkeep]
  obtain ⟨hparams, hblocks, hlevel⟩ := Session.isClean_iff.mp hs.clean
  have hlabels := hs.labels
  have hpending := hs.pending
  have hlisting := h.listing
  have hobserver := h.observer
  obtain ⟨⟨code, listing, lines, labels, pending⟩, blocks, params, level, observer, reports⟩ := s
  simp only at hparams hblocks hlevel hlabels hpending hlisting hobserver hcode hlines
  subst hparams hblocks hlevel hlabels hpending
  simp only [Session.rollback, Session.forget, Stream.truncate, Stream.clearLabels, hcode, hlines,
    hlisting, hobserver]

end Grown

/-! ### Lowering lets the session grow -/

namespace Lower

variable {s : Session}

theorem guarded_emit {l : List Instr} (hl : ∀ i ∈ l, i.isBranch = false) :
    Guarded Failure.IsFault (Grown s) (emit l) :=
  .modify fun _ h => h.emitAll hl

theorem guarded_emitChecked_of_confined {r : Except Fault (List Instr)}
    (h : ∀ l, r = .ok l → Confined (fun _ => True) (fun _ => True) l) :
    Guarded Failure.IsFault (Grown s) (emitChecked r) :=
  guarded_emitChecked fun l hl => guarded_emit fun i hi => (h l hl i hi).isBranch_eq_false

theorem guarded_jumpTo (c : CondCode) (b : UInt32) :
    Guarded Failure.IsFault (Grown s) (jumpTo c b) := by
  refine .of_outcome fun t h => ?_
  obtain ⟨hg, hl⟩ := h.label b
  rw [jumpTo, outcome_bind_of_eq (outcome_labelOf b), outcome_emit]
  exact ⟨_, _, rfl, hg.branch c hl⟩

theorem guarded_jumpOn (x : Statement) : Guarded Failure.IsFault (Grown s) (jumpOn x) :=
  (guarded_check _).bind fun c => guarded_jumpTo c x.block

theorem guarded_markBlock (b : UInt32) : Guarded Failure.IsFault (Grown s) (markBlock b) := by
  intro t h
  obtain ⟨hg, hl⟩ := h.label b
  obtain ⟨p, hp⟩ := hl.label?
  rw [markBlock, outcome_bind_of_eq (outcome_labelOf b), outcome_get_bind]
  cases hm : (t.labelOf b).2.stream.mark (t.labelOf b).1 with
  | ok stream => exact ⟨hg.mark hm, fun _ he => by cases he⟩
  | error e =>
    cases e with
    | markedTwice => exact ⟨hg, fun _ he => ⟨_, (Except.error.inj he).symm⟩⟩
    | unknown l =>
      rw [Stream.mark, hp] at hm
      cases p <;> cases hm

theorem guarded_moveLevel (d : UInt32) : Guarded Failure.IsFault (Grown s) (moveLevel d) :=
  .modify fun _ h => { h with }

theorem guarded_level : Guarded Failure.IsFault (Grown s) level :=
  Guarded.get.bind fun _ => .pure _

theorem guarded_takeParameters (n : Nat) :
    Guarded Failure.IsFault (Grown s) (takeParameters n) := by
  intro t h
  rw [takeParameters, outcome_get_bind]
  split_ifs
  · exact ⟨h, fun _ he => ⟨_, (Except.error.inj he).symm⟩⟩
  · exact ⟨{ h with }, fun _ he => by cases he⟩

variable (ho : s.observer ≠ .refusing)

include ho

theorem guarded_callAddress (addr : UInt32) :
    Guarded Failure.IsFault (Grown s) (callAddress addr) :=
  .of_outcome fun _ h => ⟨_, _, outcome_callAddress (h.observer ▸ ho) addr, h.call addr⟩

theorem guarded_call (target count : Operand) :
    Guarded Failure.IsFault (Grown s) (call target count) := by
  refine (guarded_check _).bind fun _ => (guarded_check _).bind fun _ => ?_
  refine (guarded_takeParameters _).bind fun ps => guarded_level.bind fun v => ?_
  refine (guarded_emitChecked_of_confined fun l hl => ?_).bind fun _ => guarded_callAddress ho _
  exact Parameter.confined_codeAll (fun _ _ => trivial) hl

theorem guarded_divide [Helper.Entries] (signed : Bool) (d s1 s2 : Operand) :
    Guarded Failure.IsFault (Grown s) (divide signed d s1 s2) := by
  have harg (v : UInt32) (r : Reg) (a : Operand) :
      Guarded Failure.IsFault (Grown s) (emitChecked (Access.argument v r a)) :=
    guarded_emitChecked_of_confined fun _ => Access.confined_argument trivial
  refine (guarded_check _).bind fun _ => ?_
  refine guarded_level.bind fun _ => (harg _ _ _).bind fun _ => ?_
  refine guarded_level.bind fun _ => (harg _ _ _).bind fun _ => ?_
  refine (guarded_emit (by simp [Instr.isBranch])).bind fun _ => ?_
  refine (guarded_moveLevel 8).bind fun _ => (guarded_callAddress ho _).bind fun _ => ?_
  refine guarded_level.bind fun _ => (guarded_emitChecked_of_confined fun _ =>
    Access.confined_store64_low fun _ _ => trivial).bind fun _ => ?_
  refine (guarded_emit (by simp [Instr.isBranch])).bind fun _ => ?_
  refine (guarded_moveLevel (-8)).bind fun _ => (guarded_callAddress ho _).bind fun _ => ?_
  exact guarded_level.bind fun _ => guarded_emitChecked_of_confined fun _ =>
    Access.confined_store64_high fun _ _ => trivial

/-- Lowering a statement lets the session grow, also when it fails, and fails by a fault only. -/
theorem guarded_statement [Helper.Entries] (x : Statement) :
    Guarded Failure.IsFault (Grown s) (statement x) := by
  refine guarded_check_bind fun r hr => ?_
  cases ha : r.action with
  | straight a =>
    have hp : a.Permits (fun _ => True) (fun _ => True) 0 x :=
      ⟨fun _ _ => trivial, fun _ _ _ _ _ => trivial, fun hd _ => Rules.kind_of_select hr ha hd,
        fun _ _ _ _ => trivial, fun _ => trivial⟩
    exact guarded_level.bind fun v => guarded_emitChecked_of_confined fun l hl =>
      Straight.confined { hp with words := fun _ _ _ _ => trivial } hl
  | mark => exact guarded_markBlock _
  | jump => exact guarded_jumpTo _ _
  | jumpIf =>
    refine guarded_check_bind fun a _ => guarded_check_bind fun b _ => ?_
    split_ifs
    · exact (Guarded.throw ⟨_, rfl⟩)
    · exact guarded_level.bind fun v => (guarded_emitChecked_of_confined fun _ =>
        Straight.confined_compareCode trivial trivial).bind fun _ => guarded_jumpOn x
  | jumpIfCst =>
    refine guarded_check_bind fun a _ => guarded_check_bind fun b _ => ?_
    refine (guarded_check _).bind fun _ => guarded_level.bind fun v => ?_
    exact (guarded_emitChecked_of_confined fun _ =>
      Straight.confined_compareCstCode trivial trivial).bind fun _ => guarded_jumpOn x
  | param c =>
    exact guarded_check_bind fun p _ => .modify fun _ h => { h with }
  | call =>
    exact guarded_check_bind fun a _ => guarded_check_bind fun b _ => guarded_call ho a b
  | divide signed =>
    exact guarded_check_bind fun d _ => guarded_check_bind fun a _ =>
      guarded_check_bind fun b _ => guarded_divide ho signed d a b

end Lower

namespace LowerAt

variable {s : Session} {α : Type}

theorem outcome_located (place : Place) (m : Lower α) (s : Session) :
    outcome (located place m) s = match outcome m s with
      | (.ok a, t) => (.ok a, t)
      | (.error f, t) => (.error (place, f), t) := by
  change (match outcome m s with | (r, t) => (Except.mapError (fun f => (place, f)) r, t)) = _
  rcases outcome m s with ⟨e | a, t⟩ <;> rfl

theorem guarded_located {I : Session → Prop} {P : Failure → Prop} {m : Lower α}
    (h : Guarded P I m) (place : Place) : Guarded (fun e => P e.2) I (located place m) := by
  intro t ht
  obtain ⟨hi, he⟩ := h t ht
  rw [outcome_located]
  rcases hm : outcome m t with ⟨f | a, u⟩
  · rw [hm] at hi he
    refine ⟨hi, fun e h => ?_⟩
    rw [← Except.error.inj h]
    exact he f rfl
  · rw [hm] at hi
    exact ⟨hi, fun _ h => by cases h⟩

theorem guarded_checkEnd : Guarded Failure.IsFault (Grown s) checkEnd := by
  have hthrow (f : Fault) :
      Guarded Failure.IsFault (Grown s) (throw (.fault f) : Lower PUnit) := .throw ⟨f, rfl⟩
  refine Guarded.get.bind fun t => ?_
  split_ifs
  · exact (hthrow _).bind fun _ => hthrow _
  · exact hthrow _
  · exact (hthrow _).bind fun _ => .pure _
  · exact .pure _

theorem guarded_resolve [PendingHeap] : Guarded Failure.IsFault (Grown s) resolve := by
  intro t h
  obtain ⟨hg, he⟩ := h.resolveSteps t.stream.pending.items.size
  rw [resolve, outcome_get_bind, Stream.resolve]
  rcases hr : t.stream.resolveSteps t.stream.pending.items.size with ⟨stream, r⟩
  rw [hr] at hg he
  simp only [outcome_set_bind]
  cases r with
  | ok => exact ⟨hg, fun _ h => by cases h⟩
  | error e =>
    obtain ⟨b, rfl | ⟨d, rfl⟩⟩ := he e rfl
    · exact ⟨hg, fun _ h => ⟨_, (Except.error.inj h).symm⟩⟩
    · exact ⟨hg, fun _ h => ⟨_, (Except.error.inj h).symm⟩⟩

variable (ho : s.observer ≠ .refusing)

include ho

theorem guarded_statements [Helper.Entries] (p : Program) (i : Nat) :
    Guarded (fun e => Failure.IsFault e.2) (Grown s) (statements i p) := by
  induction p generalizing i with
  | nil => exact Guarded.pure ()
  | cons x p ih =>
    exact (guarded_located (Lower.guarded_statement ho x) _).bind fun _ => ih (i + 1)

/-- Lowering a function lets the session grow, also when it fails, and fails by a fault only. -/
theorem guarded_function [Helper.Entries] [PendingHeap] (p : Program) (frame : UInt32) :
    Guarded (fun e => Failure.IsFault e.2) (Grown s) (function p frame) := by
  refine (guarded_located (Lower.guarded_check _) _).bind fun saved => ?_
  refine (guarded_located (Lower.guarded_emitChecked fun l hl => ?_) _).bind fun _ => ?_
  · exact Lower.guarded_emit fun i hi => Frame.plain_prolog hl i (List.mem_map_of_mem hi)
  refine (Guarded.modify fun _ h => { h with }).bind fun _ => ?_
  refine (guarded_statements ho p 0).bind fun _ => ?_
  refine (guarded_located (guarded_checkEnd.bind fun _ => ?_) _).bind fun _ => ?_
  · exact (Lower.guarded_emit fun i hi =>
      Frame.plain_epilog _ _ i (List.mem_map_of_mem hi)).bind fun _ => guarded_resolve
  · exact .modify fun t h => { h with
      blocks := fun b hb => by cases hb
      pending := fun b hb => by simp [Session.forget, Stream.clearLabels] at hb }

end LowerAt

end A32Lowering
