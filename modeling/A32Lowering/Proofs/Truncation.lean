import Mathlib
import A32Lowering.Proofs.Labels
import A32Lowering.Proofs.Patching

/-!
# Branches that are cut off

Cutting a stream takes instructions away, and leaves the queue of pending branches as it is. A
branch that was cut off waits on at its old position. If nothing stands there when branches are
filled in, resolving leaves the stream; if another instruction was added there in the meantime, its
word is taken for that of the branch.

So resolving can be relied on as long as every pending branch still stands in the stream, which is
so if no cut takes one away.

## Main definitions

* `Stream.Edit`, `Stream.edit` : uses of a stream, cuts and resets.
* `Stream.Edit.instrs` : the instructions in a stream, by what was added and cut off.
* `PendingBranch.Stands` : a branch is still in the stream.
* `Stream.ResolvesWithin` : resolving changes nothing but branches in the stream.
* `Stream.Overwritten`, `Stream.Stopped` : the word at a pending branch is filled in, whatever it
  is, and why it cannot be.

## Main results

* `Stream.resolveSteps_settled`, `Stream.overwritten_of_resolveSteps` : what resolving does to any
  stream.
* `Stream.Tracks.edit`, `Stream.Whole.edit` : every edit keeps to the instructions that are listed,
  and every pending branch stands unless a cut takes it away.
* `Stream.resolve_after_edits` : resolving after any edits of a new stream.
-/

namespace A32Lowering

namespace Stream

/-! ### Edits -/

/-- What can be done with a stream, cuts included. -/
inductive Edit where
  /-- Adds to the stream, or resolves it. -/
  | use (u : Use)
  /-- Cuts the stream to its first `n` bytes. -/
  | truncate (n : Nat)
  /-- Empties the stream. -/
  | reset
  /-- Turns the listing on or off. -/
  | listing (on : Bool)
  deriving DecidableEq, Repr

/-- The stream after an edit. -/
def edit [PendingHeap] (s : Stream) : Edit → Stream
  | .use u => s.use u
  | .truncate n => s.truncate n
  | .reset => s.reset
  | .listing on => { s with listing := on }

namespace Edit

/-- The instructions in the stream after an edit, given those before it. -/
def instrs (l : List Instr) : Edit → List Instr
  | .use (.emit i) => l ++ [i]
  | .use _ => l
  | .truncate n => l.take (n / 4)
  | .reset => []
  | .listing _ => l

/-- An edit that is allowed: a branch goes to a label that exists, and a cut is made between
instructions of the stream. -/
def Allowed (s : Stream) : Edit → Prop
  | .use u => u.Allowed s
  | .truncate n => 4 ∣ n ∧ n ≤ s.size
  | _ => True

instance (s : Stream) (e : Edit) : Decidable (e.Allowed s) := by
  unfold Allowed
  split <;> infer_instance

/-- An edit that takes no pending branch away. -/
def Spares (s : Stream) : Edit → Prop
  | .truncate n => ∀ b ∈ s.pending.items, b.pos < n
  | _ => True

instance (s : Stream) (e : Edit) : Decidable (e.Spares s) := by
  unfold Spares
  split <;> infer_instance

end Edit

/-- Every one of some edits is as it should be when it is made. -/
def Each [PendingHeap] (P : Stream → Edit → Prop) : Stream → List Edit → Prop
  | _, [] => True
  | s, e :: es => P s e ∧ (s.edit e).Each P es

instance decidableEach [PendingHeap] (P : Stream → Edit → Prop) [∀ s e, Decidable (P s e)] :
    (s : Stream) → (es : List Edit) → Decidable (s.Each P es)
  | _, [] => isTrue trivial
  | s, e :: es => @instDecidableAnd _ _ _ (decidableEach P (s.edit e) es)

end Stream

/-- A branch stands among some instructions: at its position there is a branch to its label. -/
def PendingBranch.Stands (l : List Instr) (b : PendingBranch) : Prop :=
  ∃ j cond, b.pos = 4 * j ∧ l[j]? = some (.branch cond b.label)

namespace Stream

/-- Resolving keeps to the branches in the stream: it does not leave the stream, and changes no byte
but those of pending branches that stand in it. -/
structure ResolvesWithin [PendingHeap] (s : Stream) (l : List Instr) : Prop where
  inside : ∀ b, s.resolve.2 ≠ .error (.outside b)
  bytes : ∀ i, s.resolve.1.code[i]? ≠ s.code[i]? →
    ∃ b ∈ s.pending.items, b.Stands l ∧ b.pos ≤ i ∧ i < b.pos + 4

/-- From `s` to `t` the word at a position was filled in: it leads to the label of a pending branch
with this position, and its upper byte is that of the instruction which stood there. -/
def Overwritten (s t : Stream) (pos : Nat) : Prop :=
  ∃ b ∈ s.pending.items, b.pos = pos ∧ ∃ w v p, s.code.word? pos = some w ∧
    t.code.word? pos = some v ∧ s.label? b.label = some (some p) ∧
    (pos : Int) + 8 + 4 * wordsOf v = p ∧ slice v 24 8 = slice w 24 8

/-! ### Resolving any stream -/

/-- From one code to another only the word at a position changes. -/
structure Writes (code : Code) (pos : Nat) (w : UInt32) (other : Code) : Prop where
  size : other.size = code.size
  word : other.word? pos = some w
  bytes : ∀ i, i < pos ∨ pos + 4 ≤ i → other[i]? = code[i]?

theorem writes_write {code : Code} {pos : Nat} (h : pos + 4 ≤ code.size) (w : UInt32) :
    Writes code pos w (code.write pos w) :=
  ⟨Code.size_write code pos w, Code.word?_write_self code w h,
    fun _ hi => Code.getElem?_write_of_outside code w hi⟩

/-- Words at two different multiples of four have no byte in common. -/
theorem Writes.word?_of_ne {code other : Code} {p q : Nat} {w : UInt32} (h : Writes code p w other)
    (hp : 4 ∣ p) (hq : 4 ∣ q) (hne : q ≠ p) : other.word? q = code.word? q :=
  Code.word?_congr fun i _ _ => h.bytes i (by omega)

/-- Why a branch cannot be filled in. -/
inductive Stopped (s : Stream) (b : PendingBranch) : ResolveError → Prop
  | unknownLabel (h : s.label? b.label = none) : Stopped s b (.unknownLabel b)
  | unmarked (h : s.label? b.label = some none) : Stopped s b (.unmarked b)
  | tooFar {p : Nat} (h : s.label? b.label = some (some p))
      (hd : ¬ Items.InReach (displacement b.pos p)) :
      Stopped s b (.tooFar b (displacement b.pos p))
  | outside (h : s.size < b.pos + 4) : Stopped s b (.outside b)

/-- A branch is filled in, or cannot be. -/
theorem resolveBranch_cases (s : Stream) (b : PendingBranch) :
    (∃ p w code, s.label? b.label = some (some p) ∧ Items.InReach (displacement b.pos p) ∧
      s.code.word? b.pos = some w ∧ s.resolveBranch b = .ok code ∧
      Writes s.code b.pos (branchTo w (displacement b.pos p)) code) ∨
    ∃ e, s.resolveBranch b = .error e ∧ s.Stopped b e := by
  unfold resolveBranch
  rcases hl : s.label? b.label with _ | _ | p
  · exact .inr ⟨_, rfl, .unknownLabel hl⟩
  · exact .inr ⟨_, rfl, .unmarked hl⟩
  · by_cases hd : Items.InReach (displacement b.pos p)
    · have hreach : ¬ (displacement b.pos p < -0x800000 ∨ 0x800000 ≤ displacement b.pos p) := by
        unfold Items.InReach at hd
        omega
      simp only [if_neg hreach]
      cases hw : s.code.word? b.pos with
      | some w =>
        exact .inl ⟨p, w, _, rfl, hd, rfl, rfl, writes_write (Code.le_size_of_word? hw) _⟩
      | none =>
        refine .inr ⟨_, rfl, .outside ?_⟩
        by_contra hin
        obtain ⟨w, hw'⟩ := Code.exists_word? (Nat.le_of_not_lt hin)
        cases hw.symm.trans hw'
    · have hreach : displacement b.pos p < -0x800000 ∨ 0x800000 ≤ displacement b.pos p := by
        unfold Items.InReach at hd
        omega
      simp only [if_pos hreach]
      exact .inr ⟨_, rfl, .tooFar hl hd⟩

/-- What resolving leaves alone: the size, the labels, and all bytes but those of pending branches;
and it adds none of these. -/
structure Settled (s t : Stream) : Prop where
  size : t.size = s.size
  labels : t.labels = s.labels
  pending : ∀ b ∈ t.pending.items, b ∈ s.pending.items
  bytes : ∀ i, (∀ b ∈ s.pending.items, i < b.pos ∨ b.pos + 4 ≤ i) → t.code[i]? = s.code[i]?

variable {s t u : Stream}

theorem Settled.refl (s : Stream) : s.Settled s := ⟨rfl, rfl, fun _ hb => hb, fun _ _ => rfl⟩

theorem Settled.trans (h : s.Settled t) (h' : t.Settled u) : s.Settled u where
  size := h'.size.trans h.size
  labels := h'.labels.trans h.labels
  pending b hb := h.pending b (h'.pending b hb)
  bytes i hi := (h'.bytes i fun b hb => hi b (h.pending b hb)).trans (h.bytes i hi)

/-- The branch that the queue gives up, and those that are left. -/
theorem mem_of_pop? [PendingHeap] {b : PendingBranch} {q : PendingQueue}
    (hq : PendingHeap.pop? s.pending = some (b, q)) :
    b ∈ s.pending.items ∧ ∀ c ∈ q.items, c ∈ s.pending.items := by
  have hmem {c : PendingBranch} : c ∈ s.pending.items ↔ c ∈ q.items.push b :=
    (PendingHeap.pop?_perm hq).mem_iff
  exact ⟨hmem.mpr Array.mem_push_self, fun c hc => hmem.mpr (Array.mem_push_of_mem _ hc)⟩

/-- Taking a branch off the queue. -/
theorem settled_pop [PendingHeap] {b : PendingBranch} {q : PendingQueue}
    (hq : PendingHeap.pop? s.pending = some (b, q)) : s.Settled { s with pending := q } where
  size := rfl
  labels := rfl
  pending := (mem_of_pop? hq).2
  bytes _ _ := rfl

/-- Taking a branch off the queue and writing its word. -/
theorem settled_write [PendingHeap] {b : PendingBranch} {q : PendingQueue}
    (hq : PendingHeap.pop? s.pending = some (b, q)) {w : UInt32} {code : Code}
    (h : Writes s.code b.pos w code) : s.Settled { s with code, pending := q } where
  size := h.size
  labels := rfl
  pending := (mem_of_pop? hq).2
  bytes i hi := h.bytes i (hi b (mem_of_pop? hq).1)

/-- What a branch is stopped by does not change while others are filled in. -/
theorem Stopped.of_settled (h : s.Settled t) {b : PendingBranch} {e : ResolveError}
    (ht : t.Stopped b e) : s.Stopped b e := by
  have hlabel := label?_congr h.labels b.label
  cases ht with
  | unknownLabel hl => exact .unknownLabel (hlabel ▸ hl)
  | unmarked hl => exact .unmarked (hlabel ▸ hl)
  | tooFar hl hd => exact .tooFar (hlabel ▸ hl) hd
  | outside hs => exact .outside (h.size ▸ hs)

/-- Resolving fills in pending branches up to one that it cannot fill in. -/
theorem resolveSteps_settled [PendingHeap] (n : Nat) (s : Stream) : s.Settled (s.resolveSteps n).1 ∧
    ∀ e, (s.resolveSteps n).2 = .error e → ∃ b ∈ s.pending.items, s.Stopped b e := by
  induction n generalizing s with
  | zero => exact ⟨.refl s, fun e he => by cases he⟩
  | succ n ih =>
    rw [resolveSteps]
    split
    next => exact ⟨.refl s, fun e he => by cases he⟩
    next b q hq =>
      rcases s.resolveBranch_cases b with ⟨p, w, code, -, -, -, hok, hwrite⟩ | ⟨e, herr, hstop⟩
      · have hstep := settled_write hq hwrite
        rw [hok]
        obtain ⟨hsettled, herror⟩ := ih { s with code, pending := q }
        refine ⟨hstep.trans hsettled, fun e he => ?_⟩
        obtain ⟨c, hc, hstop⟩ := herror e he
        exact ⟨c, hstep.pending c hc, hstop.of_settled hstep⟩
      · rw [herr]
        refine ⟨settled_pop hq, fun e' he' => ?_⟩
        obtain rfl := Except.error.inj he'
        exact ⟨b, (mem_of_pop? hq).1, hstop⟩

theorem settled_of_resolveSteps [PendingHeap] {n : Nat} {r : Except ResolveError Unit}
    (h : s.resolveSteps n = (t, r)) : s.Settled t := by
  have hsettled := (resolveSteps_settled n s).1
  rwa [h] at hsettled

/-- A word that is filled in after that of another branch, which may have the same position. -/
theorem Overwritten.of_settled {a : PendingBranch} {w v : UInt32} (h : s.Settled t)
    (hw : s.code.word? a.pos = some w) (hv : t.code.word? a.pos = some v)
    (hupper : slice v 24 8 = slice w 24 8) {pos : Nat}
    (hother : pos ≠ a.pos → t.code.word? pos = s.code.word? pos) (hpos : t.Overwritten u pos) :
    s.Overwritten u pos := by
  obtain ⟨b, hb, hbpos, w', v', p, hw', hv', hp, hlead, hupper'⟩ := hpos
  refine ⟨b, h.pending b hb, hbpos, ?_⟩
  rw [label?_congr h.labels] at hp
  by_cases hpa : pos = a.pos
  · subst hpa
    obtain rfl := Option.some.inj (hv.symm.trans hw')
    exact ⟨w, v', p, hw, hv', hp, hlead, hupper'.trans hupper⟩
  · exact ⟨w', v', p, hother hpa ▸ hw', hv', hp, hlead, hupper'⟩

/-- A word that was filled in last for a branch. -/
theorem overwritten_branchTo {b : PendingBranch} {p : Nat} {w : UInt32} (hb : b ∈ s.pending.items)
    (hp : s.label? b.label = some (some p)) (h4 : (4 : Int) ∣ (p : Int) - b.pos)
    (hd : Items.InReach (displacement b.pos p)) (hw : s.code.word? b.pos = some w)
    (hv : t.code.word? b.pos = some (branchTo w (displacement b.pos p))) :
    s.Overwritten t b.pos := by
  refine ⟨b, hb, rfl, w, _, p, hw, hv, hp, ?_, (slice_branchTo w _).2⟩
  obtain ⟨k, hk⟩ := h4
  rw [wordsOf_branchTo w hd, displacement_eq (d := k - 2) (by omega)]
  omega

/-- When resolving succeeds, the word at every pending branch is filled in, be it that branch or
not. -/
theorem overwritten_of_resolveSteps [PendingHeap] {n : Nat} (h : s.resolveSteps n = (t, .ok ()))
    (hn : s.pending.items.size ≤ n) (h4 : ∀ b ∈ s.pending.items, 4 ∣ b.pos)
    (hl : ∀ l p, s.label? l = some (some p) → 4 ∣ p) :
    ∀ b ∈ s.pending.items, s.Overwritten t b.pos := by
  induction n generalizing s with
  | zero =>
    have hempty : s.pending.items = #[] := Array.eq_empty_of_size_eq_zero (Nat.le_zero.mp hn)
    simp [hempty]
  | succ n ih =>
    rw [resolveSteps] at h
    split at h
    next hq => simp [PendingHeap.pop?_eq_none_iff.mp hq]
    next a q hq =>
      have hperm := PendingHeap.pop?_perm hq
      have ha := (mem_of_pop? hq).1
      rcases s.resolveBranch_cases a with ⟨p, w, code, hp, hd, hw, hok, hwrite⟩ | ⟨e, herr, -⟩
      · simp only [hok] at h
        have hstep := settled_write hq hwrite
        have hsize : q.items.size ≤ n := by
          have hsize := hperm.size_eq
          rw [Array.size_push] at hsize
          omega
        have hrest := ih h hsize (fun b hb => h4 b (hstep.pending b hb)) hl
        have hkept := (settled_of_resolveSteps h).bytes
        intro b hb
        by_cases hlater : ∃ c ∈ q.items, c.pos = b.pos
        · -- The word is filled in again, for a branch with the same position.
          obtain ⟨c, hc, hpos⟩ := hlater
          refine .of_settled hstep hw hwrite.word (slice_branchTo w _).2 (fun hne => ?_)
            (hpos ▸ hrest c hc)
          exact hwrite.word?_of_ne (h4 a ha) (h4 b hb) hne
        · obtain rfl : b = a := by
            rcases Array.mem_push.mp (hperm.mem_iff.mp hb) with hbq | hba
            · exact absurd ⟨b, hbq, rfl⟩ hlater
            · exact hba
          have h4p := hl _ _ hp
          have h4b := h4 b hb
          refine overwritten_branchTo hb hp (by omega) hd hw ?_
          refine (Code.word?_congr fun i hi hi' => hkept i fun c hc => ?_).trans hwrite.word
          have hne : c.pos ≠ b.pos := fun hcb => hlater ⟨c, hc, hcb⟩
          have h4c := h4 c (hstep.pending c hc)
          omega
      · simp only [herr] at h
        cases (Prod.mk.inj h).2

/-! ### Every edit keeps to the instructions that are listed -/

/-- A stream has the length of some instructions, labels and pending branches are between them, and
pending branches go to labels that exist. -/
structure Tracks (s : Stream) (l : List Instr) : Prop where
  size : s.size = 4 * l.length
  labels : ∀ k p, s.label? k = some (some p) → 4 ∣ p
  pending : ∀ b ∈ s.pending.items, 4 ∣ b.pos ∧ (s.label? b.label).isSome

/-- All pending branches stand among some instructions, and every other instruction is in the stream
as it was written. -/
structure Whole (s : Stream) (l : List Instr) : Prop where
  stands : ∀ b ∈ s.pending.items, b.Stands l
  others : ∀ j x, l[j]? = some x → x.isBranch = false → s.code.word? (4 * j) = some x.encode

variable {l : List Instr}

/-- An instruction that is added waits if it is a branch. -/
theorem mem_pending_emit {i : Instr} {b : PendingBranch} (h : b ∈ (s.emit i).pending.items) :
    b ∈ s.pending.items ∨ b.pos = s.size ∧ ∃ cond, i = .branch cond b.label := by
  cases hi : i.isBranch with
  | false =>
    rw [pending_emit _ _ hi] at h
    exact .inl h
  | true =>
    cases i with
    | branch cond k =>
      rw [pending_emit_branch] at h
      rcases Array.mem_push.mp h with h | rfl
      · exact .inl h
      · exact .inr ⟨rfl, cond, rfl⟩
    | _ => cases hi

/-- The labels of a stream can change as long as none is lost. -/
theorem Tracks.of_labels (h : s.Tracks l) (hs : t.size = s.size)
    (hp : ∀ b ∈ t.pending.items, b ∈ s.pending.items)
    (hl : ∀ k p, t.label? k = some (some p) → 4 ∣ p)
    (he : ∀ k, (s.label? k).isSome → (t.label? k).isSome) : t.Tracks l where
  size := hs.trans h.size
  labels := hl
  pending b hb := ⟨(h.pending b (hp b hb)).1, he _ (h.pending b (hp b hb)).2⟩

theorem Tracks.emit (h : s.Tracks l) {i : Instr} (hi : (Use.emit i).Allowed s) :
    (s.emit i).Tracks (l ++ [i]) where
  size := by
    rw [size_emit, h.size, List.length_append, List.length_singleton]
    omega
  labels k p hk := h.labels k p (label?_congr (labels_emit _ _) k ▸ hk)
  pending b hb := by
    rw [label?_congr (labels_emit _ _)]
    rcases mem_pending_emit hb with hb | ⟨hpos, cond, rfl⟩
    · exact h.pending b hb
    · exact ⟨hpos ▸ h.size ▸ dvd_mul_right 4 _, hi⟩

theorem Tracks.mark (h : s.Tracks l) {k : Label} (hm : s.mark k = .ok t) : t.Tracks l := by
  obtain ⟨-, hc, hp, hlabel⟩ := mark_eq_ok hm
  refine h.of_labels (congrArg Array.size hc) (fun b hb => hp ▸ hb) (fun m p hk => ?_)
    fun m hk => ?_
  · rw [hlabel] at hk
    split_ifs at hk
    · obtain rfl := Option.some.inj (Option.some.inj hk)
      exact h.size ▸ dvd_mul_right 4 _
    · exact h.labels m p hk
  · rw [hlabel]
    split_ifs
    · rfl
    · exact hk

/-- Placing a label keeps what a stream has if it is kept when the label can be placed. -/
theorem use_mark_keeps [PendingHeap] {P : Stream → Prop} {k : Label} (h : P s)
    (hmark : ∀ {t}, s.mark k = .ok t → P t) : P (s.use (.mark k)) := by
  cases hm : s.mark k with
  | error e =>
    simp only [use, hm]
    exact h
  | ok t =>
    simp only [use, hm]
    exact hmark hm

/-- A stream keeps to its instructions when it is used. -/
theorem Tracks.use [PendingHeap] (h : s.Tracks l) {u : Use} (hu : u.Allowed s) :
    (s.use u).Tracks ((Edit.use u).instrs l) := by
  cases u with
  | emit i => exact h.emit hu
  | create =>
    refine h.of_labels rfl (fun _ hb => hb) (fun k p hk => ?_) fun k hk => ?_
    · rcases label?_createLabel (s := s) k with he | ⟨-, he⟩
      · exact h.labels k p (he ▸ hk)
      · cases he.symm.trans hk
    · rcases label?_createLabel (s := s) k with he | ⟨-, he⟩
      · exact he.symm ▸ hk
      · exact he.symm ▸ rfl
  | mark k => exact use_mark_keeps h h.mark
  | clear =>
    exact {
      size := h.size
      labels := fun k p hk => by simp [Stream.use, clearLabels, label?] at hk
      pending := fun b hb => by simp [Stream.use, clearLabels] at hb }
  | resolve =>
    obtain ⟨hsettled, -⟩ := resolveSteps_settled s.pending.items.size s
    have hlabel := label?_congr hsettled.labels
    exact h.of_labels hsettled.size hsettled.pending (fun k p hk => h.labels k p (hlabel k ▸ hk))
      fun k hk => (hlabel k).symm ▸ hk

theorem size_truncate {n : Nat} (h : n ≤ s.size) : (s.truncate n).size = n := by
  simp only [size, truncate, Array.take_eq_extract, Array.size_extract] at h ⊢
  omega

/-- Every edit keeps to the instructions that are listed. -/
theorem Tracks.edit [PendingHeap] (h : s.Tracks l) {e : Edit} (he : e.Allowed s) :
    (s.edit e).Tracks (e.instrs l) := by
  cases e with
  | use u => exact h.use he
  | truncate n =>
    obtain ⟨⟨k, rfl⟩, hn⟩ := he
    refine { size := ?_, labels := h.labels, pending := h.pending }
    have hsize := h.size
    change (s.truncate (4 * k)).size = 4 * (l.take (4 * k / 4)).length
    rw [size_truncate hn, List.length_take]
    omega
  | reset =>
    exact {
      size := rfl
      labels := fun k p hk => by simp [Stream.edit, reset, label?] at hk
      pending := fun b hb => by simp [Stream.edit, reset] at hb }
  | listing on => exact { size := h.size, labels := h.labels, pending := h.pending }

/-! ### Pending branches that were not cut off -/

/-- A stream whose code is kept, and whose queue gets no branch. -/
theorem Whole.of_code (h : s.Whole l) (hc : t.code = s.code)
    (hp : ∀ b ∈ t.pending.items, b ∈ s.pending.items) : t.Whole l where
  stands b hb := h.stands b (hp b hb)
  others j x hj hx := hc ▸ h.others j x hj hx

/-- The instructions with one behind them. -/
theorem getElem?_concat_eq_some {i x : Instr} {j : Nat} (h : (l ++ [i])[j]? = some x) :
    j < l.length ∧ l[j]? = some x ∨ j = l.length ∧ x = i := by
  rcases Nat.lt_or_ge j l.length with hlt | hge
  · exact .inl ⟨hlt, (List.getElem?_append_left hlt).symm.trans h⟩
  · have hlen := (List.getElem?_eq_some_iff.mp h).1
    rw [List.length_append, List.length_singleton] at hlen
    obtain rfl : j = l.length := by omega
    exact .inr ⟨rfl, Option.some.inj (h.symm.trans List.getElem?_concat_length)⟩

/-- An instruction that is added leaves the words in front of it. -/
theorem Tracks.word?_emit_of_lt (h : s.Tracks l) (i : Instr) {j : Nat} (hj : j < l.length) :
    (s.emit i).code.word? (4 * j) = s.code.word? (4 * j) := by
  have hsize : s.code.size = 4 * l.length := h.size
  rw [code_emit, Code.word?_append_of_le _ _ (by omega)]

theorem Tracks.word?_emit_length (h : s.Tracks l) (i : Instr) :
    (s.emit i).code.word? (4 * l.length) = some i.encode := by
  rw [code_emit, ← h.size]
  exact Code.word?_append_size _ _

/-- A cut leaves the words in front of it. -/
theorem word?_truncate (s : Stream) {j k : Nat} (h : j < k) :
    (s.truncate (4 * k)).code.word? (4 * j) = s.code.word? (4 * j) := by
  refine Code.word?_congr fun i hi hi' => ?_
  have hi : i < 4 * k := by omega
  simp [Stream.truncate, Array.getElem?_extract, hi]

theorem getElem?_take_eq_some {x : Instr} {j k : Nat} (h : (l.take k)[j]? = some x) :
    j < k ∧ l[j]? = some x := by
  rw [List.getElem?_take] at h
  split_ifs at h with hlt
  exact ⟨hlt, h⟩

theorem Whole.emit (h : s.Whole l) (ht : s.Tracks l) (i : Instr) :
    (s.emit i).Whole (l ++ [i]) where
  stands b hb := by
    rcases mem_pending_emit hb with hb | ⟨hpos, cond, rfl⟩
    · obtain ⟨j, cond, hpos, hj⟩ := h.stands b hb
      have hlt := (List.getElem?_eq_some_iff.mp hj).1
      exact ⟨j, cond, hpos, (List.getElem?_append_left hlt).trans hj⟩
    · exact ⟨l.length, cond, hpos.trans ht.size, List.getElem?_concat_length⟩
  others j x hj hx := by
    rcases getElem?_concat_eq_some hj with ⟨hlt, hj⟩ | ⟨rfl, rfl⟩
    · exact (ht.word?_emit_of_lt i hlt).trans (h.others j x hj hx)
    · exact ht.word?_emit_length x

/-- Resolving leaves every instruction but pending branches alone. -/
theorem Whole.resolve [PendingHeap] (h : s.Whole l) : s.resolve.1.Whole l where
  stands b hb := h.stands b ((resolveSteps_settled s.pending.items.size s).1.pending b hb)
  others j x hj hx := by
    refine (Code.word?_congr fun i hi hi' => ?_).trans (h.others j x hj hx)
    refine (resolveSteps_settled s.pending.items.size s).1.bytes i fun b hb => ?_
    obtain ⟨k, cond, hpos, hk⟩ := h.stands b hb
    have hne : k ≠ j := by
      rintro rfl
      obtain rfl := Option.some.inj (hj.symm.trans hk)
      cases hx
    omega

/-- A cut behind all pending branches. -/
theorem Whole.truncate (h : s.Whole l) {k : Nat} (hs : ∀ b ∈ s.pending.items, b.pos < 4 * k) :
    (s.truncate (4 * k)).Whole (l.take k) where
  stands b hb := by
    obtain ⟨j, cond, hpos, hj⟩ := h.stands b hb
    have hlt : j < k := by
      have := hs b hb
      omega
    exact ⟨j, cond, hpos, (List.getElem?_take_of_lt hlt).trans hj⟩
  others j x hj hx := by
    obtain ⟨hlt, hj⟩ := getElem?_take_eq_some hj
    exact (s.word?_truncate hlt).trans (h.others j x hj hx)

/-- Every pending branch stands unless a cut takes it away. -/
theorem Whole.edit [PendingHeap] (h : s.Whole l) (ht : s.Tracks l) {e : Edit} (he : e.Allowed s)
    (hs : e.Spares s) : (s.edit e).Whole (e.instrs l) := by
  cases e with
  | use u =>
    cases u with
    | emit i => exact h.emit ht i
    | create => exact h.of_code rfl fun _ hb => hb
    | mark k =>
      refine use_mark_keeps (P := (Whole · l)) h fun hm => ?_
      obtain ⟨-, hc, hp, -⟩ := mark_eq_ok hm
      exact h.of_code hc fun b hb => hp ▸ hb
    | clear => exact h.of_code rfl fun b hb => by simp [Stream.edit, Stream.use, clearLabels] at hb
    | resolve => exact h.resolve
  | truncate n =>
    obtain ⟨⟨k, rfl⟩, -⟩ := he
    have hk : 4 * k / 4 = k := by omega
    simp only [Edit.instrs, hk]
    exact h.truncate hs
  | reset =>
    exact {
      stands := fun b hb => by simp [Stream.edit, reset] at hb
      others := fun j x hj => by simp [Edit.instrs] at hj }
  | listing on => exact h.of_code rfl fun _ hb => hb

/-! ### Any edits of a new stream -/

theorem Tracks.run [PendingHeap] {es : List Edit} (h : s.Tracks l) (he : s.Each Edit.Allowed es) :
    (es.foldl Stream.edit s).Tracks (es.foldl Edit.instrs l) := by
  induction es generalizing s l with
  | nil => exact h
  | cons e es ih => exact ih (h.edit he.1) he.2

theorem Whole.run [PendingHeap] {es : List Edit} (h : s.Whole l) (ht : s.Tracks l)
    (he : s.Each Edit.Allowed es) (hs : s.Each Edit.Spares es) :
    (es.foldl Stream.edit s).Whole (es.foldl Edit.instrs l) := by
  induction es generalizing s l with
  | nil => exact h
  | cons e es ih => exact ih (h.edit ht he.1 hs.1) (ht.edit he.1) he.2 hs.2

theorem tracks_new (listing : Bool) : Tracks { listing } [] where
  size := rfl
  labels k p hk := by simp [label?] at hk
  pending b hb := by simp at hb

theorem whole_new (listing : Bool) : Whole { listing } [] where
  stands b hb := by simp at hb
  others j x hj := by simp at hj

/-- A pending branch goes to a label that exists. -/
theorem Tracks.resolve_known [PendingHeap] (h : s.Tracks l) (b : PendingBranch) :
    s.resolve.2 ≠ .error (.unknownLabel b) := by
  intro he
  obtain ⟨c, hc, hstop⟩ := (resolveSteps_settled s.pending.items.size s).2 _ he
  cases hstop with
  | unknownLabel hl =>
    have hsome := (h.pending b hc).2
    rw [hl] at hsome
    cases hsome

/-- Resolving keeps to the branches in the stream if all pending ones stand in it. -/
theorem Tracks.resolvesWithin [PendingHeap] (h : s.Tracks l)
    (hs : ∀ b ∈ s.pending.items, b.Stands l) : s.ResolvesWithin l where
  inside b he := by
    obtain ⟨c, hc, hstop⟩ := (resolveSteps_settled s.pending.items.size s).2 _ he
    cases hstop with
    | outside hsize =>
      obtain ⟨j, cond, hpos, hj⟩ := hs b hc
      have hlt := (List.getElem?_eq_some_iff.mp hj).1
      rw [h.size] at hsize
      omega
  bytes i hi := by
    by_contra hnone
    refine hi ((resolveSteps_settled s.pending.items.size s).1.bytes i fun b hb => ?_)
    by_contra hin
    exact hnone ⟨b, hb, hs b hb, by omega, by omega⟩

/-- Resolving after any edits of a new stream, cuts included. It always finds the labels of pending
branches. It keeps to the branches in the stream as long as all pending ones stand in it, and this
is so, with every other instruction as it was written, if no cut took a pending branch away. But
pending branches that were cut off are filled in like all others, in the word that is at their
position, and only what stops any branch stops them. -/
theorem resolve_after_edits [PendingHeap] {listing : Bool} {es : List Edit}
    (h : Each Edit.Allowed { listing } es) :
    let s : Stream := es.foldl edit { listing }
    let l : List Instr := es.foldl Edit.instrs []
    (∀ b, s.resolve.2 ≠ .error (.unknownLabel b)) ∧
      ((∀ b ∈ s.pending.items, b.Stands l) → s.ResolvesWithin l) ∧
      (Each Edit.Spares { listing } es → (∀ b ∈ s.pending.items, b.Stands l) ∧
        ∀ j x, l[j]? = some x → x.isBranch = false →
          s.resolve.1.code.word? (4 * j) = some x.encode) ∧
      (s.resolve.2 = .ok () → ∀ b ∈ s.pending.items, s.Overwritten s.resolve.1 b.pos) ∧
      ∀ e, s.resolve.2 = .error e → ∃ b ∈ s.pending.items, s.Stopped b e := by
  intro s l
  have ht : s.Tracks l := (tracks_new listing).run h
  refine ⟨ht.resolve_known, ht.resolvesWithin, fun hs => ?_, fun hok => ?_,
    (resolveSteps_settled _ s).2⟩
  · have hw : s.Whole l := (whole_new listing).run (tracks_new listing) h hs
    exact ⟨hw.stands, hw.resolve.others⟩
  · exact overwritten_of_resolveSteps (Prod.ext rfl hok) le_rfl (fun b hb => (ht.pending b hb).1)
      ht.labels

/-- A cut between a pending branch and the instruction behind it. -/
def trimmed : List Edit :=
  [.listing true, .use .create, .use (.emit (.branch .eq 0)), .use (.emit (.mov .r0 .r1)),
    .truncate 4, .use (.emit (.mov .r2 .r3)), .use (.mark 0)]

theorem resolve_after_edits_trimmed :
    Each Edit.Allowed { listing := false } trimmed ∧ Each Edit.Spares { listing := false } trimmed ∧
      (trimmed.foldl edit { listing := false }).pending.items = #[⟨0, 0⟩] ∧
      (trimmed.foldl edit { listing := false }).ResolvesWithin [.branch .eq 0, .mov .r2 .r3] := by
  have ha : Each Edit.Allowed { listing := false } trimmed := by decide +kernel
  have hs : Each Edit.Spares { listing := false } trimmed := by decide +kernel
  obtain ⟨-, hwithin, hspared, -⟩ := resolve_after_edits ha
  exact ⟨ha, hs, by decide +kernel, hwithin (hspared hs).1⟩

/-- A branch that is cut off, with a move in its place. -/
def replaced : List Edit :=
  [.use .create, .use (.mark 0), .use (.emit (.branch .al 0)), .truncate 0,
    .use (.emit (.mov .r0 .r1))]

/-- The move that took the place of a branch is altered when branches are filled in, and without it
resolving leaves the stream. -/
theorem resolve_alters_replacement :
    Each Edit.Allowed {} replaced ∧ replaced.foldl Edit.instrs [] = [.mov .r0 .r1] ∧
      (replaced.foldl edit {}).code.word? 0 = some (Instr.mov .r0 .r1).encode ∧
      (replaced.foldl edit {}).resolve.2 = .ok () ∧
      (replaced.foldl edit {}).resolve.1.code.word? 0 = some 0xE1FFFFFE ∧
      (Instr.mov .r0 .r1).encode ≠ 0xE1FFFFFE ∧
      (replaced.dropLast.foldl edit {}).resolve.2 = .error (.outside ⟨0, 0⟩) := by
  decide +kernel

end Stream

end A32Lowering
