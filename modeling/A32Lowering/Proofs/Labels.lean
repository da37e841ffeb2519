import Mathlib
import A32Lowering.Proofs.Decode
import A32Lowering.Proofs.Growth
import A32Lowering.Proofs.Layout

/-!
# Label resolution over any use of a stream

A stream can be used in any order: instructions are added, labels are created and placed, labels are
forgotten, and branches are filled in, several times if need be. A ledger keeps, beside the stream,
the places of labels and the branches that wait, by what was done and not by what the stream holds.
Filling in takes the branches in the order of their positions and stops at the first one that has
nowhere to go.

## Main definitions

* `Stream.Use`, `Stream.use` : what can be done with a stream.
* `PendingBranch.Reaches` : a branch whose label is placed within reach.
* `Ledger`, `Ledger.run` : a stream with what was done to it, and some uses of it.
* `Stream.Filled` : what filling in some branches does to a stream.
* `Stream.Resolution` : what resolving does, given the branches that wait.

## Main results

* `Ledger.Sound.use` : the stream is as its ledger says, after every use.
* `Ledger.Sound.resolveSteps_of_reaches` : filling in the first branches that wait.
* `Ledger.resolve_exact` : resolving is exact after any uses of a new stream.
-/

namespace A32Lowering

namespace Stream

/-! ### The word of a branch that is filled in -/

/-- A displacement that a branch can hold is found in its word, and the upper byte stays. -/
theorem slice_branchTo (w : UInt32) (d : Int) :
    slice (branchTo w d) 0 24 = slice (UInt32.ofInt d) 0 24 ∧
      slice (branchTo w d) 24 8 = slice w 24 8 := by
  have hupper : slice 0xFF000000 0 24 = 0 ∧ slice 0xFF000000 24 8 = 2 ^ 8 - 1 := by decide
  have hlower : slice 0x00FFFFFF 0 24 = 2 ^ 24 - 1 ∧ slice 0x00FFFFFF 24 8 = 0 := by decide
  have hlt : slice (UInt32.ofInt d) 0 24 < 2 ^ 24 := Nat.mod_lt _ (Nat.two_pow_pos 24)
  have hlt' : slice w 24 8 < 2 ^ 8 := Nat.mod_lt _ (Nat.two_pow_pos 8)
  simp only [branchTo, slice_or, slice_and, hupper, hlower, Nat.and_two_pow_sub_one_eq_mod,
    Nat.and_zero, Nat.zero_or, Nat.or_zero, Nat.mod_eq_of_lt hlt, Nat.mod_eq_of_lt hlt', and_self]

theorem wordsOf_branchTo (w : UInt32) {d : Int} (h : Items.InReach d) :
    wordsOf (branchTo w d) = d := by
  rw [wordsOf, (slice_branchTo w d).1, slice_ofInt h]

/-! ### Uses of a stream -/

/-- What can be done with a stream. -/
inductive Use where
  /-- Adds an instruction, a branch to a label among them. -/
  | emit (i : Instr)
  /-- Creates a label. -/
  | create
  /-- Places a label at the current position. -/
  | mark (l : Label)
  /-- Forgets all labels and all pending branches. -/
  | clear
  /-- Fills in the pending branches. -/
  | resolve
  deriving DecidableEq, Repr

/-- The stream after a use. A label that cannot be placed leaves it as it is. -/
def use [PendingHeap] (s : Stream) : Use → Stream
  | .emit i => s.emit i
  | .create => s.createLabel.2
  | .mark l => (s.mark l).toOption.getD s
  | .clear => s.clearLabels
  | .resolve => s.resolve.1

/-- A use that is allowed: a branch goes to a label that exists. -/
def Use.Allowed (s : Stream) : Use → Prop
  | .emit (.branch _ l) => (s.label? l).isSome
  | _ => True

instance (s : Stream) (u : Use) : Decidable (u.Allowed s) := by
  unfold Use.Allowed
  split <;> infer_instance

theorem displacement_eq {b t : Nat} {d : Int} (h : (t : Int) = b + 8 + 4 * d) :
    displacement b t = d := by
  rw [displacement, Int.fdiv_eq_ediv_of_nonneg _ (by decide)]
  omega

end Stream

/-- A branch that can be filled in: its label is placed, and lies a number of words behind the
second instruction after the branch that fits into twenty-four bits. -/
def PendingBranch.Reaches (placed : List (Label × Nat)) (b : PendingBranch) : Prop :=
  ∃ m ∈ placed, m.1 = b.label ∧ ∃ d : Int, (m.2 : Int) = b.pos + 8 + 4 * d ∧
    -2 ^ 23 ≤ d ∧ d < 2 ^ 23

instance (placed : List (Label × Nat)) (b : PendingBranch) : Decidable (b.Reaches placed) :=
  decidable_of_iff (∃ m ∈ placed, m.1 = b.label ∧
      (m.2 : Int) = b.pos + 8 + 4 * Stream.displacement b.pos m.2 ∧
      -2 ^ 23 ≤ Stream.displacement b.pos m.2 ∧ Stream.displacement b.pos m.2 < 2 ^ 23) <| by
    constructor
    · rintro ⟨m, hm, hl, hd⟩
      exact ⟨m, hm, hl, _, hd⟩
    · rintro ⟨m, hm, hl, d, hd⟩
      exact ⟨m, hm, hl, (Stream.displacement_eq hd.1).symm ▸ hd⟩

namespace Stream

/-- What filling in some branches does to a stream: the word of each of them leads to the place of
its label, its upper byte stays, and so does everything else but the queue. -/
structure Filled (s : Stream) (placed : List (Label × Nat)) (done : List PendingBranch)
    (t : Stream) : Prop where
  branch : ∀ b ∈ done, ∃ w v p, s.code.word? b.pos = some w ∧ t.code.word? b.pos = some v ∧
    (b.label, p) ∈ placed ∧ (b.pos : Int) + 8 + 4 * wordsOf v = p ∧ slice v 24 8 = slice w 24 8
  bytes : ∀ i, (∀ b ∈ done, i < b.pos ∨ b.pos + 4 ≤ i) → t.code[i]? = s.code[i]?
  size : t.code.size = s.code.size
  labels : t.labels = s.labels
  listing : t.listing = s.listing
  lines : t.lines = s.lines

/-- The error for a branch that cannot be filled in: its label is not placed, or too far away. -/
inductive Refused (placed : List (Label × Nat)) (b : PendingBranch) : ResolveError → Prop
  | unmarked (h : ∀ p, (b.label, p) ∉ placed) : Refused placed b (.unmarked b)
  | tooFar {p : Nat} (h : (b.label, p) ∈ placed) :
    Refused placed b (.tooFar b (displacement b.pos p))

/-- What resolving does to a stream in which some labels are placed and some branches wait. The
queue holds exactly these branches, and each of them stands in the stream as it was written.
Resolving succeeds exactly when all of them can be filled in; it fills in those in front of the
first one that cannot, takes that one off the queue, and leaves the later ones in it. -/
structure Resolution [PendingHeap] (s : Stream) (placed : List (Label × Nat))
    (waiting : List PendingBranch) : Prop where
  queue : s.pending.items.toList.Perm waiting
  order : waiting.Pairwise fun a b => a.pos + 4 ≤ b.pos
  written : ∀ b ∈ waiting, ∃ cond, s.code.word? b.pos = some (Instr.branch cond b.label).encode
  ok_iff : s.resolve.2 = .ok () ↔ ∀ b ∈ waiting, b.Reaches placed
  filled : s.resolve.2 = .ok () → s.Filled placed waiting s.resolve.1
  empty : s.resolve.2 = .ok () → s.resolve.1.pending.items = #[]
  again : s.resolve.2 = .ok () → s.resolve.1.resolve = (s.resolve.1, .ok ())
  failed : ∀ done b later, waiting = done ++ b :: later → (∀ d ∈ done, d.Reaches placed) →
    ¬ b.Reaches placed → (∃ e, s.resolve.2 = .error e ∧ Refused placed b e) ∧
      s.Filled placed done s.resolve.1 ∧ s.resolve.1.pending.items.toList.Perm later

end Stream

/-! ### What was done -/

/-- A stream with the labels that were placed and the branches that wait, by what was done: the
places of labels, and the branches in the order in which they were added. -/
structure Ledger where
  stream : Stream
  placed : List (Label × Nat) := []
  waiting : List PendingBranch := []

namespace Ledger

/-- A new stream. -/
def new (listing : Bool) : Ledger where
  stream := { listing }

/-- The ledger after a use. Resolving settles the branches up to the first one that cannot be filled
in, and that one as well. -/
def use [PendingHeap] (e : Ledger) : Stream.Use → Ledger
  | .emit i => { e with
    stream := e.stream.emit i
    waiting := match i with
      | .branch _ l => e.waiting ++ [⟨e.stream.size, l⟩]
      | _ => e.waiting }
  | .create => { e with stream := e.stream.createLabel.2 }
  | .mark l =>
    match e.stream.mark l with
    | .ok t => { e with stream := t, placed := (l, e.stream.size) :: e.placed }
    | .error _ => e
  | .clear => ⟨e.stream.clearLabels, [], []⟩
  | .resolve => { e with
    stream := e.stream.resolve.1
    waiting := (e.waiting.dropWhile fun b => b.Reaches e.placed).tail }

/-- The ledger after some uses. -/
def run [PendingHeap] (e : Ledger) (us : List Stream.Use) : Ledger := us.foldl use e

/-- The stream of a ledger is used. -/
theorem stream_use [PendingHeap] (e : Ledger) (u : Stream.Use) :
    (e.use u).stream = e.stream.use u := by
  cases u with
  | mark l =>
    simp only [use, Stream.use]
    cases e.stream.mark l <;> rfl
  | _ => rfl

/-- Uses that are all allowed when they are made. -/
def Allows [PendingHeap] : Ledger → List Stream.Use → Prop
  | _, [] => True
  | e, u :: us => u.Allowed e.stream ∧ (e.use u).Allows us

instance decidableAllows [PendingHeap] :
    (e : Ledger) → (us : List Stream.Use) → Decidable (e.Allows us)
  | _, [] => isTrue trivial
  | e, u :: us => @instDecidableAnd _ _ _ (decidableAllows (e.use u) us)

/-- A stream is as its ledger says. The queue holds the branches that wait and the labels are where
they were placed; everything stands at multiples of four, and every branch that waits goes to a
label that exists and is as it was written. -/
structure Sound (e : Ledger) : Prop where
  size : 4 ∣ e.stream.size
  labels : ∀ l p, e.stream.label? l = some (some p) ↔ (l, p) ∈ e.placed
  aligned : ∀ m ∈ e.placed, 4 ∣ m.2
  queue : e.stream.pending.items.toList.Perm e.waiting
  order : e.waiting.Pairwise fun a b => a.pos + 4 ≤ b.pos
  inside : ∀ b ∈ e.waiting, 4 ∣ b.pos ∧ b.pos + 4 ≤ e.stream.size
  exist : ∀ b ∈ e.waiting, (e.stream.label? b.label).isSome
  written : ∀ b ∈ e.waiting, ∃ cond,
    e.stream.code.word? b.pos = some (Instr.branch cond b.label).encode

end Ledger

/-! ### Filling in -/

namespace Stream

variable {s s' t : Stream} {placed : List (Label × Nat)} {b : PendingBranch}
  {done rest : List PendingBranch}

theorem label?_congr (h : t.labels = s.labels) (l : Label) : t.label? l = s.label? l := by
  rw [label?, label?, h]

theorem label?_createLabel (l : Label) : s.createLabel.2.label? l = s.label? l ∨
    s.label? l = none ∧ s.createLabel.2.label? l = some none := by
  unfold createLabel label?
  split_ifs
  · exact .inl rfl
  · rw [Array.getElem?_push]
    split_ifs with h
    · exact .inr ⟨Array.getElem?_eq_none h.ge, rfl⟩
    · exact .inl rfl

/-- A label that is placed is at the end of the stream, and nothing else moves. -/
theorem mark_eq_ok {l : Label} (h : s.mark l = .ok t) : s.label? l = some none ∧
    t.code = s.code ∧ t.pending = s.pending ∧
    ∀ k, t.label? k = if k = l then some (some s.size) else s.label? k := by
  unfold mark at h
  split at h
  next => cases h
  next => cases h
  next hl =>
    obtain rfl := Except.ok.inj h
    have hnote : (s.note ("L" ++ toString l ++ ":")).code = s.code ∧
        (s.note ("L" ++ toString l ++ ":")).pending = s.pending ∧
        (s.note ("L" ++ toString l ++ ":")).labels = s.labels := by
      unfold note
      split_ifs <;> exact ⟨rfl, rfl, rfl⟩
    obtain ⟨hc, hp, hlabels⟩ := hnote
    refine ⟨hl, hc, hp, fun k => ?_⟩
    have hl0 : ¬ l < 0 := by
      intro hneg
      rw [label?, if_pos hneg] at hl
      cases hl
    have hlt : l.toNat < s.labels.size := by
      rw [label?, if_neg hl0] at hl
      exact (Array.getElem?_eq_some_iff.mp hl).1
    simp only [label?, hlabels, size_note, Array.getElem?_setIfInBounds]
    grind

/-- Filling in no branch. -/
theorem Filled.nil (s : Stream) (placed : List (Label × Nat)) (q : PendingQueue) :
    s.Filled placed [] { s with pending := q } where
  branch _ hb := by cases hb
  bytes _ _ := rfl
  size := rfl
  labels := rfl
  listing := rfl
  lines := rfl

/-- Filling in a branch and then later ones. -/
theorem Filled.cons (h : s.Filled placed [b] s') (h' : s'.Filled placed done t)
    (hb : ∀ d ∈ done, b.pos + 4 ≤ d.pos) : s.Filled placed (b :: done) t where
  branch d hd := by
    rcases List.mem_cons.mp hd with rfl | hd
    · obtain ⟨w, v, p, hw, hv, hrest⟩ := h.branch d List.mem_cons_self
      have hkept : t.code.word? d.pos = s'.code.word? d.pos := by
        refine Code.word?_congr fun i hi hi' => h'.bytes i fun c hc => .inl ?_
        have := hb c hc
        omega
      exact ⟨w, v, p, hw, hkept.trans hv, hrest⟩
    · obtain ⟨w, v, p, hw, hrest⟩ := h'.branch d hd
      have hkept : s'.code.word? d.pos = s.code.word? d.pos := by
        refine Code.word?_congr fun i hi _ => h.bytes i fun c hc => .inr ?_
        have := hb d hd
        obtain rfl := List.mem_singleton.mp hc
        omega
      exact ⟨w, v, p, hkept ▸ hw, hrest⟩
  bytes i hi := by
    obtain ⟨hib, hid⟩ := List.forall_mem_cons.mp hi
    rw [h'.bytes i hid, h.bytes i fun c hc => List.mem_singleton.mp hc ▸ hib]
  size := h'.size.trans h.size
  labels := h'.labels.trans h.labels
  listing := h'.listing.trans h.listing
  lines := h'.lines.trans h.lines

/-- A branch whose label is placed within reach is filled in. -/
theorem resolveBranch_of_reaches (hb : b.Reaches placed)
    (hl : ∀ p, (b.label, p) ∈ placed → s.label? b.label = some (some p))
    (hin : b.pos + 4 ≤ s.size) : ∃ code, s.resolveBranch b = .ok code ∧
      ∀ q, s.Filled placed [b] { s with code, pending := q } := by
  obtain ⟨⟨l, p⟩, hm, rfl, d, hd, hlo, hhi⟩ := hb
  obtain ⟨w, hw⟩ := Code.exists_word? hin
  have hself := Code.word?_write_self s.code (branchTo w d) hin
  have hother (i : Nat) (hi : i < b.pos ∨ b.pos + 4 ≤ i) :=
    Code.getElem?_write_of_outside s.code (branchTo w d) hi
  have hsize := Code.size_write s.code b.pos (branchTo w d)
  have hok : s.resolveBranch b = .ok (s.code.write b.pos (branchTo w d)) := by
    simp only [resolveBranch, hl p hm, displacement_eq hd, hw]
    rw [if_neg (by omega)]
  -- From here on only these facts about the new code count.
  generalize s.code.write b.pos (branchTo w d) = code at hself hother hsize hok
  refine ⟨code, hok, fun q => ?_⟩
  exact {
    branch := fun c hc => by
      obtain rfl := List.mem_singleton.mp hc
      refine ⟨w, branchTo w d, p, hw, hself, hm, ?_, (slice_branchTo w d).2⟩
      rw [wordsOf_branchTo w ⟨hlo, hhi⟩, hd]
    bytes := fun i hi => hother i (hi b List.mem_cons_self)
    size := hsize
    labels := rfl
    listing := rfl
    lines := rfl }

/-- A branch whose label exists, but is not placed within reach, is refused. -/
theorem resolveBranch_of_not_reaches (hb : ¬ b.Reaches placed)
    (hl : ∀ p, s.label? b.label = some (some p) ↔ (b.label, p) ∈ placed)
    (he : (s.label? b.label).isSome)
    (h4 : ∀ p, (b.label, p) ∈ placed → (4 : Int) ∣ (p : Int) - b.pos) :
    ∃ e, s.resolveBranch b = .error e ∧ Refused placed b e := by
  obtain ⟨place, hplace⟩ := Option.isSome_iff_exists.mp he
  cases place with
  | none =>
    refine ⟨_, by simp only [resolveBranch, hplace], .unmarked fun p hp => ?_⟩
    cases hplace.symm.trans ((hl p).mpr hp)
  | some p =>
    have hm := (hl p).mp hplace
    refine ⟨_, ?_, .tooFar hm⟩
    simp only [resolveBranch, hplace]
    refine if_pos ?_
    by_contra hreach
    obtain ⟨k, hk⟩ := h4 p hm
    have hd : (p : Int) = b.pos + 8 + 4 * (k - 2) := by omega
    rw [displacement_eq hd] at hreach
    exact hb ⟨_, hm, rfl, k - 2, hd, by omega, by omega⟩

end Stream

namespace Ledger

variable {s : Stream} {placed : List (Label × Nat)} {b : PendingBranch} {rest : List PendingBranch}

/-- The first branch that waits is the one that the queue gives up. -/
theorem Sound.pop? [PendingHeap] (h : Sound ⟨s, placed, b :: rest⟩) :
    ∃ r, PendingHeap.pop? s.pending = some (b, r) ∧ r.items.toList.Perm rest := by
  refine PendingHeap.pop?_eq_some_of_perm h.queue fun d hd => ?_
  have := (List.pairwise_cons.mp h.order).1 d hd
  omega

/-- A ledger stays sound without its first branch. -/
theorem Sound.tail (h : Sound ⟨s, placed, b :: rest⟩) {q : PendingQueue}
    (hq : q.items.toList.Perm rest) :
    Sound ⟨{ s with pending := q }, placed, rest⟩ where
  size := h.size
  labels := h.labels
  aligned := h.aligned
  queue := hq
  order := (List.pairwise_cons.mp h.order).2
  inside d hd := h.inside d (List.mem_cons_of_mem _ hd)
  exist d hd := h.exist d (List.mem_cons_of_mem _ hd)
  written d hd := h.written d (List.mem_cons_of_mem _ hd)

/-- A ledger stays sound when a branch in front of all that wait is filled in. -/
theorem Sound.of_filled (h : Sound ⟨s, placed, rest⟩) {t : Stream} (hf : s.Filled placed [b] t)
    (hp : t.pending = s.pending) (hb : ∀ d ∈ rest, b.pos + 4 ≤ d.pos) :
    Sound ⟨t, placed, rest⟩ where
  size := by
    rw [Stream.size, hf.size]
    exact h.size
  labels l p := by
    rw [Stream.label?_congr hf.labels]
    exact h.labels l p
  aligned := h.aligned
  queue := hp ▸ h.queue
  order := h.order
  inside d hd := by
    rw [Stream.size, hf.size]
    exact h.inside d hd
  exist d hd := by
    rw [Stream.label?_congr hf.labels]
    exact h.exist d hd
  written d hd := by
    obtain ⟨cond, hc⟩ := h.written d hd
    refine ⟨cond, (Code.word?_congr fun i hi _ => hf.bytes i fun c hc => .inr ?_).trans hc⟩
    have := hb d hd
    obtain rfl := List.mem_singleton.mp hc
    omega

/-- One step of resolving fills in the first branch that waits. -/
theorem Sound.resolveSteps_succ [PendingHeap] (h : Sound ⟨s, placed, b :: rest⟩)
    (hb : b.Reaches placed) :
    ∃ t, (∀ n, Stream.resolveSteps (n + 1) s = Stream.resolveSteps n t) ∧
      s.Filled placed [b] t ∧ Sound ⟨t, placed, rest⟩ := by
  obtain ⟨r, hr, hperm⟩ := h.pop?
  obtain ⟨code, hc, hfill⟩ := Stream.resolveBranch_of_reaches hb
    (fun p hp => (h.labels _ p).mpr hp) (h.inside b List.mem_cons_self).2
  refine ⟨{ s with code, pending := r }, fun n => ?_, hfill r,
    (h.tail hperm).of_filled { hfill r with } rfl (List.pairwise_cons.mp h.order).1⟩
  simp only [Stream.resolveSteps, hr, hc]

/-- Resolving fills in the first branches that wait, as long as they can be. -/
theorem Sound.resolveSteps_of_reaches [PendingHeap] {done : List PendingBranch}
    (h : Sound ⟨s, placed, done ++ rest⟩) (hd : ∀ b ∈ done, b.Reaches placed) (n : Nat) :
    ∃ t, Stream.resolveSteps (done.length + n) s = Stream.resolveSteps n t ∧
      s.Filled placed done t ∧ Sound ⟨t, placed, rest⟩ := by
  induction done generalizing s with
  | nil =>
    exact ⟨s, by rw [List.length_nil, Nat.zero_add], Stream.Filled.nil s placed s.pending, h⟩
  | cons b done ih =>
    obtain ⟨hb, hdone⟩ := List.forall_mem_cons.mp hd
    obtain ⟨s', hstep, hfill, hsound⟩ := h.resolveSteps_succ hb
    obtain ⟨t, hrun, hfills, ht⟩ := ih hsound hdone
    refine ⟨t, ?_, hfill.cons hfills fun d hd => ?_, ht⟩
    · rw [List.length_cons, Nat.add_right_comm, hstep, hrun]
    · exact (List.pairwise_cons.mp h.order).1 d (List.mem_append_left _ hd)

variable {e : Ledger}

theorem Sound.size_queue (h : e.Sound) : e.stream.pending.items.size = e.waiting.length := by
  rw [← Array.length_toList, h.queue.length_eq]

/-- Resolving when every branch that waits can be filled in. -/
theorem Sound.resolve_of_reaches [PendingHeap] (h : e.Sound)
    (hd : ∀ b ∈ e.waiting, b.Reaches e.placed) :
    ∃ t, e.stream.resolve = (t, .ok ()) ∧ e.stream.Filled e.placed e.waiting t ∧
      Sound ⟨t, e.placed, []⟩ := by
  obtain ⟨s, placed, waiting⟩ := e
  have hs : Sound ⟨s, placed, waiting ++ []⟩ := (List.append_nil waiting).symm ▸ h
  obtain ⟨t, hrun, hfill, ht⟩ := hs.resolveSteps_of_reaches hd 0
  refine ⟨t, ?_, hfill, ht⟩
  rw [Stream.resolve, h.size_queue]
  exact hrun

/-- Resolving when a branch that waits cannot be filled in, and all in front of it can. -/
theorem Sound.resolve_of_not_reaches [PendingHeap] (h : e.Sound) {done later : List PendingBranch}
    (hw : e.waiting = done ++ b :: later) (hd : ∀ d ∈ done, d.Reaches e.placed)
    (hb : ¬ b.Reaches e.placed) :
    ∃ t err, e.stream.resolve = (t, .error err) ∧ Stream.Refused e.placed b err ∧
      e.stream.Filled e.placed done t ∧ Sound ⟨t, e.placed, later⟩ := by
  obtain ⟨s, placed, waiting⟩ := e
  obtain rfl : waiting = done ++ b :: later := hw
  obtain ⟨t, hrun, hfill, ht⟩ := h.resolveSteps_of_reaches hd (later.length + 1)
  obtain ⟨r, hr, hperm⟩ := ht.pop?
  have hmem : b ∈ b :: later := List.mem_cons_self
  obtain ⟨err, herr, href⟩ := Stream.resolveBranch_of_not_reaches hb (ht.labels b.label)
    (ht.exist b hmem) fun p hp => by
      have h1 := ht.aligned _ hp
      have h2 := (ht.inside b hmem).1
      omega
  refine ⟨{ t with pending := r }, err, ?_, href, { hfill with }, ht.tail hperm⟩
  rw [Stream.resolve, h.size_queue, List.length_append, List.length_cons]
  refine hrun.trans ?_
  simp only [Stream.resolveSteps, hr, herr]

/-- Either all branches that wait can be filled in, or there is a first one that cannot. -/
theorem reaches_or (e : Ledger) :
    ((∀ b ∈ e.waiting, b.Reaches e.placed) ∧
      (e.waiting.dropWhile fun b => b.Reaches e.placed).tail = []) ∨
    ∃ done b later, e.waiting = done ++ b :: later ∧ (∀ d ∈ done, d.Reaches e.placed) ∧
      ¬ b.Reaches e.placed ∧ (e.waiting.dropWhile fun b => b.Reaches e.placed).tail = later := by
  have hsplit : e.waiting.takeWhile (fun b => b.Reaches e.placed) ++
      e.waiting.dropWhile (fun b => b.Reaches e.placed) = e.waiting :=
    List.takeWhile_append_dropWhile
  have hdone (b : PendingBranch) (hb : b ∈ e.waiting.takeWhile fun b => b.Reaches e.placed) :
      b.Reaches e.placed := by
    simpa using List.mem_takeWhile_imp hb
  cases hd : e.waiting.dropWhile fun b => b.Reaches e.placed with
  | nil =>
    rw [hd, List.append_nil] at hsplit
    exact .inl ⟨fun b hb => hdone b (hsplit.symm ▸ hb), rfl⟩
  | cons b later =>
    have hb : ¬ b.Reaches e.placed := by
      have hne : e.waiting.dropWhile (fun b => b.Reaches e.placed) ≠ [] :=
        hd ▸ List.cons_ne_nil _ _
      simpa [hd] using List.head_dropWhile_not _ hne
    exact .inr ⟨_, b, later, by rw [← hd, hsplit], hdone, hb, rfl⟩

/-- What resolving does when the stream is as its ledger says. -/
theorem Sound.resolution [PendingHeap] (h : e.Sound) : e.stream.Resolution e.placed e.waiting := by
  have hok : e.stream.resolve.2 = .ok () ↔ ∀ b ∈ e.waiting, b.Reaches e.placed := by
    rcases reaches_or e with ⟨hd, -⟩ | ⟨done, b, later, hw, hd, hb, -⟩
    · obtain ⟨t, ht, -⟩ := h.resolve_of_reaches hd
      exact iff_of_true (by rw [ht]) hd
    · obtain ⟨t, err, ht, -⟩ := h.resolve_of_not_reaches hw hd hb
      refine iff_of_false (by simp [ht]) fun hall => hb (hall b ?_)
      rw [hw]
      exact List.mem_append_right _ List.mem_cons_self
  have hall (ho : e.stream.resolve.2 = .ok ()) := h.resolve_of_reaches (hok.mp ho)
  have hempty (ho : e.stream.resolve.2 = .ok ()) : e.stream.resolve.1.pending.items = #[] := by
    obtain ⟨t, ht, -, hs⟩ := hall ho
    rw [ht]
    exact Array.toList_eq_nil_iff.mp hs.queue.eq_nil
  exact {
    queue := h.queue
    order := h.order
    written := h.written
    ok_iff := hok
    filled := fun ho => by
      obtain ⟨t, ht, hf, -⟩ := hall ho
      rw [ht]
      exact hf
    empty := hempty
    again := fun ho => by
      rw [Stream.resolve, hempty ho]
      rfl
    failed := fun done b later hw hd hb => by
      obtain ⟨t, err, ht, hr, hfill, hs⟩ := h.resolve_of_not_reaches hw hd hb
      rw [ht]
      exact ⟨⟨err, rfl, hr⟩, hfill, hs.queue⟩ }

/-! ### Every use keeps the ledger sound -/

theorem sound_new (listing : Bool) : (new listing).Sound where
  size := dvd_zero 4
  labels l p := by simp [new, Stream.label?]
  aligned m hm := by cases hm
  queue := .refl _
  order := .nil
  inside b hb := by cases hb
  exist b hb := by cases hb
  written b hb := by cases hb

/-- An instruction that is added moves none that is there. -/
theorem Sound.emit (h : e.Sound) (i : Instr) {q : PendingQueue} {waiting : List PendingBranch}
    (hp : (e.stream.emit i).pending = q) (hq : q.items.toList.Perm waiting)
    (hw : ∀ b ∈ waiting, b ∈ e.waiting ∨ b.pos = e.stream.size ∧
      (e.stream.label? b.label).isSome ∧ ∃ cond, i.encode = (Instr.branch cond b.label).encode)
    (ho : waiting.Pairwise fun a b => a.pos + 4 ≤ b.pos) :
    Sound ⟨e.stream.emit i, e.placed, waiting⟩ where
  size := by
    rw [Stream.size_emit]
    exact dvd_add h.size (dvd_refl 4)
  labels l p := by
    rw [Stream.label?_congr (Stream.labels_emit _ _)]
    exact h.labels l p
  aligned := h.aligned
  queue := hp ▸ hq
  order := ho
  inside b hb := by
    rw [Stream.size_emit]
    rcases hw b hb with hb | ⟨hb, -⟩
    · obtain ⟨h4, hs⟩ := h.inside b hb
      exact ⟨h4, by omega⟩
    · rw [hb]
      exact ⟨h.size, le_rfl⟩
  exist b hb := by
    rw [Stream.label?_congr (Stream.labels_emit _ _)]
    rcases hw b hb with hb | ⟨-, hl, -⟩
    · exact h.exist b hb
    · exact hl
  written b hb := by
    rw [Stream.code_emit]
    rcases hw b hb with hb | ⟨hb, -, cond, hc⟩
    · obtain ⟨cond, hc⟩ := h.written b hb
      exact ⟨cond, (Code.word?_append_of_le _ _ (h.inside b hb).2).trans hc⟩
    · exact ⟨cond, by rw [hb, ← hc]; exact Code.word?_append_size _ _⟩

/-- A branch that is added waits behind all others. -/
theorem Sound.emit_branch (h : e.Sound) (cond : CondCode) {l : Label}
    (hl : (e.stream.label? l).isSome) :
    Sound ⟨e.stream.emit (.branch cond l), e.placed, e.waiting ++ [⟨e.stream.size, l⟩]⟩ := by
  have hperm : (e.stream.pending.push ⟨e.stream.size, l⟩).items.toList.Perm
      (e.waiting ++ [⟨e.stream.size, l⟩]) := by
    rw [PendingQueue.push, Array.toList_push]
    exact h.queue.append_right _
  have horder : List.Pairwise (fun a b : PendingBranch => a.pos + 4 ≤ b.pos)
      (e.waiting ++ [⟨e.stream.size, l⟩]) := by
    refine List.pairwise_append.mpr ⟨h.order, List.pairwise_singleton _ _, fun a ha b hb => ?_⟩
    rw [List.mem_singleton.mp hb]
    exact (h.inside a ha).2
  refine h.emit _ (Stream.pending_emit_branch _ _ _) hperm (fun b hb => ?_) horder
  rcases List.mem_append.mp hb with hb | hb
  · exact .inl hb
  · obtain rfl := List.mem_singleton.mp hb
    exact .inr ⟨rfl, hl, cond, rfl⟩

/-- The labels of a stream can change as long as none is lost and the ledger knows their places. -/
theorem Sound.of_labels (h : e.Sound) {t : Stream} {placed : List (Label × Nat)}
    (hc : t.code = e.stream.code) (hp : t.pending = e.stream.pending)
    (hl : ∀ l p, t.label? l = some (some p) ↔ (l, p) ∈ placed) (h4 : ∀ m ∈ placed, 4 ∣ m.2)
    (he : ∀ l, (e.stream.label? l).isSome → (t.label? l).isSome) :
    Sound ⟨t, placed, e.waiting⟩ where
  size := by
    rw [Stream.size, hc]
    exact h.size
  labels := hl
  aligned := h4
  queue := hp ▸ h.queue
  order := h.order
  inside b hb := by
    rw [Stream.size, hc]
    exact h.inside b hb
  exist b hb := he _ (h.exist b hb)
  written b hb := by
    rw [hc]
    exact h.written b hb

/-- A label that is created is not placed. -/
theorem Sound.create [PendingHeap] (h : e.Sound) : (e.use .create).Sound := by
  refine h.of_labels rfl rfl (fun l p => ?_) h.aligned fun l hl => ?_
  · rw [← h.labels]
    rcases Stream.label?_createLabel (s := e.stream) l with he | ⟨hn, he⟩
    · rw [he]
    · rw [he, hn]
      simp
  · rcases Stream.label?_createLabel (s := e.stream) l with he | ⟨-, he⟩ <;> rw [he]
    · exact hl
    · rfl

/-- A label that is placed is at the end of the stream. -/
theorem Sound.mark (h : e.Sound) {l : Label} {t : Stream} (hm : e.stream.mark l = .ok t) :
    Sound ⟨t, (l, e.stream.size) :: e.placed, e.waiting⟩ := by
  obtain ⟨hnone, hc, hp, hlabel⟩ := Stream.mark_eq_ok hm
  refine h.of_labels hc hp (fun k p => ?_) ?_ fun k hk => ?_
  · rw [hlabel, List.mem_cons, ← h.labels, Prod.mk.injEq]
    by_cases hk : k = l
    · simp [hk, hnone, eq_comm]
    · simp [hk]
  · exact List.forall_mem_cons.mpr ⟨h.size, h.aligned⟩
  · rw [hlabel]
    split_ifs
    · rfl
    · exact hk

/-- Every use keeps the ledger sound. -/
theorem Sound.use [PendingHeap] (h : e.Sound) {u : Stream.Use} (hu : u.Allowed e.stream) :
    (e.use u).Sound := by
  cases u with
  | emit i =>
    have hplain (hi : i.isBranch = false) : Sound ⟨e.stream.emit i, e.placed, e.waiting⟩ :=
      h.emit i (Stream.pending_emit _ i hi) h.queue (fun b hb => .inl hb) h.order
    cases i with
    | branch cond l => exact h.emit_branch cond hu
    | _ => exact hplain rfl
  | create => exact h.create
  | mark l =>
    cases hm : e.stream.mark l with
    | error err =>
      have he : e.use (.mark l) = e := by simp only [Ledger.use, hm]
      rwa [he]
    | ok t =>
      simp only [Ledger.use, hm]
      exact h.mark hm
  | clear =>
    exact { sound_new e.stream.listing with
      size := h.size
      inside := fun b hb => by cases hb
      written := fun b hb => by cases hb }
  | resolve =>
    rcases reaches_or e with ⟨hd, ht⟩ | ⟨done, b, later, hw, hd, hb, ht⟩
    · obtain ⟨t, hr, -, hs⟩ := h.resolve_of_reaches hd
      simp only [Ledger.use, ht, hr]
      exact hs
    · obtain ⟨t, err, hr, -, -, hs⟩ := h.resolve_of_not_reaches hw hd hb
      simp only [Ledger.use, ht, hr]
      exact hs

theorem Sound.run [PendingHeap] (h : e.Sound) {us : List Stream.Use} (hu : e.Allows us) :
    (e.run us).Sound := by
  induction us generalizing e with
  | nil => exact h
  | cons u us ih => exact ih (h.use hu.1) hu.2

theorem stream_run [PendingHeap] (e : Ledger) (us : List Stream.Use) :
    (e.run us).stream = us.foldl Stream.use e.stream := by
  induction us generalizing e with
  | nil => rfl
  | cons u us ih => exact (ih (e.use u)).trans (by rw [stream_use, List.foldl_cons])

/-- Label resolution is exact over any use of a stream. After any uses of a new stream, with
branches only to labels that exist, resolving succeeds exactly when every branch that waits has its
label placed within reach. Then the word of each of them leads to its label and no other byte has
changed; otherwise the branches in front of the first one that cannot be filled in are settled in
this way, that one is dropped as it is, and the later ones wait on. -/
theorem resolve_exact [PendingHeap] {listing : Bool} {us : List Stream.Use}
    (h : (new listing).Allows us) :
    (us.foldl Stream.use { listing }).Resolution ((new listing).run us).placed
      ((new listing).run us).waiting := by
  have hs := ((sound_new listing).run h).resolution
  rw [stream_run] at hs
  exact hs

/-- A branch to a label that is placed too late, and two others of which one is added after the
first attempt to resolve. -/
def detour : List Stream.Use :=
  [.create, .create, .emit (.branch .al 0), .mark 1, .emit (.branch .ne 1), .resolve, .mark 0,
    .emit (.mov .r0 .r1), .emit (.branch .eq 0)]

theorem resolve_exact_detour : (new true).Allows detour ∧
    ((new true).run detour).placed = [(0, 8), (1, 4)] ∧
    ((new true).run detour).waiting = [⟨4, 1⟩, ⟨12, 0⟩] ∧
    (detour.foldl Stream.use { listing := true }).Resolution ((new true).run detour).placed
      ((new true).run detour).waiting :=
  ⟨by decide +kernel, by decide +kernel, by decide +kernel, resolve_exact (by decide +kernel)⟩

end Ledger

end A32Lowering
