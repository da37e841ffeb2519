import Mathlib
import A32Lowering.Object.File
import A32Lowering.Proofs.Function

/-!
# Sessions of many functions

A session lowers any number of functions one after another. Each of them that can be lowered adds
what it would add alone, moved to the end of the stream, and each of the others adds nothing. The
lines that a fault takes back are found by their positions; this is right because at the start of
every function all lines belong to the code before it.

## Main definitions

* `Session.fresh` : a session that has lowered nothing.
* `Call`, `Session.calls` : the calls of a session, each with what it found and what it left.
* `Session.run` : what is left after some calls.
* `Call.Sound` : what every call has to do with the same call made alone.

## Main results

* `Session.calls_compose` : a session is the concatenation of its successful calls made alone.
-/

namespace A32Lowering

/-- A session that has lowered nothing. -/
def Session.fresh (listing : Bool) (observer : Observer) : Session :=
  { stream := { listing }, observer }

/-- A call to lower a function in a session. -/
structure Call where
  program : Program
  frame : UInt32
  before : Session
  after : Session
  result : Except LowerError Unit

namespace Call

/-- The reports of a call. -/
def reports (c : Call) : List Report := c.after.reports.toList.drop c.before.reports.size

/-- The same call made alone. -/
def alone [Helper.Entries] [PendingHeap] (c : Call) (listing : Bool) (observer : Observer) :
    Session × Except LowerError Unit :=
  (Session.fresh listing observer).lower c.program c.frame

/-- Whether a call succeeded. -/
def succeeded (c : Call) : Bool := c.result matches .ok ()

/-- A file with the reports of a call recorded. -/
def recorded (c : Call) (f : ObjectFile) : ObjectFile :=
  c.reports.foldl (fun f r => f.record r.value r.offset) f

/-- What a call does, compared with the same call made alone: it succeeds when that does and makes
the same reports, further on; or it leaves code and listing as they were and makes only reports
that cutting a file takes back. Nothing that belongs to one function is left. -/
structure Sound [Helper.Entries] [PendingHeap] (c : Call) (listing : Bool) (observer : Observer) :
    Prop where
  result : c.result = .ok () ↔ (c.alone listing observer).2 = .ok ()
  reports : c.result = .ok () → c.reports = (c.alone listing observer).1.reports.toList.map
    fun r => { r with offset := c.before.stream.size + r.offset }
  below : c.result = .ok () → ∀ r ∈ c.reports, r.offset < c.after.stream.size
  code : c.result ≠ .ok () → c.after.stream.code = c.before.stream.code
  lines : c.result ≠ .ok () → c.after.stream.lines = c.before.stream.lines
  above : c.result ≠ .ok () → ∀ r ∈ c.reports, c.before.stream.size ≤ r.offset
  truncate : c.result ≠ .ok () → ∀ f : ObjectFile,
    (∀ r ∈ f.relocs, r.offset < c.before.stream.size) →
    (c.recorded f).truncate c.before.stream.size = f
  params : c.after.params = []
  blocks : c.after.blocks = []
  level : c.after.level = 0
  labels : c.after.stream.labels = #[]
  pending : c.after.stream.pending.items = #[]
  clean : ∀ params labels level, c.result ≠ .error (.notClean params labels level)

end Call

namespace Session

/-- A call to lower a function in a session. -/
def attempt [Helper.Entries] [PendingHeap] (s : Session) (p : Program) (frame : UInt32) : Call :=
  ⟨p, frame, s, (s.lower p frame).1, (s.lower p frame).2⟩

/-- The calls that lower functions one after another in a session. -/
def calls [Helper.Entries] [PendingHeap] (s : Session) : List (Program × UInt32) → List Call
  | [] => []
  | (p, frame) :: js => s.attempt p frame :: (s.attempt p frame).after.calls js

/-- The session after lowering functions one after another. -/
def run [Helper.Entries] [PendingHeap] (s : Session) (js : List (Program × UInt32)) : Session :=
  js.foldl (fun s j => (s.attempt j.1 j.2).after) s

theorem ready_fresh (listing : Bool) {observer : Observer} (h : observer ≠ .refusing) :
    (fresh listing observer).Ready where
  clean := rfl
  labels := rfl
  pending := rfl
  lines := by simp [fresh]
  observer := h

variable {s : Session} {p : Program} {frame : UInt32} {l : List Item}

theorem lower_eq_of_snd [Helper.Entries] [PendingHeap] (h : (s.lower p frame).2 = .ok ()) :
    s.lower p frame = ((s.lower p frame).1, .ok ()) :=
  Prod.ext rfl h

/-- What a function adds to the reports of a session. -/
theorem reports_extend_eq (s : Session) (l : List Item) :
    (s.extend l).reports.toList.drop s.reports.size =
      if s.observer = .recording then Items.reports s.stream.size l else [] := by
  rw [extend]
  split_ifs <;> simp

theorem extend_fresh (listing : Bool) (observer : Observer) (l : List Item) :
    (fresh listing observer).extend l =
      { stream := {
          code := Code.ofWords (Items.words (Items.displacement? 0 l) 0 l)
          listing
          lines := if listing then (Items.lines (Items.number l) 0 l).toArray else #[] }
        observer
        reports := if observer = .recording then (Items.reports 0 l).toArray else #[] } := by
  simp [extend, fresh, Stream.size]

theorem code_extend : (s.extend l).stream.code = s.stream.code ++
    ((fresh s.stream.listing s.observer).extend l).stream.code := by
  rw [extend_fresh, ← Items.words_add s.stream.size 0 l]
  rfl

theorem listingText_extend : (s.extend l).stream.listingText = s.stream.listingText ++
    ((fresh s.stream.listing s.observer).extend l).stream.listingText := by
  have hl := Items.map_text_lines_add s.stream.size 0 l (Items.number l)
  rw [extend_fresh]
  cases h : s.stream.listing
  · simp [extend, Stream.listingText, h]
  · simpa [extend, Stream.listingText, h] using hl

theorem reports_extend : (s.extend l).reports.toList.drop s.reports.size =
    ((fresh s.stream.listing s.observer).extend l).reports.toList.map
      fun r => { r with offset := s.stream.size + r.offset } := by
  rw [reports_extend_eq, extend_fresh]
  by_cases h : s.observer = .recording
  · simpa [h] using Items.reports_add s.stream.size 0 l
  · simp [h]

theorem offset_lt_of_mem_reports [Helper.Entries] (h : p.Links frame l) {pos : Nat} {r : Report}
    (hr : r ∈ Items.reports pos l) : r.offset < pos + Items.width l := by
  obtain ⟨x, hx, he⟩ := List.mem_filterMap.mp hr
  have hp : r.offset = x.1 := by
    obtain ⟨q, i⟩ := x
    cases i <;> cases he
    rfl
  rw [hp]
  exact h.lt_of_mem_placed hx

/-- A call that succeeds does what it does alone, further on. -/
theorem sound_of_links [Helper.Entries] [PendingHeap] (hs : s.Ready) (h : p.Links frame l) :
    (s.attempt p frame).Sound s.stream.listing s.observer := by
  have ha : (fresh s.stream.listing s.observer).lower p frame =
      ((fresh s.stream.listing s.observer).extend l, .ok ()) :=
    lower_of_links (ready_fresh _ hs.observer).toIdle h
  obtain ⟨hparams, hblocks, hlevel⟩ := isClean_iff.mp hs.clean
  rw [attempt, lower_of_links hs.toIdle h]
  exact {
    result := by simp [Call.alone, ha]
    reports := fun _ => by
      rw [Call.reports, Call.alone, ha]
      exact reports_extend
    below := fun _ r hr => by
      rw [Call.reports, reports_extend_eq] at hr
      rw [size_extend]
      split_ifs at hr
      · exact offset_lt_of_mem_reports h hr
      · cases hr
    code := fun hn => (hn rfl).elim
    lines := fun hn => (hn rfl).elim
    above := fun hn => (hn rfl).elim
    truncate := fun hn => (hn rfl).elim
    params := hparams
    blocks := hblocks
    level := hlevel
    labels := hs.labels
    pending := by simp [extend, hs.pending]
    clean := fun _ _ _ h => by cases h }

theorem truncate_foldl_record {rs : List Report} {f : ObjectFile} {n : Nat}
    (hr : ∀ r ∈ rs, n ≤ r.offset) (hf : ∀ r ∈ f.relocs, r.offset < n) :
    (rs.foldl (fun f r => f.record r.value r.offset) f).truncate n = f := by
  suffices h : ∀ g : ObjectFile, g.truncate n = f →
      (rs.foldl (fun f r => f.record r.value r.offset) g).truncate n = f by
    refine h f ?_
    rw [ObjectFile.truncate, List.filter_eq_self.mpr fun r h => by simpa using hf r h]
  induction rs with
  | nil => exact fun g hg => hg
  | cons r rs ih =>
    obtain ⟨hr, hrs⟩ := List.forall_mem_cons.mp hr
    intro g hg
    refine ih hrs _ ?_
    rw [← hg]
    have : ¬ (r.offset : Int) < n := by omega
    simp [ObjectFile.record, ObjectFile.truncate, this]

/-- A call that fails leaves code and listing as they were. -/
theorem sound_of_not_links [Helper.Entries] [PendingHeap] (hs : s.Ready)
    (h : ∀ l, ¬ p.Links frame l) : (s.attempt p frame).Sound s.stream.listing s.observer := by
  obtain ⟨place, f, r, hl, hpos, -⟩ := lower_of_not_links hs h
  obtain ⟨place', f', r', ha, -, -⟩ :=
    lower_of_not_links (ready_fresh s.stream.listing hs.observer) h
  obtain ⟨hparams, hblocks, hlevel⟩ := isClean_iff.mp hs.clean
  have hr : ∀ x ∈ (s.reports ++ r).toList.drop s.reports.size, s.stream.size ≤ x.offset := by
    simpa using hpos
  rw [attempt, hl]
  exact {
    result := by simp [Call.alone, ha]
    reports := fun hn => by cases hn
    below := fun hn => by cases hn
    code := fun _ => rfl
    lines := fun _ => rfl
    above := fun _ => hr
    truncate := fun _ f hf => truncate_foldl_record hr hf
    params := hparams
    blocks := hblocks
    level := hlevel
    labels := hs.labels
    pending := by rw [hs.pending]
    clean := fun _ _ _ h => by cases h }

/-- One call: it is sound, and behind it the session is ready for the next one and holds what the
call adds alone, if it succeeded. -/
theorem attempt_step [Helper.Entries] [PendingHeap] (hs : s.Ready) (p : Program) (frame : UInt32) :
    (s.attempt p frame).Sound s.stream.listing s.observer ∧ (s.attempt p frame).after.Ready ∧
    (s.attempt p frame).after.stream.listing = s.stream.listing ∧
    (s.attempt p frame).after.observer = s.observer ∧
    (s.attempt p frame).after.stream.code = s.stream.code ++
      (if (s.attempt p frame).succeeded then
        ((s.attempt p frame).alone s.stream.listing s.observer).1.stream.code else #[]) ∧
    (s.attempt p frame).after.stream.listingText = s.stream.listingText ++
      (if (s.attempt p frame).succeeded then
        ((s.attempt p frame).alone s.stream.listing s.observer).1.stream.listingText else []) := by
  by_cases h : ∃ l, p.Links frame l
  · obtain ⟨l, h⟩ := h
    refine ⟨sound_of_links hs h, ?_⟩
    have ha := lower_of_links (ready_fresh s.stream.listing hs.observer).toIdle h
    rw [attempt, lower_of_links hs.toIdle h, Call.alone, ha]
    exact ⟨hs.extend h, rfl, rfl, code_extend, listingText_extend⟩
  · have h : ∀ l, ¬ p.Links frame l := fun l hl => h ⟨l, hl⟩
    refine ⟨sound_of_not_links hs h, ?_⟩
    obtain ⟨place, f, r, hl, -, -⟩ := lower_of_not_links hs h
    rw [attempt, hl]
    refine ⟨⟨⟨hs.clean, hs.labels, hs.pending, hs.observer⟩, hs.lines⟩, rfl, rfl, ?_, ?_⟩
    · exact (Array.append_empty).symm
    · exact (List.append_nil _).symm

/-- A session that lowers functions one after another holds, behind what it held, what the
successful calls add alone, in order; and every call is sound. -/
theorem calls_of_ready [Helper.Entries] [PendingHeap] (hs : s.Ready)
    (js : List (Program × UInt32)) : (s.run js).stream.code.toList = s.stream.code.toList ++
      ((s.calls js).filter Call.succeeded).flatMap (fun c =>
        (c.alone s.stream.listing s.observer).1.stream.code.toList) ∧
    (s.run js).stream.listingText = s.stream.listingText ++
      ((s.calls js).filter Call.succeeded).flatMap (fun c =>
        (c.alone s.stream.listing s.observer).1.stream.listingText) ∧
    ∀ c ∈ s.calls js, c.Sound s.stream.listing s.observer := by
  induction js generalizing s with
  | nil => simp [run, calls]
  | cons j js ih =>
    obtain ⟨p, frame⟩ := j
    obtain ⟨hsound, hready, hlisting, hobserver, hcode, htext⟩ := attempt_step hs p frame
    obtain ⟨ihcode, ihtext, ihsound⟩ := ih hready
    rw [hlisting, hobserver] at ihcode ihtext ihsound
    refine ⟨?_, ?_, List.forall_mem_cons.mpr ⟨hsound, ihsound⟩⟩
    · rw [calls, List.filter_cons]
      refine ihcode.trans ?_
      rw [hcode]
      split_ifs <;> simp
    · rw [calls, List.filter_cons]
      refine ihtext.trans ?_
      rw [htext]
      split_ifs <;> simp

/-- Lowering is compositional and atomic over whole sessions. However many functions a session
lowers, its code and its listing are those of the successful calls made alone, in order, and every
call is sound. -/
theorem calls_compose [Helper.Entries] [PendingHeap] (listing : Bool) {observer : Observer}
    (h : observer ≠ .refusing) (js : List (Program × UInt32)) :
    ((fresh listing observer).run js).stream.code.toList =
      (((fresh listing observer).calls js).filter Call.succeeded).flatMap (fun c =>
        (c.alone listing observer).1.stream.code.toList) ∧
    ((fresh listing observer).run js).stream.listingText =
      (((fresh listing observer).calls js).filter Call.succeeded).flatMap (fun c =>
        (c.alone listing observer).1.stream.listingText) ∧
    ∀ c ∈ (fresh listing observer).calls js, c.Sound listing observer := by
  simpa [fresh, Stream.listingText] using calls_of_ready (ready_fresh listing h) js

/-- A division, a division with a statement behind it that no rule is for, and a loop. -/
def mixed : List (Program × UInt32) :=
  let division : Statement :=
    { op := .div, dst := some (.temporary64 0), src1 := some (.register 1),
      src2 := some (.constant 7) }
  [([division], 8), ([division, { op := .unknown 99 }], 8),
    ([{ op := .label, block := 5 }, { op := .jmp, block := 5 }], 0)]

theorem calls_compose_mixed : Observer.recording ≠ .refusing ∧
    ((fresh true .recording).run mixed).stream.code.toList =
      (((fresh true .recording).calls mixed).filter Call.succeeded).flatMap (fun c =>
        (c.alone true .recording).1.stream.code.toList) ∧
    ((fresh true .recording).run mixed).stream.listingText =
      (((fresh true .recording).calls mixed).filter Call.succeeded).flatMap (fun c =>
        (c.alone true .recording).1.stream.listingText) ∧
    ∀ c ∈ (fresh true .recording).calls mixed, c.Sound true .recording :=
  ⟨by decide, calls_compose true (by decide) mixed⟩

end Session

end A32Lowering
