import Mathlib
import A32Lowering.Proofs.Assembly

/-!
# Placing items in a session

Lowering a statement puts its items into the stream of the session, one after another: an
instruction is written, a block gets a label when it is mentioned first, a jump waits for its
block, and a report goes to the observer.

## Main definitions

* `Session.Idle`, `Session.Ready` : a session in which a function can begin.
* `Session.place`, `Session.placeAll` : a session with items put into its stream.

## Main results

* `Lower.outcome_statement_eq_ok_iff` : lowering a statement places its items.
-/

namespace A32Lowering

/-- A session between functions: nothing is left of another one, and reports are not refused. -/
structure Session.Idle (s : Session) : Prop where
  clean : s.isClean = true
  labels : s.stream.labels = #[]
  pending : s.stream.pending = {}
  observer : s.observer ≠ .refusing

/-- A session between functions whose lines all belong to its code, so that the lines of the next
function can be told by their positions. -/
structure Session.Ready (s : Session) : Prop extends s.Idle where
  lines : ∀ l ∈ s.stream.lines, l.pos < s.stream.size

theorem Session.isClean_iff {s : Session} :
    s.isClean = true ↔ s.params = [] ∧ s.blocks = [] ∧ s.level = 0 := by
  simp [isClean, and_assoc]

@[simp] theorem Stream.size_note (s : Stream) (text : String) : (s.note text).size = s.size := by
  unfold Stream.note
  split_ifs <;> rfl

namespace Session

/-- The label of a block, with the session that knows it. -/
def labelOf (s : Session) (b : UInt32) : Label × Session :=
  match s.blocks.find? fun c => c.1 = b with
  | some c => (c.2, s)
  | none =>
    (s.stream.createLabel.1,
      { s with
        stream := s.stream.createLabel.2
        blocks := s.blocks ++ [(b, s.stream.createLabel.1)] })

/-- The session with an item put into its stream; a block cannot be placed twice. -/
def place (s : Session) : Item → Option Session
  | .instr i => some { s with stream := s.stream.emit i }
  | .jump c b =>
    some { (s.labelOf b).2 with
      stream := (s.labelOf b).2.stream.emit (.branch c (s.labelOf b).1) }
  | .mark b =>
    match (s.labelOf b).2.stream.mark (s.labelOf b).1 with
    | .ok stream => some { (s.labelOf b).2 with stream }
    | .error _ => none
  | .report v =>
    some (if s.observer = .recording then
      { s with reports := s.reports.push ⟨v, s.stream.size⟩ } else s)

/-- The session with items put into its stream. -/
def placeAll (s : Session) (l : List Item) : Option Session := l.foldlM place s

@[simp] theorem placeAll_nil (s : Session) : s.placeAll [] = some s := rfl

theorem placeAll_cons (s : Session) (i : Item) (l : List Item) :
    s.placeAll (i :: l) = (s.place i).bind (placeAll · l) := rfl

theorem placeAll_append (s : Session) (l r : List Item) :
    s.placeAll (l ++ r) = (s.placeAll l).bind (placeAll · r) := by
  rw [placeAll, List.foldlM_append]
  rfl

/-- Instructions are placed by writing them. -/
@[simp] theorem placeAll_instrs (s : Session) (l : List Instr) :
    s.placeAll (l.map .instr) = some { s with stream := s.stream.emitAll l } := by
  induction l generalizing s with
  | nil => rfl
  | cons i l ih =>
    rw [List.map_cons, placeAll_cons, place, Option.bind_some, ih]
    rfl

/-- The session with a call to an address behind its stream. -/
def call (s : Session) (addr : UInt32) : Session :=
  { s with
    stream := s.stream.emitAll (Constant.loadPair Abi.callAddress addr
      ++ [Instr.mov .lr .pc, Instr.mov .pc Abi.callAddress])
    reports := if s.observer = .recording then s.reports.push ⟨addr, s.stream.size⟩
      else s.reports }

@[simp] theorem placeAll_call (s : Session) (addr : UInt32) :
    s.placeAll (Item.call addr) = some (s.call addr) := by
  rw [Item.call, placeAll_cons, place, Option.bind_some, placeAll_instrs, call]
  split_ifs <;> rfl

end Session

/-! ### Lowering a statement places its items -/

namespace Lower

variable {s t : Session}

theorem outcome_labelOf (b : UInt32) :
    outcome (labelOf b) s = (.ok (s.labelOf b).1, (s.labelOf b).2) := by
  rw [labelOf, Session.labelOf, outcome_get_bind]
  cases s.blocks.find? fun c => c.1 = b with
  | some c => rfl
  | none => rfl

theorem outcome_jumpTo (c : CondCode) (b : UInt32) :
    outcome (jumpTo c b) s = (.ok (), t) ↔ s.placeAll [.jump c b] = some t := by
  rw [jumpTo, outcome_bind_of_eq (outcome_labelOf b), outcome_emit, Session.placeAll_cons,
    Session.place, Option.bind_some, Session.placeAll_nil, Prod.mk.injEq, Option.some_inj]
  exact and_iff_right rfl

theorem outcome_markBlock (b : UInt32) :
    outcome (markBlock b) s = (.ok (), t) ↔ s.placeAll [.mark b] = some t := by
  rw [markBlock, outcome_bind_of_eq (outcome_labelOf b), outcome_get_bind, Session.placeAll_cons,
    Session.place]
  rcases (s.labelOf b).2.stream.mark (s.labelOf b).1 with (_ | _) | stream <;> simp

theorem outcome_report (h : s.observer ≠ .refusing) (r : Report) :
    outcome (report r) s = (.ok (), { s with
      reports := if s.observer = .recording then s.reports.push r else s.reports }) := by
  rw [report, outcome_get_bind]
  split
  next ho => rw [if_neg (by rw [ho]; decide), outcome_pure]
  next ho => rw [if_pos ho, outcome_modify]
  next ho => exact (h ho).elim

/-- A relocatable constant is written before it is reported, and reported once. -/
theorem outcome_loadRelocatable (s : Session) (r : Reg) (v : UInt32) :
    outcome (loadRelocatable r v) s =
      (if s.observer = .refusing then .error .refused else .ok (),
        { s with
          stream := s.stream.emitAll (Constant.loadPair r v)
          reports := if s.observer = .recording then s.reports.push ⟨v, s.stream.size⟩
            else s.reports }) := by
  rw [loadRelocatable, outcome_get_bind, outcome_emit_bind]
  by_cases ho : s.observer = .refusing
  · rw [report, outcome_get_bind]
    simp [ho]
  · rw [if_neg ho]
    exact outcome_report (s := { s with stream := s.stream.emitAll (Constant.loadPair r v) }) ho _

theorem outcome_callAddress (h : s.observer ≠ .refusing) (addr : UInt32) :
    outcome (callAddress addr) s = (.ok (), s.call addr) := by
  have hl := outcome_loadRelocatable s Abi.callAddress addr
  rw [if_neg h] at hl
  rw [callAddress, outcome_bind_of_eq hl, outcome_emit, Session.call, Stream.emitAll_append]

variable {x : Statement}

theorem outcome_jumpOn {c : Except Fault (List Instr)} :
    outcome (emitChecked c >>= fun _ => jumpOn x) s = (.ok (), t) ↔
      ∃ l, Action.jumpItems x c = .ok l ∧ s.placeAll l = some t := by
  simp only [jumpOn, outcome_emitChecked_bind_eq_ok_iff, outcome_check_bind_eq_ok_iff,
    outcome_jumpTo, Action.jumpItems, Except.bind_eq_ok_iff, Except.pure_eq_ok_iff]
  constructor
  · rintro ⟨l, hl, cc, hc, h⟩
    refine ⟨_, ⟨l, hl, cc, hc, rfl⟩, ?_⟩
    rwa [Session.placeAll_append, Session.placeAll_instrs]
  · rintro ⟨_, ⟨l, hl, cc, hc, rfl⟩, h⟩
    rw [Session.placeAll_append, Session.placeAll_instrs] at h
    exact ⟨l, hl, cc, hc, h⟩

theorem outcome_call (hl : s.level = 0) (ho : s.observer ≠ .refusing) (target count : Operand) :
    outcome (call target count) s = (.ok (), t) ↔ ∃ l ps,
      Action.callItems s.params target count = .ok (l, ps) ∧
      { s with params := ps }.placeAll l = some t := by
  by_cases hn : s.params.length < count.low.toNat
  · simp [call, takeParameters, Action.callItems, hn, bind_assoc]
  have hc (u : Session) (hu : u.observer = s.observer) :
      outcome (callAddress target.low) u = (.ok (), u.call target.low) :=
    outcome_callAddress (hu ▸ ho) _
  simp only [call, takeParameters, Action.callItems, hn, if_false, bind_assoc,
    outcome_check_bind_eq_ok_iff, outcome_get_bind, outcome_set_bind, outcome_level_bind,
    outcome_emitChecked_bind_eq_ok_iff, Except.bind_eq_ok_iff, Except.pure_eq_ok_iff, pure_bind,
    hl, Prod.mk.injEq, hc]
  constructor
  · rintro ⟨_, hk, _, hk', l, hl, -, rfl⟩
    refine ⟨_, _, ⟨_, hk, _, hk', l, hl, rfl, rfl⟩, ?_⟩
    rw [Session.placeAll_append, Session.placeAll_instrs, Option.bind_some, Session.placeAll_call]
  · rintro ⟨_, _, ⟨_, hk, _, hk', l, hl, rfl, rfl⟩, h⟩
    rw [Session.placeAll_append, Session.placeAll_instrs, Option.bind_some,
      Session.placeAll_call] at h
    exact ⟨_, hk, _, hk', l, hl, trivial, Option.some.inj h⟩

theorem outcome_divide [Helper.Entries] (hl : s.level = 0) (ho : s.observer ≠ .refusing)
    (signed : Bool) (d s1 s2 : Operand) :
    outcome (divide signed d s1 s2) s = (.ok (), t) ↔ ∃ l,
      Action.divideItems signed d s1 s2 = .ok l ∧ s.placeAll l = some t := by
  have hc (u : Session) (hu : u.observer = s.observer) (a : UInt32) (f : Unit → Lower Unit) :
      outcome (callAddress a >>= f) u = outcome (f ()) (u.call a) :=
    outcome_bind_of_eq (outcome_callAddress (hu ▸ ho) a)
  simp only [divide, Action.divideItems, outcome_check_bind_eq_ok_iff, outcome_level_bind,
    outcome_emitChecked_bind_eq_ok_iff, outcome_emit_bind, outcome_moveLevel_bind, hc,
    Session.call, outcome_emitChecked_eq_ok_iff, Except.bind_eq_ok_iff, Except.pure_eq_ok_iff, hl]
  have h8 : (0 : UInt32) + 8 + -8 = 0 := by decide
  rw [h8, zero_add]
  constructor
  · rintro ⟨_, hk, a, ha, b, hb, q, hq, r, hr, rfl⟩
    refine ⟨_, ⟨_, hk, a, ha, b, hb, q, hq, r, hr, rfl⟩, ?_⟩
    simp only [Session.placeAll_append, Session.placeAll_instrs, Option.bind_some,
      Session.placeAll_call, Session.call, Stream.emitAll_append, hl]
  · rintro ⟨_, ⟨_, hk, a, ha, b, hb, q, hq, r, hr, rfl⟩, h⟩
    refine ⟨_, hk, a, ha, b, hb, q, hq, r, hr, Option.some.inj (Eq.trans ?_ h)⟩
    simp only [Session.placeAll_append, Session.placeAll_instrs, Option.bind_some,
      Session.placeAll_call, Session.call, Stream.emitAll_append, hl]

/-- Doing what a rule says with a statement places the items that the rule gives. -/
theorem outcome_action [Helper.Entries] (hl : s.level = 0) (ho : s.observer ≠ .refusing)
    (a : Action) :
    outcome (action x a) s = (.ok (), t) ↔ ∃ l ps,
      a.items s.params x = .ok (l, ps) ∧ { s with params := ps }.placeAll l = some t := by
  have hcall := outcome_call (t := t) hl ho
  have hdiv := outcome_divide (t := t) hl ho
  obtain ⟨stream, blocks, params, level, observer, reports⟩ := s
  obtain rfl : level = 0 := hl
  simp only [Action.items_eq_ok_iff]
  cases a with
  | straight a =>
    simp only [action, outcome_level_bind, outcome_emitChecked_eq_ok_iff]
    constructor
    · rintro ⟨m, hm, rfl⟩
      exact ⟨_, _, .straight hm, Session.placeAll_instrs _ _⟩
    · rintro ⟨_, _, hg, h⟩
      cases hg with
      | straight hm =>
        rw [Session.placeAll_instrs] at h
        exact ⟨_, hm, Option.some.inj h⟩
  | mark =>
    rw [action, outcome_markBlock]
    constructor
    · exact fun h => ⟨_, _, .mark, h⟩
    · rintro ⟨_, _, hg, h⟩
      cases hg
      exact h
  | jump =>
    rw [action, outcome_jumpTo]
    constructor
    · exact fun h => ⟨_, _, .jump, h⟩
    · rintro ⟨_, _, hg, h⟩
      cases hg
      exact h
  | jumpIf =>
    simp only [action, outcome_check_bind_eq_ok_iff, Access.need_eq_ok_iff]
    constructor
    · rintro ⟨a, h1, b, h2, h⟩
      split_ifs at h with hk
      · simp at h
      simp only [outcome_level_bind, outcome_jumpOn] at h
      obtain ⟨l, hl, h⟩ := h
      exact ⟨l, _, .jumpIf h1 h2 hk hl, h⟩
    · rintro ⟨l, _, hg, h⟩
      cases hg with
      | jumpIf h1 h2 hk hl =>
        refine ⟨_, h1, _, h2, ?_⟩
        rw [if_neg hk, outcome_level_bind, outcome_jumpOn]
        exact ⟨l, hl, h⟩
  | jumpIfCst =>
    simp only [action, outcome_check_bind_eq_ok_iff, Access.need_eq_ok_iff,
      Access.expect_eq_ok_iff, outcome_level_bind, outcome_jumpOn]
    constructor
    · rintro ⟨a, h1, b, h2, _, hk, l, hl, h⟩
      exact ⟨l, _, .jumpIfCst h1 h2 hk hl, h⟩
    · rintro ⟨l, _, hg, h⟩
      cases hg with
      | jumpIfCst h1 h2 hk hl => exact ⟨_, h1, _, h2, (), hk, l, hl, h⟩
  | param c =>
    simp only [action, outcome_check_bind_eq_ok_iff, Except.bind_eq_ok_iff, Access.need_eq_ok_iff,
      outcome_modify, Prod.mk.injEq]
    constructor
    · rintro ⟨q, ⟨o, h1, hq⟩, -, rfl⟩
      exact ⟨_, _, .param h1 hq, rfl⟩
    · rintro ⟨_, _, hg, h⟩
      cases hg with
      | param h1 hq => exact ⟨_, ⟨_, h1, hq⟩, trivial, Option.some.inj h⟩
  | call =>
    simp only [action, outcome_check_bind_eq_ok_iff, Access.need_eq_ok_iff, hcall]
    constructor
    · rintro ⟨a, h1, b, h2, l, ps, hl, h⟩
      exact ⟨l, ps, .call h1 h2 hl, h⟩
    · rintro ⟨l, ps, hg, h⟩
      cases hg with
      | call h1 h2 hl => exact ⟨_, h1, _, h2, l, ps, hl, h⟩
  | divide signed =>
    simp only [action, outcome_check_bind_eq_ok_iff, Access.need_eq_ok_iff, hdiv]
    constructor
    · rintro ⟨d, hd, a, h1, b, h2, l, hl, h⟩
      exact ⟨l, _, .divide hd h1 h2 hl, h⟩
    · rintro ⟨l, _, hg, h⟩
      cases hg with
      | divide hd h1 h2 hl => exact ⟨_, hd, _, h1, _, h2, l, hl, h⟩

/-- Lowering a statement places its items. -/
theorem outcome_statement_eq_ok_iff [Helper.Entries] (hl : s.level = 0)
    (ho : s.observer ≠ .refusing) :
    outcome (statement x) s = (.ok (), t) ↔ ∃ l ps,
      x.items s.params = .ok (l, ps) ∧ { s with params := ps }.placeAll l = some t := by
  simp only [statement, Statement.items, outcome_check_bind_eq_ok_iff, outcome_action hl ho,
    Except.bind_eq_ok_iff]
  constructor
  · rintro ⟨r, hr, l, ps, hi, h⟩
    exact ⟨l, ps, ⟨r, hr, hi⟩, h⟩
  · rintro ⟨l, ps, ⟨r, hr, hi⟩, h⟩
    exact ⟨r, hr, l, ps, hi, h⟩

end Lower

end A32Lowering
