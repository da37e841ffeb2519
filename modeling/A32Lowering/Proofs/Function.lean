import Mathlib
import A32Lowering.Proofs.Growth
import A32Lowering.Proofs.Resolution

/-!
# What lowering a function does

Lowering a function either puts all its items behind the stream, with every displacement filled in,
or leaves code and listing as they were. Which of the two happens depends on the program and the
frame size, not on what the session has lowered before.

## Main definitions

* `Session.extend` : a session with the items of a function behind its stream.
* `Program.Links` : a program that can be lowered, with its items.

## Main results

* `LowerAt.outcome_function_eq_ok_iff` : lowering a function places its items and resolves them.
* `Session.lower_of_links`, `Session.lower_of_not_links` : the two ways in which lowering ends.
* `Session.Ready.extend` : a session is ready for the next function behind one that was lowered.
-/

namespace A32Lowering

namespace Session

variable {s t : Session} {i : Item} {l : List Item}

theorem labelOf_with_params (ps : List Parameter) (b : UInt32) :
    { s with params := ps }.labelOf b =
      ((s.labelOf b).1, { (s.labelOf b).2 with params := ps }) := by
  unfold labelOf
  simp only
  cases s.blocks.find? fun c => c.1 = b <;> rfl

/-- The parameters that wait play no part in placing items. -/
theorem place_with_params (ps : List Parameter) :
    { s with params := ps }.place i = (s.place i).map fun t => { t with params := ps } := by
  cases i with
  | instr i => rfl
  | jump c b => simp only [place, labelOf_with_params, Option.map_some]
  | mark b =>
    simp only [place, labelOf_with_params]
    cases (s.labelOf b).2.stream.mark (s.labelOf b).1 <;> rfl
  | report v =>
    simp only [place, Option.map_some]
    split_ifs <;> rfl

theorem placeAll_with_params (ps : List Parameter) :
    { s with params := ps }.placeAll l = (s.placeAll l).map fun t => { t with params := ps } := by
  induction l generalizing s with
  | nil => rfl
  | cons i l ih =>
    rw [placeAll_cons, placeAll_cons, place_with_params]
    cases s.place i with
    | none => rfl
    | some t => exact ih

theorem placeAll_params {ps : List Parameter} (h : { s with params := ps }.placeAll l = some t)
    (qs : List Parameter) : { s with params := qs }.placeAll l = some { t with params := qs } := by
  have hm := placeAll_with_params (s := { s with params := ps }) (l := l) qs
  rw [h] at hm
  exact hm

theorem labelOf_frame (b : UInt32) : (s.labelOf b).2.params = s.params ∧
    (s.labelOf b).2.level = s.level ∧ (s.labelOf b).2.observer = s.observer := by
  unfold labelOf
  split <;> exact ⟨rfl, rfl, rfl⟩

theorem place_frame (h : s.place i = some t) :
    t.params = s.params ∧ t.level = s.level ∧ t.observer = s.observer := by
  cases i with
  | instr i =>
    obtain rfl := Option.some.inj h
    exact ⟨rfl, rfl, rfl⟩
  | jump c b =>
    obtain rfl := Option.some.inj h
    exact labelOf_frame b
  | mark b =>
    rw [place] at h
    split at h
    · obtain rfl := Option.some.inj h
      exact labelOf_frame b
    · cases h
  | report v =>
    obtain rfl := Option.some.inj h
    split_ifs <;> exact ⟨rfl, rfl, rfl⟩

theorem placeAll_frame (h : s.placeAll l = some t) :
    t.params = s.params ∧ t.level = s.level ∧ t.observer = s.observer := by
  induction l generalizing s with
  | nil =>
    obtain rfl := Option.some.inj h
    exact ⟨rfl, rfl, rfl⟩
  | cons i l ih =>
    rw [placeAll_cons] at h
    obtain ⟨u, hu, h⟩ := Option.bind_eq_some_iff.mp h
    obtain ⟨hp, hl, ho⟩ := place_frame hu
    obtain ⟨hp', hl', ho'⟩ := ih h
    exact ⟨hp'.trans hp, hl'.trans hl, ho'.trans ho⟩

end Session

namespace LowerAt

variable {s t : Session} {α : Type}

theorem outcome_located_eq_ok_iff {place : Place} {m : Lower α} {a : α} :
    outcome (located place m) s = (.ok a, t) ↔ outcome m s = (.ok a, t) := by
  rw [outcome_located]
  rcases outcome m s with ⟨e | b, u⟩ <;> simp

/-- Lowering statements places their items. -/
theorem outcome_statements_eq_ok_iff [Helper.Entries] (hl : s.level = 0)
    (ho : s.observer ≠ .refusing) {p : Program} {i : Nat} :
    outcome (statements i p) s = (.ok (), t) ↔ ∃ ls ps,
      Program.bodies s.params p = .ok (ls, ps) ∧
      { s with params := ps }.placeAll ls.flatten = some t := by
  induction p generalizing s i with
  | nil =>
    simp only [statements, outcome_pure, Program.bodies, Except.pure_eq_ok_iff, Prod.mk.injEq]
    constructor
    · rintro ⟨-, rfl⟩
      exact ⟨[], _, ⟨rfl, rfl⟩, rfl⟩
    · rintro ⟨ls, ps, ⟨rfl, rfl⟩, h⟩
      exact ⟨trivial, Option.some.inj h⟩
  | cons x p ih =>
    rw [statements, outcome_bind_eq_ok_iff]
    simp only [outcome_located_eq_ok_iff, Lower.outcome_statement_eq_ok_iff hl ho, Program.bodies,
      Except.bind_eq_ok_iff, Except.pure_eq_ok_iff, Prod.exists, Prod.mk.injEq]
    constructor
    · rintro ⟨_, u, ⟨l, ps, hx, hu⟩, h⟩
      obtain ⟨hp, hl', ho'⟩ := Session.placeAll_frame hu
      obtain ⟨ls, ps', hb, ht⟩ := (ih (hl'.trans hl) (ho'.symm ▸ ho)).mp h
      rw [hp] at hb
      refine ⟨l :: ls, ps', ⟨l, ps, hx, ls, ps', hb, rfl, rfl⟩, ?_⟩
      rwa [List.flatten_cons, Session.placeAll_append, Session.placeAll_params hu]
    · rintro ⟨_, _, ⟨l, ps, hx, ls, ps', hb, rfl, rfl⟩, h⟩
      rw [List.flatten_cons, Session.placeAll_append] at h
      obtain ⟨u, hu, h⟩ := Option.bind_eq_some_iff.mp h
      have hps : u.params = ps' := (Session.placeAll_frame hu).1
      have hu := Session.placeAll_params hu ps
      obtain ⟨hp, hl', ho'⟩ := Session.placeAll_frame hu
      refine ⟨(), _, ⟨l, ps, hx, hu⟩, (ih (hl'.trans hl) (ho'.symm ▸ ho)).mpr ⟨ls, ps', hb, ?_⟩⟩
      rw [← hps]
      exact h

theorem outcome_checkEnd_eq_ok_iff :
    outcome checkEnd s = (.ok (), t) ↔ s.params = [] ∧ s.level = 0 ∧ s = t := by
  rw [checkEnd, outcome_get_bind]
  by_cases hp : s.params = []
  · by_cases hl : s.level = 0 <;> simp [hp, hl]
  · simp [hp]

theorem outcome_resolve_eq_ok_iff [PendingHeap] :
    outcome resolve s = (.ok (), t) ↔ ∃ stream, s.stream.resolve = (stream, .ok ()) ∧
      { s with stream } = t := by
  rw [resolve, outcome_get_bind]
  rcases s.stream.resolve with ⟨stream, e | u⟩
  · cases e <;> simp
  · simp

/-- Lowering a function places its items and resolves them. -/
theorem outcome_function_eq_ok_iff [Helper.Entries] [PendingHeap] (hs : s.Idle) {p : Program}
    {frame : UInt32} :
    outcome (function p frame) s = (.ok (), t) ↔ ∃ a u stream,
      p.assemble frame = .ok a ∧ s.placeAll a.items = some u ∧
      u.stream.resolve = (stream, .ok ()) ∧
      { u with stream := stream.clearLabels }.forget = t := by
  obtain ⟨hparams, -, hlevel⟩ := Session.isClean_iff.mp hs.clean
  have ho := hs.observer
  obtain ⟨stream, blocks, params, level, observer, reports⟩ := s
  obtain rfl : params = [] := hparams
  obtain rfl : level = 0 := hlevel
  have hstatements (l : List Instr) (v : Session) := outcome_statements_eq_ok_iff
    (s := ⟨stream.emitAll l, blocks, [], 0, observer, reports⟩) (t := v) (p := p) (i := 0) rfl ho
  simp only [function, outcome_bind_eq_ok_iff, outcome_located_eq_ok_iff,
    Lower.outcome_check_eq_ok_iff, outcome_modify, Except.bind_eq_ok_iff, Lower.outcome_emit,
    Prod.mk.injEq, Program.assemble_eq_ok_iff]
  constructor
  · rintro ⟨saved, _, ⟨⟨used, hu, hsv⟩, rfl⟩, _, _, he, _, _, ⟨-, rfl⟩, _, v, hst, _, w,
      ⟨_, _, hend, _, _, ⟨-, rfl⟩, hres⟩, -, rfl⟩
    obtain ⟨prolog, hp, rfl⟩ := Lower.outcome_emitChecked_eq_ok_iff.mp he
    obtain ⟨body, ps, hb, hv⟩ := (hstatements prolog v).mp hst
    obtain ⟨hps, -, rfl⟩ := outcome_checkEnd_eq_ok_iff.mp hend
    obtain ⟨final, hf, rfl⟩ := outcome_resolve_eq_ok_iff.mp hres
    obtain rfl : ps = [] := (Session.placeAll_frame hv).1.symm.trans hps
    refine ⟨_, _, final, ⟨used, saved, prolog, body, hu, hsv, hp, hb, rfl⟩, ?_, hf, rfl⟩
    simp only [Assembly.items, Session.placeAll_append, Session.placeAll_instrs, Option.bind_some]
    rw [hv, Option.bind_some]
  · rintro ⟨_, u, final, ⟨used, saved, prolog, body, hu, hsv, hp, hb, rfl⟩, hpl, hf, rfl⟩
    simp only [Assembly.items, Session.placeAll_append, Session.placeAll_instrs,
      Option.bind_some] at hpl
    obtain ⟨v, hv, hpl⟩ := Option.bind_eq_some_iff.mp hpl
    obtain rfl := Option.some.inj hpl
    obtain ⟨hps, hlv, -⟩ := Session.placeAll_frame hv
    refine ⟨saved, _, ⟨⟨used, hu, hsv⟩, rfl⟩, (), _,
      Lower.outcome_emitChecked_eq_ok_iff.mpr ⟨prolog, hp, rfl⟩, (), _, ⟨trivial, rfl⟩, (), v, ?_,
      (), _, ⟨(), v, outcome_checkEnd_eq_ok_iff.mpr ⟨hps, hlv, rfl⟩, (), _, ⟨trivial, rfl⟩,
        outcome_resolve_eq_ok_iff.mpr ⟨final, hf, rfl⟩⟩, trivial, rfl⟩
    exact (hstatements prolog v).mpr ⟨body, [], hb, hv⟩

end LowerAt

/-! ### The two ways in which lowering ends -/

/-- A program that can be lowered with some frame size, and its items: they can be assembled, no
block has two places, and every jump has a place to go to that is in reach. -/
def Program.Links [Helper.Entries] (p : Program) (frame : UInt32) (l : List Item) : Prop :=
  ∃ a, p.assemble frame = .ok a ∧ a.items = l ∧ Items.Linkable 0 l

namespace Session

variable {s : Session} {p : Program} {frame : UInt32} {l : List Item}

/-- The session with the items of a function behind its stream, all displacements filled in. -/
def extend (s : Session) (l : List Item) : Session :=
  { s with
    stream := { s.stream with
      code := s.stream.code ++
        Code.ofWords (Items.words (Items.displacement? s.stream.size l) s.stream.size l)
      lines := s.stream.lines ++ if s.stream.listing then
        (Items.lines (Items.number l) s.stream.size l).toArray else #[] }
    reports := s.reports ++ if s.observer = .recording then
      (Items.reports s.stream.size l).toArray else #[] }

/-- Resolving placed items, and forgetting what belongs to the function. -/
theorem forget_eq_extend (hs : s.Idle) {u : Session} (h : Placed s (Items.blocks l) l u) :
    { u with stream := { u.stream with
        code := s.stream.code ++
          Code.ofWords (Items.words (Items.displacement? s.stream.size l) s.stream.size l)
        pending := {} }.clearLabels }.forget = s.extend l := by
  obtain ⟨hparams, hblocks, hlevel⟩ := isClean_iff.mp hs.clean
  have hlabels := hs.labels
  have hpending := hs.pending
  obtain ⟨⟨code, listing, lines, labels, pending⟩, blocks, params, level, observer, reports⟩ := s
  simp only at hparams hblocks hlevel hlabels hpending
  subst hparams hblocks hlevel hlabels hpending
  simp only [forget, Stream.clearLabels, extend, h.listing, h.lines, h.observer, h.reports]
  rfl

theorem outcome_function_eq_ok_iff_extend [Helper.Entries] [PendingHeap] (hs : s.Idle)
    {t : Session} : outcome (LowerAt.function p frame) s = (.ok (), t) ↔ ∃ a,
      p.assemble frame = .ok a ∧ Items.Linkable s.stream.size a.items ∧ t = s.extend a.items := by
  rw [LowerAt.outcome_function_eq_ok_iff hs]
  constructor
  · rintro ⟨a, u, stream, ha, hu, hr, rfl⟩
    rcases placeAll_eq_some hs (Program.plain_assemble ha) with ⟨u', hu', hp, hn⟩ | ⟨hu', -⟩
    · obtain rfl := Option.some.inj (hu.symm.trans hu')
      obtain ⟨hall, rfl⟩ := (Stream.resolve_eq_ok_iff _ hp.code (fun b hb => hp.label? hb)
        hp.pending).mp hr
      exact ⟨a, ha, ⟨hn, hall⟩, forget_eq_extend hs hp⟩
    · rw [hu'] at hu
      cases hu
  · rintro ⟨a, ha, ⟨hn, hall⟩, rfl⟩
    rcases placeAll_eq_some hs (Program.plain_assemble ha) with ⟨u, hu, hp, -⟩ | ⟨-, hn'⟩
    · have hr := (Stream.resolve_eq_ok_iff _ hp.code (fun b hb => hp.label? hb)
        hp.pending).mpr ⟨hall, rfl⟩
      exact ⟨a, u, _, ha, hu, hr, forget_eq_extend hs hp⟩
    · exact (hn' hn).elim

/-- A program that links is put behind the stream. -/
theorem lower_of_links [Helper.Entries] [PendingHeap] (hs : s.Idle) (h : p.Links frame l) :
    s.lower p frame = (s.extend l, .ok ()) := by
  obtain ⟨a, ha, rfl, hl⟩ := h
  have hl : Items.Linkable s.stream.size a.items := (Items.linkable_add _ 0 _).mpr hl
  have hf : (LowerAt.function p frame).run s = _ :=
    (outcome_function_eq_ok_iff_extend hs).mpr ⟨a, ha, hl, rfl⟩
  rw [lower, if_pos hs.clean, hf]

/-- A program that does not link is a fault, found in a session that has only grown. -/
theorem lower_eq_rollback [Helper.Entries] [PendingHeap] (hs : s.Idle)
    (h : ∀ l, ¬ p.Links frame l) : ∃ place f t, Grown s t ∧
      s.lower p frame = (t.rollback s.stream.size, .error (.faulted place f)) := by
  have hrefl : Grown s s := .refl (isClean_iff.mp hs.clean).2.1 hs.pending
  obtain ⟨hg, he⟩ := LowerAt.guarded_function hs.observer p frame s hrefl
  rcases hf : outcome (LowerAt.function p frame) s with ⟨e | _, t⟩
  · rw [hf] at hg he
    obtain ⟨place, e⟩ := e
    obtain ⟨f, rfl⟩ := he _ rfl
    have hf : (LowerAt.function p frame).run s = _ := hf
    exact ⟨place, f, t, hg, by rw [lower, if_pos hs.clean, hf]⟩
  · obtain ⟨a, ha, hl, -⟩ := (outcome_function_eq_ok_iff_extend hs).mp hf
    exact (h _ ⟨a, ha, rfl, (Items.linkable_add s.stream.size 0 _).mp hl⟩).elim

/-- After a fault code and listing are as before, and the reports that were made belong to
positions that the stream does not have any more. -/
theorem lower_of_not_links [Helper.Entries] [PendingHeap] (hs : s.Ready)
    (h : ∀ l, ¬ p.Links frame l) : ∃ place f r,
      s.lower p frame = ({ s with reports := s.reports ++ r }, .error (.faulted place f)) ∧
      (∀ x ∈ r, s.stream.size ≤ x.offset) ∧ (s.observer ≠ .recording → r = #[]) := by
  obtain ⟨place, f, t, hg, hl⟩ := lower_eq_rollback hs.toIdle h
  obtain ⟨r, hr, hpos, hnone⟩ := hg.reports
  exact ⟨place, f, r, by rw [hl, hg.rollback hs, hr], hpos, hnone⟩

theorem size_extend : (s.extend l).stream.size = s.stream.size + Items.width l := by
  rw [extend, Stream.size, Array.size_append, Code.size_ofWords, Items.four_mul_length_words,
    Stream.size]

end Session

/-- A function ends with an instruction, so that every line of it belongs to its code. -/
theorem Program.Links.lt_of_mem_placed [Helper.Entries] {p : Program} {frame : UInt32}
    {l : List Item} (h : p.Links frame l) {pos : Nat} {x : Nat × Item}
    (hx : x ∈ Items.placed pos l) : x.1 < pos + Items.width l := by
  obtain ⟨a, ha, rfl, -⟩ := h
  obtain ⟨used, saved, prolog, body, -, -, -, -, rfl⟩ := Program.assemble_eq_ok_iff.mp ha
  obtain ⟨m, hm⟩ : ∃ m : List Item, Assembly.items ⟨prolog, body, Frame.epilog frame saved⟩ =
      m ++ [.instr (.bx .lr)] :=
    ⟨prolog.map .instr ++ body.flatten ++
      (Frame.adjust .add frame ++ [Instr.ldmia .sp saved]).map .instr,
      by simp [Assembly.items, Frame.epilog]⟩
  rw [hm, Items.placed_append] at hx
  rw [hm, Items.width_append]
  have h4 : Items.width [.instr (.bx .lr)] = 4 := rfl
  rcases List.mem_append.mp hx with hx | hx
  · have := (Items.mem_placed hx).2.2
    omega
  · obtain rfl := List.mem_singleton.mp hx
    simp only
    omega

/-- A session is ready for the next function behind one that was lowered. -/
theorem Session.Ready.extend [Helper.Entries] {s : Session} (hs : s.Ready) {p : Program}
    {frame : UInt32} {l : List Item} (h : p.Links frame l) : (s.extend l).Ready where
  clean := hs.clean
  labels := hs.labels
  pending := hs.pending
  observer := hs.observer
  lines := by
    rw [size_extend]
    intro line hline
    rcases Array.mem_append.mp hline with hline | hline
    · exact (hs.lines line hline).trans_le (Nat.le_add_right _ _)
    · split_ifs at hline
      · obtain ⟨x, hx, he⟩ := List.mem_filterMap.mp (List.mem_toArray.mp hline)
        have hpos : line.pos = x.1 := by
          obtain ⟨p, i⟩ := x
          cases i <;> cases he <;> rfl
        rw [hpos]
        exact h.lt_of_mem_placed hx
      · simp at hline

end A32Lowering
