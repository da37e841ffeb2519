import Mathlib
import A32Lowering.Proofs.Arguments

/-!
# After a rule was selected

The patterns of the selection table and the lowerings agree on the classes of operands. When a rule
was selected for a statement, lowering it can only fail for the values of operands: an index that no
register has, an offset that no load can hold, and the like. The one exception is intended. The
patterns of the operations that compute their result in a register admit a constant as the
destination, and the definition refuses it before any code is written.

Parameters are part of this. A parameter statement only declares a parameter, and its operand is
loaded by the call that takes it.

## Main definitions

* `Statement.InOrder` : a statement whose operands, condition, parameters and block are in order.
* `Statement.DefinesConstant` : a statement that would compute its result into a constant.

## Main results

* `Statement.succeeds_items_of_inOrder` : the items of a statement in order.
* `LowerAt.placeAll_upTo` : a session at a statement of a function, as items.
* `LowerAt.action_of_select` : what the lowering of a rule does with a statement in order.
-/

namespace A32Lowering

open Access

/-! ### Statements in order -/

/-- The conditions on a statement, apart from the classes of its operands, which are up to the
selection table: registers exist, memory operands are aligned and within reach of the loads and
stores that access them, a condition that is read has a condition code, a call finds enough
parameters that wait and room for them in the argument registers, and a label was not placed. A
division stores its quotient while two words are on the stack. -/
structure Statement.InOrder (x : Statement) (waiting : List Operand) (placed : List UInt32) :
    Prop where
  registers : ∀ o ∈ x.slots, o.kind = .register → o.low < 6
  condition : x.op.compares = true → x.cond ∈ Condition.named
  sources : ∀ o, x.src1 = some o ∨ x.src2 = some o → o.Accessible
  destination : ∀ d, x.dst = some d →
    if x.op.divides then d.slot + 8 < 4096 ∧ d.slot + 4 < 4096 else d.Accessible
  enough : x.op = .call → x.count ≤ waiting.length
  room : x.op = .call → Parameter.slots 0 ((waiting.take x.count).map Operand.words) ≤ 4
  parameters : x.op = .call → ∀ o ∈ waiting.take x.count, o.Accessible
  block : x.op = .label → x.block ∉ placed

/-- A statement that computes its result in a register first, and has a constant in place of the
destination. -/
def Statement.DefinesConstant (x : Statement) : Prop :=
  x.op.defines = true ∧ ∃ d, x.dst = some d ∧ d.kind = .constant

theorem Statement.InOrder.fits {x : Statement} {waiting : List Operand} {placed : List UInt32}
    (h : x.InOrder waiting placed) (hd : ¬ x.DefinesConstant) : x.Fits :=
  ⟨h.registers, fun hop d hdst hk => hd ⟨hop, d, hdst, hk⟩, h.condition, h.sources, h.destination⟩

/-! ### Constants as destinations -/

/-- No register takes the new value of a constant. -/
theorem Access.define_of_constant {d : Operand} (hd : d.kind = .constant) (pref : Reg) :
    define d pref = .error (.unexpected .definition .constant) := by
  simp [define, hd, Operand.isMemory]

/-- A result that is computed in a register first is refused if its destination is a constant. -/
theorem Straight.code_of_definesConstant {a : Straight} {x : Statement} {sh : Shape}
    (hs : sh ∈ Action.straightShapes a) (h : sh.admits x = true) (hc : x.DefinesConstant)
    (level : UInt32) : a.code level x = .error (.unexpected .definition .constant) := by
  obtain ⟨hop, d, hdst, hd⟩ := hc
  obtain ⟨op, cond, dst, src1, src2, block⟩ := x
  obtain rfl : dst = some d := hdst
  have hdef := define_of_constant hd .r0
  obtain ⟨sop, sd, s1, s2⟩ := sh
  rw [Shape.admits_iff] at h
  obtain ⟨rfl, -, h1, h2⟩ := h
  cases a with
  | arith | shift | compare =>
    simp only [Action.straightShapes, List.mem_cons, List.not_mem_nil, or_false,
      Shape.mk.injEq] at hs
    obtain ⟨rfl, rfl⟩ : s1 = .any ∧ s2 = .any := by tauto
    obtain ⟨s, rfl, -⟩ := (Pattern.admits_iff (by decide)).mp h1
    obtain ⟨t, rfl, -⟩ := (Pattern.admits_iff (by decide)).mp h2
    simp only [code, arithCode, shiftCode, need_some, ok_bind, hdef]
    rfl
  | arithCst | compareCst =>
    simp only [Action.straightShapes, List.mem_singleton, Shape.mk.injEq] at hs
    obtain ⟨-, -, rfl, rfl⟩ := hs
    obtain ⟨s, rfl, -⟩ := (Pattern.admits_iff (by decide)).mp h1
    obtain ⟨t, rfl, ht⟩ := (Pattern.admits_iff (by decide)).mp h2
    have ht : t.kind = .constant := by simpa [Pattern.admitsOperand] using ht
    simp only [code, arithCstCode, need_some, ok_bind, expect_of_eq ht, hdef]
    rfl
  | _ =>
    have hno : op.defines = false := by
      simp only [Action.straightShapes, List.flatMap_cons, List.flatMap_nil, List.cons_append,
        List.nil_append, List.append_nil, List.mem_cons, List.not_mem_nil, or_false,
        Shape.mk.injEq] at hs
      grind [Op.defines]
    exact absurd hop (by simp [hno])

/-- Only straight-line lowerings compute their result in a register first. -/
theorem Rules.straight_of_defines {r : Rule Action} (hr : r ∈ general ++ wide)
    (h : r.shape.op.defines = true) : ∃ a, r.action = .straight a := by
  have hall : ∀ r ∈ general ++ wide, r.shape.op.defines = true →
      (match r.action with | .straight _ => true | _ => false) = true := by decide
  have hs := hall r hr h
  split at hs
  next a ha => exact ⟨a, ha⟩
  · cases hs

/-! ### Parameters that wait -/

namespace Parameter

variable {q : Parameter} {o : Operand} {qs : List Parameter} {os : List Operand}

/-- A parameter can be loaded if its operand can be accessed, and takes the words of its operand. -/
theorem DeclaredBy.loadable (h : q.DeclaredBy o) (ha : o.Accessible) :
    q.Loadable ∧ q.words = o.words := by
  obtain ⟨c, sh, hsh, hadm, hd⟩ := h
  have hu : o.Usable := by
    refine ⟨ha, fun hk => ?_⟩
    cases c with
    | register =>
      obtain ⟨r, hr, -⟩ := Except.bind_eq_ok_iff.mp hd
      exact (succeeds_register _).mp ⟨r, hr⟩
    | _ =>
      simp only [Action.parameterShapes, List.mem_cons, List.not_mem_nil, or_false] at hsh
      rcases hsh with rfl | rfl <;>
        simp [Pattern.admitsOperand, Operand.isMemory, Operand.isMemory64, Operand.isMemory128,
          hk] at hadm
  obtain ⟨q', hq', hl, hw⟩ := (exists_declare_iff hsh hadm (· = o.words)).mpr ⟨hu, rfl⟩
  obtain rfl := Except.ok.inj (hd.symm.trans hq')
  exact ⟨hl, hw⟩

/-- The parameters of a call can be loaded if their operands can be accessed and four slots are
enough for them. -/
theorem succeeds_codeAll_of_declared (h : List.Forall₂ DeclaredBy qs os)
    (ha : ∀ o ∈ os, o.Accessible) (hroom : slots 0 (os.map Operand.words) ≤ 4) :
    Succeeds (codeAll 0 0 qs) := by
  rw [succeeds_codeAll (Nat.zero_le 4)]
  have hall : (∀ q ∈ qs, q.Loadable) ∧ qs.map words = os.map Operand.words := by
    clear hroom
    induction h with
    | nil => simp
    | cons hq _ ih =>
      rw [List.forall_mem_cons] at ha
      obtain ⟨hl, hw⟩ := hq.loadable ha.1
      obtain ⟨hls, hws⟩ := ih ha.2
      exact ⟨List.forall_mem_cons.mpr ⟨hl, hls⟩, by rw [List.map_cons, List.map_cons, hw, hws]⟩
  exact ⟨hall.1, hall.2 ▸ hroom⟩

end Parameter

/-! ### The items of a statement -/

/-- The items of a statement in order can be had, whichever rule is for it, unless it would compute
its result into a constant. -/
theorem Statement.succeeds_items_of_inOrder [Helper.Entries] {x : Statement} {r : Rule Action}
    (hr : Rules.select x = .ok r) {qs : List Parameter} {os : List Operand} {placed : List UInt32}
    (hd : List.Forall₂ Parameter.DeclaredBy qs os) (hx : x.InOrder os placed)
    (hc : ¬ x.DefinesConstant) : Succeeds (x.items qs) := by
  obtain ⟨hmem, hadm⟩ := Rules.select_eq_ok hr
  have hsh := Rules.shape_mem_shapes hmem
  have hfits := hx.fits hc
  have hi : x.items qs = r.action.items qs x := by rw [items, hr]; rfl
  rw [hi]
  by_cases hq : r.action.isQuiet = true
  · exact (Action.succeeds_items hq hsh hadm).mpr hfits
  cases ha : r.action with
  | param c =>
    rw [ha] at hsh
    obtain ⟨hop, hne⟩ := Action.op_of_parameterShapes hsh
    obtain ⟨hxop, -, h1, -⟩ := Shape.admits_iff.mp hadm
    obtain ⟨o, ho, h1⟩ := (Pattern.admits_iff hne).mp h1
    have hdiv : x.op.divides = false := by
      rw [hxop]
      rcases hop with hop | hop <;> rw [hop] <;> rfl
    have hu : o.Usable := ((fits_iff hdiv).mp hfits).1 o (by simp [slots, ho])
    obtain ⟨q, hq, -⟩ := (Parameter.exists_declare_iff hsh h1 fun _ => True).mpr ⟨hu, trivial⟩
    exact ⟨([], q :: qs), Action.items_eq_ok_iff.mpr (.param ho hq)⟩
  | call =>
    rw [ha] at hsh
    rw [List.mem_singleton.mp hsh, Shape.admits_iff] at hadm
    obtain ⟨hop, -, h1, h2⟩ := hadm
    obtain ⟨a, h1, hka⟩ := (Pattern.admits_iff (by decide)).mp h1
    obtain ⟨b, h2, hkb⟩ := (Pattern.admits_iff (by decide)).mp h2
    have hka : a.kind = .constant := by simpa [Pattern.admitsOperand] using hka
    have hkb : b.kind = .constant := by simpa [Pattern.admitsOperand] using hkb
    have hn : x.count = b.low.toNat := by rw [count, h2]; rfl
    have henough := hx.enough hop
    rw [hn, ← hd.length_eq] at henough
    obtain ⟨m, hm⟩ := Parameter.succeeds_codeAll_of_declared (List.forall₂_take x.count hd)
      (hx.parameters hop) (hx.room hop)
    rw [hn] at hm
    have hi : Action.callItems qs a b =
        .ok (m.map .instr ++ Item.call a.low, qs.drop b.low.toNat) := by
      simp [Action.callItems, expect_of_eq hka, expect_of_eq hkb, Nat.not_lt.mpr henough, hm]
    exact ⟨_, Action.items_eq_ok_iff.mpr (.call h1 h2 hi)⟩
  | _ => exact absurd (by rw [ha]; rfl) hq

/-! ### Sessions at a statement -/

theorem Program.nodup_labels_concat {p : Program} {x : Statement} (hp : p.labels.Nodup)
    (hx : x.op = .label → x.block ∉ p.labels) : (p.labels ++ Program.labels [x]).Nodup := by
  by_cases hop : x.op = .label
  · have hl : Program.labels [x] = [x.block] := by simp [labels, hop]
    rw [hl, List.nodup_append']
    exact ⟨hp, List.nodup_singleton _, by simpa using hx hop⟩
  · have hl : Program.labels [x] = [] := by simp [labels, hop]
    rwa [hl, List.append_nil]

namespace LowerAt

variable {s u : Session} {p : Program} {frame : UInt32} {k : Nat}

/-- A session at a statement of a function has the items of the prolog and of the statements in
front of it. -/
theorem placeAll_upTo [Helper.Entries] (hs : s.Idle)
    (hu : outcome (upTo p frame k) s = (.ok (), u)) :
    ∃ saved prolog ls, Frame.prolog frame saved = .ok prolog ∧
      Program.bodies [] (p.take k) = .ok (ls, u.params) ∧
      s.placeAll (prolog.map .instr ++ ls.flatten) = some { u with params := [] } := by
  obtain ⟨hparams, -, hlevel⟩ := Session.isClean_iff.mp hs.clean
  have hobs := hs.observer
  obtain ⟨stream, blocks, params, level, observer, reports⟩ := s
  obtain rfl : params = [] := hparams
  obtain rfl : level = 0 := hlevel
  obtain ⟨saved, _, hsaved, h⟩ := outcome_bind_eq_ok_iff.mp hu
  obtain ⟨-, rfl⟩ := Lower.outcome_check_eq_ok_iff.mp (outcome_located_eq_ok_iff.mp hsaved)
  obtain ⟨_, _, hprolog, h⟩ := outcome_bind_eq_ok_iff.mp h
  obtain ⟨prolog, hp, rfl⟩ :=
    Lower.outcome_emitChecked_eq_ok_iff.mp (outcome_located_eq_ok_iff.mp hprolog)
  rw [outcome_modify_bind] at h
  obtain ⟨ls, ps, hb, hu⟩ := (outcome_statements_eq_ok_iff
    (s := ⟨stream.emitAll prolog, blocks, [], 0, observer, reports⟩) rfl hobs).mp h
  have hps : u.params = ps := (Session.placeAll_frame hu).1
  refine ⟨saved, prolog, ls, hp, hps ▸ hb, ?_⟩
  rw [Session.placeAll_append, Session.placeAll_instrs, Option.bind_some]
  exact Session.placeAll_params hu []

/-- The items of another statement can be placed unless it is a second label of a block. -/
theorem placeAll_of_items [Helper.Entries] (hs : s.Idle)
    (hu : outcome (upTo p frame k) s = (.ok (), u)) {x : Statement} {l : List Item}
    {qs : List Parameter} (hi : x.items u.params = .ok (l, qs))
    (hb : x.op = .label → x.block ∉ Program.labels (p.take k)) :
    ∃ t, { u with params := qs }.placeAll l = some t := by
  obtain ⟨saved, prolog, ls, hp, hbodies, hplace⟩ := placeAll_upTo hs hu
  have hfront : Items.Plain (prolog.map .instr ++ ls.flatten) :=
    Items.plain_append.mpr ⟨Frame.plain_prolog hp, Program.plain_bodies hbodies⟩
  have hall := Items.plain_append.mpr ⟨hfront, Statement.plain_items hi⟩
  have hprolog :=
    (Items.filterMap_eq_nil_of_block? (Items.block?_of_mem_instrs (l := prolog))).1
  have hmarks : (prolog.map Item.instr ++ ls.flatten).filterMap Item.marked? =
      Program.labels (p.take k) := by
    rw [List.filterMap_append, hprolog, (Program.blocks_of_bodies hbodies).1, List.nil_append]
  rcases Session.placeAll_eq_some hs hfront with ⟨-, -, -, hn⟩ | ⟨hno, -⟩
  swap
  · rw [hplace] at hno
    cases hno
  rcases Session.placeAll_eq_some hs hall with ⟨t, ht, -, -⟩ | ⟨-, hno⟩
  · rw [Session.placeAll_append, hplace, Option.bind_some] at ht
    exact ⟨_, Session.placeAll_params ht qs⟩
  · refine absurd ?_ hno
    rw [Items.map_fst_marks] at hn ⊢
    rw [List.filterMap_append, hmarks, (Statement.blocks_of_items hi).1]
    rw [hmarks] at hn
    exact Program.nodup_labels_concat hn hb

/-- What the lowering of the selected rule does with a statement in order, in front of which a
function was lowered: it succeeds, and raises no fault, unless the statement would compute its
result into a constant. That one is refused, and the session is as before. -/
theorem action_of_select [Helper.Entries] (hs : s.Idle)
    (hu : outcome (upTo p frame k) s = (.ok (), u)) {x : Statement} {r : Rule Action}
    (hr : Rules.select x = .ok r)
    (hx : x.InOrder (p.waiting k) (Program.labels (p.take k))) :
    (¬ x.DefinesConstant → ∃ t, outcome (Lower.action x r.action) u = (.ok (), t)) ∧
    (x.DefinesConstant → outcome (Lower.action x r.action) u =
      (.error (.fault (.unexpected .definition .constant)), u)) := by
  obtain ⟨-, hlevel, hobs⟩ := frame_upTo hs hu
  constructor
  · intro hc
    obtain ⟨⟨l, qs⟩, hi⟩ := Statement.succeeds_items_of_inOrder hr (declared_upTo hs hu) hx hc
    obtain ⟨t, ht⟩ := placeAll_of_items hs hu hi hx.block
    refine ⟨t, ?_⟩
    rw [← Lower.outcome_statement_eq_action hr,
      Lower.outcome_statement_eq_ok_iff hlevel (hobs ▸ hs.observer)]
    exact ⟨l, qs, hi, ht⟩
  · intro hc
    obtain ⟨hmem, hadm⟩ := Rules.select_eq_ok hr
    obtain ⟨hop, -⟩ := Shape.admits_iff.mp hadm
    obtain ⟨a, ha⟩ := Rules.straight_of_defines hmem (hop ▸ hc.1)
    have hsh := Rules.shape_mem_shapes hmem
    rw [ha] at hsh
    rw [ha, Lower.action, Lower.outcome_level_bind, Lower.emitChecked,
      Straight.code_of_definesConstant hsh hadm hc]
    rfl

/-- A call that takes two of the parameters that wait is lowered, and so are the parameters. -/
theorem action_of_select_callOfTwo : ∃ u r,
    outcome (upTo twoCalls 16 4) (.fresh false .recording) = (.ok (), u) ∧
    Rules.select callOfTwo = .ok r ∧
    callOfTwo.InOrder (twoCalls.waiting 4) (Program.labels (twoCalls.take 4)) ∧
    ∃ t, outcome (Lower.action callOfTwo r.action) u = (.ok (), t) := by
  have hup : (outcome (upTo twoCalls 16 4) (.fresh false .recording)).1 = .ok () := by
    decide +kernel
  obtain ⟨r, hr⟩ : Succeeds (Rules.select callOfTwo) := Rules.succeeds_select.mpr (by decide)
  have htake : (twoCalls.waiting 4).take callOfTwo.count =
      [.constant 0x12345678, .temporary64 8] := by decide
  have hx : callOfTwo.InOrder (twoCalls.waiting 4) (Program.labels (twoCalls.take 4)) :=
    { registers := by decide
      condition := by decide
      sources := by rintro o (ho | ho) <;> cases ho <;> exact (usable_of_constant rfl).toAccessible
      destination := by
        intro d hd
        cases hd
      enough := by decide
      room := by decide
      parameters := by
        intro _
        rw [htake, List.forall_mem_cons, List.forall_mem_singleton]
        exact ⟨(usable_of_constant rfl).toAccessible, by decide,
          by simp [Operand.offsets, Operand.temporary64]⟩
      block := by decide }
  have hc : ¬ callOfTwo.DefinesConstant := fun h => absurd h.1 (by decide)
  exact ⟨_, r, Prod.ext hup rfl, hr, hx,
    (action_of_select (Session.ready_fresh false (by decide)).toIdle (Prod.ext hup rfl) hr hx).1 hc⟩

/-- An addition that would put its result into a constant. -/
def sumIntoConstant : Statement :=
  { op := .add, dst := some (.constant 1), src1 := some (.register 0), src2 := some (.register 1) }

/-- A rule is selected for an addition into a constant. The addition is in order, and its lowering
is refused at the start of a function. -/
theorem sumIntoConstant_refused : ∃ r, Rules.select sumIntoConstant = .ok r ∧
    sumIntoConstant.InOrder [] [] ∧
    (outcome (Lower.action sumIntoConstant r.action)
      (outcome (upTo [] 0 0) (.fresh false .recording)).2).1 =
        .error (.fault (.unexpected .definition .constant)) := by
  obtain ⟨r, hr⟩ : Succeeds (Rules.select sumIntoConstant) :=
    Rules.succeeds_select.mpr (by decide +kernel)
  refine ⟨r, hr, ?_, ?_⟩
  · exact
      { registers := by decide
        condition := by decide
        sources := by
          rintro o (ho | ho) <;> cases ho <;>
            exact ((usable_iff_of_register rfl).mpr (by decide)).toAccessible
        destination := by
          intro d hd
          cases hd
          exact (usable_of_constant rfl).toAccessible
        enough := by decide
        room := by decide
        parameters := by
          intro h
          cases h
        block := by decide }
  · rw [← Lower.outcome_statement_eq_action hr]
    decide +kernel

end LowerAt

end A32Lowering
