import Mathlib
import A32Lowering.Proofs.Assembly
import A32Lowering.Proofs.Composition
import A32Lowering.Proofs.Lowerable
import A32Lowering.Proofs.ReadBack

/-!
# What is not printed does not matter

Lowering reads nothing of a program that its printed form does not show: every rule reads of an
operand only what the operand's class prints, and the block number only where it is printed. So the
printed form of a program that can be lowered, read back, gives the same code, the same listing and
the same reports.

The argument is a simulation. While two programs that print alike are lowered side by side, the two
sessions differ at most in what is not printed of the parameters that wait for a call.

## Main definitions

* `Parameter.normal`, `Session.normal` : what is left of a parameter and of a session when
  everything that is not printed is set to zero.
* `Mirrors` : an action that does in the second session what another one does in the first.

## Main results

* `Straight.code_normal`, `Parameter.codeAll_normal`, `Rules.select_normal` : the code and the rule
  for a statement depend on what is printed only.
* `Lower.mirrors_statement`, `LowerAt.mirrors_function` : one statement, and a whole function.
* `Session.lower_normal` : lowering a program and lowering what is printed of it.
* `Session.lower_read_text` : lowering a program and lowering its printed form.
-/

namespace A32Lowering

namespace Operand

@[simp]
theorem kind_normal (s : Operand) : s.normal.kind = s.kind := by
  obtain ⟨k, low, high, slot⟩ := s
  cases k <;> rfl

theorem low_normal {s : Operand}
    (h : s.kind = .register ∨ s.kind = .constant ∨ s.kind = .constant64) :
    s.normal.low = s.low := by
  obtain ⟨k, low, high, slot⟩ := s
  rcases h with rfl | rfl | rfl <;> rfl

theorem high_normal {s : Operand} (h : s.kind = .constant64) : s.normal.high = s.high := by
  obtain ⟨k, low, high, slot⟩ := s
  obtain rfl := h
  rfl

@[simp] theorem isMemory_normal (s : Operand) : s.normal.isMemory = s.isMemory := by
  simp [isMemory]

@[simp] theorem isMemory64_normal (s : Operand) : s.normal.isMemory64 = s.isMemory64 := by
  simp [isMemory64]

@[simp] theorem isMemory128_normal (s : Operand) : s.normal.isMemory128 = s.isMemory128 := by
  simp [isMemory128]

end Operand

namespace Access

variable (level : UInt32) (s : Operand) (r : Reg) (half : UInt32)

@[simp] theorem expect_normal (what : Expected) (kind : Kind) :
    expect what kind s.normal = expect what kind s := by
  simp [expect]

@[simp] theorem need_normal (o : Option Operand) :
    need (o.map Operand.normal) = Operand.normal <$> need o := by
  cases o <;> rfl

@[simp] theorem address_normal : address level s.normal = address level s := by
  obtain ⟨k, low, high, slot⟩ := s
  cases k <;> rfl

@[simp] theorem address64_normal : address64 level s.normal half = address64 level s half := by
  obtain ⟨k, low, high, slot⟩ := s
  cases k <;> rfl

@[simp] theorem address128_normal : address128 level r s.normal = address128 level r s := by
  obtain ⟨k, low, high, slot⟩ := s
  cases k <;> rfl

@[simp] theorem load_normal : load level r s.normal = load level r s := by
  simp [load]

@[simp] theorem store_normal : store level s.normal r = store level s r := by
  simp [store]

@[simp] theorem load64_normal : load64 level r s.normal half = load64 level r s half := by
  simp [load64]

@[simp] theorem store64_normal : store64 level s.normal r half = store64 level s r half := by
  simp [store64]

@[simp] theorem loadRelative_normal : loadRelative r s.normal = loadRelative r s := by
  obtain ⟨k, low, high, slot⟩ := s
  cases k <;> rfl

@[simp] theorem storeTemporary_normal :
    storeTemporary level s.normal r = storeTemporary level s r := by
  obtain ⟨k, low, high, slot⟩ := s
  cases k <;> rfl

@[simp] theorem loadRelReference_normal : loadRelReference r s.normal = loadRelReference r s := by
  obtain ⟨k, low, high, slot⟩ := s
  cases k <;> rfl

@[simp] theorem loadTmpReference_normal :
    loadTmpReference level r s.normal = loadTmpReference level r s := by
  obtain ⟨k, low, high, slot⟩ := s
  cases k <;> rfl

@[simp] theorem storeTmpReference_normal :
    storeTmpReference level s.normal r = storeTmpReference level s r := by
  obtain ⟨k, low, high, slot⟩ := s
  cases k <;> rfl

@[simp] theorem define_normal : define s.normal r = define s r := by
  obtain ⟨k, low, high, slot⟩ := s
  cases k <;> rfl

@[simp] theorem use_normal : use level s.normal r = use level s r := by
  obtain ⟨k, low, high, slot⟩ := s
  cases k <;> rfl

@[simp] theorem commit_normal : commit level s.normal r = commit level s r := by
  obtain ⟨k, low, high, slot⟩ := s
  cases k <;> rfl

@[simp] theorem argument_normal : argument level r s.normal = argument level r s := by
  simp [argument]

@[simp] theorem shift_normal (kind : ShiftKind) :
    shift level kind s.normal r = shift level kind s r := by
  obtain ⟨k, low, high, slot⟩ := s
  cases k <;> rfl

end Access

namespace Straight

variable (level : UInt32)

@[simp] theorem storePair_normal (s : Operand) (lo hi : Reg) :
    storePair level s.normal lo hi = storePair level s lo hi := by
  simp [storePair]

@[simp] theorem loadPair_normal (lo hi : Reg) (s : Operand) :
    loadPair level lo hi s.normal = loadPair level lo hi s := by
  simp [loadPair]

@[simp] theorem compareCode_normal (a b : Operand) :
    compareCode level a.normal b.normal = compareCode level a b := by
  simp [compareCode]

theorem compareCstCode_normal (a : Operand) {b : Operand} (h : b.kind = .constant) :
    compareCstCode level a.normal b.normal = compareCstCode level a b := by
  simp [compareCstCode, Operand.low_normal, h]

theorem arithCstCode_normal (a : Arith) (d s1 : Operand) {s2 : Operand} (h : s2.kind = .constant) :
    arithCstCode level a d.normal s1.normal s2.normal = arithCstCode level a d s1 s2 := by
  simp [arithCstCode, Operand.low_normal, h]

theorem arith64Code_normal (lo : AluOp) (flags : Bool) (hi : AluOp) (d s1 s2 : Operand) :
    arith64Code level lo flags hi d.normal s1.normal s2.normal =
      arith64Code level lo flags hi d s1 s2 := by
  by_cases h : s2.kind = .constant64 <;>
    simp [arith64Code, Operand.low_normal, Operand.high_normal, h]

/-- The code of a straight-line lowering reads nothing of a statement that is not printed. -/
theorem code_normal {a : Straight} {x : Statement} {sh : Shape} (hs : sh ∈ Action.straightShapes a)
    (h : sh.admits x = true) : a.code level x.normal = a.code level x := by
  obtain ⟨op, cond, dst, src1, src2, block⟩ := x
  obtain ⟨sop, sd, s1, s2⟩ := sh
  rw [Shape.admits_iff] at h
  cases a
  -- These read their operands through `Access` only, which looks at the class first.
  case nothing | movMemMem | arith | shift | compare | notMemMem | resultTmp | resultMem64
      | multiply | refLoadMem | refStoreRel | mov64Mem | arith64 =>
    simp [code, Statement.normal, arithCode, shiftCode, multiplyCode, arith64Code_normal]
  -- The others read a register index or a constant, whose class the shape of the rule tells.
  case movRegReg | movRegMem | movRegCst | movMemReg | movMemCst | notRegReg | notMemReg
      | refLoadReg | mov64Cst =>
    obtain ⟨rfl, rfl, rfl, rfl⟩ := Shape.mk.inj (List.mem_singleton.mp hs)
    simp only [Pattern.admits_absent, Pattern.admits_iff, Pattern.admitsOperand, decide_eq_true_eq,
      ne_eq, reduceCtorEq, not_false_eq_true] at h
    obtain ⟨rfl, ⟨d, rfl, hd⟩, ⟨s, rfl, hs⟩, rfl⟩ := h
    simp [code, Statement.normal, Access.ok_bind, Operand.low_normal, Operand.high_normal, hd, hs]
  case resultReg =>
    obtain ⟨rfl, rfl, rfl, rfl⟩ := Shape.mk.inj (List.mem_singleton.mp hs)
    simp only [Pattern.admits_absent, Pattern.admits_iff, Pattern.admitsOperand, decide_eq_true_eq,
      ne_eq, reduceCtorEq, not_false_eq_true] at h
    obtain ⟨rfl, ⟨d, rfl, hd⟩, rfl, rfl⟩ := h
    simp [code, Statement.normal, Access.ok_bind, Operand.low_normal, hd]
  case refStoreReg | refStoreCst =>
    obtain ⟨rfl, rfl, rfl, rfl⟩ := Shape.mk.inj (List.mem_singleton.mp hs)
    simp only [Pattern.admits_absent, Pattern.admits_iff, Pattern.admitsOperand, decide_eq_true_eq,
      ne_eq, reduceCtorEq, not_false_eq_true] at h
    obtain ⟨rfl, rfl, ⟨s, rfl, hs⟩, ⟨t, rfl, ht⟩⟩ := h
    simp [code, Statement.normal, Access.ok_bind, Operand.low_normal, ht]
  case refAddReg | refAddCst | arithCst | compareCst =>
    obtain ⟨rfl, rfl, rfl, rfl⟩ := Shape.mk.inj (List.mem_singleton.mp hs)
    simp only [Pattern.admits_iff, Pattern.admitsOperand, decide_eq_true_eq,
      ne_eq, reduceCtorEq, not_false_eq_true] at h
    obtain ⟨rfl, ⟨d, rfl, hd⟩, ⟨s, rfl, hs⟩, ⟨t, rfl, ht⟩⟩ := h
    simp [code, Statement.normal, Access.ok_bind, Operand.low_normal, arithCstCode_normal,
      compareCstCode_normal, ht]

end Straight

namespace Parameter

/-- The parameter with everything that is not printed of its operand set to zero. -/
def normal : Parameter → Parameter
  | memory s => memory s.normal
  | memory64 s => memory64 s.normal
  | address128 s => address128 s.normal
  | p => p

@[simp] theorem code_normal (level : UInt32) (slot : Nat) (p : Parameter) :
    code level slot p.normal = code level slot p := by
  cases p <;> simp [normal, code]

@[simp] theorem codeAll_normal (level : UInt32) (slot : Nat) (ps : List Parameter) :
    codeAll level slot (ps.map normal) = codeAll level slot ps := by
  induction ps generalizing slot with
  | nil => rfl
  | cons p ps ih => simp [codeAll, ih]

theorem declare_normal {s : Operand} {c : ParameterClass} {sh : Shape}
    (hs : sh ∈ Action.parameterShapes c) (h : sh.src1.admits (some s) = true) :
    declare s.normal c = normal <$> declare s c := by
  cases c
  case memory | memory64 | memory128 => rfl
  case context => simp [declare, normal]
  all_goals
    obtain rfl := List.mem_singleton.mp hs
    have hk := decide_eq_true_eq.mp h
    simp [declare, normal, Operand.low_normal, Operand.high_normal, hk]

end Parameter

theorem Pattern.admits_normal (p : Pattern) (o : Option Operand) :
    p.admits (o.map Operand.normal) = p.admits o := by
  cases o with
  | none => rfl
  | some s => cases p <;> simp [admits, admitsOperand]

/-- The same rule is for a statement and for what is printed of it. -/
theorem Rules.select_normal {x : Statement} {r : Rule Action} (h : select x = .ok r) :
    select x.normal = .ok r := by
  have ha (sh : Shape) : sh.admits x.normal = sh.admits x := by
    simp only [Shape.admits, Statement.normal, Pattern.admits_normal]
    rfl
  have ht : table.select? x.normal = table.select? x := by
    simp only [Table.select?, ha]
    rfl
  unfold select at h ⊢
  rw [ht]
  cases hs : table.select? x with
  | none => simp [hs] at h
  | some r' => simpa [hs] using h

/-! ### Lowering what is printed -/

/-- The session with everything that is not printed of the waiting parameters set to zero. -/
def Session.normal (s : Session) : Session := { s with params := s.params.map Parameter.normal }

/-- An action that does in a session in which only what is printed is left what another one does:
it succeeds if that one does, with the same effect. -/
def Mirrors {ε α β : Type} (f : α → β) (m : ExceptT ε (StateM Session) α)
    (m' : ExceptT ε (StateM Session) β) : Prop :=
  ∀ ⦃s t a⦄, outcome m s = (.ok a, t) → outcome m' s.normal = (.ok (f a), t.normal)

namespace Mirrors

variable {ε α β γ δ : Type} {f : α → β} {g : γ → δ}

theorem bind {m : ExceptT ε (StateM Session) α} {m' : ExceptT ε (StateM Session) β}
    {k : α → ExceptT ε (StateM Session) γ} {k' : β → ExceptT ε (StateM Session) δ}
    (hm : Mirrors f m m') (hk : ∀ a, Mirrors g (k a) (k' (f a))) :
    Mirrors g (m >>= k) (m' >>= k') := by
  intro s u c h
  obtain ⟨a, t, ha, hc⟩ := outcome_bind_eq_ok_iff.mp h
  exact outcome_bind_eq_ok_iff.mpr ⟨f a, t.normal, hm ha, hk a hc⟩

theorem pure (a : α) : Mirrors (ε := ε) f (Pure.pure a) (Pure.pure (f a)) := by
  intro s t b h
  obtain ⟨rfl, rfl⟩ : a = b ∧ s = t := by simpa using h
  rfl

theorem throw {e : ε} (m : ExceptT ε (StateM Session) β) :
    Mirrors f (MonadExcept.throw e : ExceptT ε (StateM Session) α) m := by
  intro s t a h
  simp at h

theorem modify {k k' : Session → Session} (h : ∀ s, (k s).normal = k' s.normal) :
    Mirrors (ε := ε) id (modify k) (modify k') := by
  intro s t a hs
  obtain ⟨-, rfl⟩ := Prod.mk.inj hs
  rw [h]
  rfl

theorem located {m : Lower α} {m' : Lower β} (h : Mirrors f m m') (place place' : Place) :
    Mirrors f (LowerAt.located place m) (LowerAt.located place' m') := by
  intro s t a hs
  exact LowerAt.outcome_located_eq_ok_iff.mpr (h (LowerAt.outcome_located_eq_ok_iff.mp hs))

theorem ite {c : Prop} [Decidable c] {m n : ExceptT ε (StateM Session) α}
    {m' n' : ExceptT ε (StateM Session) β} (hm : Mirrors f m m') (hn : Mirrors f n n') :
    Mirrors f (if c then m else n) (if c then m' else n') := by
  split
  · exact hm
  · exact hn

end Mirrors

theorem Session.placeAll_normal {s t : Session} {l : List Item} (h : s.placeAll l = some t) :
    s.normal.placeAll l = some t.normal := by
  have hp := (placeAll_frame h).1
  rw [normal, placeAll_params h, normal, hp]

namespace Lower

variable {α β : Type}

theorem mirrors_check {f : α → β} {r : Except Fault α} {r' : Except Fault β}
    (h : ∀ a, r = .ok a → r' = .ok (f a)) : Mirrors f (check r) (check r') := by
  intro s t a hs
  obtain ⟨hr, rfl⟩ := outcome_check_eq_ok_iff.mp hs
  exact outcome_check_eq_ok_iff.mpr ⟨h a hr, rfl⟩

theorem mirrors_check_bind {f : α → β} {γ : Type} {k : γ → Lower α} {k' : γ → Lower β}
    {r : Except Fault γ} (h : ∀ c, r = .ok c → Mirrors f (k c) (k' c)) :
    Mirrors f (check r >>= k) (check r >>= k') := by
  intro s t a hs
  obtain ⟨c, hr, ha⟩ := outcome_check_bind_eq_ok_iff.mp hs
  exact outcome_check_bind_eq_ok_iff.mpr ⟨c, hr, h c hr ha⟩

theorem mirrors_need (o : Option Operand) :
    Mirrors Operand.normal (check (Access.need o))
      (check (Access.need (o.map Operand.normal))) := by
  refine mirrors_check fun a ha => ?_
  rw [Access.need_normal, ha]
  rfl

theorem mirrors_emit (l : List Instr) : Mirrors id (emit l) (emit l) :=
  .modify fun _ => rfl

theorem mirrors_emitChecked {r r' : Except Fault (List Instr)} (h : r' = r) :
    Mirrors id (emitChecked r) (emitChecked r') := by
  subst h
  exact .bind (mirrors_check fun _ => id) mirrors_emit

theorem mirrors_level : Mirrors id level level := by
  intro s t a hs
  obtain ⟨ha, rfl⟩ := Prod.mk.inj hs
  exact Prod.ext ha rfl

theorem mirrors_moveLevel (d : UInt32) : Mirrors id (moveLevel d) (moveLevel d) :=
  .modify fun _ => rfl

theorem mirrors_jumpTo (c : CondCode) (b : UInt32) : Mirrors id (jumpTo c b) (jumpTo c b) :=
  fun _ _ _ h => (outcome_jumpTo c b).mpr (Session.placeAll_normal ((outcome_jumpTo c b).mp h))

theorem mirrors_markBlock (b : UInt32) : Mirrors id (markBlock b) (markBlock b) :=
  fun _ _ _ h => (outcome_markBlock b).mpr (Session.placeAll_normal ((outcome_markBlock b).mp h))

theorem mirrors_report (r : Report) : Mirrors id (report r) (report r) := by
  intro s t a h
  have hn : s.normal.observer = s.observer := rfl
  rw [report, outcome_get_bind] at h ⊢
  rw [hn]
  cases ho : s.observer with
  | absent =>
    rw [ho] at h
    exact Mirrors.pure (f := id) () h
  | recording =>
    rw [ho] at h
    obtain ⟨-, rfl⟩ := Prod.mk.inj h
    rfl
  | refusing => simp [ho] at h

theorem mirrors_loadRelocatable (r : Reg) (c : UInt32) :
    Mirrors id (loadRelocatable r c) (loadRelocatable r c) := by
  intro s t a h
  rw [loadRelocatable, outcome_get_bind] at h ⊢
  exact Mirrors.bind (mirrors_emit _) (fun _ => mirrors_report ⟨c, s.stream.size⟩) h

theorem mirrors_callAddress (addr : UInt32) :
    Mirrors id (callAddress addr) (callAddress addr) :=
  .bind (mirrors_loadRelocatable _ _) fun _ => mirrors_emit _

theorem mirrors_jumpOn {x y : Statement} (hc : y.cond = x.cond) (hb : y.block = x.block) :
    Mirrors id (jumpOn x) (jumpOn y) := by
  unfold jumpOn
  rw [hc, hb]
  exact .bind (f := id) (mirrors_check fun _ => id) fun cc => mirrors_jumpTo cc _

theorem mirrors_takeParameters (n : Nat) :
    Mirrors (List.map Parameter.normal) (takeParameters n) (takeParameters n) := by
  intro s t a h
  have hn : s.normal.params = s.params.map Parameter.normal := rfl
  rw [takeParameters, outcome_get_bind] at h ⊢
  by_cases hl : s.params.length < n
  · simp [hl] at h
  · simp only [hl, hn, if_false, outcome_set_bind, outcome_pure, Prod.mk.injEq, Except.ok.injEq,
      List.length_map] at h ⊢
    obtain ⟨rfl, rfl⟩ := h
    simp [Session.normal]

theorem mirrors_call {target count : Operand} (ht : target.kind = .constant)
    (hc : count.kind = .constant) :
    Mirrors id (call target count) (call target.normal count.normal) := by
  unfold call
  simp only [Access.expect_normal, Operand.low_normal, ht, hc, true_or, or_true]
  refine .bind (f := id) (mirrors_check fun _ => id) fun _ =>
    .bind (f := id) (mirrors_check fun _ => id) fun _ =>
    .bind (mirrors_takeParameters _) fun ps => .bind mirrors_level fun lv =>
    .bind (mirrors_emitChecked (Parameter.codeAll_normal lv 0 ps)) fun _ => mirrors_callAddress _

theorem mirrors_divide [Helper.Entries] (signed : Bool) (d s1 s2 : Operand) :
    Mirrors id (divide signed d s1 s2) (divide signed d.normal s1.normal s2.normal) := by
  unfold divide
  simp only [Access.expect_normal, Access.argument_normal, Access.store64_normal]
  refine .bind (f := id) (mirrors_check fun _ => id) fun _ => ?_
  refine .bind mirrors_level fun lv => .bind (mirrors_emitChecked rfl) fun _ => ?_
  refine .bind mirrors_level fun lv => .bind (mirrors_emitChecked rfl) fun _ => ?_
  refine .bind (mirrors_emit _) fun _ => .bind (mirrors_moveLevel _) fun _ => ?_
  refine .bind (mirrors_callAddress _) fun _ => ?_
  refine .bind mirrors_level fun lv => .bind (mirrors_emitChecked rfl) fun _ => ?_
  refine .bind (mirrors_emit _) fun _ => .bind (mirrors_moveLevel _) fun _ => ?_
  refine .bind (mirrors_callAddress _) fun _ => ?_
  exact .bind mirrors_level fun lv => mirrors_emitChecked rfl

/-- An action of the table reads nothing of a statement that is not printed. -/
theorem mirrors_action [Helper.Entries] {a : Action} {x : Statement} {sh : Shape}
    (hs : sh ∈ a.shapes) (h : sh.admits x = true) :
    Mirrors id (action x a) (action x.normal a) := by
  obtain ⟨sop, sd, s1, s2⟩ := sh
  obtain ⟨hop, hd, h1, h2⟩ := Shape.admits_iff.mp h
  have hblock : sop.jumps = true → x.normal.block = x.block := by
    rintro hj
    simp [Statement.normal, hop, hj]
  cases a with
  | straight a =>
    exact .bind mirrors_level fun lv => mirrors_emitChecked (Straight.code_normal lv hs h)
  | mark =>
    obtain ⟨rfl, rfl, rfl, rfl⟩ := Shape.mk.inj (List.mem_singleton.mp hs)
    simpa only [action, hblock rfl] using mirrors_markBlock x.block
  | jump =>
    obtain ⟨rfl, rfl, rfl, rfl⟩ := Shape.mk.inj (List.mem_singleton.mp hs)
    simpa only [action, hblock rfl] using mirrors_jumpTo .al x.block
  | jumpIf =>
    obtain ⟨rfl, rfl, rfl, rfl⟩ := Shape.mk.inj (List.mem_singleton.mp hs)
    refine .bind (mirrors_need _) fun a => .bind (mirrors_need _) fun b => ?_
    rw [Operand.kind_normal]
    refine .ite (.throw _) (.bind mirrors_level fun lv => ?_)
    exact .bind (mirrors_emitChecked (Straight.compareCode_normal lv a b)) fun _ =>
      mirrors_jumpOn rfl (hblock rfl)
  | jumpIfCst =>
    obtain ⟨rfl, rfl, rfl, rfl⟩ := Shape.mk.inj (List.mem_singleton.mp hs)
    refine .bind (mirrors_need _) fun a => .bind (mirrors_need _) fun b => ?_
    rw [Access.expect_normal]
    refine mirrors_check_bind fun _ hb => .bind mirrors_level fun lv => ?_
    exact .bind (mirrors_emitChecked
      (Straight.compareCstCode_normal lv a (Access.expect_eq_ok_iff.mp hb))) fun _ =>
      mirrors_jumpOn rfl (hblock rfl)
  | param c =>
    refine .bind (f := Parameter.normal) (mirrors_check fun q hq => ?_) fun q =>
      .modify fun _ => rfl
    obtain ⟨o, ho, hq⟩ := Except.bind_eq_ok_iff.mp hq
    have hsrc : x.src1 = some o := Access.need_eq_ok_iff.mp ho
    rw [hsrc] at h1
    rw [Statement.normal, hsrc, Option.map_some, Access.need_some, Access.ok_bind,
      Parameter.declare_normal hs h1, hq]
    rfl
  | call =>
    obtain ⟨rfl, rfl, rfl, rfl⟩ := Shape.mk.inj (List.mem_singleton.mp hs)
    simp only [Pattern.admits_iff, Pattern.admitsOperand, decide_eq_true_eq, ne_eq, reduceCtorEq,
      not_false_eq_true] at h1 h2
    obtain ⟨a, ha, hka⟩ := h1
    obtain ⟨b, hb, hkb⟩ := h2
    simp only [action, Statement.normal, ha, hb, Option.map_some]
    exact mirrors_call hka hkb
  | divide signed =>
    exact .bind (mirrors_need _) fun d => .bind (mirrors_need _) fun a =>
      .bind (mirrors_need _) fun b => mirrors_divide signed d a b

/-- Lowering what is printed of a statement does what lowering the statement does. -/
theorem mirrors_statement [Helper.Entries] (x : Statement) :
    Mirrors id (statement x) (statement x.normal) := by
  intro s t a h
  obtain ⟨r, hr, ha⟩ := outcome_check_bind_eq_ok_iff.mp h
  obtain ⟨hmem, hsh⟩ := Rules.select_eq_ok hr
  exact outcome_check_bind_eq_ok_iff.mpr ⟨r, Rules.select_normal hr,
    mirrors_action (Rules.shape_mem_shapes hmem) hsh ha⟩

end Lower

namespace LowerAt

theorem mirrors_statements [Helper.Entries] (p : Program) (i : Nat) :
    Mirrors id (statements i p) (statements i (p.map Statement.normal)) := by
  induction p generalizing i with
  | nil => exact .pure ()
  | cons x p ih => exact .bind ((Lower.mirrors_statement x).located _ _) fun _ => ih (i + 1)

theorem mirrors_checkEnd : Mirrors id checkEnd checkEnd := by
  intro s t a h
  obtain ⟨hp, hl, rfl⟩ := outcome_checkEnd_eq_ok_iff.mp h
  exact outcome_checkEnd_eq_ok_iff.mpr ⟨by simp [Session.normal, hp], hl, rfl⟩

theorem mirrors_resolve [PendingHeap] : Mirrors id resolve resolve := by
  intro s t a h
  obtain ⟨stream, hr, rfl⟩ := outcome_resolve_eq_ok_iff.mp h
  exact outcome_resolve_eq_ok_iff.mpr ⟨stream, hr, rfl⟩

end LowerAt

theorem Frame.low_registerOperands_normal (x : Statement) :
    (registerOperands x.normal).map Operand.low = (registerOperands x).map Operand.low := by
  have ho (o : Option Operand) :
      ((o.map Operand.normal).toList.filter fun s => s.kind = .register).map Operand.low =
        (o.toList.filter fun s => s.kind = .register).map Operand.low := by
    cases o with
    | none => rfl
    | some s => by_cases hk : s.kind = .register <;> simp [hk, Operand.low_normal]
  have hr (y : Statement) : registerOperands y =
      (y.dst.toList ++ y.src1.toList ++ y.src2.toList).filter fun s => s.kind = .register := by
    unfold registerOperands
    cases y.dst <;> cases y.src1 <;> cases y.src2 <;> rfl
  simp only [hr, Statement.normal, List.filter_append, List.map_append, ho]

/-- The registers that a program uses are printed. -/
theorem Frame.usage_normal (p : Program) : usage (p.map Statement.normal) = usage p := by
  have hu (q : Program) : usage q = (q.flatMap fun x => (registerOperands x).map Operand.low).foldlM
      (fun used i => (used.insert i.toNat).mapError fun _ => .registerIndex i) .empty := by
    rw [usage, ← List.map_flatMap, List.foldlM_map]
  rw [hu, hu, List.flatMap_map]
  simp only [low_registerOperands_normal]

theorem LowerAt.mirrors_function [Helper.Entries] [PendingHeap] (p : Program) (frame : UInt32) :
    Mirrors id (function p frame) (function (p.map Statement.normal) frame) := by
  unfold function
  rw [Frame.usage_normal]
  refine .bind (f := id) (.located (Lower.mirrors_check fun _ => id) _ _) fun saved => ?_
  refine .bind (.located (Lower.mirrors_emitChecked rfl) _ _) fun _ => ?_
  refine .bind (.modify fun _ => rfl) fun _ => .bind (mirrors_statements p 0) fun _ => ?_
  refine .bind (.located (.bind mirrors_checkEnd fun _ => .bind (Lower.mirrors_emit _) fun _ =>
    mirrors_resolve) _ _) fun _ => ?_
  exact .modify fun _ => rfl

/-- No parameter waits behind a function. -/
theorem LowerAt.params_of_function [Helper.Entries] [PendingHeap] {p : Program} {frame : UInt32}
    {s t : Session} (h : outcome (function p frame) s = (.ok (), t)) : t.params = [] := by
  simp only [function, outcome_bind_eq_ok_iff] at h
  obtain ⟨_, _, -, _, _, -, _, _, -, _, _, -, _, u, -, h⟩ := h
  obtain ⟨-, rfl⟩ := Prod.mk.inj h
  rfl

theorem Session.lower_eq_ok_iff [Helper.Entries] [PendingHeap] {s t : Session} {p : Program}
    {frame : UInt32} : s.lower p frame = (t, .ok ()) ↔
      s.isClean = true ∧ outcome (LowerAt.function p frame) s = (.ok (), t) := by
  unfold lower outcome
  by_cases hs : s.isClean = true
  · rcases (LowerAt.function p frame).run s with ⟨⟨place, f | _ | _⟩ | _, u⟩ <;>
      simp [hs, eq_comm]
  · simp [hs]

/-- Lowering what is printed of a program does what lowering the program does. -/
theorem Session.lower_normal [Helper.Entries] [PendingHeap] {s t : Session} {p : Program}
    {frame : UInt32} (h : s.lower p frame = (t, .ok ())) :
    s.lower (p.map Statement.normal) frame = (t, .ok ()) := by
  obtain ⟨hs, hf⟩ := lower_eq_ok_iff.mp h
  have hn := LowerAt.mirrors_function p frame hf
  have hstart : s.normal = s := by
    obtain ⟨stream, blocks, params, level, observer, reports⟩ := s
    obtain rfl : params = [] := (isClean_iff.mp hs).1
    rfl
  have hend : t.normal = t := by
    obtain ⟨stream, blocks, params, level, observer, reports⟩ := t
    obtain rfl : params = [] := LowerAt.params_of_function hf
    rfl
  rw [hstart, hend] at hn
  exact lower_eq_ok_iff.mpr ⟨hs, hn⟩

/-! ### Programs that can be lowered have names for everything -/

theorem Pattern.isNamed_of_admits {p : Pattern} {o : Option Operand} (h : p.admits o = true) :
    Operand.IsNamed o := by
  rintro s rfl
  obtain ⟨k, low, high, slot⟩ := s
  cases k
  case unknown =>
    cases p <;> simp [admits, admitsOperand, Operand.isMemory, Operand.isMemory64,
      Operand.isMemory128] at h
  all_goals simp [Kind.named]

theorem Rules.isNamed_of_select {x : Statement} {r : Rule Action} (h : select x = .ok r)
    (hc : x.cond = .none ∨ x.cond ∈ Condition.named) : x.IsNamed := by
  obtain ⟨hr, hs⟩ := select_eq_ok h
  have hop : ∀ r ∈ general ++ wide, r.shape.op ∈ Op.named := by decide +kernel
  obtain ⟨ho, hd, h1, h2⟩ := Shape.admits_iff.mp hs
  exact ⟨ho ▸ hop r hr, hc, Pattern.isNamed_of_admits hd, Pattern.isNamed_of_admits h1,
    Pattern.isNamed_of_admits h2⟩

namespace LowerAt

theorem exists_select_of_statements [Helper.Entries] {p : Program} {i : Nat} {s t : Session}
    (h : outcome (statements i p) s = (.ok (), t)) : ∀ x ∈ p, ∃ r, Rules.select x = .ok r := by
  induction p generalizing i s with
  | nil => simp
  | cons y p ih =>
    obtain ⟨_, u, hy, hp⟩ := outcome_bind_eq_ok_iff.mp h
    obtain ⟨r, hr, -⟩ := Lower.outcome_check_bind_eq_ok_iff.mp (outcome_located_eq_ok_iff.mp hy)
    exact List.forall_mem_cons.mpr ⟨⟨r, hr⟩, ih hp⟩

theorem exists_select_of_function [Helper.Entries] [PendingHeap] {p : Program} {frame : UInt32}
    {s t : Session} (h : outcome (function p frame) s = (.ok (), t)) :
    ∀ x ∈ p, ∃ r, Rules.select x = .ok r := by
  simp only [function, outcome_bind_eq_ok_iff] at h
  obtain ⟨_, _, -, _, _, -, _, _, -, _, _, h, -⟩ := h
  exact exists_select_of_statements h

end LowerAt

/-- The printed form of a program that can be lowered is read back, and lowering what was read
leaves the session that lowering the program leaves: the same code, the same listing and the same
reports. -/
theorem Session.lower_read_text [Helper.Entries] [PendingHeap] {s t : Session} {p : Program}
    {frame : UInt32} (hc : ∀ x ∈ p, x.cond = .none ∨ x.cond ∈ Condition.named)
    (h : s.lower p frame = (t, .ok ())) :
    ∃ q, Program.read p.text = .ok q ∧ s.lower q frame = (t, .ok ()) := by
  refine ⟨p.map Statement.normal, Program.read_text fun x hx => ?_, lower_normal h⟩
  obtain ⟨r, hr⟩ := LowerAt.exists_select_of_function (lower_eq_ok_iff.mp h).2 x hx
  exact Rules.isNamed_of_select hr (hc x hx)

namespace Session

/-- A program with a call, a division and a loop, and with values in places that are not printed. -/
def annotated : Program :=
  [{ op := .mov, dst := some { kind := .temporary, slot := 4, low := 7 },
      src1 := some { kind := .constant, low := 5, high := 9 }, block := 3 },
    { op := .param, cond := .lt, src1 := some { kind := .temporary, slot := 4, high := 1 } },
    { op := .call, src1 := some (.constant 0x9000), src2 := some (.constant 1) },
    { op := .label, block := 3 },
    { op := .div, dst := some { kind := .temporary64, slot := 8, low := 2 },
      src1 := some (.register 0), src2 := some (.constant 3) },
    { op := .condjmp, cond := .lt, src1 := some (.register 0), src2 := some (.constant 2),
      block := 3 }]

theorem lower_read_text_annotated :
    (∀ x ∈ annotated, x.cond = .none ∨ x.cond ∈ Condition.named) ∧
    annotated.map Statement.normal ≠ annotated ∧
    ∃ t, (fresh true .recording).lower annotated 16 = (t, .ok ()) ∧
      ∃ q, Program.read annotated.text = .ok q ∧
        (fresh true .recording).lower q 16 = (t, .ok ()) := by
  have hc : ∀ x ∈ annotated, x.cond = .none ∨ x.cond ∈ Condition.named := by decide
  have hne : annotated.map Statement.normal ≠ annotated := by decide +kernel
  have hlower := lower_eq_of_snd (s := fresh true .recording) (p := annotated) (by decide +kernel :
    ((fresh true .recording).lower annotated 16).2 = .ok ())
  exact ⟨hc, hne, _, hlower, lower_read_text hc hlower⟩

end Session

end A32Lowering
