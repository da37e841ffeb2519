import Mathlib
import A32Lowering.Proofs.Composition
import A32Lowering.Proofs.Lowerable

/-!
# Which functions can be lowered

The exact condition under which lowering a function succeeds, read off its statements and its frame
size. Two parts of it are about more than one statement: every call finds its parameters, which it
can pass in four registers, and every jump finds its block, which has one place.

## Main definitions

* `Statement.queue` : the parameters that wait behind a statement, by the words that they take.
* `Program.Lowerable` : the condition on a function.
* `Program.WithinReach` : no jump of a function is too long.

## Main results

* `Program.exists_bodies_iff` : when all statements of a function have items.
* `Session.lower_succeeds_iff` : lowering succeeds exactly when the function is lowerable, and
  otherwise ends with a fault.
-/

namespace A32Lowering

open Access

/-! ### Parameters -/

namespace Operand

/-- The words that an operand takes as a parameter. -/
def words (o : Operand) : Nat := if o.isMemory64 || o.kind = .constant64 then 2 else 1

end Operand

namespace Parameter

/-- The words that a parameter takes. -/
def words : Parameter → Nat
  | memory64 _ | constant64 _ _ => 2
  | _ => 1

/-- A parameter whose value can be loaded. -/
def Loadable : Parameter → Prop
  | memory s => s.isMemory = true ∧ s.Accessible
  | memory64 s => s.isMemory64 = true ∧ s.Accessible
  | address128 s => s.isMemory128 = true ∧ s.Accessible
  | _ => True

/-- The slot behind a parameter of some words. -/
def slotAfter (slot words : Nat) : Nat := if words = 2 then evenSlot slot + 2 else slot + 1

/-- The slot behind parameters of some words. -/
def slots (slot : Nat) (ws : List Nat) : Nat := ws.foldl slotAfter slot

theorem le_slotAfter (slot w : Nat) : slot ≤ slotAfter slot w := by
  unfold slotAfter evenSlot
  split_ifs <;> omega

theorem le_slots (slot : Nat) (ws : List Nat) : slot ≤ slots slot ws := by
  induction ws generalizing slot with
  | nil => exact le_rfl
  | cons w ws ih => exact (le_slotAfter slot w).trans (ih _)

theorem succeeds_register? (slot : Nat) : Succeeds (register? slot) ↔ slot < 4 := by
  unfold register?
  split
  next r h =>
    have hlt : slot < 4 := (List.getElem?_eq_some_iff.mp h).1
    simpa using hlt
  next h =>
    have hle : 4 ≤ slot := List.getElem?_eq_none_iff.mp h
    simpa using hle

theorem register?_ne {slot : Nat} {r : Reg} (h : register? slot = .ok r) :
    r ≠ Abi.base ∧ r ≠ .sp := by
  unfold register? at h
  split at h
  next r' hr =>
    obtain rfl := Except.ok.inj h
    have hall : ∀ r ∈ Abi.arguments, r ≠ Abi.base ∧ r ≠ .sp := by decide
    exact hall _ (List.mem_of_getElem? hr)
  · cases h

theorem succeeds_load_iff {s : Operand} {r : Reg} :
    Succeeds (load 0 r s) ↔ s.isMemory = true ∧ s.Accessible := by
  by_cases h : s.isMemory = true
  · rw [succeeds_load h, and_iff_right h]
  · refine iff_of_false (fun ⟨l, hl⟩ => h ?_) fun hs => h hs.1
    obtain ⟨a, ha, -⟩ := Except.map_eq_ok_iff.mp hl
    unfold address at ha
    split at ha
    · simp [Operand.isMemory, *]
    · simp [Operand.isMemory, *]
    · cases ha

theorem succeeds_address64_iff {s : Operand} :
    Succeeds (address64 0 s 0) ∧ Succeeds (address64 0 s 4) ↔
      s.isMemory64 = true ∧ s.Accessible := by
  by_cases h : s.isMemory64 = true
  · rw [succeeds_address64 h, and_iff_right h]
  · refine iff_of_false (fun ⟨⟨a, ha⟩, _⟩ => h ?_) fun hs => h hs.1
    unfold address64 at ha
    split at ha
    · simp [Operand.isMemory64, *]
    · simp [Operand.isMemory64, *]
    · cases ha

theorem succeeds_address128 {s : Operand} {r : Reg} (hr : r ≠ Abi.base ∧ r ≠ .sp) :
    Succeeds (Access.address128 0 r s) ↔ s.isMemory128 = true ∧ s.Accessible := by
  unfold Access.address128
  split
  next h =>
    have hs : s.Accessible ↔ s.low &&& 3 = 0 := by
      rw [and_three_eq_zero_iff]
      exact ⟨fun ha => ha.aligned (by simp [Operand.isRelative, h]),
        fun ha => ⟨fun _ => ha, by simp [Operand.offsets, h]⟩⟩
    rw [hs]
    split_ifs with ha
    · exact iff_of_true (Straight.succeeds_add hr.1) ⟨by simp [Operand.isMemory128, h], ha⟩
    · simp [ha]
  next h =>
    refine iff_of_true (Straight.succeeds_add hr.2) ⟨by simp [Operand.isMemory128, h], ?_, ?_⟩
    · simp [Operand.isRelative, h]
    · simp [Operand.offsets, h]
  next h h' =>
    refine iff_of_false (not_succeeds_error _) fun hs => ?_
    simp only [Operand.isMemory128, Bool.or_eq_true, decide_eq_true_eq] at hs
    exact hs.1.elim h' h

/-- A parameter that is loaded takes its words, and the next one the slots behind it. -/
theorem code_eq_ok {slot next : Nat} {q : Parameter} {l : List Instr}
    (h : code 0 slot q = .ok (l, next)) : next = slotAfter slot q.words := by
  cases q <;> simp only [code, Except.bind_eq_ok_iff, Except.pure_eq_ok_iff, Prod.mk.injEq] at h <;>
    simp only [slotAfter, words] <;> grind

/-- A parameter can be loaded from a slot on when its value can be had and there are registers for
its words. -/
theorem succeeds_code {slot : Nat} {q : Parameter} :
    Succeeds (code 0 slot q) ↔ q.Loadable ∧ slotAfter slot q.words ≤ 4 := by
  cases q with
  | context | register r | constant c =>
    refine (succeeds_bind fun _ _ => iff_true_intro (succeeds_pure _)).trans ?_
    rw [succeeds_register?, and_comm]
    exact Iff.rfl
  | memory s =>
    refine (succeeds_bind fun r _ => succeeds_map.trans succeeds_load_iff).trans ?_
    rw [succeeds_register?, and_comm]
    exact Iff.rfl
  | memory64 s =>
    have hp : Succeeds (code 0 slot (memory64 s)) ↔
        (evenSlot slot < 4 ∧ evenSlot slot + 1 < 4) ∧
          Succeeds (address64 0 s 0) ∧ Succeeds (address64 0 s 4) := by
      rw [← succeeds_register?, ← succeeds_register?]
      simp only [code, load64, succeeds_bind_iff, succeeds_map, succeeds_pure, and_true,
        exists_and_right, exists_eq_ok_iff]
      tauto
    rw [hp, succeeds_address64_iff, and_comm]
    refine and_congr_right' ?_
    simp only [slotAfter, words, if_true]
    omega
  | constant64 lo hi =>
    refine (succeeds_bind fun _ _ => succeeds_map).trans ?_
    simp only [succeeds_register?, Loadable, slotAfter, words, if_true, true_and]
    omega
  | address128 s =>
    refine (succeeds_bind fun r hr => succeeds_map.trans
      (succeeds_address128 (register?_ne hr))).trans ?_
    rw [succeeds_register?, and_comm]
    exact Iff.rfl

/-- The parameters of a call can be loaded when each of them can and four slots are enough. -/
theorem succeeds_codeAll {slot : Nat} (h : slot ≤ 4) (qs : List Parameter) :
    Succeeds (codeAll 0 slot qs) ↔ (∀ q ∈ qs, q.Loadable) ∧ slots slot (qs.map words) ≤ 4 := by
  induction qs generalizing slot with
  | nil => simpa [codeAll, slots] using h
  | cons q qs ih =>
    have hrest : slots slot ((q :: qs).map words) = slots (slotAfter slot q.words) (qs.map words) :=
      rfl
    rw [codeAll, hrest, succeeds_bind_iff, List.forall_mem_cons]
    constructor
    · rintro ⟨⟨l, next⟩, hc, hs⟩
      obtain rfl := code_eq_ok hc
      obtain ⟨hq, hle⟩ := succeeds_code.mp ⟨_, hc⟩
      rw [succeeds_bind fun _ _ => iff_true_intro (succeeds_pure _), and_true, ih hle] at hs
      exact ⟨⟨hq, hs.1⟩, hs.2⟩
    · rintro ⟨⟨hq, hqs⟩, hle⟩
      have hle' := (le_slots _ _).trans hle
      obtain ⟨⟨l, next⟩, hc⟩ := succeeds_code.mpr ⟨hq, hle'⟩
      obtain rfl := code_eq_ok hc
      refine ⟨_, hc, ?_⟩
      rw [succeeds_bind fun _ _ => iff_true_intro (succeeds_pure _), and_true, ih hle']
      exact ⟨hqs, hle⟩

end Parameter

/-! ### Statements -/

namespace Statement

/-- The words of the parameters that wait behind a statement, the last declared one first, when
`ws` are those that wait before it: a parameter joins them, and a call takes as many as it names,
if there are as many and they fit into four slots. -/
def queue (x : Statement) (ws : List Nat) : Option (List Nat) :=
  match x.op with
  | .param | .paramRet => x.src1.map fun o => o.words :: ws
  | .call => x.src2.bind fun n =>
    if n.low.toNat ≤ ws.length ∧ Parameter.slots 0 (ws.take n.low.toNat) ≤ 4 then
      some (ws.drop n.low.toNat)
    else none
  | _ => some ws

variable {x : Statement}

theorem fits_of_constants (ho : x.op = .call) (hd : x.dst = none) {a b : Operand}
    (h1 : x.src1 = some a) (h2 : x.src2 = some b) (ha : a.kind = .constant)
    (hb : b.kind = .constant) : x.Fits := by
  rw [fits_iff (by rw [ho]; rfl)]
  simp [slots, hd, h1, h2, usable_of_constant, ha, hb, ho, Op.compares]

end Statement

namespace Rules

/-- A statement has a rule when a rule of the table has its shape. -/
theorem succeeds_select {x : Statement} :
    Succeeds (select x) ↔ ∃ r ∈ general ++ wide, r.shape.admits x = true := by
  refine ⟨fun ⟨r, hr⟩ => ⟨r, select_eq_ok hr⟩, fun ⟨r, hr, ha⟩ => ?_⟩
  unfold select
  split
  · exact succeeds_ok _
  next h =>
    rw [Table.select?, table, Table.rulesOf_ofRules, List.find?_eq_none] at h
    have hop : r.shape.op = x.op := by
      simp only [Shape.admits, Bool.and_eq_true, decide_eq_true_eq] at ha
      exact ha.1.1.1
    exact absurd ha (h r (List.mem_filter.mpr ⟨hr, by simpa using hop⟩))

theorem isQuiet_iff {r : Rule Action} (h : r ∈ general ++ wide) : r.action.isQuiet = true ↔
    r.shape.op ≠ .param ∧ r.shape.op ≠ .paramRet ∧ r.shape.op ≠ .call := by
  have hall : ∀ r ∈ general ++ wide, (r.action.isQuiet = true ↔
    r.shape.op ≠ .param ∧ r.shape.op ≠ .paramRet ∧ r.shape.op ≠ .call) := by decide
  exact hall r h

end Rules

/-- The parameter that a statement declares can be loaded, and it exists, when its operand is
usable. -/
theorem Parameter.exists_declare_iff {c : ParameterClass} {sh : Shape}
    (hs : sh ∈ Action.parameterShapes c) {o : Operand} (h : sh.src1.admitsOperand o = true)
    (P : Nat → Prop) :
    (∃ q, Parameter.declare o c = .ok q ∧ q.Loadable ∧ P q.words) ↔ o.Usable ∧ P o.words := by
  cases c with
  | context =>
    cases List.mem_singleton.mp hs
    have hk : o.kind = .context := by simpa [Pattern.admitsOperand] using h
    have hu : o.Usable := ⟨⟨by simp [Operand.isRelative, hk], by simp [Operand.offsets, hk]⟩,
      by simp [hk]⟩
    simp [declare, expect_of_eq hk, Loadable, words, Operand.words, Operand.isMemory64, hk, hu]
  | register =>
    cases List.mem_singleton.mp hs
    have hk : o.kind = .register := by simpa [Pattern.admitsOperand] using h
    have hw : o.words = 1 := by simp [Operand.words, Operand.isMemory64, hk]
    rw [usable_iff_of_register hk, ← succeeds_register, hw]
    simp only [declare, Except.bind_eq_ok_iff, Except.pure_eq_ok_iff]
    constructor
    · rintro ⟨q, ⟨r, hr, rfl⟩, -, hp⟩
      exact ⟨⟨r, hr⟩, hp⟩
    · rintro ⟨⟨r, hr⟩, hp⟩
      exact ⟨_, ⟨r, hr, rfl⟩, trivial, hp⟩
  | memory =>
    cases List.mem_singleton.mp hs
    have hm : o.isMemory = true := h
    have hn : o.isMemory64 = false ∧ o.kind ≠ .constant64 := by
      simp only [Operand.isMemory, Bool.or_eq_true, decide_eq_true_eq] at hm
      rcases hm with hk | hk <;> simp [Operand.isMemory64, hk]
    simp [declare, Loadable, words, Operand.words, hm, hn, usable_iff_of_isMemory]
  | constant =>
    cases List.mem_singleton.mp hs
    have hk : o.kind = .constant := by simpa [Pattern.admitsOperand] using h
    simp [declare, expect_of_eq hk, Loadable, words, Operand.words, Operand.isMemory64, hk,
      usable_of_constant]
  | memory64 =>
    cases List.mem_singleton.mp hs
    have hm : o.isMemory64 = true := h
    simp [declare, Loadable, words, Operand.words, hm, usable_iff_of_isMemory64]
  | constant64 =>
    cases List.mem_singleton.mp hs
    have hk : o.kind = .constant64 := by simpa [Pattern.admitsOperand] using h
    simp [declare, Loadable, words, Operand.words, Operand.isMemory64, hk,
      usable_of_constant64]
  | memory128 =>
    have hm : o.isMemory128 = true := by
      simp only [Action.parameterShapes, List.mem_cons, List.not_mem_nil, or_false] at hs
      rcases hs with rfl | rfl
      · exact h
      · simp only [Pattern.admitsOperand, decide_eq_true_eq] at h
        simp [Operand.isMemory128, h]
    have hn : o.isMemory64 = false ∧ o.kind ≠ .constant64 ∧ o.kind ≠ .register := by
      simp only [Operand.isMemory128, Bool.or_eq_true, decide_eq_true_eq] at hm
      rcases hm with hk | hk <;> simp [Operand.isMemory64, hk]
    simp [declare, Loadable, words, Operand.words, hm, hn, usable_iff_accessible]

theorem Statement.lowerable_iff {x : Statement} {r : Rule Action} (h : Rules.select x = .ok r) :
    x.Lowerable ↔ x.Fits :=
  ⟨fun hl => hl.toFits, fun hf => ⟨hf, Rules.succeeds_select.mp ⟨r, h⟩⟩⟩

theorem Statement.exists_items_param_iff [Helper.Entries] {x : Statement} {c : ParameterClass}
    {sh : Shape} (hs : sh ∈ Action.parameterShapes c) (h : sh.admits x = true) (qs : List Parameter)
    (P : List Nat → Prop) :
    (∃ l rest, (Action.param c).items qs x = .ok (l, rest) ∧ (∀ q ∈ rest, q.Loadable) ∧
      P (rest.map Parameter.words)) ↔
    (∀ q ∈ qs, q.Loadable) ∧ x.Fits ∧
      ∃ ws, x.queue (qs.map Parameter.words) = some ws ∧ P ws := by
  obtain ⟨op, cond, dst, src1, src2, block⟩ := x
  obtain ⟨sop, sd, s1, s2⟩ := sh
  have hsh : (sop = .param ∨ sop = .paramRet) ∧ sd = .absent ∧ s1 ≠ .absent ∧ s2 = .absent := by
    cases c <;> simp only [Action.parameterShapes, List.mem_cons, List.not_mem_nil, or_false] at hs
    case memory128 => rcases hs with hs | hs <;> cases hs <;> decide
    all_goals cases hs; decide
  obtain ⟨hop, rfl, hne, rfl⟩ := hsh
  simp only [Shape.admits_iff, Pattern.admits_absent, Pattern.admits_iff hne] at h
  obtain ⟨rfl, rfl, ⟨o, rfl, ho⟩, rfl⟩ := h
  have hfits : Statement.Fits ⟨op, cond, none, some o, none, block⟩ ↔ o.Usable := by
    rw [fits_iff (by rcases hop with rfl | rfl <;> rfl)]
    rcases hop with rfl | rfl <;> simp [slots, Op.defines, Op.compares]
  have hqueue (ws : List Nat) :
      queue ⟨op, cond, none, some o, none, block⟩ ws = some (o.words :: ws) := by
    rcases hop with rfl | rfl <;> rfl
  have hd := Parameter.exists_declare_iff hs ho fun w => P (w :: qs.map Parameter.words)
  simp only [hfits, hqueue, Option.some.injEq, exists_eq_left', ← hd, Action.items, need_some,
    Except.bind_eq_ok_iff, Except.pure_eq_ok_iff, Except.ok.injEq, Prod.mk.injEq]
  constructor
  · rintro ⟨l, rest, ⟨q, hq, -, rfl⟩, hl, hp⟩
    rw [List.forall_mem_cons] at hl
    exact ⟨hl.2, q, hq, hl.1, hp⟩
  · rintro ⟨hl, q, hq, hql, hp⟩
    exact ⟨[], q :: qs, ⟨q, hq, rfl, rfl⟩, List.forall_mem_cons.mpr ⟨hql, hl⟩, hp⟩

theorem Statement.exists_items_call_iff [Helper.Entries] {x : Statement}
    (h : (⟨.call, .absent, .constant, .constant⟩ : Shape).admits x = true) (qs : List Parameter)
    (P : List Nat → Prop) :
    (∃ l rest, Action.call.items qs x = .ok (l, rest) ∧ (∀ q ∈ rest, q.Loadable) ∧
      P (rest.map Parameter.words)) ↔
    (∀ q ∈ qs, q.Loadable) ∧ x.Fits ∧
      ∃ ws, x.queue (qs.map Parameter.words) = some ws ∧ P ws := by
  obtain ⟨op, cond, dst, src1, src2, block⟩ := x
  simp only [Shape.admits_iff, Pattern.admits_absent, Pattern.admits_iff, Pattern.admitsOperand,
    decide_eq_true_eq, ne_eq, reduceCtorEq, not_false_eq_true] at h
  obtain ⟨rfl, rfl, ⟨a, rfl, ha⟩, ⟨b, rfl, hb⟩⟩ := h
  have hf : Statement.Fits ⟨.call, cond, none, some a, some b, block⟩ :=
    fits_of_constants rfl rfl rfl rfl ha hb
  have hc := Parameter.succeeds_codeAll (Nat.zero_le 4) (qs.take b.low.toNat)
  rw [List.map_take] at hc
  have htake : (∀ q ∈ qs, q.Loadable) ↔
      (∀ q ∈ qs.take b.low.toNat, q.Loadable) ∧ ∀ q ∈ qs.drop b.low.toNat, q.Loadable := by
    rw [← List.forall_mem_append, List.take_append_drop]
  have hi (l : List Item) (rest : List Parameter) :
      Action.call.items qs ⟨.call, cond, none, some a, some b, block⟩ = .ok (l, rest) ↔
        b.low.toNat ≤ qs.length ∧ ∃ m, Parameter.codeAll 0 0 (qs.take b.low.toNat) = .ok m ∧
          m.map .instr ++ Item.call a.low = l ∧ qs.drop b.low.toNat = rest := by
    simp only [Action.items, Action.callItems, Except.bind_eq_ok_iff, need_some, Except.ok.injEq,
      exists_eq_left', expect_of_eq ha, expect_of_eq hb]
    split_ifs with hlt
    · simp [Nat.not_le.mpr hlt]
    · simp [Nat.not_lt.mp hlt]
  simp only [hi, hf, true_and, queue, Option.bind_some, List.length_map, htake]
  constructor
  · rintro ⟨l, rest, ⟨hle, m, hm, -, rfl⟩, hl, hp⟩
    obtain ⟨hq, hslots⟩ := hc.mp ⟨m, hm⟩
    exact ⟨⟨hq, hl⟩, _, if_pos ⟨hle, hslots⟩, List.map_drop ▸ hp⟩
  · rintro ⟨⟨hq, hl⟩, ws, hw, hp⟩
    split_ifs at hw with hcond
    obtain rfl := Option.some.inj hw
    obtain ⟨m, hm⟩ := hc.mpr ⟨hq, hcond.2⟩
    exact ⟨_, _, ⟨hcond.1, m, hm, rfl, rfl⟩, hl, List.map_drop ▸ hp⟩

theorem Statement.exists_items_iff [Helper.Entries] (x : Statement) (qs : List Parameter)
    (P : List Nat → Prop) :
    (∃ l rest, x.items qs = .ok (l, rest) ∧ (∀ q ∈ rest, q.Loadable) ∧
      P (rest.map Parameter.words)) ↔
    (∀ q ∈ qs, q.Loadable) ∧ x.Lowerable ∧
      ∃ ws, x.queue (qs.map Parameter.words) = some ws ∧ P ws := by
  by_cases hsel : Succeeds (Rules.select x)
  · obtain ⟨r, hr⟩ := hsel
    obtain ⟨hmem, hadm⟩ := Rules.select_eq_ok hr
    have hsh := Rules.shape_mem_shapes hmem
    have hop : r.shape.op = x.op := (Rules.op_of_select hr).symm
    have hi : x.items qs = r.action.items qs x := by rw [items, hr]; rfl
    rw [hi, lowerable_iff hr]
    by_cases hq : r.action.isQuiet = true
    · have hqueue (ws : List Nat) : x.queue ws = some ws := by
        obtain ⟨h1, h2, h3⟩ := (Rules.isQuiet_iff hmem).mp hq
        rw [hop] at h1 h2 h3
        unfold queue
        split <;> first | contradiction | rfl
      have hfit : Succeeds (r.action.items qs x) ↔ x.Fits := Action.succeeds_items hq hsh hadm
      simp only [hqueue, Option.some.injEq, exists_eq_left', ← hfit]
      constructor
      · rintro ⟨l, rest, h, hl, hp⟩
        obtain rfl := Action.params_of_items hq h
        exact ⟨hl, ⟨_, h⟩, hp⟩
      · rintro ⟨hl, ⟨⟨l, rest⟩, h⟩, hp⟩
        obtain rfl := Action.params_of_items hq h
        exact ⟨l, _, h, hl, hp⟩
    · cases ha : r.action with
      | param c =>
        rw [ha] at hsh
        exact exists_items_param_iff hsh hadm qs P
      | call =>
        rw [ha] at hsh
        rw [List.mem_singleton.mp hsh] at hadm
        exact exists_items_call_iff hadm qs P
      | _ => exact absurd (by rw [ha]; rfl) hq
  · refine iff_of_false ?_ fun h => hsel (Rules.succeeds_select.mpr h.2.1.rule)
    rintro ⟨l, rest, h, -⟩
    obtain ⟨r, hr, -⟩ := Except.bind_eq_ok_iff.mp h
    exact hsel ⟨r, hr⟩

/-- The statements of a function all have items, and the calls take all parameters, when each
statement is lowerable and the calls find their parameters. -/
theorem Program.exists_bodies_iff [Helper.Entries] (p : Program) (qs : List Parameter) :
    (∃ ls, Program.bodies qs p = .ok (ls, [])) ↔
      (∀ q ∈ qs, q.Loadable) ∧ (∀ x ∈ p, x.Lowerable) ∧
        p.foldlM (fun ws x => x.queue ws) (qs.map Parameter.words) = some [] := by
  induction p generalizing qs with
  | nil =>
    cases qs <;> simp [bodies]
  | cons x p ih =>
    have hcons : (∃ ls, Program.bodies qs (x :: p) = .ok (ls, [])) ↔
        ∃ l rest, x.items qs = .ok (l, rest) ∧ ∃ ls, Program.bodies rest p = .ok (ls, []) := by
      simp only [bodies, Except.bind_eq_ok_iff, Except.pure_eq_ok_iff, Prod.mk.injEq]
      constructor
      · rintro ⟨_, ⟨l, rest⟩, hl, ⟨ls, _⟩, hls, rfl, rfl⟩
        exact ⟨l, rest, hl, ls, hls⟩
      · rintro ⟨l, rest, hl, ls, hls⟩
        exact ⟨_, (l, rest), hl, (ls, []), hls, rfl, rfl⟩
    have hitems := x.exists_items_iff qs fun ws => (∀ y ∈ p, y.Lowerable) ∧
      p.foldlM (fun ws x => x.queue ws) ws = some []
    rw [hcons]
    simp only [ih, hitems, List.forall_mem_cons, List.foldlM_cons, Option.bind_eq_bind,
      Option.bind_eq_some_iff]
    constructor
    · rintro ⟨hq, hx, ws, hw, hp, hr⟩
      exact ⟨hq, ⟨hx, hp⟩, ws, hw, hr⟩
    · rintro ⟨hq, ⟨hx, hp⟩, ws, hw, hr⟩
      exact ⟨hq, hx, ws, hw, hp, hr⟩

/-! ### Blocks -/

namespace Item

/-- The block that an item places. -/
def marked? : Item → Option UInt32
  | mark b => some b
  | _ => none

/-- The block that an item jumps to. -/
def jumped? : Item → Option UInt32
  | jump _ b => some b
  | _ => none

end Item

namespace Items

theorem map_fst_marks (pos : Nat) (l : List Item) :
    (marks pos l).map Prod.fst = l.filterMap Item.marked? := by
  induction l generalizing pos with
  | nil => rfl
  | cons i l ih =>
    have hc : marks pos (i :: l) = marks pos [i] ++ marks (pos + i.width) l := by
      simpa using marks_append pos [i] l
    rw [hc, List.map_append, ih, marks_singleton]
    cases i <;> rfl

theorem map_snd_jumps (pos : Nat) (l : List Item) :
    (jumps pos l).map Prod.snd = l.filterMap Item.jumped? := by
  induction l generalizing pos with
  | nil => rfl
  | cons i l ih =>
    have hc : jumps pos (i :: l) = jumps pos [i] ++ jumps (pos + i.width) l := by
      simpa using jumps_append pos [i] l
    rw [hc, List.map_append, ih, jumps_singleton]
    cases i <;> rfl

theorem filterMap_eq_nil_of_block? {l : List Item} (h : ∀ i ∈ l, i.block? = none) :
    l.filterMap Item.marked? = [] ∧ l.filterMap Item.jumped? = [] := by
  constructor <;> rw [List.filterMap_eq_nil_iff] <;> intro i hi <;> have hb := h i hi <;>
    cases i <;> first | rfl | cases hb

theorem block?_of_mem_instrs {l : List Instr} : ∀ i ∈ l.map Item.instr, i.block? = none := by
  simp [Item.block?]

theorem block?_of_mem_call {addr : UInt32} : ∀ i ∈ Item.call addr, i.block? = none := by
  rw [Item.call, List.forall_mem_cons]
  exact ⟨rfl, block?_of_mem_instrs⟩

theorem exists_target?_iff {pos : Nat} {l : List Item} {b : UInt32} :
    (∃ t, target? pos l b = some t) ↔ b ∈ l.filterMap Item.marked? := by
  rw [← Option.isSome_iff_exists, target?, List.lookup_isSome_iff, ← map_fst_marks pos]
  simp

end Items

/-- The blocks that the label statements of a program place, in order. -/
def Program.labels (p : Program) : List UInt32 :=
  (p.filter fun x => x.op = .label).map Statement.block

/-- The blocks that the jumps of a program go to, in order. -/
def Program.targets (p : Program) : List UInt32 :=
  (p.filter fun x => x.op = .jmp ∨ x.op = .condjmp).map Statement.block

theorem Program.labels_append (p q : Program) :
    Program.labels (p ++ q) = p.labels ++ q.labels := by
  simp only [labels, List.filter_append, List.map_append]

theorem Program.targets_append (p q : Program) :
    Program.targets (p ++ q) = p.targets ++ q.targets := by
  simp only [targets, List.filter_append, List.map_append]

namespace Statement

variable {x : Statement} {params rest : List Parameter} {l : List Item}

theorem blocks_of_items [Helper.Entries] (h : x.items params = .ok (l, rest)) :
    l.filterMap Item.marked? = Program.labels [x] ∧
      l.filterMap Item.jumped? = Program.targets [x] := by
  obtain ⟨r, a, hr, ha, h⟩ := items_eq_ok h
  have hmem := (Rules.select_eq_ok hr).1
  have hop : r.shape.op = x.op := (Rules.op_of_select hr).symm
  have hall : ∀ r ∈ Rules.general ++ Rules.wide, (r.shape.op = .label ↔ r.action = .mark) ∧
      (r.shape.op = .jmp ∨ r.shape.op = .condjmp ↔
        r.action = .jump ∨ r.action = .jumpIf ∨ r.action = .jumpIfCst) := by decide
  have hr := hall r hmem
  rw [hop] at hr
  have hquiet (hl : ∀ i ∈ l, i.block? = none) (h1 : x.op ≠ .label)
      (h2 : ¬ (x.op = .jmp ∨ x.op = .condjmp)) :
      l.filterMap Item.marked? = Program.labels [x] ∧
        l.filterMap Item.jumped? = Program.targets [x] := by
    rw [(Items.filterMap_eq_nil_of_block? hl).1, (Items.filterMap_eq_nil_of_block? hl).2]
    simp [Program.labels, Program.targets, h1, h2]
  have hjump {m : List Instr} {cc : CondCode} (hl : m.map .instr ++ [.jump cc x.block] = l)
      (h1 : x.op ≠ .label) (h2 : x.op = .jmp ∨ x.op = .condjmp) :
      l.filterMap Item.marked? = Program.labels [x] ∧
        l.filterMap Item.jumped? = Program.targets [x] := by
    have hm := Items.filterMap_eq_nil_of_block? (Items.block?_of_mem_instrs (l := m))
    rw [← hl, List.filterMap_append, List.filterMap_append, hm.1, hm.2]
    simp [Program.labels, Program.targets, h1, h2, Item.marked?, Item.jumped?]
  cases h with
  | straight => exact hquiet Items.block?_of_mem_instrs (by simp [hr.1, ha]) (by simp [hr.2, ha])
  | mark =>
    have hl : x.op = .label := hr.1.mpr ha
    simp [Program.labels, Program.targets, hl, Item.marked?, Item.jumped?]
  | jump => exact hjump (m := []) rfl (by simp [hr.1, ha]) (hr.2.mpr (.inl ha))
  | jumpIf _ _ _ hl =>
    obtain ⟨m, cc, -, -, hl⟩ := Action.jumpItems_eq_ok hl
    exact hjump hl.symm (by simp [hr.1, ha]) (hr.2.mpr (.inr (.inl ha)))
  | jumpIfCst _ _ _ hl =>
    obtain ⟨m, cc, -, -, hl⟩ := Action.jumpItems_eq_ok hl
    exact hjump hl.symm (by simp [hr.1, ha]) (hr.2.mpr (.inr (.inr ha)))
  | param => exact hquiet (by simp) (by simp [hr.1, ha]) (by simp [hr.2, ha])
  | call _ _ hl =>
    obtain ⟨-, -, m, -, rfl⟩ := Action.callItems_eq_ok hl
    refine hquiet ?_ (by simp [hr.1, ha]) (by simp [hr.2, ha])
    exact List.forall_mem_append.mpr ⟨Items.block?_of_mem_instrs, Items.block?_of_mem_call⟩
  | divide _ _ _ hl =>
    obtain ⟨-, la, lb, lq, lr, -, -, -, -, rfl⟩ := Action.divideItems_eq_ok hl
    refine hquiet ?_ (by simp [hr.1, ha]) (by simp [hr.2, ha])
    simp only [List.forall_mem_append]
    exact ⟨Items.block?_of_mem_instrs, Items.block?_of_mem_call, Items.block?_of_mem_instrs,
      Items.block?_of_mem_instrs, Items.block?_of_mem_call, Items.block?_of_mem_instrs, by simp⟩

end Statement

theorem Program.blocks_of_bodies [Helper.Entries] {params rest : List Parameter} {p : Program}
    {ls : List (List Item)} (h : Program.bodies params p = .ok (ls, rest)) :
    ls.flatten.filterMap Item.marked? = p.labels ∧
      ls.flatten.filterMap Item.jumped? = p.targets := by
  induction p generalizing params ls with
  | nil =>
    obtain ⟨rfl, -⟩ := Prod.mk.inj (Except.pure_eq_ok_iff.mp h)
    exact ⟨rfl, rfl⟩
  | cons x p ih =>
    simp only [bodies, Except.bind_eq_ok_iff, Except.pure_eq_ok_iff] at h
    obtain ⟨⟨l, ps⟩, hl, ⟨ls', ps'⟩, hr, h⟩ := h
    obtain ⟨rfl, rfl⟩ := Prod.mk.inj h
    obtain ⟨hm, hj⟩ := Statement.blocks_of_items hl
    obtain ⟨ihm, ihj⟩ := ih hr
    rw [List.flatten_cons, List.filterMap_append, List.filterMap_append, hm, hj, ihm, ihj,
      ← labels_append, ← targets_append]
    exact ⟨rfl, rfl⟩

theorem Program.blocks_of_assemble [Helper.Entries] {p : Program} {frame : UInt32} {a : Assembly}
    (h : p.assemble frame = .ok a) : a.items.filterMap Item.marked? = p.labels ∧
      a.items.filterMap Item.jumped? = p.targets := by
  obtain ⟨used, saved, prolog, body, -, -, -, hb, rfl⟩ := Program.assemble_eq_ok_iff.mp h
  obtain ⟨hm, hj⟩ := Program.blocks_of_bodies hb
  have hi (l : List Instr) := Items.filterMap_eq_nil_of_block? (Items.block?_of_mem_instrs (l := l))
  simp only [Assembly.items, List.filterMap_append, hm, hj, hi, List.nil_append, List.append_nil,
    and_self]

/-! ### Functions -/

/-- The condition on a function: the frame is made of words, every statement is lowerable, every
call finds its parameters and leaves none for nobody, and every block that is jumped to has one
place. -/
structure Program.Lowerable (p : Program) (frame : UInt32) : Prop where
  frame : frame % 4 = 0
  statements : ∀ x ∈ p, x.Lowerable
  calls : p.foldlM (fun ws x => x.queue ws) [] = some []
  labels : p.labels.Nodup
  targets : ∀ b ∈ p.targets, b ∈ p.labels

/-- No jump of a function goes further than a branch can. -/
def Program.WithinReach [Helper.Entries] (p : Program) (frame : UInt32) : Prop :=
  ∀ a, p.assemble frame = .ok a → ∀ j ∈ Items.jumps 0 a.items,
    ∀ t, Items.target? 0 a.items j.2 = some t → Items.InReach (Stream.displacement j.1 t)

instance (d : Int) : Decidable (Items.InReach d) := inferInstanceAs (Decidable (_ ∧ _))

instance [Helper.Entries] (p : Program) (frame : UInt32) : Decidable (p.WithinReach frame) :=
  match h : p.assemble frame with
  | .error _ => isTrue fun _ ha => absurd (h.symm.trans ha) (by simp)
  | .ok a =>
    decidable_of_iff (∀ j ∈ Items.jumps 0 a.items, ∀ t ∈ Items.target? 0 a.items j.2,
      Items.InReach (Stream.displacement j.1 t))
      ⟨fun hall _ ha => Except.ok.inj (h.symm.trans ha) ▸ hall, fun hall => hall a h⟩

namespace Program

variable [Helper.Entries] {p : Program} {frame : UInt32}

/-- A function has items when its frame, its statements and its calls are in order. -/
theorem exists_assemble_iff : (∃ a, p.assemble frame = .ok a) ↔
    frame % 4 = 0 ∧ (∀ x ∈ p, x.Lowerable) ∧
      p.foldlM (fun ws x => x.queue ws) [] = some [] := by
  have hb := Program.exists_bodies_iff p []
  rw [List.map_nil] at hb
  constructor
  · rintro ⟨a, ha⟩
    obtain ⟨used, saved, prolog, body, -, -, hp, hbody, -⟩ := assemble_eq_ok_iff.mp ha
    obtain ⟨-, hx, hq⟩ := hb.mp ⟨body, hbody⟩
    unfold Frame.prolog at hp
    split_ifs at hp with hf
    exact ⟨(and_three_eq_zero_iff frame).mp hf, hx, hq⟩
  · rintro ⟨hf, hx, hq⟩
    obtain ⟨body, hbody⟩ := hb.mpr ⟨by simp, hx, hq⟩
    have hregs : ∀ o ∈ p.flatMap Frame.registerOperands, o.low.toNat < 6 := by
      intro o ho
      obtain ⟨x, hxp, ho⟩ := List.mem_flatMap.mp ho
      obtain ⟨ho, hk⟩ := List.mem_filter.mp ho
      exact UInt32.lt_iff_toNat_lt.mp ((hx x hxp).registers o ho (by simpa using hk))
    obtain ⟨used, saved, hu, hs⟩ := Frame.exists_saved_iff.mpr hregs
    exact ⟨_, assemble_eq_ok_iff.mpr ⟨used, saved, _, body, hu, hs,
      if_pos ((and_three_eq_zero_iff frame).mpr hf), hbody, rfl⟩⟩

/-- A function can be linked exactly when it is lowerable and its jumps are within reach. -/
theorem exists_links_iff : (∃ l, p.Links frame l) ↔ p.Lowerable frame ∧ p.WithinReach frame := by
  constructor
  · rintro ⟨_, a, ha, rfl, hl⟩
    obtain ⟨hf, hx, hq⟩ := exists_assemble_iff.mp ⟨a, ha⟩
    obtain ⟨hm, hj⟩ := blocks_of_assemble ha
    refine ⟨⟨hf, hx, hq, ?_, fun b hb => ?_⟩, fun a' ha' j hj t ht => ?_⟩
    · rw [← hm, ← Items.map_fst_marks 0]
      exact hl.nodup
    · rw [← hj, ← Items.map_snd_jumps 0, List.mem_map] at hb
      obtain ⟨j, hj, rfl⟩ := hb
      obtain ⟨t, ht, -⟩ := hl.marked j hj
      exact hm ▸ Items.exists_target?_iff.mp ⟨t, ht⟩
    · obtain rfl := Except.ok.inj (ha.symm.trans ha')
      obtain ⟨t', ht', hr⟩ := hl.marked j hj
      obtain rfl := Option.some.inj (ht'.symm.trans ht)
      exact hr
  · rintro ⟨h, hr⟩
    obtain ⟨a, ha⟩ := exists_assemble_iff.mpr ⟨h.frame, h.statements, h.calls⟩
    obtain ⟨hm, hj⟩ := blocks_of_assemble ha
    refine ⟨_, a, ha, rfl, ?_, fun j hjm => ?_⟩
    · rw [Items.map_fst_marks, hm]
      exact h.labels
    · have hb : j.2 ∈ p.targets := by
        rw [← hj, ← Items.map_snd_jumps 0]
        exact List.mem_map_of_mem hjm
      obtain ⟨t, ht⟩ : ∃ t, Items.target? 0 a.items j.2 = some t :=
        Items.exists_target?_iff.mpr (hm ▸ h.targets _ hb)
      exact ⟨t, ht, hr a ha j hjm t ht⟩

end Program

namespace Session

/-- Lowering succeeds exactly for lowerable functions. Between functions, and when no jump is too
long, a function is lowered if and only if it is lowerable; and the only way to fail is a fault. -/
theorem lower_succeeds_iff [Helper.Entries] [PendingHeap] {s : Session} (hs : s.Idle) {p : Program}
    {frame : UInt32} (hr : p.WithinReach frame) :
    ((s.lower p frame).2 = .ok () ↔ p.Lowerable frame) ∧
    ((s.lower p frame).2 = .ok () ∨
      ∃ place f, (s.lower p frame).2 = .error (.faulted place f)) := by
  by_cases hl : ∃ l, p.Links frame l
  · have hok : (s.lower p frame).2 = .ok () := by
      obtain ⟨l, hl⟩ := hl
      rw [lower_of_links hs hl]
    exact ⟨iff_of_true hok (Program.exists_links_iff.mp hl).1, .inl hok⟩
  · obtain ⟨place, f, t, -, ht⟩ := lower_eq_rollback hs (not_exists.mp hl)
    have hn : ¬ p.Lowerable frame := fun h => hl (Program.exists_links_iff.mpr ⟨h, hr⟩)
    rw [ht]
    exact ⟨iff_of_false (fun h => by cases h) hn, .inr ⟨place, f, rfl⟩⟩

/-- A loop that counts a register down and calls a routine in every round. -/
def countdown : Program :=
  [{ op := .label, block := 3 },
    { op := .param, src1 := some (.register 0) },
    { op := .call, src1 := some (.constant 0x8000), src2 := some (.constant 1) },
    { op := .sub, dst := some (.register 0), src1 := some (.register 0),
      src2 := some (.constant 1) },
    { op := .condjmp, cond := .ne, src1 := some (.register 0), src2 := some (.constant 0),
      block := 3 }]

theorem lower_succeeds_iff_countdown : countdown.WithinReach 8 ∧
    (((fresh true .recording).lower countdown 8).2 = .ok () ↔ countdown.Lowerable 8) ∧
    (((fresh true .recording).lower countdown 8).2 = .ok () ∨
      ∃ place f, ((fresh true .recording).lower countdown 8).2 = .error (.faulted place f)) := by
  have hr : countdown.WithinReach 8 := by decide +kernel
  exact ⟨hr, lower_succeeds_iff (ready_fresh true (by decide)).toIdle hr⟩

end Session

end A32Lowering
