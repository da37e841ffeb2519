import Mathlib
import A32Lowering.Proofs.ImmediateForms

/-!
# The code of a statement computes its result

Straight-line code of the operations on words leaves the result of the statement in its destination
and changes no other variable. A comparison leaves flags that say whether its condition holds.

## Main definitions

* `Core.apply` : the core behind a statement.

## Main results

* `Straight.run?_compareCode`, `Straight.run?_compareCstCode` : the flags of a comparison.
* `Straight.run?_code` : straight-line code computes the result of its statement.
-/

namespace A32Lowering

open A32Lowering.Core

/-- The core behind a statement: its destination has the result. -/
def Core.apply (c : Core) (x : Statement) : Core :=
  match x.dst with
  | some d => c.put d (x.result c.storage.value)
  | none => c

/-- The kind of shift of an operation. -/
theorem Rules.op_of_shift {r : Rule Action} {kind : ShiftKind} (hr : r ∈ general ++ wide)
    (ha : r.action = .straight (.shift kind)) : (r.shape.op = .srl ∧ kind = .lsr) ∨
      (r.shape.op = .sra ∧ kind = .asr) ∨ (r.shape.op = .sll ∧ kind = .lsl) := by
  have hall : ∀ r ∈ general ++ wide, ∀ kind, r.action = .straight (.shift kind) →
      (r.shape.op = .srl ∧ kind = .lsr) ∨ (r.shape.op = .sra ∧ kind = .asr) ∨
        (r.shape.op = .sll ∧ kind = .lsl) := by
    simp only [general, wide, moves, arith, shifts, calls, jumps, products, references, rule, line,
      List.cons_append, List.nil_append, List.forall_mem_cons]
    simp
  exact hall r hr kind ha

namespace Straight

variable {c : Core} {d s1 s2 : Operand} {l : List Instr}

/-- Two sources that are used one after the other. -/
theorem run?_uses {ra rb : Reg} {la lb : List Instr} (ha : Access.use 0 s1 .r1 = .ok (ra, la))
    (hb : Access.use 0 s2 .r2 = .ok (rb, lb)) : ∃ c', c.run? (la ++ lb) = some c' ∧ Same c c' ∧
      c'.regs ra = c.storage.value s1 ∧ c'.regs rb = c.storage.value s2 := by
  obtain ⟨c₁, h₁, hv₁, hm₁, hk₁⟩ := run?_use (c := c) ha
  obtain ⟨c₂, h₂, hv₂, hm₂, hk₂⟩ := run?_use (c := c₁) hb
  have hs₁ : Same c c₁ := .of_eq_off (by decide) hm₁ hk₁
  have hs₂ : Same c₁ c₂ := .of_eq_off (by decide) hm₂ hk₂
  have hne : ra ≠ .r2 := Access.ne_of_use ha (by decide) (by decide)
  refine ⟨c₂, by rw [run?_append_of_eq h₁, h₂], hs₁.trans hs₂, ?_, ?_⟩
  · rw [hk₂ ra hne, hv₁]
  · rw [hv₂, hs₁.storage_eq]

/-- The flags of a comparison of two operands. -/
theorem run?_compareCode (h : compareCode 0 s1 s2 = .ok l) : ∃ c', c.run? l = some c' ∧
    Same c c' ∧
    c'.flags = (addWithCarry (c.storage.value s1) (~~~c.storage.value s2) true).2 := by
  simp only [compareCode, Except.bind_eq_ok_iff, Except.pure_eq_ok_iff] at h
  obtain ⟨⟨ra, la⟩, ha, ⟨rb, lb⟩, hb, rfl⟩ := h
  obtain ⟨c', hr, hs, hva, hvb⟩ := run?_uses (c := c) ha hb
  refine ⟨{ c' with
    flags := (addWithCarry (c.storage.value s1) (~~~c.storage.value s2) true).2 }, ?_,
    ⟨hs.regs, hs.mem⟩, rfl⟩
  rw [run?_append_of_eq hr, run?_singleton, effect?, fst_eval_plain, hva, hvb, CompareOp.eval]

/-- The flags of a comparison with a constant. -/
theorem run?_compareCstCode (hk : s2.kind = .constant) (h : compareCstCode 0 s1 s2 = .ok l) :
    ∃ c', c.run? l = some c' ∧ Same c c' ∧
    c'.flags = (addWithCarry (c.storage.value s1) (~~~c.storage.value s2) true).2 := by
  simp only [compareCstCode, Except.bind_eq_ok_iff, Except.pure_eq_ok_iff] at h
  obtain ⟨⟨ra, la⟩, ha, lb, hb, rfl⟩ := h
  obtain ⟨c₁, h₁, hv₁, hm₁, hk₁⟩ := run?_use (c := c) ha
  obtain ⟨c₂, h₂, hf, hm₂, hk₂⟩ := run?_compare (c := c₁) hb
  have hs₁ : Same c c₁ := .of_eq_off (by decide) hm₁ hk₁
  have hs₂ : Same c₁ c₂ := .of_eq_off (by decide) hm₂ hk₂
  refine ⟨c₂, by rw [run?_append_of_eq h₁, h₂], hs₁.trans hs₂, ?_⟩
  rw [hf, hv₁, value_constant hk]

/-- A comparison, and the definition of whether its condition holds. -/
theorem run?_comparison {cond : Condition} {rd : Reg} {la lf lc : List Instr} {c₁ : Core}
    (hd : Access.define d .r0 = .ok rd) (hr : c.run? la = some c₁) (hs : Same c c₁)
    (hf : c₁.flags = (addWithCarry (c.storage.value s1) (~~~c.storage.value s2) true).2)
    (hlf : flag rd cond = .ok lf) (hlc : Access.commit 0 d rd = .ok lc) :
    ∃ c', c.run? (la ++ lf ++ lc) = some c' ∧ Same (c.put d
      (if cond.holds (c.storage.value s1) (c.storage.value s2) then 1 else 0)) c' := by
  obtain ⟨c', hc, hs'⟩ := run?_commit hs hd hlc
  refine ⟨c', ?_, hs'⟩
  rw [List.append_assoc, run?_append_of_eq hr, run?_append_of_eq (run?_flag hlf hf), hc]

/-- A binary operation on two operands. -/
theorem run?_arithCode {a : Arith} (h : arithCode 0 a d s1 s2 = .ok l) : ∃ c', c.run? l = some c' ∧
    Same (c.put d (a.eval (c.storage.value s1) (c.storage.value s2))) c' := by
  simp only [arithCode, Except.bind_eq_ok_iff, Except.pure_eq_ok_iff] at h
  obtain ⟨rd, hrd, ⟨ra, la⟩, ha, ⟨rb, lb⟩, hb, lc, hc, rfl⟩ := h
  obtain ⟨c₁, h₁, hs, hva, hvb⟩ := run?_uses (c := c) ha hb
  obtain ⟨c', hc', hs'⟩ := run?_commit hs hrd hc
  refine ⟨c', ?_, hs'⟩
  rw [List.append_assoc, run?_append_of_eq h₁, List.singleton_append, run?_cons, effect?_alu,
    Option.bind_some, Arith.fst_eval_direct, fst_eval_plain, hva, hvb, hc']

/-- A binary operation with a constant. -/
theorem run?_arithCstCode {a : Arith} (h : arithCstCode 0 a d s1 s2 = .ok l) :
    ∃ c', c.run? l = some c' ∧
      Same (c.put d (a.eval (c.storage.value s1) (c.storage.value s2))) c' := by
  obtain ⟨m, hm, hrun⟩ := arithCode_of_arithCstCode h
  obtain ⟨c₁, c₂, h₁, h₂, heq⟩ := hrun c
  obtain ⟨c', h', hs⟩ := run?_arithCode (c := c) hm
  obtain rfl := Option.some.inj (h₂.symm.trans h')
  exact ⟨c₁, h₁, hs.trans (heq.same (by decide))⟩

/-- A shift. -/
theorem run?_shiftCode {kind : ShiftKind} (h : shiftCode 0 kind d s1 s2 = .ok l) :
    ∃ c' carry, c.run? l = some c' ∧ Same (c.put d (kind.apply (c.storage.value s1)
      (Statement.amount c.storage.value s2) carry).1) c' := by
  simp only [shiftCode, Except.bind_eq_ok_iff, Except.pure_eq_ok_iff] at h
  obtain ⟨rd, hrd, ⟨ra, la⟩, ha, ⟨by_, lb⟩, hb, lc, hc, rfl⟩ := h
  obtain ⟨c₁, h₁, hv₁, hm₁, hk₁⟩ := run?_use (c := c) ha
  obtain ⟨c₂, h₂, hm₂, hk₂, hv₂⟩ := run?_shift (c := c₁) hb
  have hs₁ : Same c c₁ := .of_eq_off (by decide) hm₁ hk₁
  have hs₂ : Same c₁ c₂ := .of_eq_off (by decide) hm₂ hk₂
  have hne : ra ≠ .r2 := Access.ne_of_use ha (by decide) (by decide)
  obtain ⟨c', hc', hs'⟩ := run?_commit (hs₁.trans hs₂) hrd hc
  refine ⟨c', c₂.flags.carry, ?_, hs'⟩
  rw [List.append_assoc, List.append_assoc, run?_append_of_eq h₁, run?_append_of_eq h₂,
    List.singleton_append, run?_cons, effect?_move, Option.bind_some, MoveOp.eval, Operand2.eval,
    hv₂, hk₂ ra hne, hv₁, hs₁.storage_eq]
  exact hc'

/-- A move from a register to a register. -/
theorem run?_move {op : MoveOp} {rd rs : Reg} (hkd : d.kind = .register) (hks : s1.kind = .register)
    (hrd : Abi.register d.low = .ok rd) (hrs : Abi.register s1.low = .ok rs) :
    c.run? [.move op .al rd (.plain rs)] = some (c.put d (op.eval (c.storage.value s1))) := by
  rw [run?_singleton, effect?_move, fst_eval_plain, put_register hkd hrd, value_register hks hrs]

/-- Storing the complement of a register. -/
theorem run?_storeComplement {c₀ : Core} {r : Reg} (hs : Same c₀ c)
    (h : Access.store 0 d .r1 = .ok l) : ∃ c',
      c.run? ([.move .mvn .al .r1 (.plain r)] ++ l) = some c' ∧
      Same (c₀.put d (~~~c.regs r)) c' := by
  obtain ⟨c', hc', hs'⟩ := run?_storeScratch (v := ~~~c.regs r) hs (by decide) h
  refine ⟨c', ?_, hs'⟩
  rw [List.singleton_append, run?_cons, effect?_move, fst_eval_plain]
  exact hc'

end Straight

theorem Statement.result_arith {val : Operand → UInt32} {x : Statement} {a : Arith}
    (ho : x.op = a.op) {s1 s2 : Operand} (h1 : x.src1 = some s1) (h2 : x.src2 = some s2) :
    x.result val = a.eval (val s1) (val s2) := by
  cases a <;> simp only [Statement.result, Statement.result₂, ho, h1, h2, Arith.op]

theorem Statement.result_shift {val : Operand → UInt32} {x : Statement} {kind : ShiftKind}
    (ho : (x.op = .srl ∧ kind = .lsr) ∨ (x.op = .sra ∧ kind = .asr) ∨ (x.op = .sll ∧ kind = .lsl))
    {s1 s2 : Operand} (h1 : x.src1 = some s1) (h2 : x.src2 = some s2) (carry : Bool) :
    x.result val = (kind.apply (val s1) (Statement.amount val s2) carry).1 := by
  have hr : ShiftKind.lsr.code.toNat % 4 = 1 := rfl
  have ha : ShiftKind.asr.code.toNat % 4 = 2 := rfl
  have hl : ShiftKind.lsl.code.toNat % 4 = 0 := rfl
  rcases ho with ⟨ho, rfl⟩ | ⟨ho, rfl⟩ | ⟨ho, rfl⟩ <;>
    simp only [Statement.result, Statement.result₂, ho, h1, h2, ShiftKind.apply, hr, ha, hl] <;>
    split_ifs with hz <;> simp [hz]

namespace Straight

variable {c : Core} {a : Straight} {x : Statement} {l : List Instr}

theorem apply_of_dst {d : Operand} (hd : x.dst = some d) :
    c.apply x = c.put d (x.result c.storage.value) := by
  simp only [Core.apply, hd]

theorem result_mov {val : Operand → UInt32} {s : Operand} (ho : x.op = .mov)
    (hs : x.src1 = some s) : x.result val = val s := by
  simp only [Statement.result, ho, hs]

theorem result_not {val : Operand → UInt32} {s : Operand} (ho : x.op = .not)
    (hs : x.src1 = some s) : x.result val = ~~~val s := by
  simp only [Statement.result, ho, hs]

theorem result_cmp {val : Operand → UInt32} {s t : Operand} (ho : x.op = .cmp)
    (hs : x.src1 = some s) (ht : x.src2 = some t) :
    x.result val = if x.cond.holds (val s) (val t) then 1 else 0 := by
  simp only [Statement.result, Statement.result₂, ho, hs, ht]

/-- Straight-line code computes the result of its statement. -/
theorem run?_code {r : Rule Action} (hsel : Rules.select x = .ok r)
    (ha : r.action = .straight a) (hb : x.op.isBasic = true) (h : a.code 0 x = .ok l) :
    ∃ c', c.run? l = some c' ∧ Same (c.apply x) c' := by
  obtain ⟨hr, hadm⟩ := Rules.select_eq_ok hsel
  have hsh := Rules.shape_mem_shapes hr
  rw [ha] at hsh
  obtain ⟨hop, hdst, hsrc, -⟩ := Shape.admits_iff.mp hadm
  -- What all shapes of the rules with this code have in common holds for the statement.
  have hop' {op : Op} (hp : ∀ sh ∈ Action.straightShapes a, sh.op = op) : x.op = op :=
    hop.trans (hp _ hsh)
  have hdst {p : Pattern} (hp : ∀ sh ∈ Action.straightShapes a, sh.dst = p) :
      p.admits x.dst = true := hp _ hsh ▸ hdst
  have hsrc {p : Pattern} (hp : ∀ sh ∈ Action.straightShapes a, sh.src1 = p) :
      p.admits x.src1 = true := hp _ hsh ▸ hsrc
  have hbasic (hp : ∀ sh ∈ Action.straightShapes a, sh.op.isBasic = false) : False := by
    rw [hop, hp _ hsh] at hb
    cases hb
  cases code_eq_ok_iff.mp h with
  | nothing =>
    rw [Core.apply, Pattern.admits_absent.mp (hdst (by decide))]
    exact ⟨c, rfl, .refl c⟩
  | movRegReg hd hs hrd hrs =>
    have hkd := Pattern.kind_of_admits_register (hdst (by decide)) hd
    have hks := Pattern.kind_of_admits_register (hsrc (by decide)) hs
    rw [apply_of_dst hd, result_mov (hop' (by decide)) hs]
    exact ⟨_, run?_move hkd hks hrd hrs, .refl _⟩
  | movRegMem hd hs hrd hl =>
    have hk := Pattern.kind_of_admits_register (hdst (by decide)) hd
    rw [apply_of_dst hd, result_mov (hop' (by decide)) hs, put_register hk hrd]
    exact ⟨_, run?_loadOperand hl, .refl _⟩
  | movRegCst hd hs hkd hks hrd =>
    rw [apply_of_dst hd, result_mov (hop' (by decide)) hs, put_register hkd hrd,
      value_constant hks]
    exact ⟨_, run?_load, .refl _⟩
  | movMemReg hd hs hk hrs hl =>
    rw [apply_of_dst hd, result_mov (hop' (by decide)) hs, value_register hk hrs]
    exact ⟨_, run?_storeOperand hl, .refl _⟩
  | movMemMem hd hs hla hlb =>
    rw [apply_of_dst hd, result_mov (hop' (by decide)) hs,
      run?_append_of_eq (run?_loadOperand hla)]
    exact run?_storeScratch (.refl c) (by decide) hlb
  | movMemCst hd hs hk hl =>
    rw [apply_of_dst hd, result_mov (hop' (by decide)) hs, value_constant hk,
      run?_append_of_eq run?_load]
    exact run?_storeScratch (.refl c) (by decide) hl
  | notRegReg hd hs hkd hks hrd hrs =>
    rw [apply_of_dst hd, result_not (hop' (by decide)) hs]
    exact ⟨_, run?_move hkd hks hrd hrs, .refl _⟩
  | notMemReg hd hs hk hrs hl =>
    rw [apply_of_dst hd, result_not (hop' (by decide)) hs, value_register hk hrs]
    exact run?_storeComplement (.refl c) hl
  | @notMemMem _ s _ _ hd hs hla hlb =>
    have hs₀ : Same c (c.set .r0 (c.storage.value s)) := (Same.refl c).set (by decide)
    obtain ⟨c', hc', hs'⟩ := run?_storeComplement (r := .r0) hs₀ hlb
    rw [regs_set_self] at hs'
    rw [apply_of_dst hd, result_not (hop' (by decide)) hs, List.append_assoc,
      run?_append_of_eq (run?_loadOperand hla)]
    exact ⟨c', hc', hs'⟩
  | @arithCst b _ _ _ _ hd hs ht hl =>
    have ho : x.op = b.op := hop' (by simp [Action.straightShapes])
    rw [apply_of_dst hd, Statement.result_arith ho hs ht]
    exact run?_arithCstCode hl
  | @arith b _ _ _ _ hd hs ht hl =>
    have ho : x.op = b.op := hop' (by simp [Action.straightShapes])
    rw [apply_of_dst hd, Statement.result_arith ho hs ht]
    exact run?_arithCode hl
  | shift hd hs ht hl =>
    obtain ⟨c', carry, hc', hs'⟩ := run?_shiftCode (c := c) hl
    have hkind := Rules.op_of_shift hr ha
    rw [← hop] at hkind
    rw [apply_of_dst hd, Statement.result_shift hkind hs ht carry]
    exact ⟨c', hc', hs'⟩
  | compareCst hd hs ht hk hrd hla hlf hlc =>
    obtain ⟨c₁, hr₁, hs₁, hf⟩ := run?_compareCstCode (c := c) hk hla
    rw [apply_of_dst hd, result_cmp (hop' (by decide)) hs ht]
    exact run?_comparison hrd hr₁ hs₁ hf hlf hlc
  | compare hd hs ht hrd hla hlf hlc =>
    obtain ⟨c₁, hr₁, hs₁, hf⟩ := run?_compareCode (c := c) hla
    rw [apply_of_dst hd, result_cmp (hop' (by decide)) hs ht]
    exact run?_comparison hrd hr₁ hs₁ hf hlf hlc
  | resultReg | resultTmp | resultMem64 | refAddReg | refAddCst | refLoadReg | refLoadMem
  | refStoreReg | refStoreRel | refStoreCst | mov64Mem | mov64Cst | multiply | arith64 =>
    exact (hbasic (by simp [Action.straightShapes, Op.isBasic])).elim

end Straight

end A32Lowering
