import Mathlib
import A32Lowering.Proofs.Emission
import A32Lowering.Proofs.Lowerable
import A32Lowering.Proofs.Variables

/-!
# Constants as immediates and in registers

A binary operation with a constant has one instruction when the constant, its negation or its
complement is an immediate and the operation has a form for that. Otherwise the constant goes to a
scratch register, and the code is that of two operands. Whichever form is chosen, the code does what
the code with the constant in the register does, but for what it leaves in that register.

## Main definitions

* `Core.constantScratch` : the register that a constant goes to.

## Main results

* `Rules.select_arith` : the rule for a binary operation with a constant.
* `Straight.arithCode_of_arithCstCode` : the code of both forms does the same.
* `Lower.immediate_transparent` : the same for the machine, for every statement that is lowered.
-/

namespace A32Lowering

/-- The rules of a binary operation. -/
theorem Rules.filter_arith (a : Arith) :
    ((general ++ wide).filter fun r => r.shape.op = a.op) = arith a.op a := by
  cases a <;> rfl

/-- The rule for a binary operation with a constant is the one for constants. -/
theorem Rules.select_arith {x : Statement} {a : Arith} {k : Operand} {r : Rule Action}
    (hx : x.op = a.op) (hk : x.src2 = some k) (hc : k.kind = .constant) (h : select x = .ok r) :
    r.action = .straight (.arithCst a) := by
  unfold select at h
  split at h
  next r' hr =>
    obtain rfl := Except.ok.inj h
    rw [Table.select?, table, Table.rulesOf_ofRules, hx, filter_arith, arith, List.find?_cons] at hr
    split at hr
    next =>
      obtain rfl := Option.some.inj hr
      rfl
    next hn =>
      -- The general rule describes no other sources and destinations than the one for constants.
      have hadm := List.find?_some hr
      obtain rfl := List.mem_singleton.mp (List.mem_of_find?_eq_some hr)
      obtain ⟨-, hdst, hsrc, -⟩ := Shape.admits_iff.mp hadm
      have hcst : (⟨a.op, .any, .any, .constant⟩ : Shape).admits x = true := by
        refine Shape.admits_iff.mpr ⟨hx, hdst, hsrc, ?_⟩
        simp [hk, Pattern.admits, Pattern.admitsOperand, hc]
      cases hn.symm.trans hcst
  next => cases h

namespace Core

/-- The register that a constant goes to when it is no immediate. -/
abbrev constantScratch : List Reg := [.r2]

variable {c c' : Core} {s d : Operand} {r pref : Reg} {l : List Instr} {level : UInt32}

/-- Code that gets a value into a register can be executed. -/
theorem exists_run?_use (h : Access.use level s pref = .ok (r, l)) : ∃ c', c.run? l = some c' := by
  rcases Access.use_eq_ok h with ⟨-, -, rfl⟩ | ⟨-, -, hl⟩ | ⟨-, -, rfl⟩
  · exact ⟨c, rfl⟩
  · obtain ⟨a, -, rfl⟩ := Except.map_eq_ok_iff.mp hl
    exact ⟨_, by rw [Access.loadFrom, run?_singleton, effect?]⟩
  · exact ⟨_, run?_load⟩

/-- Completing a definition does not read the register of a constant. -/
theorem EqOff.run?_commit (h : EqOff constantScratch c c') (hr : r ≠ .r2)
    (hl : Access.commit level d r = .ok l) : ∃ c₁ c₂, c.run? l = some c₁ ∧ c'.run? l = some c₂ ∧
      EqOff constantScratch c₁ c₂ := by
  rcases Access.commit_eq_ok hl with ⟨-, rfl⟩ | ⟨-, hl⟩
  · exact ⟨c, c', rfl, rfl, h⟩
  · obtain ⟨a, ha, rfl⟩ := Except.map_eq_ok_iff.mp hl
    have hbase : a.1 ∉ constantScratch := by
      rcases Access.address_eq_ok ha with ⟨-, hr, -⟩ | ⟨-, hr, -⟩ <;> rw [hr] <;> decide
    refine ⟨_, _, by rw [Access.storeTo, run?_singleton, effect?],
      by rw [Access.storeTo, run?_singleton, effect?], ?_⟩
    rw [h.regs _ hbase, h.regs r (by simpa using hr)]
    exact h.store _

end Core

namespace Straight

open A32Lowering.Core

variable {level : UInt32} {a : Arith} {d s k : Operand} {l : List Instr}

/-- The code of a binary operation with a constant does what the code with the constant in a
register does. -/
theorem arithCode_of_arithCstCode (h : arithCstCode level a d s k = .ok l) :
    ∃ m, arithCode level a d s k = .ok m ∧ ∀ c : Core, ∃ c₁ c₂,
      c.run? l = some c₁ ∧ c.run? m = some c₂ ∧ EqOff constantScratch c₂ c₁ := by
  obtain ⟨-, rd, ra, la, mid, lc, hrd, ha, hb, hc, rfl, hmid⟩ := arithCstCode_eq_ok h
  have hra : ra ≠ .r2 := Access.ne_of_use ha (by decide) (by decide)
  have hrd2 : rd ≠ .r2 := Access.ne_of_define hrd (by decide) (by decide)
  refine ⟨la ++ Constant.load .r2 k.low ++ [.alu a.direct false rd ra (.plain .r2)] ++ lc, ?_,
    fun c => ?_⟩
  · simp only [arithCode, Except.bind_eq_ok_iff, Except.pure_eq_ok_iff]
    exact ⟨rd, hrd, (ra, la), ha, _, hb, lc, hc, rfl⟩
  obtain ⟨c₀, h₀⟩ := exists_run?_use (c := c) ha
  let v := a.eval (c₀.regs ra) k.low
  have hreg : c₀.run? (Constant.load .r2 k.low ++ [.alu a.direct false rd ra (.plain .r2)]) =
      some ((c₀.set .r2 k.low).set rd v) := by
    rw [run?_append_of_eq run?_load, run?_singleton, effect?_alu, Arith.fst_eval_direct,
      fst_eval_plain, regs_set_self, regs_set_of_ne hra]
  obtain ⟨c₁, h₁, heq⟩ : ∃ c₁, c₀.run? mid = some c₁ ∧
      EqOff constantScratch ((c₀.set .r2 k.low).set rd v) c₁ := by
    rcases hmid with ⟨op, i, hi, rfl⟩ | rfl
    · have heq : EqOff constantScratch (c₀.set rd v) ((c₀.set .r2 k.low).set rd v) :=
        ((EqOff.refl _ c₀).set (by decide)).set_set
      refine ⟨c₀.set rd v, ?_, heq.symm⟩
      rw [run?_singleton, effect?_alu, Operand2.eval, Arith.fst_eval_immediate? hi]
    · exact ⟨_, hreg, .refl _ _⟩
  obtain ⟨c₂', c₁', h₂', h₁', heq'⟩ := heq.run?_commit hrd2 hc
  refine ⟨c₁', c₂', ?_, ?_, heq'⟩
  · rw [List.append_assoc, run?_append_of_eq h₀, run?_append_of_eq h₁, h₁']
  · rw [List.append_assoc la, List.append_assoc la, run?_append_of_eq h₀, run?_append_of_eq hreg,
      h₂']

end Straight

namespace Lower

open A32Lowering.Core (EqOff constantScratch)

variable {u t : Session} {x : Statement} {a : Arith} {k : Operand}

/-- A binary operation with a constant. When its statement is lowered, the operation with two
operands in registers can be lowered too, with the constant loaded into a scratch register. Executed
from the same core, both codes come to their ends with the same registers, memory and flags but for
the scratch register, whichever form the constant has. -/
theorem immediate_transparent [Helper.Entries] (hx : x.op = a.op) (hk : x.src2 = some k)
    (hc : k.kind = .constant) (h : outcome (statement x) u = (.ok (), t)) :
    ∃ t', outcome (action x (.straight (.arith a))) u = (.ok (), t') ∧
      ∀ {image image' : UInt32 → Option UInt32} {org org' : UInt32},
        t.stream.code.LoadedFrom u.stream.size image org →
        t'.stream.code.LoadedFrom u.stream.size image' org' → ∀ c : Core, ∃ c₁ c₂ : Core,
          Machine.Reaches image (c.machineAt org u.stream.size)
            (c₁.machineAt org t.stream.size) ∧
          Machine.Reaches image' (c.machineAt org' u.stream.size)
            (c₂.machineAt org' t'.stream.size) ∧
          EqOff constantScratch c₂ c₁ := by
  obtain ⟨r, hsel, -⟩ := outcome_check_bind_eq_ok_iff.mp h
  have hact := Rules.select_arith hx hk hc hsel
  rw [outcome_statement_eq_action hsel, hact] at h
  obtain ⟨l, hl, hp⟩ := outcome_straight.mp h
  have hgl := Straight.general (Rules.kindInRange (Rules.select_eq_ok hsel).1 hact) hl
  cases Straight.code_eq_ok_iff.mp hl with | arithCst hd hs hk' hl
  obtain ⟨m, hm, hrun⟩ := Straight.arithCode_of_arithCstCode hl
  have hcode : (Straight.arith a).code u.level x = .ok m :=
    Straight.code_eq_ok_iff.mpr (.arith hd hs hk' hm)
  have hgm := Straight.general (a := .arith a) trivial hcode
  have hp' := Session.placeAll_instrs u m
  refine ⟨_, outcome_straight.mpr ⟨m, hcode, hp'⟩, fun himage himage' c => ?_⟩
  obtain ⟨c₁, c₂, h₁, h₂, heq⟩ := hrun c
  exact ⟨c₁, c₂, Session.reaches_placeAll hp himage hgl h₁,
    Session.reaches_placeAll hp' himage' hgm h₂, heq⟩

/-- A conjunction whose constant is an immediate only as a complement. -/
def clearLowByte : Statement :=
  { op := .and, dst := some (.temporary 4), src1 := some (.relative 8),
    src2 := some (.constant 0xFFFFFF00) }

theorem immediate_transparent_clearLowByte :
    ∃ t t', outcome (statement clearLowByte) (.fresh false .absent) = (.ok (), t) ∧
      outcome (action clearLowByte (.straight (.arith .and))) (.fresh false .absent) =
        (.ok (), t') ∧
      ∀ c : Core, ∃ c₁ c₂ : Core,
        Machine.Reaches (t.stream.code.image 0x8000) (c.machineAt 0x8000 0)
          (c₁.machineAt 0x8000 t.stream.size) ∧
        Machine.Reaches (t'.stream.code.image 0x9000) (c.machineAt 0x9000 0)
          (c₂.machineAt 0x9000 t'.stream.size) ∧
        EqOff constantScratch c₂ c₁ := by
  have hok : (outcome (statement clearLowByte) (.fresh false .absent)).1 = .ok () := by
    decide +kernel
  obtain ⟨t', h', hrun⟩ := immediate_transparent (x := clearLowByte) (a := .and) rfl rfl rfl
    (Prod.ext hok rfl)
  obtain rfl : _ = t' := congrArg Prod.snd h'
  have hsize : (outcome (statement clearLowByte)
      (.fresh false .absent)).2.stream.code.size ≤ 2 ^ 32 := by decide +kernel
  have hsize' : (outcome (action clearLowByte (.straight (.arith .and)))
      (.fresh false .absent)).2.stream.code.size ≤ 2 ^ 32 := by decide +kernel
  exact ⟨_, _, Prod.ext hok rfl, h', fun c =>
    hrun ((Code.loadedAt_image hsize 0x8000).loadedFrom 0)
      ((Code.loadedAt_image hsize' 0x9000).loadedFrom 0) c⟩

end Lower

end A32Lowering
