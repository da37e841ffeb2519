import Mathlib
import A32Lowering.Proofs.Accessible
import A32Lowering.Proofs.Emission

/-!
# Comparisons with constants

A register is compared with a constant by the constant as an immediate, by its negation as one, or
by a register that the constant is built in. Each of them leaves the four flags of a comparison with
the constant. Adding the negation does not have the carry of the comparison for zero and not its
overflow for the least number, but both of these are immediates themselves and never come to be
negated. So behind the code every condition can be read from the flags, and the two moves that
follow a comparison leave one or zero.

## Main definitions

* `Constant.Direct` : the constants that are compared with without another register.

## Main results

* `CompareOp.eval_cmp` : what the four flags of a comparison say.
* `Constant.succeeds_compare_iff` : when a comparison has code.
* `Lower.compare_sets_flags` : what the code of a comparison with a constant does.
-/

namespace A32Lowering

/-- The constants that are compared with or added without another register, since they or their
negations are immediates. -/
def Constant.Direct (v : UInt32) : Prop :=
  (Immediate.ofWord? v).isSome = true ∨ (Immediate.ofWord? (-v)).isSome = true

instance (v : UInt32) : Decidable (Constant.Direct v) :=
  inferInstanceAs (Decidable (_ ∨ _))

/-- The four flags of a comparison: the sign of the difference, whether it is zero, whether the
first word is not below the second one, and whether the difference of the signed numbers is none of
thirty-two bits. -/
theorem CompareOp.eval_cmp (a b : UInt32) : CompareOp.cmp.eval a b =
    ⟨(a - b).toBitVec.msb, a = b, b ≤ a,
      a.toBitVec.toInt - b.toBitVec.toInt ≠ (a - b).toBitVec.toInt⟩ :=
  congrArg Prod.snd (addWithCarry_not a b)

namespace Constant

variable {rn scratch : Reg} {v : UInt32} {l : List Instr}

/-- A comparison has code unless the constant is to be built in the register that is compared. -/
theorem succeeds_compare_iff :
    Succeeds (compare rn v scratch) ↔ Direct v ∨ rn ≠ scratch := by
  unfold compare Direct
  split
  next i hi => simp [hi]
  next i hn hi => simp [hn, hi]
  next hn hn' =>
    split_ifs with hr
    · simp [hn, hn', hr, Succeeds]
    · simp [hr]

/-- A constant that needs no other register is compared with in one instruction. -/
theorem compare_of_direct (h : compare rn v scratch = .ok l) (hd : Direct v) :
    ∃ op i, l = [.compare op rn (.imm i)] := by
  unfold compare at h
  split at h
  next i _ => exact ⟨_, i, (Except.ok.inj h).symm⟩
  next i _ _ => exact ⟨_, i, (Except.ok.inj h).symm⟩
  next hn hn' => simp [Direct, hn, hn'] at hd

end Constant

/-- The core behind a comparison with a constant differs only in the flags, which are those of the
comparison, and in the scratch register when the constant is built there. -/
theorem Core.run?_compareConstant {c : Core} {rn scratch : Reg} {v : UInt32} {l : List Instr}
    (h : Constant.compare rn v scratch = .ok l) : ∃ c', c.run? l = some c' ∧
      c'.flags = CompareOp.cmp.eval (c.regs rn) v ∧ c'.mem = c.mem ∧
      ∀ r, (r = scratch → Constant.Direct v) → c'.regs r = c.regs r := by
  obtain ⟨c', hrun, hflags, hmem, hregs⟩ := Core.run?_compare (c := c) h
  refine ⟨c', hrun, hflags, hmem, fun r hr => ?_⟩
  by_cases he : r = scratch
  · obtain ⟨op, i, rfl⟩ := Constant.compare_of_direct h (hr he)
    obtain rfl := Option.some.inj hrun
    rfl
  · exact hregs r he

namespace Lower

variable {u t : Session} {rn rd scratch : Reg} {v a b : UInt32} {cond : Condition}
  {image : UInt32 → Option UInt32} {org : UInt32} {l : List Instr}
  {r : Except Fault (List Instr)}

/-- Code is written exactly when there is code. -/
theorem exists_outcome_emitChecked :
    (∃ t, outcome (emitChecked r) u = (.ok (), t)) ↔ Succeeds r := by
  simp only [outcome_emitChecked_eq_ok_iff, Succeeds]
  exact ⟨fun ⟨_, l, hl, _⟩ => ⟨l, hl⟩, fun ⟨l, hl⟩ => ⟨_, l, hl, rfl⟩⟩

/-- Code that was written runs from the old end of the stream to the new one. -/
theorem reaches_emitChecked (h : outcome (emitChecked r) u = (.ok (), t)) (hl : r = .ok l)
    (hg : General l) (himage : t.stream.code.LoadedFrom u.stream.size image org) {c c' : Core}
    (hrun : c.run? l = some c') :
    Machine.Reaches image (c.machineAt org u.stream.size) (c'.machineAt org t.stream.size) := by
  obtain ⟨m, hm, rfl⟩ := outcome_emitChecked_eq_ok_iff.mp h
  obtain rfl := Except.ok.inj (hl.symm.trans hm)
  exact Session.reaches_placeAll (Session.placeAll_instrs u l) himage hg hrun

/-- The two moves behind a comparison leave one or zero. -/
theorem reaches_flag (hrd : rd.General)
    (h : outcome (emitChecked (Straight.flag rd cond)) u = (.ok (), t))
    (himage : t.stream.code.LoadedFrom u.stream.size image org) {c : Core}
    (hf : c.flags = CompareOp.cmp.eval a b) :
    Machine.Reaches image (c.machineAt org u.stream.size)
      ((c.set rd (if cond.holds a b then 1 else 0)).machineAt org t.stream.size) := by
  obtain ⟨l, hl, -⟩ := outcome_emitChecked_eq_ok_iff.mp h
  exact reaches_emitChecked h hl (Straight.general_flag hrd hl) himage (Core.run?_flag hl hf)

/-- What the code of a comparison with a constant does. There is such code unless the constant
would be built in the register that is compared. Executed with any values, it leaves the flags of
the comparison of the register with the constant and changes nothing else, the scratch register
apart when the constant is built there. Then for each of the ten conditions its condition code holds
exactly when the condition does and the inverse of the code exactly when it does not, and the two
moves for the condition leave one or zero in their register and change nothing else. -/
theorem compare_sets_flags (u : Session) (hrn : rn.General) (hscratch : scratch.General)
    (v : UInt32) :
    ((∃ t, outcome (emitChecked (Constant.compare rn v scratch)) u = (.ok (), t)) ↔
      Constant.Direct v ∨ rn ≠ scratch) ∧
    ∀ t, outcome (emitChecked (Constant.compare rn v scratch)) u = (.ok (), t) →
      ∀ {image : UInt32 → Option UInt32} {org : UInt32},
        t.stream.code.LoadedFrom u.stream.size image org → ∀ c : Core, ∃ c' : Core,
          Machine.Reaches image (c.machineAt org u.stream.size) (c'.machineAt org t.stream.size) ∧
          c'.flags = CompareOp.cmp.eval (c.regs rn) v ∧ c'.mem = c.mem ∧
          (∀ r, (r = scratch → Constant.Direct v) → c'.regs r = c.regs r) ∧
          ∀ cond ∈ Condition.named,
            (∃ cc, CondCode.ofCondition cond = .ok cc ∧
              cc.holds c'.flags = cond.holds (c.regs rn) v ∧
              cc.inverse.holds c'.flags = !cond.holds (c.regs rn) v) ∧
            ∀ rd : Reg, rd.General →
              ∃ t', outcome (emitChecked (Straight.flag rd cond)) t = (.ok (), t') ∧
                ∀ {image : UInt32 → Option UInt32} {org : UInt32},
                  t'.stream.code.LoadedFrom t.stream.size image org →
                  Machine.Reaches image (c'.machineAt org t.stream.size)
                    ((c'.set rd (if cond.holds (c.regs rn) v then 1 else 0)).machineAt org
                      t'.stream.size) := by
  refine ⟨exists_outcome_emitChecked.trans Constant.succeeds_compare_iff, ?_⟩
  intro t h image org himage c
  obtain ⟨l, hl, -⟩ := outcome_emitChecked_eq_ok_iff.mp h
  obtain ⟨c', hrun, hflags, hmem, hregs⟩ := Core.run?_compareConstant (c := c) hl
  have hreach := reaches_emitChecked h hl (Constant.general_compare hrn hscratch hl) himage hrun
  refine ⟨c', hreach, hflags, hmem, hregs, fun cond hcond => ⟨?_, fun rd hrd => ?_⟩⟩
  · obtain ⟨cc, hcc⟩ := (Straight.succeeds_ofCondition cond).mpr hcond
    have hholds : cc.holds c'.flags = cond.holds (c.regs rn) v :=
      hflags ▸ CondCode.holds_ofCondition hcc (c.regs rn) v
    exact ⟨cc, hcc, hholds, (CondCode.holds_inverse hcc c'.flags).trans (congrArg (!·) hholds)⟩
  · obtain ⟨t', ht'⟩ := exists_outcome_emitChecked.mpr
      ((Straight.succeeds_flag (r := rd)).mpr hcond)
    exact ⟨t', ht', fun himage' => reaches_flag hrd ht' himage' hflags⟩

/-- A core that has the least signed number in every register. -/
def leastIntegers : Core where
  regs _ := 0x80000000
  mem _ := 0
  flags := ⟨false, false, false, false⟩

/-- The least signed number compared with minus one, which is no immediate while its negation is
one: it is less, there is no overflow, and the moves for the condition leave one. -/
theorem compare_sets_flags_leastIntegers :
    ∃ t, outcome (emitChecked (Constant.compare .r5 0xFFFFFFFF .r2)) (.fresh false .absent) =
        (.ok (), t) ∧
      ∃ c' : Core,
        Machine.Reaches (t.stream.code.image 0x8000) (leastIntegers.machineAt 0x8000 0)
          (c'.machineAt 0x8000 t.stream.size) ∧
        c'.flags = ⟨true, false, false, false⟩ ∧
        (∀ r, c'.regs r = leastIntegers.regs r) ∧
        ∃ t', outcome (emitChecked (Straight.flag .r4 .lt)) t = (.ok (), t') ∧
          Machine.Reaches (t'.stream.code.image 0x8000) (c'.machineAt 0x8000 t.stream.size)
            ((c'.set .r4 1).machineAt 0x8000 t'.stream.size) := by
  have hdirect : Constant.Direct 0xFFFFFFFF := by decide +kernel
  have h5 : Reg.r5.General := by decide
  have h2 : Reg.r2.General := by decide
  obtain ⟨hok, hruns⟩ := compare_sets_flags (.fresh false .absent) h5 h2 0xFFFFFFFF
  obtain ⟨t, ht⟩ := hok.mpr (.inl hdirect)
  obtain rfl : _ = t := congrArg Prod.snd ht
  have hsize : (outcome (emitChecked (Constant.compare .r5 0xFFFFFFFF .r2))
      (.fresh false .absent)).2.stream.code.size ≤ 2 ^ 32 := by decide +kernel
  obtain ⟨c', hreach, hflags, -, hregs, hconds⟩ := hruns _ ht
    ((Code.loadedAt_image hsize 0x8000).loadedFrom _) leastIntegers
  obtain ⟨-, hmoves⟩ := hconds .lt (by decide)
  obtain ⟨t', ht', hmove⟩ := hmoves .r4 (by decide)
  obtain rfl : _ = t' := congrArg Prod.snd ht'
  have hsize' : (outcome (emitChecked (Straight.flag .r4 .lt)) (outcome (emitChecked
      (Constant.compare .r5 0xFFFFFFFF .r2)) (.fresh false .absent)).2).2.stream.code.size ≤
        2 ^ 32 := by decide +kernel
  exact ⟨_, ht, c', hreach, hflags.trans (by decide), fun r => hregs r fun _ => hdirect, _, ht',
    hmove ((Code.loadedAt_image hsize' 0x8000).loadedFrom _)⟩

end Lower

end A32Lowering
