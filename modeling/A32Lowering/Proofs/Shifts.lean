import Mathlib
import A32Lowering.Proofs.Computation
import A32Lowering.Proofs.Emission
import A32Lowering.Proofs.Simulation
import A32Lowering.Proofs.Success

/-!
# Shifts by constants and by variables

A constant amount is taken modulo thirty-two when the code is written, and a shift by a variable
takes the lowest byte of the variable when the code is executed; an amount of thirty-two and more
then shifts all bits out. So the two forms of a shift agree on the amounts whose lowest byte is
below thirty-two, and for other amounts only when the value happens to have the same result for
both.

## Main definitions

* `Op.isShift`, `Op.shifted` : the shifts, and what they do with a word.

## Main results

* `Op.shifted_of_le` : amounts of thirty-two and more do what thirty-two does.
* `Lower.reaches_shift` : what the code of a shift leaves in its destination.
* `Lower.shift_agrees_iff` : when the two forms agree.
-/

namespace A32Lowering

namespace Op

/-- The shifts. -/
def isShift : Op → Bool
  | .srl | .sra | .sll => true
  | _ => false

/-- A word moved by a number of bits: to the right without or with its sign, or to the left. -/
def shifted (v : UInt32) (n : Nat) : Op → UInt32
  | .srl => ⟨v.toBitVec >>> n⟩
  | .sra => ⟨v.toBitVec.sshiftRight n⟩
  | .sll => ⟨v.toBitVec <<< n⟩
  | _ => 0

variable {op : Op} {v : UInt32} {n : Nat}

theorem sshiftRight_of_le {w : Nat} (x : BitVec w) (h : w ≤ n) :
    x.sshiftRight n = x.sshiftRight w := by
  refine BitVec.eq_of_getLsbD_eq fun i hi => ?_
  have hn : ¬ n + i < w := by omega
  have hw : ¬ w + i < w := by omega
  simp only [BitVec.getLsbD_sshiftRight, hn, hw, if_false]

/-- Amounts of thirty-two and more do what thirty-two does. -/
theorem shifted_of_le (h : 32 ≤ n) : op.shifted v n = op.shifted v 32 := by
  unfold shifted
  split
  · rw [BitVec.ushiftRight_eq_zero h, BitVec.ushiftRight_eq_zero (Nat.le_refl 32)]
  · rw [sshiftRight_of_le _ h]
  · rw [BitVec.shiftLeft_eq_zero h, BitVec.shiftLeft_eq_zero (Nat.le_refl 32)]
  · rfl

/-- The amounts for which five bits of them do what eight bits do. -/
theorem shifted_mod_eq_iff (op : Op) (v : UInt32) (n : Nat) :
    op.shifted v (n % 32) = op.shifted v (n % 256) ↔
      n % 256 < 32 ∨ op.shifted v (n % 32) = op.shifted v 32 := by
  by_cases h : n % 256 < 32
  · have hmod : n % 32 = n % 256 := by omega
    simp only [hmod, h, true_or]
  · rw [shifted_of_le (not_lt.mp h)]
    simp only [h, false_or]

end Op

theorem Statement.result_of_isShift {val : Operand → UInt32} {x : Statement}
    (hx : x.op.isShift = true) {s o : Operand} (h1 : x.src1 = some s) (h2 : x.src2 = some o) :
    x.result val = x.op.shifted (val s) (amount val o) := by
  cases ho : x.op with
  | srl | sra | sll => simp only [result, result₂, ho, h1, h2, Op.shifted]
  | _ => simp [ho, Op.isShift] at hx

/-- What is put into a destination is there. -/
theorem Core.value_put_self {c : Core} {d : Operand} {pref r : Reg} {v : UInt32}
    (h : Access.define d pref = .ok r) : (c.put d v).storage.value d = v := by
  rcases Access.define_eq_ok h with ⟨hk, hr⟩ | ⟨hm, -⟩
  · rw [put_register hk hr, value_register hk hr, regs_set_self]
  · rcases (by simpa [Operand.isMemory] using hm : d.kind = .temporary ∨ d.kind = .relative) with
      hk | hk <;>
      simp only [put, hk, Storage.value, storage, regs_store, mem_store, Memory.word_setWord_self]

/-! ### Code of shifts -/

/-- The rules for shifts take any amount. -/
theorem Rules.of_isShift {r : Rule Action} (hr : r ∈ general ++ wide)
    (hx : r.shape.op.isShift = true) :
    r.shape.src2 = .any ∧ ∃ kind, r.action = .straight (.shift kind) := by
  have hall : ∀ r ∈ general ++ wide, r.shape.op.isShift = true →
      r.shape.src2 = .any ∧ (r.action = .straight (.shift .lsr) ∨
        r.action = .straight (.shift .asr) ∨ r.action = .straight (.shift .lsl)) := by decide
  obtain ⟨hsrc, h | h | h⟩ := hall r hr hx <;> exact ⟨hsrc, _, h⟩

namespace Straight

variable {level : UInt32} {kind : ShiftKind} {d s o k : Operand} {l : List Instr}

/-- A shift by a constant has code when a shift by anything has. -/
theorem shiftCode_constant (kind' : ShiftKind) (hk : k.kind = .constant)
    (h : shiftCode level kind d s o = .ok l) : ∃ m, shiftCode level kind' d s k = .ok m := by
  simp only [shiftCode, Except.bind_eq_ok_iff, Except.pure_eq_ok_iff] at h
  obtain ⟨rd, hrd, ⟨ra, la⟩, ha, _, -, lc, hc, -⟩ := h
  obtain ⟨p, hp⟩ : ∃ p, Access.shift level kind' k .r2 = .ok p := by
    simp [Access.shift, hk, Operand.isMemory]
  simp only [shiftCode, Except.bind_eq_ok_iff, Except.pure_eq_ok_iff]
  exact ⟨_, rd, hrd, (ra, la), ha, p, hp, lc, hc, rfl⟩

end Straight

namespace Lower

variable {u t : Session} {x : Statement} {d s o k : Operand}

/-- What lowering a shift needs: the operands, and code of the one rule for it. -/
theorem outcome_shift [Helper.Entries] (hx : x.op.isShift = true)
    (h : outcome (statement x) u = (.ok (), t)) :
    ∃ r kind d s o l, Rules.select x = .ok r ∧ r.action = .straight (.shift kind) ∧
      x.dst = some d ∧ x.src1 = some s ∧ x.src2 = some o ∧
      Straight.shiftCode u.level kind d s o = .ok l ∧ u.placeAll (l.map .instr) = some t := by
  obtain ⟨r, hsel, -⟩ := outcome_check_bind_eq_ok_iff.mp h
  have hop := Rules.op_of_select hsel
  obtain ⟨-, kind, ha⟩ := Rules.of_isShift (Rules.select_eq_ok hsel).1 (hop ▸ hx)
  rw [outcome_statement_eq_action hsel, ha] at h
  obtain ⟨l, hcode, hp⟩ := outcome_straight.mp h
  cases Straight.code_eq_ok_iff.mp hcode with | shift hd hs ho hshift
  exact ⟨r, kind, _, _, _, l, hsel, ha, hd, hs, ho, hshift, hp⟩

/-- What the code of a shift leaves in its destination. -/
theorem reaches_shift [Helper.Entries] (hl : u.level = 0) (hx : x.op.isShift = true)
    (hd : x.dst = some d) (hs : x.src1 = some s) (ho : x.src2 = some o)
    (h : outcome (statement x) u = (.ok (), t)) {image : UInt32 → Option UInt32} {org : UInt32}
    (himage : t.stream.code.LoadedFrom u.stream.size image org) (c : Core) : ∃ c' : Core,
      Machine.Reaches image (c.machineAt org u.stream.size) (c'.machineAt org t.stream.size) ∧
      c'.storage.value d =
        x.op.shifted (c.storage.value s) (Statement.amount c.storage.value o) := by
  obtain ⟨r, kind, d', s', o', l, hsel, ha, hd', hs', ho', hshift, hp⟩ := outcome_shift hx h
  obtain rfl := Option.some.inj (hd.symm.trans hd')
  have hcode : Straight.code 0 x (.shift kind) = .ok l :=
    Straight.code_eq_ok_iff.mpr (.shift hd' hs' ho' (hl ▸ hshift))
  have hbasic : x.op.isBasic = true := by
    revert hx
    cases x.op <;> simp [Op.isShift, Op.isBasic]
  obtain ⟨c', hrun, hsame⟩ := Straight.run?_code (c := c) hsel ha hbasic hcode
  obtain ⟨rd, hrd, -⟩ := Except.bind_eq_ok_iff.mp hshift
  have hreach := Session.reaches_placeAll hp himage
    (Straight.general (Rules.kindInRange (Rules.select_eq_ok hsel).1 ha) hcode) hrun
  refine ⟨c', hreach, ?_⟩
  rw [hsame.storage_eq, Straight.apply_of_dst hd, Core.value_put_self hrd,
    Statement.result_of_isShift hx hs ho]

/-- A shift by a constant can be lowered when the same shift by anything can be. -/
theorem outcome_shift_constant [Helper.Entries] (hx : x.op.isShift = true)
    (hk : k.kind = .constant) (h : outcome (statement x) u = (.ok (), t)) :
    ∃ t', outcome (statement { x with src2 := some k }) u = (.ok (), t') := by
  obtain ⟨r, _, d, s, o, l, hsel, -, hd, hs, -, hshift, -⟩ := outcome_shift hx h
  obtain ⟨hmem, hadm⟩ := Rules.select_eq_ok hsel
  obtain ⟨hop, hdst, hsrc, -⟩ := Shape.admits_iff.mp hadm
  have hany : r.shape.src2.admits (some k) = true := by
    rw [(Rules.of_isShift hmem (hop ▸ hx)).1]
    simp [Pattern.admits, Pattern.admitsOperand, hk]
  have hadm' : r.shape.admits { x with src2 := some k } = true :=
    Shape.admits_iff.mpr ⟨hop, hdst, hsrc, hany⟩
  obtain ⟨r', hsel'⟩ := Rules.succeeds_select.mpr ⟨r, hmem, hadm'⟩
  obtain ⟨hmem', hadm'⟩ := Rules.select_eq_ok hsel'
  have hop' : x.op = r'.shape.op := (Shape.admits_iff.mp hadm').1
  obtain ⟨-, kind, ha⟩ := Rules.of_isShift hmem' (hop' ▸ hx)
  obtain ⟨m, hm⟩ := Straight.shiftCode_constant kind hk hshift
  rw [outcome_statement_eq_action hsel', ha]
  refine ⟨_, outcome_straight.mpr ⟨m, ?_, Session.placeAll_instrs ..⟩⟩
  simp only [Straight.code, hd, hs]
  exact hm

/-- A shift by a constant and the same shift by a variable that holds the constant. When the second
one can be lowered, so can the first. Executed from the same core, the first shifts by the constant
modulo thirty-two and the second by its lowest byte. So they leave the same value in the destination
exactly when the lowest byte is below thirty-two or the value that is shifted does not tell the
difference. -/
theorem shift_agrees_iff [Helper.Entries] (hl : u.level = 0) (hx : x.op.isShift = true)
    (ho : x.src2 = some o) (hvar : o.kind ≠ .constant) (hk : k.kind = .constant)
    (h : outcome (statement x) u = (.ok (), t)) :
    ∃ d s t', x.dst = some d ∧ x.src1 = some s ∧
      outcome (statement { x with src2 := some k }) u = (.ok (), t') ∧
      ∀ {image image' : UInt32 → Option UInt32} {org org' : UInt32},
        t.stream.code.LoadedFrom u.stream.size image org →
        t'.stream.code.LoadedFrom u.stream.size image' org' →
        ∀ c : Core, c.storage.value o = k.low → ∃ c₁ c₂ : Core,
          Machine.Reaches image' (c.machineAt org' u.stream.size)
            (c₁.machineAt org' t'.stream.size) ∧
          c₁.storage.value d = x.op.shifted (c.storage.value s) (k.low.toNat % 32) ∧
          Machine.Reaches image (c.machineAt org u.stream.size)
            (c₂.machineAt org t.stream.size) ∧
          c₂.storage.value d = x.op.shifted (c.storage.value s) (k.low.toNat % 256) ∧
          (c₁.storage.value d = c₂.storage.value d ↔ k.low.toNat % 256 < 32 ∨
            x.op.shifted (c.storage.value s) (k.low.toNat % 32) =
              x.op.shifted (c.storage.value s) 32) := by
  obtain ⟨-, -, d, s, -, -, -, -, hd, hs, -, -, -⟩ := outcome_shift hx h
  obtain ⟨t', h'⟩ := outcome_shift_constant hx hk h
  refine ⟨d, s, t', hd, hs, h', fun himage himage' c hc => ?_⟩
  obtain ⟨c₁, hr₁, hv₁⟩ :=
    reaches_shift (x := { x with src2 := some k }) hl hx hd hs rfl h' himage' c
  obtain ⟨c₂, hr₂, hv₂⟩ := reaches_shift hl hx hd hs ho h himage c
  rw [Statement.amount, if_pos hk] at hv₁
  rw [Statement.amount, if_neg hvar, hc] at hv₂
  refine ⟨c₁, c₂, hr₁, hv₁, hr₂, hv₂, ?_⟩
  rw [hv₁, hv₂]
  exact Op.shifted_mod_eq_iff ..

/-- A shift to the right by the value of a register. -/
def shiftRight : Statement :=
  { op := .srl, dst := some (.register 0), src1 := some (.register 1), src2 := some (.register 2) }

/-- A core that has thirty-two in the register with the amount. -/
def wideAmount : Core := Session.caller.set .r6 32

theorem shift_agrees_iff_shiftRight :
    ∃ t d s t', outcome (statement shiftRight) (.fresh false .absent) = (.ok (), t) ∧
      shiftRight.dst = some d ∧ shiftRight.src1 = some s ∧
      outcome (statement { shiftRight with src2 := some (.constant 32) })
        (.fresh false .absent) = (.ok (), t') ∧
      ∃ c₁ c₂ : Core,
        Machine.Reaches (t'.stream.code.image 0x9000) (wideAmount.machineAt 0x9000 0)
          (c₁.machineAt 0x9000 t'.stream.size) ∧
        c₁.storage.value d = Op.srl.shifted (wideAmount.storage.value s) (32 % 32) ∧
        Machine.Reaches (t.stream.code.image 0x8000) (wideAmount.machineAt 0x8000 0)
          (c₂.machineAt 0x8000 t.stream.size) ∧
        c₂.storage.value d = Op.srl.shifted (wideAmount.storage.value s) (32 % 256) ∧
        (c₁.storage.value d = c₂.storage.value d ↔ 32 % 256 < 32 ∨
          Op.srl.shifted (wideAmount.storage.value s) (32 % 32) =
            Op.srl.shifted (wideAmount.storage.value s) 32) := by
  have hok : (outcome (statement shiftRight) (.fresh false .absent)).1 = .ok () := by
    decide +kernel
  obtain ⟨d, s, t', hd, hs, h', hrun⟩ := shift_agrees_iff (x := shiftRight)
    (u := .fresh false .absent) (o := .register 2) (k := .constant 32) rfl rfl rfl (by decide) rfl
    (Prod.ext hok rfl)
  obtain rfl : _ = t' := congrArg Prod.snd h'
  have hsize : (outcome (statement shiftRight)
      (.fresh false .absent)).2.stream.code.size ≤ 2 ^ 32 := by decide +kernel
  have hsize' : (outcome (statement { shiftRight with src2 := some (.constant 32) })
      (.fresh false .absent)).2.stream.code.size ≤ 2 ^ 32 := by decide +kernel
  exact ⟨_, d, s, _, Prod.ext hok rfl, hd, hs, h',
    hrun ((Code.loadedAt_image hsize 0x8000).loadedFrom 0)
      ((Code.loadedAt_image hsize' 0x9000).loadedFrom 0) wideAmount (by decide +kernel)⟩

/-- The two forms of a shift by thirty-two: the constant leaves the value alone, and the variable
shifts all bits out. -/
theorem shift_disagrees_shiftRight :
    ∃ t t', outcome (statement shiftRight) (.fresh false .absent) = (.ok (), t) ∧
      outcome (statement { shiftRight with src2 := some (.constant 32) })
        (.fresh false .absent) = (.ok (), t') ∧
      wideAmount.storage.value (.register 2) = 32 ∧
      ∃ c₁ c₂ : Core,
        Machine.Reaches (t'.stream.code.image 0x8000) (wideAmount.machineAt 0x8000 0)
          (c₁.machineAt 0x8000 t'.stream.size) ∧
        Machine.Reaches (t.stream.code.image 0x8000) (wideAmount.machineAt 0x8000 0)
          (c₂.machineAt 0x8000 t.stream.size) ∧
        c₁.storage.value (.register 0) = 3 ∧ c₂.storage.value (.register 0) = 0 := by
  have hok : (outcome (statement shiftRight) (.fresh false .absent)).1 = .ok () := by
    decide +kernel
  have hok' : (outcome (statement { shiftRight with src2 := some (.constant 32) })
      (.fresh false .absent)).1 = .ok () := by decide +kernel
  have hsize : (outcome (statement shiftRight)
      (.fresh false .absent)).2.stream.code.size ≤ 2 ^ 32 := by decide +kernel
  have hsize' : (outcome (statement { shiftRight with src2 := some (.constant 32) })
      (.fresh false .absent)).2.stream.code.size ≤ 2 ^ 32 := by decide +kernel
  obtain ⟨c₂, hr₂, hv₂⟩ := reaches_shift (x := shiftRight) rfl rfl rfl rfl rfl
    (Prod.ext hok rfl) ((Code.loadedAt_image hsize 0x8000).loadedFrom 0) wideAmount
  obtain ⟨c₁, hr₁, hv₁⟩ := reaches_shift (x := { shiftRight with src2 := some (.constant 32) })
    rfl rfl rfl rfl rfl (Prod.ext hok' rfl) ((Code.loadedAt_image hsize' 0x8000).loadedFrom 0)
    wideAmount
  exact ⟨_, _, Prod.ext hok rfl, Prod.ext hok' rfl, by decide +kernel, c₁, c₂, hr₁, hr₂,
    hv₁.trans (by decide +kernel), hv₂.trans (by decide +kernel)⟩

end Lower

end A32Lowering
