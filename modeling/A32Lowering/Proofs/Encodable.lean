import Mathlib
import A32Lowering.Proofs.Accessible
import A32Lowering.Proofs.Assembly
import A32Lowering.Proofs.Machine

/-!
# The instructions of lowering can be encoded

Every instruction that lowering writes has operands that fit into their fields, and apart from the
two moves of a call none of them names the program counter. So its word is read as the same
instruction.

## Main definitions

* `Instr.General` : an instruction with operands that fit, without the program counter.
* `Item.Encodable` : an item whose word can be read again.

## Main results

* `Straight.general` : the instructions of a straight-line lowering are general.
* `Program.encodable_assemble` : the items of a function can be encoded.
-/

namespace A32Lowering

/-- A register other than the program counter. -/
def Reg.General (r : Reg) : Prop := r.code.toNat < 15

instance (r : Reg) : Decidable r.General := inferInstanceAs (Decidable (_ < _))

/-- A second operand with fields that fit, without the program counter. -/
def Operand2.General : Operand2 → Prop
  | imm _ => True
  | reg r (.byAmount kind _) => r.General ∧ kind.InRange
  | reg r (.byRegister kind s) => r.General ∧ kind.InRange ∧ s.General

/-- An instruction with operands that fit into their fields, without the program counter. -/
@[simp] def Instr.General : Instr → Prop
  | alu _ _ rd rn op2 => rd.General ∧ rn.General ∧ op2.General
  | compare _ rn op2 => rn.General ∧ op2.General
  | move _ cond rd op2 => cond.InRange ∧ rd.General ∧ op2.General
  | movw rd _ | movt rd _ => rd.General
  | ldr rd rn _ | str rd rn _ => rd.General ∧ rn.General
  | stmdb rn s | ldmia rn s => rn.General ∧ ∀ r ∈ s.regs, r.General
  | bx rm => rm.General
  | branch _ _ => False
  | mull _ lo hi rn rm => lo.General ∧ hi.General ∧ rn.General ∧ rm.General

theorem Reg.General.inRange {r : Reg} (h : r.General) : r.InRange := Nat.lt_succ_of_lt h

theorem Reg.General.ne_pc {r : Reg} (h : r.General) : r ≠ .pc := by
  rintro rfl
  exact absurd h (by decide)

theorem Operand2.General.inRange {o : Operand2} (h : o.General) : o.InRange := by
  cases o with
  | imm i => trivial
  | reg r shift => cases shift with
    | byAmount kind n => exact ⟨h.1.inRange, h.2⟩
    | byRegister kind s => exact ⟨h.1.inRange, h.2.1, h.2.2.inRange⟩

theorem Operand2.General.usesPc {o : Operand2} (h : o.General) : o.usesPc = false := by
  cases o with
  | imm i => rfl
  | reg r shift => cases shift with
    | byAmount kind n => simpa [Operand2.usesPc] using h.1.ne_pc
    | byRegister kind s => simpa [Operand2.usesPc] using ⟨h.1.ne_pc, h.2.2.ne_pc⟩

namespace Instr.General

variable {i : Instr}

theorem inRange (h : i.General) : i.InRange := by
  cases i with
  | alu op flags rd rn op2 => exact ⟨h.1.inRange, h.2.1.inRange, h.2.2.inRange⟩
  | compare op rn op2 => exact ⟨h.1.inRange, h.2.inRange⟩
  | move op cond rd op2 => exact ⟨h.1, h.2.1.inRange, h.2.2.inRange⟩
  | movw rd v | movt rd v | bx rd => exact Reg.General.inRange h
  | ldr rd rn off | str rd rn off => exact ⟨h.1.inRange, h.2.inRange⟩
  | stmdb rn s | ldmia rn s => exact h.1.inRange
  | branch => exact h.elim
  | mull signed lo hi rn rm => exact ⟨h.1.inRange, h.2.1.inRange, h.2.2.1.inRange, h.2.2.2.inRange⟩

theorem usesPc (h : i.General) : i.usesPc = false := by
  cases i with
  | alu op flags rd rn op2 => simp [Instr.usesPc, h.1.ne_pc, h.2.1.ne_pc, h.2.2.usesPc]
  | compare op rn op2 => simp [Instr.usesPc, h.1.ne_pc, h.2.usesPc]
  | move op cond rd op2 => simp [Instr.usesPc, h.2.1.ne_pc, h.2.2.usesPc]
  | movw rd v | movt rd v | bx rd => simpa [Instr.usesPc] using Reg.General.ne_pc h
  | ldr rd rn off | str rd rn off => simp [Instr.usesPc, h.1.ne_pc, h.2.ne_pc]
  | stmdb rn s | ldmia rn s =>
    have hs : Reg.pc ∉ s.regs := fun hm => (h.2 _ hm).ne_pc rfl
    simp [Instr.usesPc, h.1.ne_pc, hs]
  | branch => exact h.elim
  | mull signed lo hi rn rm =>
    simp [Instr.usesPc, h.1.ne_pc, h.2.1.ne_pc, h.2.2.1.ne_pc, h.2.2.2.ne_pc]

/-- The word of a general instruction is read as that instruction. -/
theorem decode_encode (h : i.General) : decode i.encode = some (.plain i) :=
  A32Lowering.decode_encode h.inRange fun cond label e => by
    subst e
    exact h

end Instr.General

/-! ### Straight-line code -/

section General

variable {level : UInt32} {r : Reg} {l : List Instr} {s : Operand}

/-- All instructions of a list are general. -/
def General (l : List Instr) : Prop := ∀ i ∈ l, i.General

@[simp] theorem general_nil : General [] := by
  intro i hi
  cases hi

@[simp] theorem general_cons {i : Instr} : General (i :: l) ↔ i.General ∧ General l :=
  List.forall_mem_cons

@[simp] theorem general_append {m : List Instr} : General (l ++ m) ↔ General l ∧ General m :=
  List.forall_mem_append

@[simp] theorem Operand2.general_imm {i : Immediate} : (Operand2.imm i).General := trivial

@[simp] theorem Operand2.general_plain : (Operand2.plain r).General ↔ r.General := by
  simp only [Operand2.plain, Shift.none, Operand2.General, and_iff_left_iff_imp]
  intro _
  decide

theorem CondCode.inRange_ofCondition {c : Condition} {cc : CondCode}
    (h : CondCode.ofCondition c = .ok cc) : cc.InRange ∧ cc.inverse.InRange := by
  unfold CondCode.InRange
  cases c <;> cases h <;> decide

theorem Abi.general_register {i : UInt32} (h : Abi.register i = .ok r) : r.General := by
  have hall : ∀ r ∈ Abi.registers, r.General := by decide
  exact hall r (List.mem_of_getElem? (Abi.register_eq_ok_iff.mp h))

theorem Constant.general_load (hr : r.General) (c : UInt32) : General (Constant.load r c) := by
  unfold Constant.load Constant.loadPair
  have hal := CondCode.inRange_al
  split
  · simp [hr, hal]
  · simp [hr, hal]
  · split_ifs <;> simp [hr]

theorem Constant.general_add {rd rn scratch : Reg} {c : UInt32} (hd : rd.General) (hn : rn.General)
    (hs : scratch.General) (h : Constant.add rd rn c scratch = .ok l) : General l := by
  unfold Constant.add at h
  split at h
  · cases h; simp [hd, hn]
  · cases h; simp [hd, hn]
  · split_ifs at h
    cases h
    simp [Constant.general_load hs, hd, hn, hs]

theorem Constant.general_compare {rn scratch : Reg} {c : UInt32} (hn : rn.General)
    (hs : scratch.General) (h : Constant.compare rn c scratch = .ok l) : General l := by
  unfold Constant.compare at h
  split at h
  · cases h; simp [hn]
  · cases h; simp [hn]
  · split_ifs at h
    cases h
    simp [Constant.general_load hs, hn, hs]

namespace Access

theorem general_relativeAddress {half : UInt32} {a : Reg × LoadOffset}
    (h : relativeAddress s half = .ok a) : a.1.General := by
  obtain ⟨o, -, rfl⟩ := Except.map_eq_ok_iff.mp h
  show Abi.base.General
  decide

theorem general_temporaryAddress {half : UInt32} {a : Reg × LoadOffset}
    (h : temporaryAddress level s half = .ok a) : a.1.General := by
  obtain ⟨o, -, rfl⟩ := Except.map_eq_ok_iff.mp h
  show Reg.sp.General
  decide

theorem general_address {a : Reg × LoadOffset} (h : address level s = .ok a) : a.1.General := by
  unfold address at h
  split at h
  · exact general_relativeAddress h
  · exact general_temporaryAddress h
  · cases h

theorem general_address64 {half : UInt32} {a : Reg × LoadOffset}
    (h : address64 level s half = .ok a) : a.1.General := by
  unfold address64 at h
  split at h
  · exact general_relativeAddress h
  · exact general_temporaryAddress h
  · cases h

theorem general_load (hr : r.General) (h : load level r s = .ok l) : General l := by
  obtain ⟨a, ha, rfl⟩ := Except.map_eq_ok_iff.mp h
  simp [loadFrom, hr, general_address ha]

theorem general_store (hr : r.General) (h : store level s r = .ok l) : General l := by
  obtain ⟨a, ha, rfl⟩ := Except.map_eq_ok_iff.mp h
  simp [storeTo, hr, general_address ha]

theorem general_load64 {half : UInt32} (hr : r.General) (h : load64 level r s half = .ok l) :
    General l := by
  obtain ⟨a, ha, rfl⟩ := Except.map_eq_ok_iff.mp h
  simp [loadFrom, hr, general_address64 ha]

theorem general_store64 {half : UInt32} (hr : r.General) (h : store64 level s r half = .ok l) :
    General l := by
  obtain ⟨a, ha, rfl⟩ := Except.map_eq_ok_iff.mp h
  simp [storeTo, hr, general_address64 ha]

theorem general_address128 (hr : r.General) (h : address128 level r s = .ok l) : General l := by
  unfold address128 at h
  split at h
  · split_ifs at h
    exact Constant.general_add hr (by decide) hr h
  · exact Constant.general_add hr (by decide) hr h
  · cases h

theorem general_loadRelative (hr : r.General) (h : loadRelative r s = .ok l) : General l := by
  simp only [loadRelative, Except.bind_eq_ok_iff, Except.pure_eq_ok_iff] at h
  obtain ⟨_, -, a, ha, rfl⟩ := h
  simp [loadFrom, hr, general_relativeAddress ha]

theorem general_loadRelReference (hr : r.General) (h : loadRelReference r s = .ok l) :
    General l := by
  simp only [loadRelReference, Except.bind_eq_ok_iff, Except.pure_eq_ok_iff] at h
  obtain ⟨_, -, a, ha, rfl⟩ := h
  simp [loadFrom, hr, general_relativeAddress ha]

theorem general_loadTmpReference (hr : r.General) (h : loadTmpReference level r s = .ok l) :
    General l := by
  simp only [loadTmpReference, Except.bind_eq_ok_iff, Except.pure_eq_ok_iff] at h
  obtain ⟨_, -, a, ha, rfl⟩ := h
  simp [loadFrom, hr, general_temporaryAddress ha]

theorem general_storeTemporary (hr : r.General) (h : storeTemporary level s r = .ok l) :
    General l := by
  simp only [storeTemporary, Except.bind_eq_ok_iff, Except.pure_eq_ok_iff] at h
  obtain ⟨_, -, a, ha, rfl⟩ := h
  simp [storeTo, hr, general_temporaryAddress ha]

theorem general_storeTmpReference (hr : r.General) (h : storeTmpReference level s r = .ok l) :
    General l := by
  simp only [storeTmpReference, Except.bind_eq_ok_iff, Except.pure_eq_ok_iff] at h
  obtain ⟨_, -, a, ha, rfl⟩ := h
  simp [storeTo, hr, general_temporaryAddress ha]

theorem general_define {pref : Reg} (hp : pref.General) (h : define s pref = .ok r) :
    r.General := by
  rcases define_eq_ok h with ⟨-, hr⟩ | ⟨-, rfl⟩
  · exact Abi.general_register hr
  · exact hp

theorem general_use {pref : Reg} (hp : pref.General) (h : use level s pref = .ok (r, l)) :
    r.General ∧ General l := by
  rcases use_eq_ok h with ⟨-, hr, rfl⟩ | ⟨-, rfl, hl⟩ | ⟨-, rfl, rfl⟩
  · exact ⟨Abi.general_register hr, general_nil⟩
  · exact ⟨hp, general_load hp hl⟩
  · exact ⟨hp, Constant.general_load hp _⟩

theorem general_commit (hr : r.General) (h : commit level s r = .ok l) : General l := by
  unfold commit at h
  split_ifs at h
  · simp only [Except.bind_eq_ok_iff] at h
    obtain ⟨own, -, h⟩ := h
    split_ifs at h
    cases h
    exact general_nil
  · exact general_store hr h

theorem general_argument (hr : r.General) (h : argument level r s = .ok l) : General l := by
  simp only [argument, Except.bind_eq_ok_iff, Except.pure_eq_ok_iff] at h
  obtain ⟨⟨src, code⟩, hu, rfl⟩ := h
  obtain ⟨hs, hc⟩ := general_use hr hu
  refine general_append.mpr ⟨hc, ?_⟩
  split_ifs
  · exact general_nil
  · simp [Instr.mov, hr, hs, CondCode.inRange_al]

theorem general_shift {kind : ShiftKind} {pref : Reg} {by_ : Shift} (hk : kind.InRange)
    (hp : pref.General) (h : shift level kind s pref = .ok (by_, l)) :
    General l ∧ ∀ r : Reg, r.General → (Operand2.reg r by_).General := by
  unfold shift at h
  split_ifs at h
  · obtain ⟨r', hr, h⟩ := Except.map_eq_ok_iff.mp h
    obtain ⟨rfl, rfl⟩ := Prod.mk.inj h
    exact ⟨general_nil, fun r hg => ⟨hg, hk, Abi.general_register hr⟩⟩
  · obtain ⟨l', hl, h⟩ := Except.map_eq_ok_iff.mp h
    obtain ⟨rfl, rfl⟩ := Prod.mk.inj h
    exact ⟨general_load hp hl, fun r hg => ⟨hg, hk, hp⟩⟩
  · obtain ⟨rfl, rfl⟩ := Prod.mk.inj (Except.ok.inj h)
    refine ⟨general_nil, fun r hg => ⟨hg, ?_⟩⟩
    split_ifs
    · decide
    · exact hk

end Access

namespace Parameter

/-- A parameter that names no register but one of the allocator. -/
def General : Parameter → Prop
  | register r => r.General
  | _ => True

theorem general_declare {c : ParameterClass} {q : Parameter} (h : declare s c = .ok q) :
    q.General := by
  cases c with
  | register =>
    simp only [declare, Except.bind_eq_ok_iff, Except.pure_eq_ok_iff] at h
    obtain ⟨r, hr, rfl⟩ := h
    exact Abi.general_register hr
  | context | constant =>
    simp only [declare, Except.bind_eq_ok_iff, Except.pure_eq_ok_iff] at h
    obtain ⟨_, -, rfl⟩ := h
    trivial
  | memory | memory64 | constant64 | memory128 =>
    obtain rfl := Except.pure_eq_ok_iff.mp h
    trivial

theorem general_register? {n : Nat} (h : register? n = .ok r) : r.General := by
  have hall : ∀ r ∈ Abi.arguments, r.General := by decide
  exact hall r (register?_mem_arguments h)

theorem general_code {n m : Nat} {p : Parameter} (hp : p.General)
    (h : code level n p = .ok (l, m)) : A32Lowering.General l := by
  cases p with
  | context =>
    simp only [code, Except.bind_eq_ok_iff, Except.pure_eq_ok_iff, Prod.mk.injEq] at h
    obtain ⟨r, hr, rfl, -⟩ := h
    have hb : Abi.base.General := by decide
    simp [Instr.mov, general_register? hr, hb, CondCode.inRange_al]
  | register s =>
    simp only [code, Except.bind_eq_ok_iff, Except.pure_eq_ok_iff, Prod.mk.injEq] at h
    obtain ⟨r, hr, rfl, -⟩ := h
    have hs : s.General := hp
    simp [Instr.mov, general_register? hr, hs, CondCode.inRange_al]
  | memory s =>
    simp only [code, Except.bind_eq_ok_iff, Except.pure_eq_ok_iff, Prod.mk.injEq] at h
    obtain ⟨r, hr, l', hl, rfl, -⟩ := h
    exact Access.general_load (general_register? hr) hl
  | constant c =>
    simp only [code, Except.bind_eq_ok_iff, Except.pure_eq_ok_iff, Prod.mk.injEq] at h
    obtain ⟨r, hr, rfl, -⟩ := h
    exact Constant.general_load (general_register? hr) c
  | memory64 s =>
    simp only [code, Except.bind_eq_ok_iff, Except.pure_eq_ok_iff, Prod.mk.injEq] at h
    obtain ⟨r, hr, lo, hlo, r', hr', hi, hhi, rfl, -⟩ := h
    exact general_append.mpr ⟨Access.general_load64 (general_register? hr) hlo,
      Access.general_load64 (general_register? hr') hhi⟩
  | constant64 lo hi =>
    simp only [code, Except.bind_eq_ok_iff, Except.pure_eq_ok_iff, Prod.mk.injEq] at h
    obtain ⟨r, hr, r', hr', rfl, -⟩ := h
    exact general_append.mpr ⟨Constant.general_load (general_register? hr) lo,
      Constant.general_load (general_register? hr') hi⟩
  | address128 s =>
    simp only [code, Except.bind_eq_ok_iff, Except.pure_eq_ok_iff, Prod.mk.injEq] at h
    obtain ⟨r, hr, l', hl, rfl, -⟩ := h
    exact Access.general_address128 (general_register? hr) hl

theorem general_codeAll {n : Nat} {ps : List Parameter} (hp : ∀ p ∈ ps, p.General)
    (h : codeAll level n ps = .ok l) : A32Lowering.General l := by
  induction ps generalizing n l with
  | nil =>
    cases h
    exact general_nil
  | cons p ps ih =>
    simp only [codeAll, Except.bind_eq_ok_iff, Except.pure_eq_ok_iff] at h
    obtain ⟨⟨l', m⟩, hl, rest, hr, rfl⟩ := h
    rw [List.forall_mem_cons] at hp
    exact general_append.mpr ⟨general_code hp.1 hl, ih hp.2 hr⟩

end Parameter

end General

namespace Straight

variable {level : UInt32} {l : List Instr} {d s s1 s2 : Operand}

/-- Shifts of the kinds that there are. -/
def KindInRange : Straight → Prop
  | shift kind => kind.InRange
  | _ => True

theorem general_flag {r : Reg} {c : Condition} (hr : r.General) (h : flag r c = .ok l) :
    General l := by
  simp only [flag, Except.bind_eq_ok_iff, Except.pure_eq_ok_iff] at h
  obtain ⟨cc, hcc, rfl⟩ := h
  obtain ⟨h1, h2⟩ := CondCode.inRange_ofCondition hcc
  simp [hr, h1, h2]

theorem general_loadPair {lo hi : Reg} (hlo : lo.General) (hhi : hi.General)
    (h : loadPair level lo hi s = .ok l) : General l := by
  simp only [loadPair, Except.bind_eq_ok_iff, Except.pure_eq_ok_iff] at h
  obtain ⟨a, ha, b, hb, rfl⟩ := h
  exact general_append.mpr ⟨Access.general_load64 hlo ha, Access.general_load64 hhi hb⟩

theorem general_storePair {lo hi : Reg} (hlo : lo.General) (hhi : hi.General)
    (h : storePair level s lo hi = .ok l) : General l := by
  simp only [storePair, Except.bind_eq_ok_iff, Except.pure_eq_ok_iff] at h
  obtain ⟨a, ha, b, hb, rfl⟩ := h
  exact general_append.mpr ⟨Access.general_store64 hlo ha, Access.general_store64 hhi hb⟩

theorem general_compareCode (h : compareCode level s1 s2 = .ok l) : General l := by
  simp only [compareCode, Except.bind_eq_ok_iff, Except.pure_eq_ok_iff] at h
  obtain ⟨⟨r1, l1⟩, h1, ⟨r2, l2⟩, h2, rfl⟩ := h
  have h1 := Access.general_use (by decide) h1
  have h2 := Access.general_use (by decide) h2
  simp [h1, h2]

theorem general_compareCstCode (h : compareCstCode level s1 s2 = .ok l) : General l := by
  simp only [compareCstCode, Except.bind_eq_ok_iff, Except.pure_eq_ok_iff] at h
  obtain ⟨⟨r1, l1⟩, h1, l2, h2, rfl⟩ := h
  have h1 := Access.general_use (by decide) h1
  exact general_append.mpr ⟨h1.2, Constant.general_compare h1.1 (by decide) h2⟩

theorem general_multiplyCode {signed : Bool} (h : multiplyCode level signed d s1 s2 = .ok l) :
    General l := by
  obtain ⟨r1, l1, r2, l2, ls, h1, h2, hs, rfl⟩ := multiplyCode_eq_ok h
  have h1 := Access.general_use (by decide) h1
  have h2 := Access.general_use (by decide) h2
  have hr : Reg.r0.General ∧ Reg.r1.General := by decide
  simp [h1, h2, hr, general_storePair hr.1 hr.2 hs]

theorem general_arith64Code {lo hi : AluOp} {flags : Bool}
    (h : arith64Code level lo flags hi d s1 s2 = .ok l) : General l := by
  have hr : Reg.r0.General ∧ Reg.r1.General ∧ Reg.r2.General ∧ Reg.r3.General := by decide
  obtain ⟨l1, l2, ls, h1, h2, hs, rfl⟩ := arith64Code_eq_ok h
  have h2 : General l2 := by
    rcases h2 with ⟨-, rfl⟩ | h2
    · simp [Constant.general_load, hr]
    · exact general_loadPair hr.2.2.1 hr.2.2.2 h2
  simp [general_loadPair hr.1 hr.2.1 h1, h2, hr, general_storePair hr.1 hr.2.1 hs]

theorem general_arithCode {a : Arith} (h : arithCode level a d s1 s2 = .ok l) : General l := by
  simp only [arithCode, Except.bind_eq_ok_iff, Except.pure_eq_ok_iff] at h
  obtain ⟨rd, hrd, ⟨r1, l1⟩, h1, ⟨r2, l2⟩, h2, st, hst, rfl⟩ := h
  have hrd := Access.general_define (by decide) hrd
  have h1 := Access.general_use (by decide) h1
  have h2 := Access.general_use (by decide) h2
  simp [h1, h2, hrd, Access.general_commit hrd hst]

theorem general_arithCstCode {a : Arith} (h : arithCstCode level a d s1 s2 = .ok l) :
    General l := by
  obtain ⟨-, rd, r1, l1, mid, lc, hrd, h1, -, hc, rfl, hmid⟩ := arithCstCode_eq_ok h
  have hrd := Access.general_define (by decide) hrd
  have h1 := Access.general_use (by decide) h1
  have h2 : Reg.r2.General := by decide
  have hmid : General mid := by
    rcases hmid with ⟨op, i, -, rfl⟩ | rfl
    · simp [hrd, h1]
    · simp [Constant.general_load, hrd, h1, h2]
  simp [h1, hmid, Access.general_commit hrd hc]

theorem general_shiftCode {kind : ShiftKind} (hk : kind.InRange)
    (h : shiftCode level kind d s1 s2 = .ok l) : General l := by
  simp only [shiftCode, Except.bind_eq_ok_iff, Except.pure_eq_ok_iff] at h
  obtain ⟨rd, hrd, ⟨r1, l1⟩, h1, ⟨by_, l2⟩, h2, st, hst, rfl⟩ := h
  have hrd := Access.general_define (by decide) hrd
  have h1 := Access.general_use (by decide) h1
  obtain ⟨h2, hop⟩ := Access.general_shift hk (by decide) h2
  simp [h1, h2, hrd, hop r1 h1.1, CondCode.inRange_al, Access.general_commit hrd hst]

/-- The instructions of a straight-line lowering have operands that fit, and none of them names the
program counter. -/
theorem general {x : Statement} {a : Straight} (hk : a.KindInRange) (h : a.code level x = .ok l) :
    General l := by
  have hal := CondCode.inRange_al
  have hr : Reg.r0.General ∧ Reg.r1.General := by decide
  cases code_eq_ok_iff.mp h with
  | nothing => exact general_nil
  | movRegReg _ _ hrd hrs =>
    simp [Instr.mov, hal, Abi.general_register hrd, Abi.general_register hrs]
  | movRegMem _ _ hrd hl => exact Access.general_load (Abi.general_register hrd) hl
  | movRegCst _ _ _ _ hrd => exact Constant.general_load (Abi.general_register hrd) _
  | movMemReg _ _ _ hrs hl => exact Access.general_store (Abi.general_register hrs) hl
  | movMemMem _ _ ha hb =>
    exact general_append.mpr ⟨Access.general_load hr.1 ha, Access.general_store hr.1 hb⟩
  | movMemCst _ _ _ hl =>
    exact general_append.mpr ⟨Constant.general_load hr.1 _, Access.general_store hr.1 hl⟩
  | arithCst _ _ _ hl => exact general_arithCstCode hl
  | arith _ _ _ hl => exact general_arithCode hl
  | shift _ _ _ hl => exact general_shiftCode hk hl
  | compareCst _ _ _ _ hrd ha hf hc =>
    have hrd := Access.general_define hr.1 hrd
    simp [general_compareCstCode ha, general_flag hrd hf, Access.general_commit hrd hc]
  | compare _ _ _ hrd ha hf hc =>
    have hrd := Access.general_define hr.1 hrd
    simp [general_compareCode ha, general_flag hrd hf, Access.general_commit hrd hc]
  | notRegReg _ _ _ _ hrd hrs =>
    simp [hal, Abi.general_register hrd, Abi.general_register hrs]
  | notMemReg _ _ _ hrs hl =>
    simp [hal, hr, Abi.general_register hrs, Access.general_store hr.2 hl]
  | notMemMem _ _ ha hb =>
    simp [hal, hr, Access.general_load hr.1 ha, Access.general_store hr.2 hb]
  | resultReg _ _ hrd => simp [Instr.mov, hal, hr, Abi.general_register hrd]
  | resultTmp _ hl => exact Access.general_storeTemporary hr.1 hl
  | resultMem64 _ hl => exact general_storePair hr.1 hr.2 hl
  | multiply _ _ _ hl => exact general_multiplyCode hl
  | refAddReg _ _ _ _ hrt ha hb =>
    simp [Access.general_loadRelReference hr.1 ha, hr, Abi.general_register hrt,
      Access.general_storeTmpReference hr.1 hb]
  | refAddCst _ _ _ _ ha hc hb =>
    simp [Access.general_loadRelReference hr.1 ha, Constant.general_add hr.1 hr.1 hr.2 hc,
      Access.general_storeTmpReference hr.1 hb]
  | refLoadReg _ _ _ hrd hl =>
    simp [Access.general_loadTmpReference hr.1 hl, hr, Abi.general_register hrd]
  | refLoadMem _ _ ha hb =>
    simp [Access.general_loadTmpReference hr.1 ha, hr, Access.general_store hr.2 hb]
  | refStoreReg _ _ _ hrt hl =>
    simp [Access.general_loadTmpReference hr.1 hl, hr, Abi.general_register hrt]
  | refStoreRel _ _ ha hb =>
    simp [Access.general_loadTmpReference hr.1 ha, Access.general_loadRelative hr.2 hb, hr]
  | refStoreCst _ _ _ hl =>
    simp [Access.general_loadTmpReference hr.1 hl, Constant.general_load hr.2, hr]
  | mov64Mem _ _ ha hb =>
    exact general_append.mpr ⟨general_loadPair hr.1 hr.2 ha, general_storePair hr.1 hr.2 hb⟩
  | mov64Cst _ _ hl => simp [Constant.general_load, hr, general_storePair hr.1 hr.2 hl]
  | arith64 _ _ _ hl => exact general_arith64Code hl

end Straight

/-! ### Items -/

/-- An item whose word, if it has one, can be read again. A call copies the program counter to the
link register and an address to the program counter. -/
def Item.Encodable : Item → Prop
  | instr i => i.General ∨ i = .mov .lr .pc ∨ i = .mov .pc Abi.callAddress
  | jump cond _ => cond.InRange
  | mark _ | report _ => True

namespace Items

/-- All items of a list can be encoded. -/
def Encodable (l : List Item) : Prop := ∀ i ∈ l, i.Encodable

@[simp] theorem encodable_nil : Encodable [] := by
  intro i hi
  cases hi

@[simp] theorem encodable_cons {i : Item} {l : List Item} :
    Encodable (i :: l) ↔ i.Encodable ∧ Encodable l :=
  List.forall_mem_cons

@[simp] theorem encodable_append {l m : List Item} :
    Encodable (l ++ m) ↔ Encodable l ∧ Encodable m :=
  List.forall_mem_append

theorem encodable_instrs {l : List Instr} (h : General l) : Encodable (l.map .instr) := by
  intro i hi
  obtain ⟨j, hj, rfl⟩ := List.mem_map.mp hi
  exact .inl (h j hj)

theorem encodable_call (addr : UInt32) : Encodable (Item.call addr) := by
  have h4 : Abi.callAddress.General := by decide
  simp [Item.call, Constant.loadPair, Item.Encodable, h4]

theorem encodable_jumpItems {x : Statement} {c : Except Fault (List Instr)} {l : List Item}
    (hc : ∀ m, c = .ok m → General m) (h : Action.jumpItems x c = .ok l) : Encodable l := by
  obtain ⟨m, cc, hm, hcc, rfl⟩ := Action.jumpItems_eq_ok h
  refine encodable_append.mpr ⟨encodable_instrs (hc m hm), ?_⟩
  simpa [Item.Encodable] using (CondCode.inRange_ofCondition hcc).1

theorem encodable_divideItems [Helper.Entries] {signed : Bool} {d s1 s2 : Operand} {l : List Item}
    (h : Action.divideItems signed d s1 s2 = .ok l) : Encodable l := by
  obtain ⟨-, la, lb, lq, lr, ha, hb, hq, hr, rfl⟩ := Action.divideItems_eq_ok h
  have hregs : ∀ r ∈ Lower.divideArguments.regs, r.General := by decide
  have hgen : Reg.sp.General ∧ Reg.r0.General ∧ Reg.r1.General := by decide
  have ha := Access.general_argument hgen.2.1 ha
  have hb := Access.general_argument hgen.2.2 hb
  have hq := Access.general_store64 hgen.2.1 hq
  have hr := Access.general_store64 hgen.2.1 hr
  simp only [encodable_append]
  refine ⟨encodable_instrs ?_, encodable_call _, encodable_instrs hq, encodable_instrs ?_,
    encodable_call _, encodable_instrs hr, encodable_nil⟩
  · simpa [ha, hb, hgen.1] using hregs
  · simpa [hgen.1] using hregs

end Items

theorem Rules.kindInRange {r : Rule Action} {a : Straight} (hr : r ∈ general ++ wide)
    (ha : r.action = .straight a) : a.KindInRange := by
  have hall : ∀ r ∈ general ++ wide, ∀ kind, r.action = .straight (.shift kind) →
      kind = .lsr ∨ kind = .asr ∨ kind = .lsl := by
    simp only [general, wide, moves, arith, shifts, calls, jumps, products, references, rule, line,
      List.cons_append, List.nil_append, List.forall_mem_cons]
    simp
  cases a with
  | shift kind =>
    have hk : kind.InRange := by rcases hall r hr kind ha with rfl | rfl | rfl <;> decide
    exact hk
  | _ => trivial

/-- The items of a statement can be encoded, and so can what passes its parameters later. -/
theorem Statement.encodable_items [Helper.Entries] {params rest : List Parameter} {x : Statement}
    {l : List Item} (hp : ∀ p ∈ params, p.General) (h : x.items params = .ok (l, rest)) :
    Items.Encodable l ∧ ∀ p ∈ rest, p.General := by
  obtain ⟨r, a, hr, ha, h⟩ := Statement.items_eq_ok h
  cases h with
  | straight hm =>
    have hk := Rules.kindInRange (Rules.select_eq_ok hr).1 ha
    exact ⟨Items.encodable_instrs (Straight.general hk hm), hp⟩
  | mark => exact ⟨by simp [Item.Encodable], hp⟩
  | jump => exact ⟨by simp [Item.Encodable, CondCode.inRange_al], hp⟩
  | jumpIf _ _ _ hl =>
    exact ⟨Items.encodable_jumpItems (fun _ => Straight.general_compareCode) hl, hp⟩
  | jumpIfCst _ _ _ hl =>
    exact ⟨Items.encodable_jumpItems (fun _ => Straight.general_compareCstCode) hl, hp⟩
  | param _ hq =>
    exact ⟨Items.encodable_nil, List.forall_mem_cons.mpr ⟨Parameter.general_declare hq, hp⟩⟩
  | call _ _ hl =>
    obtain ⟨-, rfl, m, hm, rfl⟩ := Action.callItems_eq_ok hl
    have hm := Parameter.general_codeAll (fun p hq => hp p (List.mem_of_mem_take hq)) hm
    exact ⟨Items.encodable_append.mpr ⟨Items.encodable_instrs hm, Items.encodable_call _⟩,
      fun p hq => hp p (List.mem_of_mem_drop hq)⟩
  | divide _ _ _ hl => exact ⟨Items.encodable_divideItems hl, hp⟩

theorem Program.encodable_bodies [Helper.Entries] {params rest : List Parameter} {p : Program}
    {ls : List (List Item)} (hp : ∀ q ∈ params, q.General)
    (h : Program.bodies params p = .ok (ls, rest)) : Items.Encodable ls.flatten := by
  induction p generalizing params ls with
  | nil =>
    obtain ⟨rfl, -⟩ := Prod.mk.inj (Except.pure_eq_ok_iff.mp h)
    exact Items.encodable_nil
  | cons x p ih =>
    simp only [bodies, Except.bind_eq_ok_iff, Except.pure_eq_ok_iff] at h
    obtain ⟨⟨l, ps⟩, hl, ⟨ls', ps'⟩, hr, h⟩ := h
    obtain ⟨rfl, rfl⟩ := Prod.mk.inj h
    obtain ⟨hx, hps⟩ := Statement.encodable_items hp hl
    rw [List.flatten_cons]
    exact Items.encodable_append.mpr ⟨hx, ih hps hr⟩

namespace Frame

theorem general_saved {used saved : RegisterSet} (h : Frame.saved used = .ok saved) :
    ∀ r ∈ saved.regs, r.General := by
  intro r hr
  obtain ⟨k, hk, rfl⟩ := List.mem_map.mp hr
  have hlt : k < 15 := by
    rcases (mem_saved h k).mp hk with ⟨i, -, hi⟩ | rfl | rfl | rfl
    · obtain ⟨r', hr', rfl⟩ := Except.map_eq_ok_iff.mp hi
      exact Abi.general_register hr'
    all_goals decide
  show (UInt8.ofNat k).toNat < 15
  rw [UInt8.toNat_ofNat_of_lt' (hlt.trans (by decide))]
  exact hlt

theorem general_adjust (op : AluOp) (size : UInt32) : General (adjust op size) := by
  have hr : Reg.sp.General ∧ Reg.r12.General := by decide
  unfold adjust
  split_ifs
  · exact general_nil
  · split
    · simp [hr]
    · simp [hr, Constant.general_load hr.2]

theorem general_prolog {size : UInt32} {saved : RegisterSet} {l : List Instr}
    (hs : ∀ r ∈ saved.regs, r.General) (h : prolog size saved = .ok l) : General l := by
  have hr : Reg.sp.General ∧ Abi.base.General ∧ Reg.r0.General := by decide
  unfold prolog at h
  split_ifs at h
  obtain rfl := Except.ok.inj h
  simpa [general_adjust, hr, Instr.mov, CondCode.inRange_al] using hs

theorem general_epilog (size : UInt32) {saved : RegisterSet} (hs : ∀ r ∈ saved.regs, r.General) :
    General (epilog size saved) := by
  have hr : Reg.sp.General ∧ Reg.lr.General := by decide
  simpa [epilog, general_adjust, hr] using hs

end Frame

/-- The items of a function can be encoded. -/
theorem Program.encodable_assemble [Helper.Entries] {p : Program} {frame : UInt32} {a : Assembly}
    (h : p.assemble frame = .ok a) : Items.Encodable a.items := by
  obtain ⟨used, saved, prolog, body, -, hs, hp, hb, rfl⟩ := Program.assemble_eq_ok_iff.mp h
  have hg := Frame.general_saved hs
  have hb := Program.encodable_bodies (fun q hq => by cases hq) hb
  simp only [Assembly.items, Items.encodable_append]
  exact ⟨⟨Items.encodable_instrs (Frame.general_prolog hg hp), hb⟩,
    Items.encodable_instrs (Frame.general_epilog frame hg)⟩

end A32Lowering
