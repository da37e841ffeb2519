import Mathlib
import A32Lowering.Proofs.Item
import A32Lowering.Proofs.StraightCode

/-!
# The footprint of straight-line code

Which registers and which words of memory the instructions of a straight-line lowering can write:
the scratch registers, the register of the destination, and the words of the destination. Only a
store through a reference writes elsewhere.

## Main definitions

* `Instr.Confined` : an instruction that writes only some registers and some words, and that
  continues with the next instruction.
* `Access.Slot` : the words of an operand.
* `Straight.definesRegister`, `Straight.storesReference` : the lowerings that write a register
  without asking for its class, and those that store through a reference.

## Main results

* `Straight.confined` : the instructions of a straight-line lowering are confined.
* `Parameter.confined_codeAll` : so are those that pass parameters.
-/

namespace A32Lowering

/-- An instruction that writes no register outside of `own`, stores only to base registers and
offsets in `slot`, has a defined result and does not change the flow of control. -/
@[simp] def Instr.Confined (own : Reg → Prop) (slot : Reg × LoadOffset → Prop) : Instr → Prop
  | .alu _ _ rd _ _ | .move _ _ rd _ | .movw rd _ | .movt rd _ | .ldr rd _ _ => own rd
  | .compare _ _ _ => True
  | .str _ rn off => slot (rn, off)
  | .mull _ lo hi _ _ => own lo ∧ own hi ∧ lo ≠ hi
  | .stmdb _ _ | .ldmia _ _ | .bx _ | .branch _ _ => False

theorem Instr.Confined.isBranch_eq_false {own : Reg → Prop} {slot : Reg × LoadOffset → Prop}
    {i : Instr} (h : i.Confined own slot) : i.isBranch = false := by
  cases i with
  | branch c l => exact h.elim
  | _ => rfl

namespace Access

/-- The addresses of the words of an operand. -/
inductive Slot (level : UInt32) (s : Operand) : Reg × LoadOffset → Prop
  | word {a} (h : address level s = .ok a) : Slot level s a
  | low {a} (h : address64 level s 0 = .ok a) : Slot level s a
  | high {a} (h : address64 level s 4 = .ok a) : Slot level s a
  | reference {a} (hk : s.kind = .tmpReference) (h : temporaryAddress level s 0 = .ok a) :
    Slot level s a

end Access

/-- The registers that lowering uses for its own purposes. -/
def Abi.scratch : List Reg := [.r0, .r1, .r2, .r3]

section Confined

variable {own : Reg → Prop} {slot : Reg × LoadOffset → Prop} {level : UInt32} {r : Reg}
  {l : List Instr} {s : Operand}

/-- All instructions of a list are confined. -/
def Confined (own : Reg → Prop) (slot : Reg × LoadOffset → Prop) (l : List Instr) : Prop :=
  ∀ i ∈ l, i.Confined own slot

@[simp] theorem confined_nil : Confined own slot [] := by
  intro i hi
  cases hi

@[simp] theorem confined_cons {i : Instr} :
    Confined own slot (i :: l) ↔ i.Confined own slot ∧ Confined own slot l :=
  List.forall_mem_cons

@[simp] theorem confined_append {m : List Instr} :
    Confined own slot (l ++ m) ↔ Confined own slot l ∧ Confined own slot m :=
  List.forall_mem_append

theorem Constant.confined_load (hr : own r) (c : UInt32) :
    Confined own slot (Constant.load r c) := by
  unfold Constant.load Constant.loadPair
  split
  · simpa using hr
  · simpa using hr
  · split_ifs <;> simp [Instr.Confined, hr]

theorem Constant.confined_add {rd rn scratch : Reg} {c : UInt32} (hd : own rd) (hs : own scratch)
    (h : Constant.add rd rn c scratch = .ok l) : Confined own slot l := by
  unfold Constant.add at h
  split at h
  · cases h; simpa using hd
  · cases h; simpa using hd
  · split_ifs at h
    cases h
    simp [Constant.confined_load hs, Instr.Confined, hd]

theorem Constant.confined_compare {rn scratch : Reg} {c : UInt32} (hs : own scratch)
    (h : Constant.compare rn c scratch = .ok l) : Confined own slot l := by
  unfold Constant.compare at h
  split at h
  · cases h; simp [Instr.Confined]
  · cases h; simp [Instr.Confined]
  · split_ifs at h
    cases h
    simp [Constant.confined_load hs, Instr.Confined]

namespace Access

theorem confined_load (hr : own r) (h : load level r s = .ok l) : Confined own slot l := by
  obtain ⟨a, -, rfl⟩ := Except.map_eq_ok_iff.mp h
  simpa [loadFrom] using hr

theorem confined_load64 {half : UInt32} (hr : own r) (h : load64 level r s half = .ok l) :
    Confined own slot l := by
  obtain ⟨a, -, rfl⟩ := Except.map_eq_ok_iff.mp h
  simpa [loadFrom] using hr

theorem confined_store (hs : ∀ a, Slot level s a → slot a) (h : store level s r = .ok l) :
    Confined own slot l := by
  obtain ⟨a, ha, rfl⟩ := Except.map_eq_ok_iff.mp h
  simpa [storeTo] using hs a (.word ha)

theorem confined_store64_low (hs : ∀ a, Slot level s a → slot a)
    (h : store64 level s r 0 = .ok l) : Confined own slot l := by
  obtain ⟨a, ha, rfl⟩ := Except.map_eq_ok_iff.mp h
  simpa [storeTo] using hs a (.low ha)

theorem confined_store64_high (hs : ∀ a, Slot level s a → slot a)
    (h : store64 level s r 4 = .ok l) : Confined own slot l := by
  obtain ⟨a, ha, rfl⟩ := Except.map_eq_ok_iff.mp h
  simpa [storeTo] using hs a (.high ha)

theorem confined_address128 (hr : own r) (h : address128 level r s = .ok l) :
    Confined own slot l := by
  unfold address128 at h
  split at h
  · split_ifs at h
    exact Constant.confined_add hr hr h
  · exact Constant.confined_add hr hr h
  · cases h

theorem confined_loadRelative (hr : own r) (h : loadRelative r s = .ok l) :
    Confined own slot l := by
  simp only [loadRelative, Except.bind_eq_ok_iff, Except.pure_eq_ok_iff] at h
  obtain ⟨_, -, a, -, rfl⟩ := h
  simpa [loadFrom] using hr

theorem confined_loadRelReference (hr : own r) (h : loadRelReference r s = .ok l) :
    Confined own slot l := by
  simp only [loadRelReference, Except.bind_eq_ok_iff, Except.pure_eq_ok_iff] at h
  obtain ⟨_, -, a, -, rfl⟩ := h
  simpa [loadFrom] using hr

theorem confined_loadTmpReference (hr : own r) (h : loadTmpReference level r s = .ok l) :
    Confined own slot l := by
  simp only [loadTmpReference, Except.bind_eq_ok_iff, Except.pure_eq_ok_iff] at h
  obtain ⟨_, -, a, -, rfl⟩ := h
  simpa [loadFrom] using hr

theorem confined_storeTemporary (hs : ∀ a, Slot level s a → slot a)
    (h : storeTemporary level s r = .ok l) : Confined own slot l := by
  simp only [storeTemporary, Except.bind_eq_ok_iff, Except.pure_eq_ok_iff] at h
  obtain ⟨_, hk, a, ha, rfl⟩ := h
  have hw : address level s = .ok a := by rw [address, expect_eq_ok_iff.mp hk, ha]
  simpa [storeTo] using hs a (.word hw)

theorem confined_storeTmpReference (hs : ∀ a, Slot level s a → slot a)
    (h : storeTmpReference level s r = .ok l) : Confined own slot l := by
  simp only [storeTmpReference, Except.bind_eq_ok_iff, Except.pure_eq_ok_iff] at h
  obtain ⟨_, hk, a, ha, rfl⟩ := h
  simpa [storeTo] using hs a (.reference (expect_eq_ok_iff.mp hk) ha)

/-- The register of a definition is that of the operand, or the preferred one for a word in
memory. -/
theorem define_eq_ok {pref : Reg} (h : define s pref = .ok r) :
    (s.kind = .register ∧ Abi.register s.low = .ok r) ∨ (s.isMemory ∧ r = pref) := by
  unfold define at h
  split_ifs at h with hk hm
  · exact .inl ⟨hk, h⟩
  · exact .inr ⟨hm, (Except.ok.inj h).symm⟩

/-- The value of an operand is in its own register, or is put into the preferred one. -/
theorem use_eq_ok {pref : Reg} (h : use level s pref = .ok (r, l)) :
    (s.kind = .register ∧ Abi.register s.low = .ok r ∧ l = []) ∨
    (s.isMemory ∧ r = pref ∧ load level pref s = .ok l) ∨
    (s.kind = .constant ∧ r = pref ∧ l = Constant.load pref s.low) := by
  unfold use at h
  split_ifs at h with hk hm hc
  · obtain ⟨r', hr, h⟩ := Except.map_eq_ok_iff.mp h
    obtain ⟨rfl, rfl⟩ := Prod.mk.inj h
    exact .inl ⟨hk, hr, rfl⟩
  · obtain ⟨l', hl, h⟩ := Except.map_eq_ok_iff.mp h
    obtain ⟨rfl, rfl⟩ := Prod.mk.inj h
    exact .inr (.inl ⟨hm, rfl, hl⟩)
  · obtain ⟨rfl, rfl⟩ := Prod.mk.inj (Except.ok.inj h)
    exact .inr (.inr ⟨hc, rfl, rfl⟩)

theorem confined_use {pref : Reg} (hp : own pref) (h : use level s pref = .ok (r, l)) :
    Confined own slot l := by
  rcases use_eq_ok h with ⟨-, -, rfl⟩ | ⟨-, -, hl⟩ | ⟨-, -, rfl⟩
  · exact confined_nil
  · exact confined_load hp hl
  · exact Constant.confined_load hp _

theorem confined_commit (hs : ∀ a, Slot level s a → slot a) (h : commit level s r = .ok l) :
    Confined own slot l := by
  unfold commit at h
  split_ifs at h
  · simp only [Except.bind_eq_ok_iff] at h
    obtain ⟨own', -, h⟩ := h
    split_ifs at h
    cases h
    exact confined_nil
  · exact confined_store hs h

theorem confined_argument (hr : own r) (h : argument level r s = .ok l) : Confined own slot l := by
  simp only [argument, Except.bind_eq_ok_iff, Except.pure_eq_ok_iff] at h
  obtain ⟨⟨src, code⟩, hu, rfl⟩ := h
  refine confined_append.mpr ⟨confined_use hr hu, ?_⟩
  split_ifs
  · exact confined_nil
  · simpa [Instr.mov] using hr

theorem confined_shift {kind : ShiftKind} {pref : Reg} {by_ : Shift} (hp : own pref)
    (h : shift level kind s pref = .ok (by_, l)) : Confined own slot l := by
  unfold shift at h
  split_ifs at h
  · obtain ⟨r', hr, h⟩ := Except.map_eq_ok_iff.mp h
    obtain ⟨-, rfl⟩ := Prod.mk.inj h
    exact confined_nil
  · obtain ⟨l', hl, h⟩ := Except.map_eq_ok_iff.mp h
    obtain ⟨-, rfl⟩ := Prod.mk.inj h
    exact confined_load hp hl
  · obtain ⟨-, rfl⟩ := Prod.mk.inj (Except.ok.inj h)
    exact confined_nil

end Access

namespace Parameter

theorem register?_mem_arguments {n : Nat} (h : register? n = .ok r) : r ∈ Abi.arguments := by
  unfold register? at h
  split at h
  next r' hr =>
    obtain rfl := Except.ok.inj h
    exact List.mem_of_getElem? hr
  · cases h

theorem confined_code (ha : ∀ r ∈ Abi.arguments, own r) {n m : Nat} {p : Parameter}
    (h : code level n p = .ok (l, m)) : Confined own slot l := by
  cases p with
  | context | register =>
    simp only [code, Except.bind_eq_ok_iff, Except.pure_eq_ok_iff, Prod.mk.injEq] at h
    obtain ⟨r, hr, rfl, -⟩ := h
    simpa [Instr.mov] using ha r (register?_mem_arguments hr)
  | memory s =>
    simp only [code, Except.bind_eq_ok_iff, Except.pure_eq_ok_iff, Prod.mk.injEq] at h
    obtain ⟨r, hr, l', hl, rfl, -⟩ := h
    exact Access.confined_load (ha r (register?_mem_arguments hr)) hl
  | constant c =>
    simp only [code, Except.bind_eq_ok_iff, Except.pure_eq_ok_iff, Prod.mk.injEq] at h
    obtain ⟨r, hr, rfl, -⟩ := h
    exact Constant.confined_load (ha r (register?_mem_arguments hr)) c
  | memory64 s =>
    simp only [code, Except.bind_eq_ok_iff, Except.pure_eq_ok_iff, Prod.mk.injEq] at h
    obtain ⟨r, hr, lo, hlo, r', hr', hi, hhi, rfl, -⟩ := h
    exact confined_append.mpr ⟨Access.confined_load64 (ha r (register?_mem_arguments hr)) hlo,
      Access.confined_load64 (ha r' (register?_mem_arguments hr')) hhi⟩
  | constant64 lo hi =>
    simp only [code, Except.bind_eq_ok_iff, Except.pure_eq_ok_iff, Prod.mk.injEq] at h
    obtain ⟨r, hr, r', hr', rfl, -⟩ := h
    exact confined_append.mpr ⟨Constant.confined_load (ha r (register?_mem_arguments hr)) lo,
      Constant.confined_load (ha r' (register?_mem_arguments hr')) hi⟩
  | address128 s =>
    simp only [code, Except.bind_eq_ok_iff, Except.pure_eq_ok_iff, Prod.mk.injEq] at h
    obtain ⟨r, hr, l', hl, rfl, -⟩ := h
    exact Access.confined_address128 (ha r (register?_mem_arguments hr)) hl

/-- Passing parameters writes argument registers only. -/
theorem confined_codeAll (ha : ∀ r ∈ Abi.arguments, own r) {n : Nat} {ps : List Parameter}
    (h : codeAll level n ps = .ok l) : Confined own slot l := by
  induction ps generalizing n l with
  | nil =>
    cases h
    exact confined_nil
  | cons p ps ih =>
    simp only [codeAll, Except.bind_eq_ok_iff, Except.pure_eq_ok_iff] at h
    obtain ⟨⟨l', m⟩, hp, rest, hr, rfl⟩ := h
    exact confined_append.mpr ⟨confined_code ha hp, ih hr⟩

end Parameter

end Confined

namespace Straight

/-- The lowerings that take the index of the destination register without asking for its class. -/
def definesRegister : Straight → Bool
  | movRegReg | movRegMem => true
  | _ => false

/-- The lowerings that store through a reference. -/
def storesReference : Straight → Bool
  | refStoreReg | refStoreRel | refStoreCst => true
  | _ => false

variable {own : Reg → Prop} {slot : Reg × LoadOffset → Prop} {level : UInt32} {r : Reg}
  {l : List Instr} {s : Operand}

theorem confined_flag {c : Condition} (hr : own r) (h : flag r c = .ok l) :
    Confined own slot l := by
  simp only [flag, Except.bind_eq_ok_iff, Except.pure_eq_ok_iff] at h
  obtain ⟨cc, -, rfl⟩ := h
  simp [hr]

theorem confined_loadPair {lo hi : Reg} (hlo : own lo) (hhi : own hi)
    (h : loadPair level lo hi s = .ok l) : Confined own slot l := by
  simp only [loadPair, Except.bind_eq_ok_iff, Except.pure_eq_ok_iff] at h
  obtain ⟨a, ha, b, hb, rfl⟩ := h
  exact confined_append.mpr ⟨Access.confined_load64 hlo ha, Access.confined_load64 hhi hb⟩

theorem confined_storePair {lo hi : Reg} (hs : ∀ a, Access.Slot level s a → slot a)
    (h : storePair level s lo hi = .ok l) : Confined own slot l := by
  simp only [storePair, Except.bind_eq_ok_iff, Except.pure_eq_ok_iff] at h
  obtain ⟨a, ha, b, hb, rfl⟩ := h
  exact confined_append.mpr
    ⟨Access.confined_store64_low hs ha, Access.confined_store64_high hs hb⟩

variable (h1 : own .r1) (h2 : own .r2)

include h1 h2

theorem confined_compareCode {a b : Operand} (h : compareCode level a b = .ok l) :
    Confined own slot l := by
  simp only [compareCode, Except.bind_eq_ok_iff, Except.pure_eq_ok_iff] at h
  obtain ⟨⟨ra, la⟩, ha, ⟨rb, lb⟩, hb, rfl⟩ := h
  simp [Access.confined_use h1 ha, Access.confined_use h2 hb]

theorem confined_compareCstCode {a b : Operand} (h : compareCstCode level a b = .ok l) :
    Confined own slot l := by
  simp only [compareCstCode, Except.bind_eq_ok_iff, Except.pure_eq_ok_iff] at h
  obtain ⟨⟨ra, la⟩, ha, lb, hb, rfl⟩ := h
  exact confined_append.mpr ⟨Access.confined_use h1 ha, Constant.confined_compare h2 hb⟩

variable (h0 : own .r0) {d s1 s2 : Operand} (hslot : ∀ a, Access.Slot level d a → slot a)
  (hd : d.kind = .register → ∀ r, Abi.register d.low = .ok r → own r)

include h0 hslot

theorem confined_multiplyCode {signed : Bool} (h3 : own .r3)
    (h : multiplyCode level signed d s1 s2 = .ok l) : Confined own slot l := by
  obtain ⟨ra, la, rb, lb, ls, ha, hb, hs, rfl⟩ := multiplyCode_eq_ok h
  have hne : Reg.r0 ≠ Reg.r1 := by decide
  simp [Access.confined_use h2 ha, Access.confined_use h3 hb, h0, h1, hne,
    confined_storePair hslot hs]

theorem confined_arith64Code {lo hi : AluOp} {flags : Bool} (h3 : own .r3)
    (h : arith64Code level lo flags hi d s1 s2 = .ok l) : Confined own slot l := by
  obtain ⟨la, lb, ls, ha, hb, hs, rfl⟩ := arith64Code_eq_ok h
  have hb : Confined own slot lb := by
    rcases hb with ⟨-, rfl⟩ | hb
    · exact confined_append.mpr ⟨Constant.confined_load h2 _, Constant.confined_load h3 _⟩
    · exact confined_loadPair h2 h3 hb
  simp [confined_loadPair h0 h1 ha, hb, h0, h1, confined_storePair hslot hs]

include hd

omit h1 h2 hslot in
theorem own_of_define {rd : Reg} (h : Access.define d .r0 = .ok rd) : own rd := by
  rcases Access.define_eq_ok h with ⟨hk, hr⟩ | ⟨-, rfl⟩
  · exact hd hk rd hr
  · exact h0

theorem confined_arithCode {a : Arith} (h : arithCode level a d s1 s2 = .ok l) :
    Confined own slot l := by
  simp only [arithCode, Except.bind_eq_ok_iff, Except.pure_eq_ok_iff] at h
  obtain ⟨rd, hrd, ⟨ra, la⟩, ha, ⟨rb, lb⟩, hb, st, hst, rfl⟩ := h
  simp [Access.confined_use h1 ha, Access.confined_use h2 hb, Access.confined_commit hslot hst,
    own_of_define h0 hd hrd]

theorem confined_arithCstCode {a : Arith} (h : arithCstCode level a d s1 s2 = .ok l) :
    Confined own slot l := by
  obtain ⟨-, rd, ra, la, mid, lc, hrd, ha, -, hc, rfl, hmid⟩ := arithCstCode_eq_ok h
  have hrd := own_of_define h0 hd hrd
  have hmid : Confined own slot mid := by
    rcases hmid with ⟨op, i, -, rfl⟩ | rfl
    · simpa using hrd
    · simp [Constant.confined_load h2, hrd]
  simp [Access.confined_use h1 ha, hmid, Access.confined_commit hslot hc]

theorem confined_shiftCode {kind : ShiftKind} (h : shiftCode level kind d s1 s2 = .ok l) :
    Confined own slot l := by
  simp only [shiftCode, Except.bind_eq_ok_iff, Except.pure_eq_ok_iff] at h
  obtain ⟨rd, hrd, ⟨ra, la⟩, ha, ⟨by_, lb⟩, hb, st, hst, rfl⟩ := h
  simp [Access.confined_use h1 ha, Access.confined_shift h2 hb, Access.confined_commit hslot hst,
    own_of_define h0 hd hrd]

end Straight

/-- What the code of a statement may write: the scratch registers, the register and the words of
the destination, and, for a lowering that stores through a reference, the word at the address in
the first scratch register. -/
structure Straight.Permits (own : Reg → Prop) (slot : Reg × LoadOffset → Prop) (level : UInt32)
    (x : Statement) (a : Straight) : Prop where
  scratch : ∀ r ∈ Abi.scratch, own r
  register : ∀ d r, x.dst = some d → d.kind = .register → Abi.register d.low = .ok r → own r
  kind : a.definesRegister = true → ∀ d, x.dst = some d → d.kind = .register
  words : ∀ d w, x.dst = some d → Access.Slot level d w → slot w
  reference : a.storesReference = true → slot (.r0, 0)

/-- The instructions of a straight-line lowering write nothing but what the statement permits, and
none of them changes the flow of control. -/
theorem Straight.confined {own : Reg → Prop} {slot : Reg × LoadOffset → Prop} {level : UInt32}
    {x : Statement} {a : Straight} (hp : a.Permits own slot level x) {l : List Instr}
    (h : a.code level x = .ok l) : Confined own slot l := by
  have h0 : own .r0 := hp.scratch _ (by decide)
  have h1 : own .r1 := hp.scratch _ (by decide)
  have h2 : own .r2 := hp.scratch _ (by decide)
  have h3 : own .r3 := hp.scratch _ (by decide)
  have hd {d : Operand} (hx : x.dst = some d) :
      d.kind = .register → ∀ r, Abi.register d.low = .ok r → own r :=
    fun hk r hr => hp.register d r hx hk hr
  have hw {d : Operand} (hx : x.dst = some d) : ∀ w, Access.Slot level d w → slot w :=
    fun w => hp.words d w hx
  cases code_eq_ok_iff.mp h with
  | nothing => exact confined_nil
  | movRegReg hx _ hrd _ => simpa [Instr.mov] using hd hx (hp.kind rfl _ hx) _ hrd
  | movRegMem hx _ hrd hl => exact Access.confined_load (hd hx (hp.kind rfl _ hx) _ hrd) hl
  | movRegCst hx _ hk _ hrd => exact Constant.confined_load (hd hx hk _ hrd) _
  | movMemReg hx _ _ _ hl => exact Access.confined_store (hw hx) hl
  | movMemMem hx _ ha hb =>
    exact confined_append.mpr ⟨Access.confined_load h0 ha, Access.confined_store (hw hx) hb⟩
  | movMemCst hx _ _ hl =>
    exact confined_append.mpr ⟨Constant.confined_load h0 _, Access.confined_store (hw hx) hl⟩
  | arithCst hx _ _ hl => exact confined_arithCstCode h1 h2 h0 (hw hx) (hd hx) hl
  | arith hx _ _ hl => exact confined_arithCode h1 h2 h0 (hw hx) (hd hx) hl
  | shift hx _ _ hl => exact confined_shiftCode h1 h2 h0 (hw hx) (hd hx) hl
  | compareCst hx _ _ _ hrd ha hf hc =>
    simp [confined_compareCstCode h1 h2 ha, confined_flag (own_of_define h0 (hd hx) hrd) hf,
      Access.confined_commit (hw hx) hc]
  | compare hx _ _ hrd ha hf hc =>
    simp [confined_compareCode h1 h2 ha, confined_flag (own_of_define h0 (hd hx) hrd) hf,
      Access.confined_commit (hw hx) hc]
  | notRegReg hx _ hk _ hrd _ => simpa using hd hx hk _ hrd
  | notMemReg hx _ _ _ hl => simp [h1, Access.confined_store (hw hx) hl]
  | notMemMem hx _ ha hb =>
    simp [h1, Access.confined_load h0 ha, Access.confined_store (hw hx) hb]
  | resultReg hx hk hrd => simpa [Instr.mov] using hd hx hk _ hrd
  | resultTmp hx hl => exact Access.confined_storeTemporary (hw hx) hl
  | resultMem64 hx hl => exact confined_storePair (hw hx) hl
  | multiply hx _ _ hl => exact confined_multiplyCode h1 h2 h0 (hw hx) h3 hl
  | refAddReg hx _ _ _ _ ha hb =>
    simp [Access.confined_loadRelReference h0 ha, h0, Access.confined_storeTmpReference (hw hx) hb]
  | refAddCst hx _ _ _ ha hc hb =>
    simp [Access.confined_loadRelReference h0 ha, Constant.confined_add h0 h1 hc,
      Access.confined_storeTmpReference (hw hx) hb]
  | refLoadReg hx _ hk hrd hl => simp [Access.confined_loadTmpReference h0 hl, hd hx hk _ hrd]
  | refLoadMem hx _ ha hb =>
    simp [Access.confined_loadTmpReference h0 ha, h1, Access.confined_store (hw hx) hb]
  | refStoreReg _ _ _ _ hl => simp [Access.confined_loadTmpReference h0 hl, hp.reference rfl]
  | refStoreRel _ _ ha hb =>
    simp [Access.confined_loadTmpReference h0 ha, Access.confined_loadRelative h1 hb,
      hp.reference rfl]
  | refStoreCst _ _ _ hl =>
    simp [Access.confined_loadTmpReference h0 hl, Constant.confined_load h1, hp.reference rfl]
  | mov64Mem hx _ ha hb =>
    exact confined_append.mpr ⟨confined_loadPair h0 h1 ha, confined_storePair (hw hx) hb⟩
  | mov64Cst hx _ hl =>
    simp [Constant.confined_load h0, Constant.confined_load h1, confined_storePair (hw hx) hl]
  | arith64 hx _ _ hl => exact confined_arith64Code h1 h2 h0 (hw hx) h3 hl

end A32Lowering
