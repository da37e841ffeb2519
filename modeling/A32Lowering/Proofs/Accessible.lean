import Mathlib
import A32Lowering.Proofs.Footprint
import A32Lowering.Proofs.SavedRegisters

/-!
# When operands can be accessed

The checks that the lowerings make of their operands, as conditions on the operands: the index of a
register is one of the allocator, an offset from the context pointer is a multiple of four, and
every offset is one that a load or store can hold.

## Main definitions

* `Succeeds` : a check that gives a result.
* `Operand.offsets`, `Operand.Accessible`, `Operand.Usable`.

## Main results

* `Access.succeeds_use` and its relatives : the checks of one operand.
* `Straight.succeeds_arithCode` and its relatives : the checks of a binary operation.
-/

namespace A32Lowering

section Succeeds

variable {ε ε' α β : Type} {P : Prop} {m : Except ε α} {f : α → Except ε β}

/-- A check that gives a result. -/
def Succeeds (m : Except ε α) : Prop := ∃ a, m = .ok a

@[simp] theorem succeeds_ok (a : α) : Succeeds (.ok a : Except ε α) := ⟨a, rfl⟩

@[simp] theorem succeeds_pure (a : α) : Succeeds (pure a : Except ε α) := ⟨a, rfl⟩

@[simp] theorem not_succeeds_error (e : ε) : ¬ Succeeds (.error e : Except ε α) :=
  fun ⟨_, h⟩ => by cases h

@[simp] theorem not_succeeds_throw (e : ε) : ¬ Succeeds (throw e : Except ε α) :=
  not_succeeds_error e

@[simp] theorem succeeds_map {g : α → β} : Succeeds (m.map g) ↔ Succeeds m := by
  simp [Succeeds]

@[simp] theorem succeeds_mapError {g : ε → ε'} : Succeeds (m.mapError g) ↔ Succeeds m := by
  simp [Succeeds]

@[simp] theorem succeeds_functor_map {g : α → β} : Succeeds (g <$> m) ↔ Succeeds m :=
  succeeds_map

@[simp] theorem exists_eq_ok_iff : (∃ a, m = .ok a) ↔ Succeeds m := Iff.rfl

theorem succeeds_bind_iff : Succeeds (m >>= f) ↔ ∃ a, m = .ok a ∧ Succeeds (f a) := by
  simp only [Succeeds, Except.bind_eq_ok_iff]
  constructor
  · rintro ⟨b, a, ha, hb⟩
    exact ⟨a, ha, b, hb⟩
  · rintro ⟨a, ha, b, hb⟩
    exact ⟨b, a, ha, hb⟩

/-- Checks in sequence, when the result of the first is of no consequence to whether the second
succeeds. -/
theorem succeeds_bind (h : ∀ a, m = .ok a → (Succeeds (f a) ↔ P)) :
    Succeeds (m >>= f) ↔ Succeeds m ∧ P := by
  rw [succeeds_bind_iff]
  constructor
  · rintro ⟨a, ha, hf⟩
    exact ⟨⟨a, ha⟩, (h a ha).mp hf⟩
  · rintro ⟨⟨a, ha⟩, hp⟩
    exact ⟨a, ha, (h a ha).mpr hp⟩

end Succeeds

namespace Operand

/-- The offsets, from the stack pointer or the context pointer, at which the words of an operand
lie. -/
def offsets (o : Operand) : List UInt32 :=
  match o.kind with
  | .relative | .relReference => [o.low]
  | .relative64 => [o.low, o.low + 4]
  | .temporary | .tmpReference => [o.slot]
  | .temporary64 => [o.slot, o.slot + 4]
  | _ => []

/-- Whether an operand lies in the context block. -/
def isRelative (o : Operand) : Bool :=
  o.kind = .relative || o.kind = .relative64 || o.kind = .relative128 || o.kind = .relReference

/-- Offsets from the context pointer are multiples of four, and loads and stores can hold all
offsets. -/
structure Accessible (o : Operand) : Prop where
  aligned : o.isRelative = true → o.low % 4 = 0
  window : ∀ off ∈ o.offsets, off < 4096

/-- An operand whose register exists and whose words can be accessed. -/
structure Usable (o : Operand) : Prop extends o.Accessible where
  register : o.kind = .register → o.low < 6

end Operand

namespace Access

variable {s : Operand} {r pref : Reg}

theorem and_three_eq_zero_iff (v : UInt32) : v &&& 3 = 0 ↔ v % 4 = 0 := by
  rw [← UInt32.toNat_inj, ← UInt32.toNat_inj, UInt32.toNat_and, UInt32.toNat_mod]
  exact (Nat.and_two_pow_sub_one_eq_mod v.toNat 2) ▸ Iff.rfl

@[simp] theorem need_some {s : Operand} : need (some s) = .ok s := rfl

theorem ok_bind {α β : Type} (a : α) (f : α → Except Fault β) :
    (Except.ok a >>= f) = f a := rfl

theorem expect_of_eq {what : Expected} {kind : Kind} (h : s.kind = kind) :
    expect what kind s = .ok () := if_pos h

theorem succeeds_expect_bind {α : Type} {what : Expected} {kind : Kind} {f : Unit → Except Fault α}
    (h : s.kind = kind) : Succeeds (expect what kind s >>= f) ↔ Succeeds (f ()) := by
  rw [expect, if_pos h]
  rfl

theorem succeeds_register (i : UInt32) : Succeeds (Abi.register i) ↔ i < 6 := by
  rw [Succeeds, Abi.exists_register_iff, UInt32.lt_iff_toNat_lt]
  rfl

theorem succeeds_offset (off : UInt32) : Succeeds (offset off) ↔ off < 4096 := by
  rw [offset, succeeds_mapError, LoadOffset.ofWord, UInt32.lt_iff_toNat_lt]
  split_ifs with h <;> simp [h]

theorem succeeds_relative (half : UInt32) :
    Succeeds (relative s half) ↔ s.low % 4 = 0 ∧ s.low + half < 4096 := by
  unfold relative
  rw [← and_three_eq_zero_iff]
  split_ifs with h <;> simp [h, succeeds_offset]

theorem succeeds_temporary (level half : UInt32) :
    Succeeds (temporary level s half) ↔ s.slot + level + half < 4096 :=
  succeeds_offset _

theorem accessible_iff_of_temporary (h : s.kind = .temporary ∨ s.kind = .tmpReference) :
    s.Accessible ↔ s.slot < 4096 := by
  have ho : s.offsets = [s.slot] := by rcases h with h | h <;> simp [Operand.offsets, h]
  have hr : s.isRelative = false := by rcases h with h | h <;> simp [Operand.isRelative, h]
  exact ⟨fun ha => ha.window _ (by simp [ho]), fun hw => ⟨by simp [hr], by simpa [ho] using hw⟩⟩

theorem accessible_iff_of_relative (h : s.kind = .relative ∨ s.kind = .relReference) :
    s.Accessible ↔ s.low % 4 = 0 ∧ s.low < 4096 := by
  have ho : s.offsets = [s.low] := by rcases h with h | h <;> simp [Operand.offsets, h]
  have hr : s.isRelative = true := by rcases h with h | h <;> simp [Operand.isRelative, h]
  exact ⟨fun ha => ⟨ha.aligned hr, ha.window _ (by simp [ho])⟩,
    fun hw => ⟨fun _ => hw.1, by simpa [ho] using hw.2⟩⟩

theorem succeeds_temporaryAddress (h : s.kind = .temporary ∨ s.kind = .tmpReference) :
    Succeeds (temporaryAddress 0 s 0) ↔ s.Accessible := by
  simp [temporaryAddress, succeeds_temporary, accessible_iff_of_temporary h]

theorem succeeds_relativeAddress (h : s.kind = .relative ∨ s.kind = .relReference) :
    Succeeds (relativeAddress s 0) ↔ s.Accessible := by
  simp [relativeAddress, succeeds_relative, accessible_iff_of_relative h]

/-- The address of a word in memory. -/
theorem succeeds_address (h : s.isMemory = true) : Succeeds (address 0 s) ↔ s.Accessible := by
  simp only [Operand.isMemory, Bool.or_eq_true, decide_eq_true_eq] at h
  rcases h with h | h
  · rw [address, h]
    exact succeeds_temporaryAddress (.inl h)
  · rw [address, h]
    exact succeeds_relativeAddress (.inl h)

/-- The addresses of the two words of an operand in memory. -/
theorem succeeds_address64 (h : s.isMemory64 = true) :
    Succeeds (address64 0 s 0) ∧ Succeeds (address64 0 s 4) ↔ s.Accessible := by
  simp only [Operand.isMemory64, Bool.or_eq_true, decide_eq_true_eq] at h
  rcases h with h | h
  · have hs : s.Accessible ↔ s.slot < 4096 ∧ s.slot + 4 < 4096 :=
      ⟨fun ha => ⟨ha.window _ (by simp [Operand.offsets, h]),
        ha.window _ (by simp [Operand.offsets, h])⟩,
        fun hw => ⟨by simp [Operand.isRelative, h], by simpa [Operand.offsets, h] using hw⟩⟩
    simp [address64, h, temporaryAddress, succeeds_temporary, hs]
  · have hs : s.Accessible ↔ s.low % 4 = 0 ∧ s.low < 4096 ∧ s.low + 4 < 4096 :=
      ⟨fun ha => ⟨ha.aligned (by simp [Operand.isRelative, h]),
        ha.window _ (by simp [Operand.offsets, h]), ha.window _ (by simp [Operand.offsets, h])⟩,
        fun hw => ⟨fun _ => hw.1, by simpa [Operand.offsets, h] using hw.2⟩⟩
    simp only [address64, h, relativeAddress, succeeds_map, succeeds_relative, hs, add_zero]
    tauto

theorem succeeds_load (h : s.isMemory = true) : Succeeds (load 0 r s) ↔ s.Accessible := by
  rw [load, succeeds_map, succeeds_address h]

theorem succeeds_store (h : s.isMemory = true) : Succeeds (store 0 s r) ↔ s.Accessible := by
  rw [store, succeeds_map, succeeds_address h]

theorem succeeds_loadPair {lo hi : Reg} (h : s.isMemory64 = true) :
    Succeeds (Straight.loadPair 0 lo hi s) ↔ s.Accessible := by
  rw [Straight.loadPair, succeeds_bind fun _ _ => succeeds_bind fun _ _ => iff_true_intro
    (succeeds_pure _), and_true, load64, load64, succeeds_map, succeeds_map, succeeds_address64 h]

theorem succeeds_storePair {lo hi : Reg} (h : s.isMemory64 = true) :
    Succeeds (Straight.storePair 0 s lo hi) ↔ s.Accessible := by
  rw [Straight.storePair, succeeds_bind fun _ _ => succeeds_bind fun _ _ => iff_true_intro
    (succeeds_pure _), and_true, store64, store64, succeeds_map, succeeds_map,
    succeeds_address64 h]

theorem usable_iff_of_isMemory (h : s.isMemory = true) : s.Usable ↔ s.Accessible := by
  refine ⟨fun hu => hu.toAccessible, fun ha => ⟨ha, fun hk => ?_⟩⟩
  simp [Operand.isMemory, hk] at h

theorem usable_iff_of_isMemory64 (h : s.isMemory64 = true) : s.Usable ↔ s.Accessible := by
  refine ⟨fun hu => hu.toAccessible, fun ha => ⟨ha, fun hk => ?_⟩⟩
  simp [Operand.isMemory64, hk] at h

theorem usable_iff_accessible (h : s.kind ≠ .register) : s.Usable ↔ s.Accessible :=
  ⟨fun hu => hu.toAccessible, fun ha => ⟨ha, fun hk => absurd hk h⟩⟩

theorem usable_iff_of_register (h : s.kind = .register) : s.Usable ↔ s.low < 6 :=
  ⟨fun hu => hu.register h, fun hl =>
    ⟨⟨by simp [Operand.isRelative, h], by simp [Operand.offsets, h]⟩, fun _ => hl⟩⟩

theorem usable_of_constant (h : s.kind = .constant) : s.Usable :=
  ⟨⟨by simp [Operand.isRelative, h], by simp [Operand.offsets, h]⟩, by simp [h]⟩

theorem usable_of_constant64 (h : s.kind = .constant64) : s.Usable :=
  ⟨⟨by simp [Operand.isRelative, h], by simp [Operand.offsets, h]⟩, by simp [h]⟩

/-- The value of a word operand can be had exactly when the operand is usable. -/
theorem succeeds_use (h : Pattern.any.admitsOperand s = true) :
    Succeeds (use 0 s pref) ↔ s.Usable := by
  simp only [Pattern.admitsOperand, Bool.or_eq_true, decide_eq_true_eq] at h
  unfold use
  split_ifs with hr hm hc
  · rw [succeeds_map, succeeds_register, usable_iff_of_register hr]
  · rw [succeeds_map, succeeds_load hm, usable_iff_of_isMemory hm]
  · exact iff_of_true (succeeds_ok _) (usable_of_constant hc)
  · exact absurd h (by tauto)

theorem succeeds_argument (h : Pattern.any.admitsOperand s = true) :
    Succeeds (argument 0 r s) ↔ s.Usable := by
  rw [argument, succeeds_bind fun _ _ => iff_true_intro (succeeds_pure _), and_true,
    succeeds_use h]

theorem succeeds_shift {kind : ShiftKind} (h : Pattern.any.admitsOperand s = true) :
    Succeeds (shift 0 kind s pref) ↔ s.Usable := by
  simp only [Pattern.admitsOperand, Bool.or_eq_true, decide_eq_true_eq] at h
  unfold shift
  split_ifs with hr hm hc
  · rw [succeeds_map, succeeds_register, usable_iff_of_register hr]
  · rw [succeeds_map, succeeds_load hm, usable_iff_of_isMemory hm]
  · exact iff_of_true (succeeds_ok _) (usable_of_constant hc)
  · exact absurd h (by tauto)

theorem succeeds_loadRelative (h : s.kind = .relative) :
    Succeeds (loadRelative r s) ↔ s.Accessible := by
  rw [loadRelative, succeeds_expect_bind h,
    succeeds_bind fun _ _ => iff_true_intro (succeeds_pure _), and_true,
    succeeds_relativeAddress (.inl h)]

theorem succeeds_loadRelReference (h : s.kind = .relReference) :
    Succeeds (loadRelReference r s) ↔ s.Accessible := by
  rw [loadRelReference, succeeds_expect_bind h,
    succeeds_bind fun _ _ => iff_true_intro (succeeds_pure _), and_true,
    succeeds_relativeAddress (.inr h)]

theorem succeeds_loadTmpReference (h : s.kind = .tmpReference) :
    Succeeds (loadTmpReference 0 r s) ↔ s.Accessible := by
  rw [loadTmpReference, succeeds_expect_bind h,
    succeeds_bind fun _ _ => iff_true_intro (succeeds_pure _), and_true,
    succeeds_temporaryAddress (.inr h)]

theorem succeeds_storeTmpReference (h : s.kind = .tmpReference) :
    Succeeds (storeTmpReference 0 s r) ↔ s.Accessible := by
  rw [storeTmpReference, succeeds_expect_bind h,
    succeeds_bind fun _ _ => iff_true_intro (succeeds_pure _), and_true,
    succeeds_temporaryAddress (.inr h)]

theorem succeeds_storeTemporary (h : s.kind = .temporary) :
    Succeeds (storeTemporary 0 s r) ↔ s.Accessible := by
  rw [storeTemporary, succeeds_expect_bind h,
    succeeds_bind fun _ _ => iff_true_intro (succeeds_pure _), and_true,
    succeeds_temporaryAddress (.inl h)]

/-- A definition can be completed in the register that it was begun in. -/
theorem succeeds_commit (h : define s pref = .ok r) : Succeeds (commit 0 s r) ↔ s.Accessible := by
  unfold commit
  rcases define_eq_ok h with ⟨hk, hr⟩ | ⟨hm, -⟩
  · rw [if_pos hk, hr]
    refine iff_of_true ?_ ⟨by simp [Operand.isRelative, hk], by simp [Operand.offsets, hk]⟩
    rw [succeeds_bind_iff]
    exact ⟨r, rfl, by simp⟩
  · have hk : s.kind ≠ .register := fun hk => by simp [Operand.isMemory, hk] at hm
    rw [if_neg hk, if_pos hm, succeeds_store hm]

/-- A word operand can be written exactly when it is usable and no constant. -/
theorem succeeds_define (h : Pattern.any.admitsOperand s = true) (pref : Reg) :
    Succeeds (define s pref) ∧ s.Accessible ↔ s.kind ≠ .constant ∧ s.Usable := by
  simp only [Pattern.admitsOperand, Bool.or_eq_true, decide_eq_true_eq] at h
  unfold define
  split_ifs with hr hm
  · rw [succeeds_register, usable_iff_of_register hr]
    have ha : s.Accessible := ⟨by simp [Operand.isRelative, hr], by simp [Operand.offsets, hr]⟩
    have hc : s.kind ≠ .constant := by simp [hr]
    tauto
  · rw [usable_iff_of_isMemory hm]
    have hc : s.kind ≠ .constant := fun hc => by simp [Operand.isMemory, hc] at hm
    simp [hc]
  · have hc : s.kind = .constant := by tauto
    simp [hc]

/-- Code that begins with a definition and ends with its completion. -/
theorem succeeds_definition {α : Type} {P : Prop} {f : Reg → Except Fault α}
    (h : Pattern.any.admitsOperand s = true)
    (hf : ∀ rd, define s pref = .ok rd → (Succeeds (f rd) ↔ P ∧ s.Accessible)) :
    Succeeds (define s pref >>= f) ↔ (s.kind ≠ .constant ∧ s.Usable) ∧ P := by
  rw [succeeds_bind hf, ← succeeds_define h pref]
  tauto

end Access

/-! ### Binary operations -/

namespace Straight

open Access

variable {d s1 s2 : Operand} {level : UInt32}

theorem use_ne {s : Operand} {r pref : Reg} {l : List Instr} (h : use level s pref = .ok (r, l)) :
    r = pref ∨ r ∈ Abi.registers := by
  rcases use_eq_ok h with ⟨-, hr, -⟩ | ⟨-, rfl, -⟩ | ⟨-, rfl, -⟩
  · exact .inr (List.mem_of_getElem? (Abi.register_eq_ok_iff.mp hr))
  · exact .inl rfl
  · exact .inl rfl

theorem succeeds_arithCode {a : Arith} (hd : Pattern.any.admitsOperand d = true)
    (h1 : Pattern.any.admitsOperand s1 = true) (h2 : Pattern.any.admitsOperand s2 = true) :
    Succeeds (arithCode 0 a d s1 s2) ↔
      (d.kind ≠ .constant ∧ d.Usable) ∧ s1.Usable ∧ s2.Usable := by
  refine succeeds_definition hd fun rd hrd => ?_
  rw [succeeds_bind fun _ _ => succeeds_bind fun _ _ => succeeds_bind fun _ _ =>
    iff_true_intro (succeeds_pure _), succeeds_use h1, succeeds_use h2, succeeds_commit hrd,
    and_true, and_assoc]

theorem succeeds_shiftCode {kind : ShiftKind} (hd : Pattern.any.admitsOperand d = true)
    (h1 : Pattern.any.admitsOperand s1 = true) (h2 : Pattern.any.admitsOperand s2 = true) :
    Succeeds (shiftCode 0 kind d s1 s2) ↔
      (d.kind ≠ .constant ∧ d.Usable) ∧ s1.Usable ∧ s2.Usable := by
  refine succeeds_definition hd fun rd hrd => ?_
  rw [succeeds_bind fun _ _ => succeeds_bind fun _ _ => succeeds_bind fun _ _ =>
    iff_true_intro (succeeds_pure _), succeeds_use h1, succeeds_shift h2, succeeds_commit hrd,
    and_true, and_assoc]

theorem succeeds_arithCstCode {a : Arith} (hd : Pattern.any.admitsOperand d = true)
    (h1 : Pattern.any.admitsOperand s1 = true) (h2 : s2.kind = .constant) :
    Succeeds (arithCstCode 0 a d s1 s2) ↔ (d.kind ≠ .constant ∧ d.Usable) ∧ s1.Usable := by
  have h2' : Pattern.any.admitsOperand s2 = true := by simp [Pattern.admitsOperand, h2]
  rw [arithCstCode, succeeds_expect_bind h2]
  refine succeeds_definition hd fun rd hrd => ?_
  have hclash : ¬ (Reg.r2 = rd ∨ Reg.r2 ∈ Abi.registers) := by
    rintro (rfl | h)
    · rcases define_eq_ok hrd with ⟨-, hr⟩ | ⟨-, hr⟩
      · exact absurd (List.mem_of_getElem? (Abi.register_eq_ok_iff.mp hr)) (by decide)
      · cases hr
    · exact absurd h (by decide)
  rw [succeeds_bind fun a ha => ?_, succeeds_use h1]
  obtain ⟨r1, l1⟩ := a
  have hr1 : Reg.r2 ≠ r1 := by
    rintro rfl
    rcases use_ne ha with h | h
    · cases h
    · exact hclash (.inr h)
  have hu : use 0 s2 .r2 = .ok (.r2, Constant.load .r2 s2.low) := by
    simp [use, h2, Operand.isMemory]
  simp only
  split
  · rw [pure_bind, succeeds_bind fun _ _ => iff_true_intro (succeeds_pure _), succeeds_commit hrd,
      and_true]
  · rw [hu]
    have hne : ¬ (Reg.r2 = rd ∨ Reg.r2 = r1) := fun h => h.elim (fun h => hclash (.inl h)) hr1
    rw [succeeds_bind_iff]
    simp only [Except.ok.injEq, exists_eq_left', hne, if_false, pure_bind]
    rw [succeeds_bind fun _ _ => iff_true_intro (succeeds_pure _), succeeds_commit hrd, and_true]

theorem succeeds_compareCode (h1 : Pattern.any.admitsOperand s1 = true)
    (h2 : Pattern.any.admitsOperand s2 = true) :
    Succeeds (compareCode 0 s1 s2) ↔ s1.Usable ∧ s2.Usable := by
  rw [compareCode, succeeds_bind fun _ _ => succeeds_bind fun _ _ =>
    iff_true_intro (succeeds_pure _), succeeds_use h1, succeeds_use h2, and_true]

theorem succeeds_compare {rn scratch : Reg} {c : UInt32} (h : rn ≠ scratch) :
    Succeeds (Constant.compare rn c scratch) := by
  unfold Constant.compare
  split
  · exact succeeds_ok _
  · exact succeeds_ok _
  · rw [if_neg h]
    exact succeeds_ok _

theorem succeeds_compareCstCode (h1 : Pattern.any.admitsOperand s1 = true) :
    Succeeds (compareCstCode 0 s1 s2) ↔ s1.Usable := by
  rw [compareCstCode, succeeds_bind fun a ha => ?_, succeeds_use h1, and_true]
  obtain ⟨r1, l1⟩ := a
  have hr1 : r1 ≠ .r2 := by
    rintro rfl
    rcases use_ne ha with h | h
    · cases h
    · exact absurd h (by decide)
  simp only
  rw [succeeds_bind fun _ _ => iff_true_intro (succeeds_pure _), and_true, iff_true]
  exact succeeds_compare hr1

theorem succeeds_add {rd rn scratch : Reg} {c : UInt32} (h : scratch ≠ rn) :
    Succeeds (Constant.add rd rn c scratch) := by
  unfold Constant.add
  split
  · exact succeeds_ok _
  · exact succeeds_ok _
  · rw [if_neg h]
    exact succeeds_ok _

/-- The conditions that have a condition code are those that have a name. -/
theorem succeeds_ofCondition (c : Condition) :
    Succeeds (CondCode.ofCondition c) ↔ c ∈ Condition.named := by
  cases c <;> simp [CondCode.ofCondition, Condition.named]

theorem succeeds_flag {r : Reg} {c : Condition} : Succeeds (flag r c) ↔ c ∈ Condition.named := by
  rw [flag, succeeds_bind fun _ _ => iff_true_intro (succeeds_pure _), and_true,
    succeeds_ofCondition]

/-- A comparison into an operand. -/
theorem succeeds_comparison {d : Operand} {c : Condition}
    (hd : Pattern.any.admitsOperand d = true) (compare : Except Fault (List Instr)) :
    Succeeds (do
      let rd ← define d .r0
      let l ← compare
      return l ++ (← flag rd c) ++ (← commit 0 d rd)) ↔
      (d.kind ≠ .constant ∧ d.Usable) ∧ Succeeds compare ∧ c ∈ Condition.named := by
  refine succeeds_definition hd fun rd hrd => ?_
  rw [succeeds_bind fun _ _ => succeeds_bind fun _ _ => succeeds_bind fun _ _ => iff_true_intro
    (succeeds_pure _), succeeds_flag, succeeds_commit hrd, and_true, and_assoc]

theorem succeeds_multiplyCode {signed : Bool} (hd : d.kind = .temporary64)
    (h1 : Pattern.any.admitsOperand s1 = true) (h2 : Pattern.any.admitsOperand s2 = true) :
    Succeeds (multiplyCode 0 signed d s1 s2) ↔ s1.Usable ∧ s2.Usable ∧ d.Accessible := by
  have hm : d.isMemory64 = true := by simp [Operand.isMemory64, hd]
  rw [multiplyCode, succeeds_expect_bind hd]
  refine (succeeds_bind fun a ha => succeeds_bind fun b hb => ?_).trans
    (by rw [succeeds_use h1, succeeds_use h2])
  obtain ⟨r1, l1⟩ := a
  obtain ⟨r2, l2⟩ := b
  have hne (r : Reg) (hr : r = .r0 ∨ r = .r1) (r' : Reg) (p : Reg) (hp : p = .r2 ∨ p = .r3)
      (h : r' = p ∨ r' ∈ Abi.registers) : r' ≠ r := by
    rintro rfl
    rcases hr with rfl | rfl <;> rcases h with rfl | h
    · rcases hp with hp | hp <;> cases hp
    · exact absurd h (by decide)
    · rcases hp with hp | hp <;> cases hp
    · exact absurd h (by decide)
  have hc : ¬ (r1 = .r0 ∨ r2 = .r0 ∨ r1 = .r1 ∨ r2 = .r1) := by
    rintro (h | h | h | h)
    · exact hne _ (.inl rfl) _ _ (.inl rfl) (use_ne ha) h
    · exact hne _ (.inl rfl) _ _ (.inr rfl) (use_ne hb) h
    · exact hne _ (.inr rfl) _ _ (.inl rfl) (use_ne ha) h
    · exact hne _ (.inr rfl) _ _ (.inr rfl) (use_ne hb) h
  simp only [hc, if_false]
  rw [succeeds_bind fun _ _ => iff_true_intro (succeeds_pure _), and_true, succeeds_storePair hm]

theorem succeeds_arith64Code {lo hi : AluOp} {flags : Bool} (hd : d.isMemory64 = true)
    (h1 : s1.isMemory64 = true) (h2 : s2.isMemory64 = true ∨ s2.kind = .constant64) :
    Succeeds (arith64Code 0 lo flags hi d s1 s2) ↔
      s1.Accessible ∧ s2.Accessible ∧ d.Accessible := by
  rw [arith64Code]
  refine (succeeds_bind fun _ _ => ?_).trans (by rw [succeeds_loadPair h1])
  split_ifs with hk
  · have ha : s2.Accessible := ⟨by simp [Operand.isRelative, hk], by simp [Operand.offsets, hk]⟩
    rw [pure_bind, succeeds_bind fun _ _ => iff_true_intro (succeeds_pure _),
      succeeds_storePair hd, and_true, and_iff_right ha]
  · have hm : s2.isMemory64 = true := h2.resolve_right hk
    rw [succeeds_bind fun _ _ => succeeds_bind fun _ _ => iff_true_intro (succeeds_pure _),
      succeeds_loadPair hm, succeeds_storePair hd, and_true]

end Straight

end A32Lowering
