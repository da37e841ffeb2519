import Mathlib
import A32Lowering.Proofs.SavedRegisters
import A32Lowering.Proofs.Values

/-!
# The variables of a program in the machine

Where the machine keeps the variables of a program, and what the code does that gets the value of an
operand into a register and back. The scratch registers hold no variable, so cores that differ only
in them and in the flags have the same variables.

## Main definitions

* `Core.storage` : the variables that a core holds.
* `Core.put` : the core with a new value of an operand.
* `Core.Same` : cores that differ in scratch registers and flags only.
* `Core.EqOff` : cores that differ in some registers only.

## Main results

* `Core.run?_use` : the value of a source gets into a register.
* `Core.run?_commit` : the value of a destination gets to its place.
* `Core.run?_shift` : the amount of a shift.
-/

namespace A32Lowering

namespace Core

/-- The variables of a program: the registers of the allocator, the words above the stack pointer
and the words of the context block. -/
def storage (c : Core) : Storage where
  regs i := ((Abi.register i).toOption.map c.regs).getD 0
  temps slot := c.mem.word (c.regs .sp + slot)
  rels off := c.mem.word (c.regs Abi.base + off)

/-- The core with a new value of an operand. -/
def put (c : Core) (d : Operand) (v : UInt32) : Core :=
  match d.kind with
  | .register => ((Abi.register d.low).toOption.map (c.set · v)).getD c
  | .temporary => c.store (c.regs .sp + d.slot) v
  | .relative => c.store (c.regs Abi.base + d.low) v
  | _ => c

/-- Cores that differ in scratch registers and flags only. -/
structure Same (c c' : Core) : Prop where
  regs : ∀ r ∉ Abi.scratch, c'.regs r = c.regs r
  mem : c'.mem = c.mem

variable {c c' c'' : Core} {s d : Operand} {r pref : Reg} {l : List Instr} {v : UInt32}

namespace Same

theorem refl (c : Core) : Same c c := ⟨fun _ _ => rfl, rfl⟩

theorem trans (h : Same c c') (h' : Same c' c'') : Same c c'' :=
  ⟨fun r hr => (h'.regs r hr).trans (h.regs r hr), h'.mem.trans h.mem⟩

theorem set (h : Same c c') (hr : r ∈ Abi.scratch) : Same c (c'.set r v) := by
  refine ⟨fun q hq => ?_, h.mem⟩
  have hqr : q ≠ r := by
    rintro rfl
    exact hq hr
  rw [regs_set_of_ne hqr, h.regs q hq]

theorem set_set (h : Same c c') : Same (c.set r v) (c'.set r v) := by
  refine ⟨fun q hq => ?_, h.mem⟩
  by_cases hqr : q = r
  · rw [hqr, regs_set_self, regs_set_self]
  · rw [regs_set_of_ne hqr, regs_set_of_ne hqr, h.regs q hq]

theorem store (h : Same c c') (a : UInt32) : Same (c.store a v) (c'.store a v) :=
  ⟨h.regs, by rw [mem_store, mem_store, h.mem]⟩

end Same

/-- Cores that differ in some registers only. -/
structure EqOff (rs : List Reg) (c c' : Core) : Prop where
  regs : ∀ r ∉ rs, c'.regs r = c.regs r
  mem : c'.mem = c.mem
  flags : c'.flags = c.flags

namespace EqOff

variable {rs : List Reg}

theorem refl (rs : List Reg) (c : Core) : EqOff rs c c := ⟨fun _ _ => rfl, rfl, rfl⟩

theorem symm (h : EqOff rs c c') : EqOff rs c' c :=
  ⟨fun r hr => (h.regs r hr).symm, h.mem.symm, h.flags.symm⟩

theorem trans (h : EqOff rs c c') (h' : EqOff rs c' c'') : EqOff rs c c'' :=
  ⟨fun r hr => (h'.regs r hr).trans (h.regs r hr), h'.mem.trans h.mem, h'.flags.trans h.flags⟩

theorem set (h : EqOff rs c c') (hr : r ∈ rs) : EqOff rs c (c'.set r v) := by
  refine ⟨fun q hq => ?_, h.mem, h.flags⟩
  have hqr : q ≠ r := by
    rintro rfl
    exact hq hr
  rw [regs_set_of_ne hqr, h.regs q hq]

theorem set_set (h : EqOff rs c c') : EqOff rs (c.set r v) (c'.set r v) := by
  refine ⟨fun q hq => ?_, h.mem, h.flags⟩
  by_cases hqr : q = r
  · rw [hqr, regs_set_self, regs_set_self]
  · rw [regs_set_of_ne hqr, regs_set_of_ne hqr, h.regs q hq]

theorem store (h : EqOff rs c c') (a : UInt32) : EqOff rs (c.store a v) (c'.store a v) :=
  ⟨h.regs, by rw [mem_store, mem_store, h.mem], h.flags⟩

end EqOff

end Core

theorem Abi.not_mem_scratch_of_register {i : UInt32} {r : Reg} (h : Abi.register i = .ok r) :
    r ∉ Abi.scratch := by
  have hall : ∀ r ∈ Abi.registers, r ∉ Abi.scratch := by decide
  exact hall r (List.mem_of_getElem? (Abi.register_eq_ok_iff.mp h))

theorem Abi.ne_of_register {i : UInt32} {r q : Reg} (h : Abi.register i = .ok r)
    (hq : q ∈ Abi.scratch) : r ≠ q := by
  rintro rfl
  exact Abi.not_mem_scratch_of_register h hq

/-- A source is in the preferred register or in one that is no scratch register. -/
theorem Access.ne_of_use {level : UInt32} {s : Operand} {r q pref : Reg} {l : List Instr}
    (h : Access.use level s pref = .ok (r, l)) (hp : pref ≠ q) (hq : q ∈ Abi.scratch) : r ≠ q := by
  rcases Access.use_eq_ok h with ⟨-, hr, -⟩ | ⟨-, rfl, -⟩ | ⟨-, rfl, -⟩
  · exact Abi.ne_of_register hr hq
  · exact hp
  · exact hp

/-- A destination is in the preferred register or in one that is no scratch register. -/
theorem Access.ne_of_define {s : Operand} {r q pref : Reg} (h : Access.define s pref = .ok r)
    (hp : pref ≠ q) (hq : q ∈ Abi.scratch) : r ≠ q := by
  rcases Access.define_eq_ok h with ⟨-, hr⟩ | ⟨-, rfl⟩
  · exact Abi.ne_of_register hr hq
  · exact hp

theorem Access.bits_of_offset {off : UInt32} {o : LoadOffset} (h : Access.offset off = .ok o) :
    o.bits = off := by
  have h := Except.mapError_eq_ok_iff.mp h
  unfold LoadOffset.ofWord at h
  split_ifs at h
  obtain rfl := Except.ok.inj h
  exact UInt32.ofNat_toNat

/-- The address of a word of the context block is relative to the context pointer. -/
theorem Access.relativeAddress_eq_ok {s : Operand} {half : UInt32} {a : Reg × LoadOffset}
    (h : Access.relativeAddress s half = .ok a) : a.1 = Abi.base ∧ a.2.bits = s.low + half := by
  obtain ⟨o, ho, rfl⟩ := Except.map_eq_ok_iff.mp h
  unfold Access.relative at ho
  split_ifs at ho
  exact ⟨rfl, Access.bits_of_offset ho⟩

/-- The address of a word on the stack is relative to the stack pointer. -/
theorem Access.temporaryAddress_eq_ok {level half : UInt32} {s : Operand} {a : Reg × LoadOffset}
    (h : Access.temporaryAddress level s half = .ok a) :
    a.1 = .sp ∧ a.2.bits = s.slot + level + half := by
  obtain ⟨o, ho, rfl⟩ := Except.map_eq_ok_iff.mp h
  exact ⟨rfl, Access.bits_of_offset ho⟩

/-- The address of a word operand is relative to the context pointer or to the stack pointer. -/
theorem Access.address_eq_ok {level : UInt32} {s : Operand} {a : Reg × LoadOffset}
    (h : Access.address level s = .ok a) :
    (s.kind = .relative ∧ a.1 = Abi.base ∧ a.2.bits = s.low) ∨
      (s.kind = .temporary ∧ a.1 = .sp ∧ a.2.bits = s.slot + level) := by
  unfold Access.address at h
  split at h
  next hk =>
    obtain ⟨hr, ho⟩ := Access.relativeAddress_eq_ok h
    exact .inl ⟨hk, hr, ho.trans (add_zero _)⟩
  next hk =>
    obtain ⟨hr, ho⟩ := Access.temporaryAddress_eq_ok h
    exact .inr ⟨hk, hr, ho.trans (add_zero _)⟩
  next => cases h

/-- A definition is complete in a register, and stored for a word in memory. -/
theorem Access.commit_eq_ok {level : UInt32} {s : Operand} {r : Reg} {l : List Instr}
    (h : Access.commit level s r = .ok l) :
    (s.kind = .register ∧ l = []) ∨ (s.isMemory ∧ Access.store level s r = .ok l) := by
  unfold Access.commit at h
  split_ifs at h with hk hm
  · simp only [Except.bind_eq_ok_iff] at h
    obtain ⟨own, -, h⟩ := h
    split_ifs at h
    exact .inl ⟨hk, (Except.pure_eq_ok_iff.mp h).symm⟩
  · exact .inr ⟨hm, h⟩

namespace Core

variable {c c' : Core} {s d : Operand} {r pref : Reg} {l : List Instr} {v : UInt32}

theorem regs_storage {i : UInt32} (h : Abi.register i = .ok r) : c.storage.regs i = c.regs r := by
  simp only [storage, h, Except.toOption, Option.map_some, Option.getD_some]

/-- Cores that differ in scratch registers and flags only have the same variables. -/
theorem Same.storage_eq (h : Same c c') : c'.storage = c.storage := by
  have hsp := h.regs .sp (by decide)
  have hbase := h.regs Abi.base (by decide)
  have hregs (i : UInt32) : (Abi.register i).toOption.map c'.regs =
      (Abi.register i).toOption.map c.regs := by
    cases hi : Abi.register i with
    | error => rfl
    | ok r => exact congrArg some (h.regs r (Abi.not_mem_scratch_of_register hi))
  simp only [storage, hregs, hsp, hbase, h.mem]

theorem value_register (hk : s.kind = .register) (h : Abi.register s.low = .ok r) :
    c.storage.value s = c.regs r := by
  simp only [Storage.value, hk, regs_storage h]

theorem value_constant (hk : s.kind = .constant) : c.storage.value s = s.low := by
  simp only [Storage.value, hk]

theorem value_of_address {a : Reg × LoadOffset} (h : Access.address 0 s = .ok a) :
    c.storage.value s = c.mem.word (c.regs a.1 + a.2.bits) := by
  rcases Access.address_eq_ok h with ⟨hk, hr, ho⟩ | ⟨hk, hr, ho⟩
  · simp only [Storage.value, hk, storage, hr, ho]
  · simp only [Storage.value, hk, storage, hr, ho, add_zero]

theorem put_register (hk : d.kind = .register) (h : Abi.register d.low = .ok r) :
    c.put d v = c.set r v := by
  simp only [put, hk, h, Except.toOption, Option.map_some, Option.getD_some]

theorem put_of_address {a : Reg × LoadOffset} (h : Access.address 0 d = .ok a) :
    c.put d v = c.store (c.regs a.1 + a.2.bits) v := by
  rcases Access.address_eq_ok h with ⟨hk, hr, ho⟩ | ⟨hk, hr, ho⟩
  · simp only [put, hk, hr, ho]
  · simp only [put, hk, hr, ho, add_zero]

/-- Loading a word operand writes one register. -/
theorem run?_loadOperand (h : Access.load 0 r s = .ok l) :
    c.run? l = some (c.set r (c.storage.value s)) := by
  obtain ⟨a, ha, rfl⟩ := Except.map_eq_ok_iff.mp h
  rw [Access.loadFrom, run?_singleton, effect?, value_of_address ha]

/-- Storing to a word operand writes the word. -/
theorem run?_storeOperand (h : Access.store 0 d r = .ok l) :
    c.run? l = some (c.put d (c.regs r)) := by
  obtain ⟨a, ha, rfl⟩ := Except.map_eq_ok_iff.mp h
  rw [Access.storeTo, run?_singleton, effect?, put_of_address ha]

/-- Using an operand gets its value into a register and writes at most the preferred one. -/
theorem run?_use (h : Access.use 0 s pref = .ok (r, l)) : ∃ c', c.run? l = some c' ∧
    c'.regs r = c.storage.value s ∧ c'.mem = c.mem ∧ ∀ q ≠ pref, c'.regs q = c.regs q := by
  rcases Access.use_eq_ok h with ⟨hk, hr, rfl⟩ | ⟨-, rfl, hl⟩ | ⟨hk, rfl, rfl⟩
  · exact ⟨c, rfl, (value_register hk hr).symm, rfl, fun _ _ => rfl⟩
  · exact ⟨_, run?_loadOperand hl, regs_set_self, rfl, fun _ hq => regs_set_of_ne hq⟩
  · exact ⟨_, run?_load, by rw [regs_set_self, value_constant hk], rfl,
      fun _ hq => regs_set_of_ne hq⟩

theorem Same.of_eq_off (hp : pref ∈ Abi.scratch) (hm : c'.mem = c.mem)
    (hr : ∀ q ≠ pref, c'.regs q = c.regs q) : Same c c' := by
  refine ⟨fun q hq => hr q ?_, hm⟩
  rintro rfl
  exact hq hp

theorem Same.put (h : Same c c') (d : Operand) (v : UInt32) : Same (c.put d v) (c'.put d v) := by
  unfold Core.put
  split
  · cases Abi.register d.low with
    | error => exact h
    | ok r => exact h.set_set
  · rw [h.regs .sp (by decide)]
    exact h.store _
  · rw [h.regs Abi.base (by decide)]
    exact h.store _
  · exact h

/-- Cores that differ in some scratch registers only. -/
theorem EqOff.same {rs : List Reg} (h : EqOff rs c c') (hrs : rs ⊆ Abi.scratch) : Same c c' :=
  ⟨fun r hr => h.regs r fun hm => hr (hrs hm), h.mem⟩

theorem EqOff.put {rs : List Reg} (h : EqOff rs c c') (hrs : rs ⊆ Abi.scratch) (d : Operand)
    (v : UInt32) : EqOff rs (c.put d v) (c'.put d v) := by
  unfold Core.put
  split
  · cases Abi.register d.low with
    | error => exact h
    | ok r => exact h.set_set
  · rw [(h.same hrs).regs .sp (by decide)]
    exact h.store _
  · rw [(h.same hrs).regs Abi.base (by decide)]
    exact h.store _
  · exact h

/-- Storing a scratch register to a word operand. -/
theorem run?_storeScratch (hs : Same c c') (hr : r ∈ Abi.scratch)
    (h : Access.store 0 d r = .ok l) :
    ∃ c'', (c'.set r v).run? l = some c'' ∧ Same (c.put d v) c'' := by
  refine ⟨_, run?_storeOperand h, ?_⟩
  rw [regs_set_self]
  exact (hs.set hr).put d v

/-- Completing a definition gets the value to its place. -/
theorem run?_commit {rd : Reg} (hs : Same c c') (hd : Access.define d .r0 = .ok rd)
    (h : Access.commit 0 d rd = .ok l) :
    ∃ c'', (c'.set rd v).run? l = some c'' ∧ Same (c.put d v) c'' := by
  rcases Access.define_eq_ok hd with ⟨hk, hr⟩ | ⟨hm, rfl⟩
  · rcases Access.commit_eq_ok h with ⟨-, rfl⟩ | ⟨hm, -⟩
    · refine ⟨_, rfl, ?_⟩
      rw [put_register hk hr]
      exact hs.set_set
    · simp [Operand.isMemory, hk] at hm
  · rcases Access.commit_eq_ok h with ⟨hk, -⟩ | ⟨-, hl⟩
    · simp [Operand.isMemory, hk] at hm
    · exact run?_storeScratch hs (by decide) hl

/-- A shift by the value of an operand. -/
theorem run?_shift {kind : ShiftKind} {by_ : Shift}
    (h : Access.shift 0 kind s pref = .ok (by_, l)) : ∃ c', c.run? l = some c' ∧
    c'.mem = c.mem ∧ (∀ q ≠ pref, c'.regs q = c.regs q) ∧ ∀ w, (by_.eval c' w).1 =
      (kind.apply w (Statement.amount c.storage.value s) c'.flags.carry).1 := by
  unfold Access.shift at h
  split_ifs at h with hk hm hc
  · obtain ⟨r, hr, h⟩ := Except.map_eq_ok_iff.mp h
    obtain ⟨rfl, rfl⟩ := Prod.mk.inj h
    refine ⟨c, rfl, rfl, fun _ _ => rfl, fun w => ?_⟩
    rw [Statement.amount, if_neg (by simp [hk]), value_register hk hr, Shift.eval]
  · obtain ⟨l', hl, h⟩ := Except.map_eq_ok_iff.mp h
    obtain ⟨rfl, rfl⟩ := Prod.mk.inj h
    refine ⟨_, run?_loadOperand hl, rfl, fun _ hq => regs_set_of_ne hq, fun w => ?_⟩
    have hc : s.kind ≠ .constant := by
      intro hc
      simp [Operand.isMemory, hc] at hm
    rw [Statement.amount, if_neg hc, Shift.eval, regs_set_self]
  · obtain ⟨rfl, rfl⟩ := Prod.mk.inj (Except.ok.inj h)
    refine ⟨c, rfl, rfl, fun _ _ => rfl, fun w => ?_⟩
    rw [Statement.amount, if_pos hc]
    by_cases hn : Fin.ofNat 32 s.low.toNat = 0
    · have hz : s.low.toNat % 32 = 0 := congrArg Fin.val hn
      have hk : ShiftKind.lsl.code.toNat % 4 = 0 := rfl
      simp only [hn, if_true, Shift.eval, hk, hz, ShiftKind.apply]
      simp
    · have hv : (Fin.ofNat 32 s.low.toNat).val = s.low.toNat % 32 := rfl
      simp only [Shift.eval, hn, if_false, false_and, hv]

end Core

end A32Lowering
