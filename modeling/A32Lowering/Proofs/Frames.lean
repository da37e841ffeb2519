import Mathlib
import A32Lowering.Proofs.Positions
import A32Lowering.Proofs.Values

/-!
# The frame of a function

What the code at the start and at the end of a function does. The start saves registers below the
stack pointer, makes room for the frame and keeps the context pointer; the end undoes this.

## Main definitions

* `Program.saves` : the registers that a function saves.
* `Core.Entered` : what the start of a function does.

## Main results

* `Frame.mem_regs_saved` : the registers that are saved are none of the scratch registers and not
  the stack pointer.
* `Core.run?_adjust` : moving the stack pointer.
* `Core.run?_prolog`, `Program.reaches_first` : the start of a function.
* `Core.run?_restore` : the end of a function in front of the return.
-/

namespace A32Lowering

namespace RegisterSet

theorem mem_regs {s : RegisterSet} {r : Reg} : r ∈ s.regs ↔ r.code.toNat ∈ s.toList := by
  constructor
  · intro h
    obtain ⟨k, hk, rfl⟩ := List.mem_map.mp h
    have hlt : k < 16 := (mem_toList.mp hk).1
    rwa [UInt8.toNat_ofNat_of_lt' (hlt.trans (by decide))]
  · intro h
    refine List.mem_map.mpr ⟨_, h, ?_⟩
    rw [UInt8.ofNat_toNat]

theorem length_regs (s : RegisterSet) : s.regs.length = s.size := List.length_map _

theorem size_le (s : RegisterSet) : s.size ≤ 16 :=
  (List.length_filter_le _ _).trans (le_of_eq List.length_range)

theorem nodup_regs (s : RegisterSet) : s.regs.Nodup := by
  refine List.Nodup.map_on ?_ (List.nodup_range.filter _)
  intro j hj k hk h
  have hj : j < 16 := (mem_toList.mp hj).1
  have hk : k < 16 := (mem_toList.mp hk).1
  have h := congrArg (fun r => r.code.toNat) h
  simp only at h
  rwa [UInt8.toNat_ofNat_of_lt' (hj.trans (by decide)),
    UInt8.toNat_ofNat_of_lt' (hk.trans (by decide))] at h

end RegisterSet

theorem Reg.eq_of_toNat_eq {r q : Reg} (h : r.code.toNat = q.code.toNat) : r = q := by
  cases r
  cases q
  exact congrArg Reg.mk (UInt8.toNat_inj.mp h)

namespace Frame

variable {used saved : RegisterSet}

/-- The registers that are saved are those of the allocator, the one for the context pointer, and
the link register. -/
theorem mem_regs_saved (h : Frame.saved used = .ok saved) {r : Reg} (hr : r ∈ saved.regs) :
    r ∈ Abi.registers ∨ r = Abi.base ∨ r = .lr := by
  rcases (mem_saved h _).mp (RegisterSet.mem_regs.mp hr) with ⟨i, -, hi⟩ | h4 | h11 | h14
  · obtain ⟨r', hr', he⟩ := Except.map_eq_ok_iff.mp hi
    obtain rfl := Reg.eq_of_toNat_eq he
    exact .inl (List.mem_of_getElem? (Abi.register_eq_ok_iff.mp hr'))
  · obtain rfl : r = Abi.callAddress := Reg.eq_of_toNat_eq h4
    exact .inl (by decide)
  · exact .inr (.inl (Reg.eq_of_toNat_eq h11))
  · exact .inr (.inr (Reg.eq_of_toNat_eq h14))

theorem sp_not_mem_saved (h : Frame.saved used = .ok saved) : Reg.sp ∉ saved.regs := by
  intro hr
  exact absurd (mem_regs_saved h hr) (by decide)

theorem lr_mem_saved (h : Frame.saved used = .ok saved) : Reg.lr ∈ saved.regs :=
  RegisterSet.mem_regs.mpr ((mem_saved h _).mpr (.inr (by decide)))

end Frame

/-- The registers that a function saves. -/
def Program.saves (p : Program) : RegisterSet :=
  (do Frame.saved (← Frame.usage p)).toOption.getD .empty

theorem Program.saves_eq {p : Program} {used saved : RegisterSet} (hu : Frame.usage p = .ok used)
    (hs : Frame.saved used = .ok saved) : p.saves = saved := by
  rw [saves, hu]
  exact congrArg (fun r => (Except.toOption r).getD .empty) hs

/-- What the start of a function does: it saves registers below the stack pointer, makes room for
the frame and keeps the context pointer. -/
structure Core.Entered (saved : RegisterSet) (frame : UInt32) (c c' : Core) : Prop where
  sp : c'.regs .sp = c.regs .sp - 4 * UInt32.ofNat saved.size - frame
  base : c'.regs Abi.base = c.regs .r0
  regs : ∀ r, r ≠ .sp → r ≠ .r12 → r ≠ Abi.base → c'.regs r = c.regs r
  mem : c'.mem = c.mem.setWords (c.regs .sp - 4 * UInt32.ofNat saved.size)
    (saved.regs.map c.regs)

namespace Core

variable {c : Core} {used saved : RegisterSet} {size : UInt32} {l : List Instr}

/-- A block transfer of the registers that are saved has a defined result. -/
theorem saved_transfer (hs : Frame.saved used = .ok saved) :
    ¬ (saved.regs = [] ∨ Reg.sp ∈ saved.regs) := by
  rintro (he | hsp)
  · exact List.ne_nil_of_mem (Frame.lr_mem_saved hs) he
  · exact Frame.sp_not_mem_saved hs hsp

/-- Moving the stack pointer. -/
theorem run?_adjust (c : Core) (size : UInt32) (a : Arith) (h0 : ∀ v, a.eval v 0 = v) :
    ∃ c', c.run? (Frame.adjust a.direct size) = some c' ∧
      c'.regs .sp = a.eval (c.regs .sp) size ∧ c'.mem = c.mem ∧
      ∀ r, r ≠ .sp → r ≠ .r12 → c'.regs r = c.regs r := by
  unfold Frame.adjust
  split_ifs with hz
  · refine ⟨c, rfl, ?_, rfl, fun _ _ _ => rfl⟩
    rw [hz, h0]
  · split
    next i hi =>
      refine ⟨c.set .sp (a.eval (c.regs .sp) size), ?_, regs_set_self, rfl,
        fun r hr _ => regs_set_of_ne hr⟩
      rw [run?_singleton, effect?_alu, Arith.fst_eval_direct, Operand2.eval,
        Immediate.value_of_ofWord? hi]
    next =>
      refine ⟨(c.set .r12 size).set .sp (a.eval (c.regs .sp) size), ?_, regs_set_self, rfl,
        fun r hr h12 => ?_⟩
      · rw [run?_append_of_eq run?_load, run?_singleton, effect?_alu, Arith.fst_eval_direct,
          fst_eval_plain, regs_set_self, regs_set_of_ne (by decide)]
      · rw [regs_set_of_ne hr, regs_set_of_ne h12]

/-- The start of a function. -/
theorem run?_prolog (hs : Frame.saved used = .ok saved) (h : Frame.prolog size saved = .ok l) :
    ∃ c', c.run? l = some c' ∧ c.Entered saved size c' := by
  unfold Frame.prolog at h
  split_ifs at h
  obtain rfl := Except.ok.inj h
  let a := c.regs .sp - 4 * UInt32.ofNat saved.size
  let c₁ : Core := { c.set .sp a with mem := c.mem.setWords a (saved.regs.map c.regs) }
  have h₁ : c.run? [.stmdb .sp saved] = some c₁ := by
    rw [run?_singleton, effect?]
    exact if_neg (saved_transfer hs)
  obtain ⟨c₂, h₂, hsp, hmem, hregs⟩ := run?_adjust c₁ size .sub (by simp [Arith.eval])
  have h₁regs (r : Reg) (hr : r ≠ .sp) : c₁.regs r = c.regs r :=
    regs_set_of_ne (c := c) (v := a) hr
  have hr0 : c₂.regs .r0 = c.regs .r0 := by
    rw [hregs .r0 (by decide) (by decide), h₁regs .r0 (by decide)]
  refine ⟨c₂.set Abi.base (c₂.regs .r0), ?_, ?_, ?_, fun r hne h12 hb => ?_, ?_⟩
  · rw [List.append_assoc, run?_append_of_eq h₁]
    exact (run?_append_of_eq h₂).trans (by rw [run?_singleton, effect?_mov])
  · rw [regs_set_of_ne (by decide), hsp, Arith.eval]
    congr 1
  · rw [regs_set_self, hr0]
  · rw [regs_set_of_ne hb, hregs r hne h12, h₁regs r hne]
  · exact hmem

/-- The end of a function in front of the return restores the registers that were saved. -/
theorem run?_restore (c : Core) (size : UInt32) (hs : Frame.saved used = .ok saved) :
    ∃ c', c.run? (Frame.adjust .add size ++ [.ldmia .sp saved]) = some c' ∧
      c'.regs .sp = c.regs .sp + size + 4 * UInt32.ofNat saved.size ∧ c'.mem = c.mem ∧
      (∀ r, r ≠ .sp → r ≠ .r12 → r ∉ saved.regs → c'.regs r = c.regs r) ∧
      ∀ i r, saved.regs[i]? = some r →
        c'.regs r = c.mem.word (c.regs .sp + size + 4 * UInt32.ofNat i) := by
  obtain ⟨c₁, h₁, hsp, hmem, hregs⟩ := run?_adjust c size .add (by simp [Arith.eval])
  have hsp : c₁.regs .sp = c.regs .sp + size := hsp
  refine ⟨_, (run?_append_of_eq h₁).trans (run?_singleton.trans (if_neg (saved_transfer hs))),
    ?_, ?_, ?_, ?_⟩
  · rw [regs_set_self, hsp]
  · rw [mem_set, mem_loadAll, hmem]
  · intro r hne h12 hr
    rw [regs_set_of_ne hne, regs_loadAll_of_not_mem hr, hregs r hne h12]
  · intro i r hi
    have hne : r ≠ .sp := by
      rintro rfl
      exact Frame.sp_not_mem_saved hs (List.mem_of_getElem? hi)
    rw [regs_set_of_ne hne, regs_loadAll saved.nodup_regs hi, hsp, hmem]

end Core

/-- The machine comes from the start of a function to its first statement. -/
theorem Program.reaches_first [Helper.Entries] {p : Program} {frame : UInt32} {a : Assembly}
    (ha : p.assemble frame = .ok a) {image : UInt32 → Option UInt32} {org : UInt32}
    {d : Nat → UInt32 → Option Int} {pos : Nat} (hl : Items.Loaded image org d pos a.items)
    (c : Core) : ∃ c', Machine.Reaches image (c.machineAt org pos)
      (c'.machineAt org (pos + a.start 0)) ∧ c.Entered p.saves frame c' := by
  obtain ⟨used, saved, prolog, body, hu, hs, hp, -, rfl⟩ := Program.assemble_eq_ok_iff.mp ha
  obtain ⟨c', hc', he⟩ := Core.run?_prolog (c := c) hs hp
  rw [Program.saves_eq hu hs, Assembly.start_zero]
  rw [Assembly.items, List.append_assoc] at hl
  exact ⟨c', Core.reaches_run hl (Frame.general_prolog (Frame.general_saved hs) hp) hc', he⟩

end A32Lowering
