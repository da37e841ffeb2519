import Mathlib
import A32Lowering.Proofs.DoubleWords
import A32Lowering.Proofs.Relocations
import A32Lowering.Proofs.Routines

/-!
# Division

The code of a division calls one routine for the quotient and one for the remainder. Between the
calls the operands are kept on the stack, so the words of the frame are eight bytes further away
while the quotient is stored.

## Main definitions

* `Core.pushed` : the core with the operands of a division on the stack.
* `Core.Room` : room on the stack for the operands, and for the destination above.

## Main results

* `Core.advances_result` : a call of a routine, and the store of its result.
* `Core.advances_divideItems` : the code of a division.
* `Lower.advances_division` : the same for every division that is lowered.
-/

namespace A32Lowering

/-! ### Operands on the stack -/

namespace Memory

variable {mem mem' : Memory} {a : UInt32}

/-- A word depends on its bytes only. -/
theorem word_congr (h : ∀ k : UInt32, k.toNat < 4 → mem' (a + k) = mem (a + k)) :
    mem'.word a = mem.word a := by
  have h0 := h 0 (by decide)
  rw [add_zero] at h0
  rw [word, word, h0, h 1 (by decide), h 2 (by decide), h 3 (by decide)]

theorem setWord_congr {b w : UInt32} (h : mem' b = mem b) :
    mem'.setWord a w b = mem.setWord a w b := by
  unfold setWord
  split <;> first | rfl | exact h

/-- A number depends on its bytes only. -/
theorem word64_congr (h : ∀ k : UInt32, k.toNat < 8 → mem' (a + k) = mem (a + k)) :
    mem'.word64 a = mem.word64 a := by
  have hhi (k : UInt32) (hk : k.toNat < 4) : mem' (a + 4 + k) = mem (a + 4 + k) := by
    have h4 : (4 + k).toNat < 8 := by
      rw [UInt32.toNat_add]
      simp only [UInt32.reduceToNat]
      omega
    rw [add_assoc]
    exact h _ h4
  rw [word64, word64, word_congr fun k hk => h k (by omega), word_congr hhi]

end Memory

namespace Core

variable {c c' : Core} {s d : Operand} {r : Reg} {l : List Instr} {limit : UInt32}

/-- An argument gets into its register. -/
theorem run?_argument (h : Access.argument 0 r s = .ok l) : ∃ c', c.run? l = some c' ∧
    c'.regs r = c.storage.value s ∧ c'.mem = c.mem ∧ ∀ q ≠ r, c'.regs q = c.regs q := by
  simp only [Access.argument, Except.bind_eq_ok_iff, Except.pure_eq_ok_iff] at h
  obtain ⟨⟨own, l₁⟩, h₁, rfl⟩ := h
  obtain ⟨c₁, hr, hv, hm, hk⟩ := run?_use (c := c) h₁
  rw [run?_append_of_eq hr]
  split_ifs with ho
  · exact ⟨c₁, rfl, ho ▸ hv, hm, hk⟩
  · refine ⟨_, by rw [run?_singleton, effect?_mov], regs_set_self.trans hv, hm, fun q hq => ?_⟩
    rw [regs_set_of_ne hq, hk q hq]

/-- The core with the operands of a division on the stack. -/
def pushed (c : Core) : Core :=
  { c.set .sp (c.regs .sp - 8) with
    mem := c.mem.setWord64 (c.regs .sp - 8) (doubleWord (c.regs .r0) (c.regs .r1)) }

theorem regs_pushed_sp : c.pushed.regs .sp = c.regs .sp - 8 :=
  regs_set_self (c := c) (r := .sp)

theorem regs_pushed_of_ne (h : r ≠ .sp) : c.pushed.regs r = c.regs r := regs_set_of_ne (c := c) h

theorem effect?_push : c.effect? (.stmdb .sp Lower.divideArguments) = some c.pushed := by
  have hn : ¬ (Lower.divideArguments.regs = [] ∨ Reg.sp ∈ Lower.divideArguments.regs) := by decide
  have hregs : Lower.divideArguments.regs = [.r0, .r1] := by decide
  have hsize : 4 * UInt32.ofNat Lower.divideArguments.size = 8 := by decide
  rw [effect?, if_neg hn, hsize, hregs, pushed, Memory.setWord64, low_doubleWord, high_doubleWord]
  rfl

theorem effect?_pop : ∃ c', c.effect? (.ldmia .sp Lower.divideArguments) = some c' ∧
    doubleWord (c'.regs .r0) (c'.regs .r1) = c.mem.word64 (c.regs .sp) ∧
    c'.regs .sp = c.regs .sp + 8 ∧ c'.mem = c.mem ∧
    ∀ r, r ≠ .r0 → r ≠ .r1 → r ≠ .sp → c'.regs r = c.regs r := by
  have hn : ¬ (Lower.divideArguments.regs = [] ∨ Reg.sp ∈ Lower.divideArguments.regs) := by decide
  have hregs : Lower.divideArguments.regs = [.r0, .r1] := by decide
  have hsize : 4 * UInt32.ofNat Lower.divideArguments.size = 8 := by decide
  rw [effect?, if_neg hn, hsize, hregs]
  refine ⟨_, rfl, ?_, regs_set_self, rfl, fun r h0 h1 hsp => ?_⟩
  · rfl
  · rw [regs_set_of_ne hsp, loadAll, loadAll, loadAll, regs_set_of_ne h1, regs_set_of_ne h0]

/-- The operands of a division get into registers and on the stack. -/
theorem run?_pushed {s1 s2 : Operand} {l m : List Instr} (hl : Access.argument 0 .r0 s1 = .ok l)
    (hm : Access.argument 0 .r1 s2 = .ok m) :
    ∃ c', c.run? (l ++ m ++ [.stmdb .sp Lower.divideArguments]) = some c'.pushed ∧ Same c c' ∧
      c'.regs .r0 = c.storage.value s1 ∧ c'.regs .r1 = c.storage.value s2 := by
  obtain ⟨c₁, hr₁, hv₁, hm₁, hk₁⟩ := run?_argument (c := c) hl
  obtain ⟨c₂, hr₂, hv₂, hm₂, hk₂⟩ := run?_argument (c := c₁) hm
  have hs₁ : Same c c₁ := .of_eq_off (by decide) hm₁ hk₁
  refine ⟨c₂, ?_, hs₁.trans (.of_eq_off (by decide) hm₂ hk₂), (hk₂ .r0 (by decide)).trans hv₁,
    hv₂.trans (by rw [hs₁.storage_eq])⟩
  rw [List.append_assoc, run?_append_of_eq hr₁, run?_append_of_eq hr₂, run?_singleton, effect?_push]

/-- Room for the operands of a division below the stack pointer, and for its destination above. -/
structure Room (limit : UInt32) (d : Operand) (c : Core) : Prop where
  push : limit.toNat + 8 ≤ (c.regs .sp).toNat
  slot : (c.regs .sp).toNat + d.slot.toNat + 8 ≤ 2 ^ 32

/-- A byte of the frame is not free. -/
theorem not_free_of_frame {frame : Nat} (h : (c.regs .sp).toNat + frame ≤ 2 ^ 32) {x : UInt32}
    (hx : (x - c.regs .sp).toNat < frame) : ¬ c.Free limit x := by
  have hxlt := x.toNat_lt
  rintro ⟨-, hlt⟩
  rw [UInt32.lt_iff_toNat_lt] at hlt
  rw [UInt32.toNat_sub] at hx
  omega

/-- A byte of a block that does not meet the stack is not free. -/
theorem not_free_of_context {a : UInt32} {size frame : Nat} (h : Memory.Disjoint a size limit
    ((c.regs .sp).toNat + frame - limit.toNat)) {x : UInt32} (hx : (x - a).toNat < size) :
    ¬ c.Free limit x := by
  rintro ⟨hle, hlt⟩
  rw [UInt32.lt_iff_toNat_lt] at hlt
  have hin : (x - limit).toNat < (c.regs .sp).toNat + frame - limit.toNat := by
    have hle' := UInt32.le_iff_toNat_le.mp hle
    rw [UInt32.toNat_sub_of_le _ _ hle]
    omega
  refine h _ hx _ hin ?_
  rw [UInt32.ofNat_toNat, UInt32.ofNat_toNat, add_sub_cancel, add_sub_cancel]

theorem free_linked {addr ret x : UInt32} : (c.linked addr ret).Free limit x ↔ c.Free limit x := by
  rw [Free, Free, regs_linked_of_ne (by decide) (by decide)]

namespace Room

variable {x k : UInt32}

/-- The destination is not free. -/
theorem not_free_add (h : c.Room limit d) (hk : k.toNat < 8) :
    ¬ c.Free limit (c.regs .sp + d.slot + k) := by
  have hslot := h.slot
  rintro ⟨-, hlt⟩
  rw [UInt32.lt_iff_toNat_lt, UInt32.toNat_add, UInt32.toNat_add] at hlt
  omega

/-- The operands on the stack are not free. -/
theorem not_free_pushed (h : c.Room limit d) (hk : k.toNat < 8) :
    ¬ c.pushed.Free limit (c.regs .sp - 8 + k) := by
  have hpush := h.push
  have hsp := (c.regs .sp).toNat_lt
  rintro ⟨-, hlt⟩
  rw [regs_pushed_sp, UInt32.lt_iff_toNat_lt, UInt32.toNat_add, UInt32.toNat_sub] at hlt
  simp only [UInt32.reduceToNat] at hlt
  omega

/-- What was not free before the operands got on the stack is not free then. -/
theorem not_free_of_not_free (h : c.Room limit d) (hx : ¬ c.Free limit x) :
    ¬ c.pushed.Free limit x := by
  have hpush := h.push
  have hsp := (c.regs .sp).toNat_lt
  rintro ⟨hle, hlt⟩
  refine hx ⟨hle, ?_⟩
  rw [regs_pushed_sp, UInt32.lt_iff_toNat_lt, UInt32.toNat_sub] at hlt
  rw [UInt32.lt_iff_toNat_lt]
  simp only [UInt32.reduceToNat] at hlt
  omega

/-- The operands get on the stack where it is free. -/
theorem mem_pushed (h : c.Room limit d) (hx : ¬ c.Free limit x) : c.pushed.mem x = c.mem x := by
  refine Memory.setWord64_of_outside ?_
  have hpush := h.push
  have hsp := (c.regs .sp).toNat_lt
  have hxlt := x.toNat_lt
  rw [Free, UInt32.le_iff_toNat_le, UInt32.lt_iff_toNat_lt] at hx
  rw [UInt32.toNat_sub, UInt32.toNat_sub]
  simp only [UInt32.reduceToNat]
  omega

/-- The operands on the stack do not meet the destination. -/
theorem le_toNat_sub (h : c.Room limit d) (hk : k.toNat < 8) :
    4 ≤ (c.regs .sp - 8 + k - (c.regs .sp + d.slot)).toNat := by
  have hpush := h.push
  have hslot := h.slot
  rw [UInt32.toNat_sub, UInt32.toNat_add, UInt32.toNat_add, UInt32.toNat_sub]
  simp only [UInt32.reduceToNat]
  omega

end Room

section

open Items

variable [Helper.Entries] {image : UInt32 → Option UInt32} {org : UInt32}
  {j : Nat → UInt32 → Option Int} {pos : Nat} {routines : Routines} {rest : List Item}

/-- A call of a routine, and the store of its result. -/
theorem advances_result (hserve : routines.Serve limit) (h : Helper) {v level half : UInt32}
    (hv : h.value? (c.regs .r0) (c.regs .r1) = some v)
    (hd : d.kind = .temporary64) (hs : Access.store64 level d .r0 half = .ok l)
    (hl : Loaded image org j pos (Item.call h.address ++ (l.map .instr ++ rest))) :
    ∃ c' : Core, Machine.Advances image routines (c.machineAt org pos)
        (c'.machineAt org (pos + (16 + 4 * l.length))) ∧
      (∀ r ∈ Abi.preserved, r ≠ Abi.callAddress → c'.regs r = c.regs r) ∧
      ∀ x, ¬ c.Free limit x →
        c'.mem x = c.mem.setWord (c.regs .sp + (d.slot + level + half)) v x := by
  obtain ⟨f, hf, hret⟩ := hserve h
  let c₁ := c.linked h.address (org + UInt32.ofNat (pos + 16))
  have hr := hret c₁
  have hregs (r : Reg) (hr' : r ∈ Abi.preserved) (h4 : r ≠ Abi.callAddress) :
      (f c₁).regs r = c.regs r := by
    have hlr : r ≠ .lr := by
      rintro rfl
      exact absurd hr' (by decide)
    rw [hr.regs r hr', regs_linked_of_ne h4 hlr]
  have hv : (f c₁).regs .r0 = v := hr.value v (by
    rwa [regs_linked_of_ne (by decide) (by decide), regs_linked_of_ne (by decide) (by decide)])
  obtain ⟨a, ha, rfl⟩ := Except.map_eq_ok_iff.mp hs
  have haddr : (f c₁).regs a.1 + a.2.bits = c.regs .sp + (d.slot + level + half) := by
    rcases Access.address64_eq_ok ha with ⟨hk, -⟩ | ⟨-, hr, ho⟩
    · rw [hd] at hk
      cases hk
    · rw [hr, ho, hregs .sp (by decide) (by decide)]
  have hrun : (f c₁).run? (Access.storeTo .r0 a) =
      some ((f c₁).store (c.regs .sp + (d.slot + level + half)) v) := by
    rw [Access.storeTo, run?_singleton, effect?, haddr, hv]
  have hload : Loaded image org j (pos + 16) ((Access.storeTo .r0 a).map .instr ++ rest) :=
    (loaded_append.mp hl).2
  have hg : General (Access.storeTo .r0 a) := Access.general_store64 (by decide) hs
  refine ⟨(f c₁).store (c.regs .sp + (d.slot + level + half)) v, ?_, hregs,
    fun x hx => ?_⟩
  · rw [← add_assoc pos]
    exact (advances_callee hf hl c).trans (advances_run routines hload hg hrun)
  · rw [mem_store]
    exact Memory.setWord_congr (hr.mem x (mt free_linked.mp hx))

/-- The code of a division from the push of the operands until they are back in their registers. The
quotient is stored while the stack pointer is eight bytes down. -/
theorem advances_quotient (hserve : routines.Serve limit) (h : Helper)
    {v : UInt32} (hv : h.value? (c.regs .r0) (c.regs .r1) = some v) (hd : d.kind = .temporary64)
    (hs : Access.store64 8 d .r0 0 = .ok l) (hroom : c.Room limit d)
    (hl : Loaded image org j pos (Item.call h.address ++
      (l.map .instr ++ ([Instr.ldmia .sp Lower.divideArguments].map .instr ++ rest)))) :
    ∃ c' : Core, Machine.Advances image routines (c.pushed.machineAt org pos)
        (c'.machineAt org (pos + (16 + 4 * l.length) + 4)) ∧
      c'.regs .r0 = c.regs .r0 ∧ c'.regs .r1 = c.regs .r1 ∧
      (∀ r ∈ Abi.preserved, r ≠ Abi.callAddress → c'.regs r = c.regs r) ∧
      ∀ x, ¬ c.Free limit x → c'.mem x = c.mem.setWord (c.regs .sp + d.slot) v x := by
  have h0 : c.pushed.regs .r0 = c.regs .r0 := regs_pushed_of_ne (by decide)
  have h1 : c.pushed.regs .r1 = c.regs .r1 := regs_pushed_of_ne (by decide)
  have haddr : c.pushed.regs .sp + (d.slot + 8 + 0) = c.regs .sp + d.slot := by
    rw [regs_pushed_sp]
    abel
  obtain ⟨c₁, ha₁, hk₁, hm₁⟩ := advances_result hserve (c := c.pushed) h (h0 ▸ h1 ▸ hv) hd hs hl
  rw [haddr] at hm₁
  have hsp₁ : c₁.regs .sp = c.regs .sp - 8 := (hk₁ .sp (by decide) (by decide)).trans regs_pushed_sp
  -- The operands lie above the stack pointer of the call and below the destination.
  have hkept : c₁.mem.word64 (c.regs .sp - 8) = doubleWord (c.regs .r0) (c.regs .r1) := calc
    _ = c.pushed.mem.word64 (c.regs .sp - 8) := Memory.word64_congr fun k hk =>
      (hm₁ _ (hroom.not_free_pushed hk)).trans (Memory.setWord_of_outside (hroom.le_toNat_sub hk))
    _ = _ := Memory.word64_setWord64
  obtain ⟨c₂, he, hpair, hsp₂, hm₂, hk₂⟩ := effect?_pop (c := c₁)
  rw [hsp₁, sub_add_cancel] at hsp₂
  rw [hsp₁] at hpair
  obtain ⟨h0, h1⟩ := doubleWord_inj (hpair.trans hkept)
  have hload := (loaded_append.mp (loaded_append.mp hl).2).2
  rw [width_instrs, add_assoc] at hload
  have hg : General [Instr.ldmia .sp Lower.divideArguments] := by
    have hsp : Reg.sp.General := by decide
    have hregs : ∀ r ∈ Lower.divideArguments.regs, r.General := by decide
    simpa [hsp] using hregs
  have hpop := advances_run routines hload hg (run?_singleton.trans he)
  refine ⟨c₂, ha₁.trans hpop, h0, h1, fun r hr h4 => ?_, fun x hx => ?_⟩
  · have hne : ∀ r ∈ Abi.preserved, r ≠ .r0 ∧ r ≠ .r1 := by decide
    by_cases hsp : r = .sp
    · rw [hsp, hsp₂]
    · rw [hk₂ r (hne r hr).1 (hne r hr).2 hsp, hk₁ r hr h4, regs_pushed_of_ne hsp]
  · rw [hm₂, hm₁ x (hroom.not_free_of_not_free hx)]
    exact Memory.setWord_congr (hroom.mem_pushed hx)

/-- The code of a division behind the push of the operands. -/
theorem advances_calls (hserve : routines.Serve limit) {g h : Helper}
    {v w : UInt32} {m : List Instr} (hv : g.value? (c.regs .r0) (c.regs .r1) = some v)
    (hw : h.value? (c.regs .r0) (c.regs .r1) = some w) (hd : d.kind = .temporary64)
    (hl : Access.store64 8 d .r0 0 = .ok l) (hm : Access.store64 0 d .r0 4 = .ok m)
    (hroom : c.Room limit d)
    (hload : Loaded image org j pos (Item.call g.address ++ (l.map .instr ++
      ([Instr.ldmia .sp Lower.divideArguments].map .instr ++
        (Item.call h.address ++ (m.map .instr ++ rest)))))) :
    ∃ c' : Core, Machine.Advances image routines (c.pushed.machineAt org pos)
        (c'.machineAt org (pos + (16 + 4 * l.length) + 4 + (16 + 4 * m.length))) ∧
      (∀ r ∈ Abi.preserved, r ≠ Abi.callAddress → c'.regs r = c.regs r) ∧
      ∀ x, ¬ c.Free limit x →
        c'.mem x = c.mem.setWord64 (c.regs .sp + d.slot) (doubleWord v w) x := by
  obtain ⟨c₁, ha₁, h0, h1, hk₁, hm₁⟩ := advances_quotient hserve g hv hd hl hroom hload
  have hload₁ := (loaded_append.mp (loaded_append.mp (loaded_append.mp hload).2).2).2
  rw [width_instrs, width_instrs, add_assoc pos] at hload₁
  obtain ⟨c₂, ha₂, hk₂, hm₂⟩ := advances_result hserve (c := c₁) h (h0 ▸ h1 ▸ hw) hd hm hload₁
  have hsp : c₁.regs .sp = c.regs .sp := hk₁ .sp (by decide) (by decide)
  refine ⟨c₂, ha₁.trans ha₂, fun r hr h4 => (hk₂ r hr h4).trans (hk₁ r hr h4), fun x hx => ?_⟩
  have hx₁ : ¬ c₁.Free limit x := by rwa [Free, hsp]
  rw [hm₂ x hx₁, hsp, Memory.setWord64, low_doubleWord, high_doubleWord, add_zero, ← add_assoc]
  exact Memory.setWord_congr (hm₁ x hx)

/-- The code of a division. The destination gets the quotient and the remainder, and all other
bytes stay that are not in the free part of the stack. -/
theorem advances_divideItems (hserve : routines.Serve limit)
    {signed : Bool} {s1 s2 : Operand} {l : List Item}
    (h : Action.divideItems signed d s1 s2 = .ok l) (hl : Loaded image org j pos l)
    (hroom : c.Room limit d) (hb : c.storage.value s2 ≠ 0) :
    ∃ q r, IsDivision signed (c.storage.value s1) (c.storage.value s2) q r ∧ ∃ c' : Core,
      Machine.Advances image routines (c.machineAt org pos) (c'.machineAt org (pos + width l)) ∧
      (∀ r ∈ Abi.preserved, r ≠ Abi.callAddress → c'.regs r = c.regs r) ∧
      ∀ x, ¬ c.Free limit x →
        c'.mem x = c.mem.setWord64 (c.regs .sp + d.slot) (doubleWord q r) x := by
  obtain ⟨hd, la, lb, lq, lr, ha, hlb, hlq, hlr, rfl⟩ := Action.divideItems_eq_ok h
  obtain ⟨c₁, hr₁, hs, ha₁, hb₁⟩ := run?_pushed (c := c) ha hlb
  have hg : General (la ++ lb ++ [.stmdb .sp Lower.divideArguments]) := by
    have hregs : ∀ r ∈ Lower.divideArguments.regs, r.General := by decide
    have hgen : Reg.sp.General ∧ Reg.r0.General ∧ Reg.r1.General := by decide
    simpa [Access.general_argument hgen.2.1 ha, Access.general_argument hgen.2.2 hlb, hgen.1]
      using hregs
  have hpush := advances_run routines hl hg hr₁
  obtain ⟨q, r, hq, hr, hdiv⟩ := Helper.isDivision_value? signed (a := c.storage.value s1) hb
  rw [← ha₁, ← hb₁] at hq hr
  have hsp : c₁.regs .sp = c.regs .sp := hs.regs .sp (by decide)
  have hroom₁ : c₁.Room limit d := ⟨hsp ▸ hroom.push, hsp ▸ hroom.slot⟩
  have hload := (loaded_append.mp hl).2
  rw [width_instrs] at hload
  obtain ⟨c₂, ha₂, hk₂, hm₂⟩ := advances_calls hserve hq hr hd hlq hlr hroom₁ hload
  refine ⟨q, r, hdiv, c₂, ?_, fun r hr h4 => ?_, fun x hx => ?_⟩
  · have hcall (h : Helper) : width (Item.call h.address) = 16 := rfl
    simp only [width_append, width_instrs, width_nil, hcall, List.length_singleton]
    have hend : pos + (4 * (la ++ lb ++ [Instr.stmdb .sp Lower.divideArguments]).length +
        (16 + (4 * lq.length + (4 * 1 + (16 + (4 * lr.length + 0)))))) =
        pos + 4 * (la ++ lb ++ [Instr.stmdb .sp Lower.divideArguments]).length +
          (16 + 4 * lq.length) + 4 + (16 + 4 * lr.length) := by omega
    rw [hend]
    exact hpush.trans ha₂
  · have hne : ∀ r ∈ Abi.preserved, r ∉ Abi.scratch := by decide
    rw [hk₂ r hr h4, hs.regs r (hne r hr)]
  · have hx₁ : ¬ c₁.Free limit x := by rwa [Free, hsp]
    rw [hm₂ x hx₁, hsp, hs.mem]

end

end Core

namespace Lower

variable {u t : Session} {x : Statement}

/-- A routine is not called when the observer refuses reports. -/
theorem outcome_callAddress_ne_ok (ho : u.observer = .refusing) (addr : UInt32) :
    outcome (callAddress addr) u ≠ (.ok (), t) := by
  intro h
  obtain ⟨_, _, hr, -⟩ := outcome_bind_eq_ok_iff.mp h
  rw [outcome_loadRelocatable, if_pos ho] at hr
  cases (Prod.mk.inj hr).1

/-- A session in which a division was lowered has no observer that refuses reports. -/
theorem observer_of_divide [Helper.Entries] {signed : Bool} {d s1 s2 : Operand}
    (h : outcome (divide signed d s1 s2) u = (.ok (), t)) : u.observer ≠ .refusing := by
  intro ho
  simp only [divide, outcome_check_bind_eq_ok_iff, outcome_level_bind,
    outcome_emitChecked_bind_eq_ok_iff, outcome_emit_bind, outcome_moveLevel_bind] at h
  obtain ⟨_, -, _, -, _, -, h⟩ := h
  obtain ⟨_, _, hc, -⟩ := outcome_bind_eq_ok_iff.mp h
  refine outcome_callAddress_ne_ok ?_ _ hc
  exact ho

/-- The rule of a division. -/
theorem action_of_division (hx : x.op = .div ∨ x.op = .divs) {r : Rule Action}
    (hr : Rules.select x = .ok r) : r.action = .divide (x.op = .divs) := by
  have hop := Rules.op_of_select hr
  obtain ⟨-, hdiv, hdivs⟩ := Rules.op_of_calls (Rules.select_eq_ok hr).1
  rcases hx with hx | hx
  · rw [hdiv.mpr (hop.symm.trans hx), hx]
    rfl
  · rw [hdivs.mpr (hop.symm.trans hx), hx]
    rfl

/-- Lowering a division places its items. -/
theorem outcome_division [Helper.Entries] (hl : u.level = 0) (hx : x.op = .div ∨ x.op = .divs)
    (h : outcome (statement x) u = (.ok (), t)) : ∃ d a b l, x.dst = some d ∧ x.src1 = some a ∧
      x.src2 = some b ∧ Action.divideItems (x.op = .divs) d a b = .ok l ∧
        u.placeAll l = some t := by
  obtain ⟨r, hr, h⟩ := outcome_check_bind_eq_ok_iff.mp h
  rw [action_of_division hx hr] at h
  simp only [action, outcome_check_bind_eq_ok_iff, Access.need_eq_ok_iff] at h
  obtain ⟨d, hd, a, ha, b, hb, h⟩ := h
  obtain ⟨l, hi, hp⟩ := (outcome_divide hl (observer_of_divide h) _ d a b).mp h
  exact ⟨d, a, b, l, hd, ha, hb, hi, hp⟩

/-- A division. When its statement is lowered and the code is executed, the machine comes to the end
of the code; the destination has the quotient and the remainder. The stack goes from a limit, which
leaves room for eight bytes below the stack pointer, to the end of the frame; the destination lies
in the frame, and the context block does not meet the stack. All other bytes of the frame and of the
context block are unchanged, and so are the registers that routines keep but for the one for call
addresses. -/
theorem advances_division [Helper.Entries] (hl : u.level = 0) (hx : x.op = .div ∨ x.op = .divs)
    (h : outcome (statement x) u = (.ok (), t)) {image : UInt32 → Option UInt32} {org : UInt32}
    (himage : t.stream.code.LoadedFrom u.stream.size image org)
    {routines : Routines} {limit : UInt32} (hserve : routines.Serve limit) (c : Core)
    {frame size : Nat}
    (hdst : ∀ d, x.dst = some d → d.slot.toNat + 8 ≤ frame)
    (hroom : limit.toNat + 8 ≤ (c.regs .sp).toNat) (htop : (c.regs .sp).toNat + frame ≤ 2 ^ 32)
    (hdisj : Memory.Disjoint (c.regs Abi.base) size limit
      ((c.regs .sp).toNat + frame - limit.toNat))
    (hb : ∀ b, x.src2 = some b → c.storage.value b ≠ 0) :
    ∃ d a b q r, x.dst = some d ∧ x.src1 = some a ∧ x.src2 = some b ∧
      IsDivision (x.op = .divs) (c.storage.value a) (c.storage.value b) q r ∧ t.level = 0 ∧
      ∃ c' : Core, Machine.Advances image routines (c.machineAt org u.stream.size)
          (c'.machineAt org t.stream.size) ∧
        c'.mem.word (c.regs .sp + d.slot) = q ∧ c'.mem.word (c.regs .sp + d.slot + 4) = r ∧
        (∀ y, (y - c.regs .sp).toNat < frame ∨ (y - c.regs Abi.base).toNat < size →
          8 ≤ (y - (c.regs .sp + d.slot)).toNat → c'.mem y = c.mem y) ∧
        ∀ s ∈ Abi.preserved, s ≠ Abi.callAddress → c'.regs s = c.regs s := by
  obtain ⟨d, a, b, l, hd, ha, hb', hi, hp⟩ := outcome_division hl hx h
  have hslot := hdst d hd
  have hload := Session.loaded_of_placeAll hp himage
  obtain ⟨q, r, hdiv, c', hreach, hregs, hmem⟩ := Core.advances_divideItems hserve hi hload
    (c := c) ⟨hroom, by omega⟩ (hb b hb')
  have hroom' : c.Room limit d := ⟨hroom, by omega⟩
  have hword : c'.mem.word64 (c.regs .sp + d.slot) = doubleWord q r := calc
    _ = (c.mem.setWord64 (c.regs .sp + d.slot) (doubleWord q r)).word64 (c.regs .sp + d.slot) :=
      Memory.word64_congr fun k hk => hmem _ (hroom'.not_free_add hk)
    _ = _ := Memory.word64_setWord64
  obtain ⟨hq, hr⟩ := doubleWord_inj hword
  refine ⟨d, a, b, q, r, hd, ha, hb', hdiv, (Session.placeAll_frame hp).2.1.trans hl, c', ?_, hq,
    hr, fun y hy hout => ?_, hregs⟩
  · rw [Session.size_placeAll hp]
    exact hreach
  · have hfree : ¬ c.Free limit y := hy.elim (Core.not_free_of_frame htop)
      (Core.not_free_of_context hdisj)
    rw [hmem y hfree, Memory.setWord64_of_outside hout]

/-- A division with sign whose dividend is the low word of the destination. -/
def overlappingDivision : Statement :=
  { op := .divs, dst := some (.temporary64 0), src1 := some (.temporary 0),
    src2 := some (.constant 0xFFFFFFFD) }

theorem advances_division_overlappingDivision :
    ∃ t, outcome (statement overlappingDivision) (.fresh false .recording) = (.ok (), t) ∧
    Routines.plain.Serve 0xFF00 ∧
    ∃ d a b q r, overlappingDivision.dst = some d ∧ overlappingDivision.src1 = some a ∧
      overlappingDivision.src2 = some b ∧
      IsDivision (overlappingDivision.op = .divs) (Session.caller.storage.value a)
        (Session.caller.storage.value b) q r ∧ t.level = 0 ∧
      ∃ c' : Core, Machine.Advances (t.stream.code.image 0x8000) Routines.plain
          (Session.caller.machineAt 0x8000 0) (c'.machineAt 0x8000 t.stream.size) ∧
        c'.mem.word (Session.caller.regs .sp + d.slot) = q ∧
        c'.mem.word (Session.caller.regs .sp + d.slot + 4) = r ∧
        (∀ y, (y - Session.caller.regs .sp).toNat < 8 ∨
          (y - Session.caller.regs Abi.base).toNat < 4 →
          8 ≤ (y - (Session.caller.regs .sp + d.slot)).toNat → c'.mem y = Session.caller.mem y) ∧
        ∀ s ∈ Abi.preserved, s ≠ Abi.callAddress → c'.regs s = Session.caller.regs s := by
  have hok : (outcome (statement overlappingDivision) (.fresh false .recording)).1 = .ok () := by
    decide +kernel
  have hsize : (outcome (statement overlappingDivision)
      (.fresh false .recording)).2.stream.code.size ≤ 2 ^ 32 := by decide +kernel
  have hdisj : Memory.Disjoint (Session.caller.regs Abi.base) 4 0xFF00
      ((Session.caller.regs .sp).toNat + 8 - (0xFF00 : UInt32).toNat) := by
    unfold Memory.Disjoint
    decide +kernel
  have hserve : Routines.plain.Serve 0xFF00 :=
    Routines.serve_plain (by intro g h; cases g <;> cases h <;> decide) 0xFF00
  refine ⟨_, Prod.ext hok rfl, hserve, advances_division rfl (.inr rfl)
    (Prod.ext hok rfl) ((Code.loadedAt_image hsize 0x8000).loadedFrom 0)
    hserve Session.caller ?_ ?_ ?_ hdisj ?_⟩
  · rintro d ⟨⟩
    decide
  · decide
  · decide
  · rintro b ⟨⟩
    decide

end Lower

end A32Lowering
