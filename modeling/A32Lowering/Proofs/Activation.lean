import Mathlib
import A32Lowering.Proofs.Agreement
import A32Lowering.Proofs.Frames

/-!
# Activations of a function

One call of a function. The function saves registers below the stack pointer of its caller and gives
them back in the end, so between the two they must stay in memory as they are. A routine that the
function calls comes back at the return address and keeps the same registers; apart from that it may
do anything.

## Main definitions

* `Activation` : the core with which a function was entered, and what it keeps on the stack.
* `Activation.Step`, `Activation.Runs` : the steps of a function, a call being one of them.
* `Activation.Held` : what holds in the body of a function.
* `Activation.Owns`, `Activation.Slot` : what the body may write.

## Main results

* `Activation.Held.effect?`, `Activation.Held.push`, `Activation.Held.pop`,
  `Activation.Held.returns` : what holds in the body is kept by its instructions and by calls.
* `Activation.Held.restore` : the end of a function gives the caller its registers back.
-/

namespace A32Lowering

/-- The registers that a routine keeps for its caller. -/
def Abi.preserved : List Reg := [.r4, .r5, .r6, .r7, .r8, ⟨9⟩, .r10, .r11, .sp]

/-- The instruction of an image at the program counter. -/
def Machine.fetch? (image : UInt32 → Option UInt32) (m : Machine) : Option Decoded :=
  (image m.pc).bind decode

theorem Machine.step?_eq_bind (image : UInt32 → Option UInt32) (m : Machine) :
    m.step? image = (m.fetch? image).bind m.perform? := (Option.bind_assoc ..).symm

/-- One call of a function: the core with which it was entered, the registers that it saves and the
size of its frame. -/
structure Activation where
  entry : Core
  saved : RegisterSet
  frame : UInt32

namespace Activation

section

variable (v : Activation)

/-- The address of the registers that are saved, below the stack pointer of the caller. -/
def saveArea : UInt32 := v.entry.regs .sp - 4 * UInt32.ofNat v.saved.size

/-- The stack pointer at the start of every statement. -/
def stack : UInt32 := v.saveArea - v.frame

/-- A byte of the registers that are saved in memory. -/
def Covers (b : UInt32) : Prop := (b - v.saveArea).toNat < 4 * v.saved.size

/-- The address of a word without a byte of the registers that are saved. -/
def Clear (a : UInt32) : Prop := ∀ b, v.Covers b → 4 ≤ (b - a).toNat

/-- What a called routine is trusted with: it keeps the registers that routines keep, and the
registers that are saved in memory. -/
structure Returns (c c' : Core) : Prop where
  regs : ∀ r ∈ Abi.preserved, c'.regs r = c.regs r
  mem : ∀ b, v.Covers b → c'.mem b = c.mem b

/-- One step of a function. An instruction does what the machine does, if a store through a
reference is clear of the registers that are saved; a call does whatever a routine may do and ends
at the return address. Nothing follows the return of the function itself. -/
inductive Step (image : UInt32 → Option UInt32) (m : Machine) : Machine → Prop
  | own {m' : Machine} (hcall : m.fetch? image ≠ some (.plain (.mov .pc Abi.callAddress)))
    (hbx : ∀ rm, m.fetch? image ≠ some (.plain (.bx rm)))
    (hstore : ∀ rs rn off, m.fetch? image = some (.plain (.str rs rn off)) →
      rn ≠ .sp → rn ≠ Abi.base → v.Clear (m.regs rn + off.bits))
    (h : m.step? image = some m') : Step image m m'
  | call {c' : Core} (hcall : m.fetch? image = some (.plain (.mov .pc Abi.callAddress)))
    (h : v.Returns m.toCore c') : Step image m { c' with pc := m.regs .lr }

/-- The machines that come up in an activation. -/
def Runs (image : UInt32 → Option UInt32) : Machine → Machine → Prop :=
  Relation.ReflTransGen (v.Step image)

/-- What holds in the body of a function: the stack pointer is `level` bytes below its place, the
context pointer is there, registers that are not saved are unchanged and the others can be read from
memory. -/
structure Held (level : UInt32) (c : Core) : Prop where
  sp : c.regs .sp = v.stack - level
  base : c.regs Abi.base = v.entry.regs .r0
  regs : ∀ r ∈ Abi.preserved, r ≠ .sp → r ∉ v.saved.regs → c.regs r = v.entry.regs r
  mem : ∀ b, v.Covers b →
    c.mem b = v.entry.mem.setWords v.saveArea (v.saved.regs.map v.entry.regs) b

/-- A register that the body of a function may write. -/
structure Owns (r : Reg) : Prop where
  ne_sp : r ≠ .sp
  ne_base : r ≠ Abi.base
  ne_lr : r ≠ .lr
  ne_pc : r ≠ .pc
  saved : r ∈ Abi.preserved → r ∈ v.saved.regs

/-- An address that the body of a function may store to. -/
def Slot (level : UInt32) (a : Reg × LoadOffset) : Prop :=
  ∀ c, v.Held level c → a.1 = .sp ∨ a.1 = Abi.base → v.Clear (c.regs a.1 + a.2.bits)

end

variable {v : Activation} {c c' : Core} {level : UInt32}

theorem base_mem_saved (h : ∃ used, Frame.saved used = .ok v.saved) : Abi.base ∈ v.saved.regs := by
  obtain ⟨used, hs⟩ := h
  exact RegisterSet.mem_regs.mpr ((Frame.mem_saved hs _).mpr (.inr (by decide)))

theorem callAddress_mem_saved (h : ∃ used, Frame.saved used = .ok v.saved) :
    Abi.callAddress ∈ v.saved.regs := by
  obtain ⟨used, hs⟩ := h
  exact RegisterSet.mem_regs.mpr ((Frame.mem_saved hs _).mpr (.inr (by decide)))

/-- What holds behind the start of a function. -/
theorem held_of_entered (hs : ∃ used, Frame.saved used = .ok v.saved)
    (h : v.entry.Entered v.saved v.frame c) : v.Held 0 c where
  sp := by rw [h.sp, sub_zero]; rfl
  base := h.base
  regs r hr hsp hn := by
    have h12 : r ≠ .r12 := by
      rintro rfl
      exact absurd hr (by decide)
    have hbase : r ≠ Abi.base := by
      rintro rfl
      exact hn (base_mem_saved hs)
    exact h.regs r hsp h12 hbase
  mem b _ := by rw [h.mem]; rfl

namespace Held

/-- An instruction that is confined to what the body may write keeps what holds there. -/
theorem effect? (h : v.Held level c) {i : Instr} (hi : i.Confined v.Owns (v.Slot level))
    (hstore : ∀ rs rn off, i = .str rs rn off → rn ≠ .sp → rn ≠ Abi.base →
      v.Clear (c.regs rn + off.bits))
    (he : c.effect? i = some c') : v.Held level c' := by
  -- The only address that counts is the one the instruction stores to.
  let stores (a : Reg × LoadOffset) : Prop := ∃ rs, i = .str rs a.1 a.2
  have hi' : i.Confined v.Owns stores := by
    cases i with
    | str rs rn off => exact ⟨rs, rfl⟩
    | _ => exact hi
  have hclear (a : Reg × LoadOffset) (ha : stores a) : v.Clear (c.regs a.1 + a.2.bits) := by
    obtain ⟨rs, rfl⟩ := ha
    by_cases hb : a.1 = .sp ∨ a.1 = Abi.base
    · exact hi c h hb
    · exact hstore rs a.1 a.2 rfl (fun e => hb (.inl e)) fun e => hb (.inr e)
  obtain ⟨hregs, hmem⟩ := Core.effect?_confined hi' he
  constructor
  · rw [hregs .sp fun ho => ho.ne_sp rfl, h.sp]
  · rw [hregs Abi.base fun ho => ho.ne_base rfl, h.base]
  · intro r hr hsp hn
    rw [hregs r fun ho => hn (ho.saved hr), h.regs r hr hsp hn]
  · intro b hb
    rw [hmem b fun a ha => hclear a ha b hb, h.mem b hb]

/-- The return address is no register that counts. -/
theorem set_lr (h : v.Held level c) (x : UInt32) : v.Held level (c.set .lr x) where
  sp := (Core.regs_set_of_ne (by decide)).trans h.sp
  base := (Core.regs_set_of_ne (by decide)).trans h.base
  regs r hr hsp hn := by
    have hlr : r ≠ .lr := by
      rintro rfl
      exact absurd hr (by decide)
    rw [Core.regs_set_of_ne hlr, h.regs r hr hsp hn]
  mem := h.mem

/-- A called routine keeps what holds in the body. -/
theorem returns (h : v.Held level c) (hr : v.Returns c c') : v.Held level c' where
  sp := (hr.regs .sp (by decide)).trans h.sp
  base := (hr.regs Abi.base (by decide)).trans h.base
  regs r hp hsp hn := (hr.regs r hp).trans (h.regs r hp hsp hn)
  mem b hb := (hr.mem b hb).trans (h.mem b hb)

end Held

/-! ### Below the registers that are saved -/

/-- Bytes of the registers that are saved lie behind the frame and what is pushed below it. -/
theorem toNat_sub_of_covers {k : Nat} (hroom : 4 * v.saved.size + v.frame.toNat + k ≤ 2 ^ 32)
    {b : UInt32} (hb : v.Covers b) :
    (b - (v.stack - UInt32.ofNat k)).toNat = (b - v.saveArea).toNat + v.frame.toNat + k := by
  have hlt : (b - v.saveArea).toNat < 4 * v.saved.size := hb
  have he : b - (v.stack - UInt32.ofNat k) = b - v.saveArea + v.frame + UInt32.ofNat k := by
    rw [stack]
    abel
  rw [he, UInt32.toNat_add, UInt32.toNat_add, UInt32.toNat_ofNat']
  omega

/-- A word of the frame is clear of the registers that are saved. -/
theorem clear_stack (hroom : 4 * v.saved.size + v.frame.toNat ≤ 2 ^ 32) {k : UInt32}
    (hk : k.toNat + 4 ≤ v.frame.toNat) : v.Clear (v.stack + k) := by
  intro b hb
  have hlt : (b - v.saveArea).toNat < 4 * v.saved.size := hb
  have h0 := toNat_sub_of_covers (k := 0) hroom hb
  have he : b - (v.stack + k) = b - (v.stack - UInt32.ofNat 0) - k := by
    have hz : UInt32.ofNat 0 = 0 := rfl
    rw [hz, sub_zero, sub_sub]
  rw [he, UInt32.toNat_sub_of_le _ _ (UInt32.le_iff_toNat_le.mpr (by omega)), h0]
  omega

/-- A word of the context block is clear of the registers that are saved when the whole block is. -/
theorem clear_context {size : Nat}
    (hd : Memory.Disjoint (v.entry.regs .r0) size v.saveArea (4 * v.saved.size)) {k : UInt32}
    (hk : k.toNat + 4 ≤ size) : v.Clear (v.entry.regs .r0 + k) := by
  intro b hb
  by_contra hlt
  have hj : (b - (v.entry.regs .r0 + k)).toNat < 4 := by omega
  refine hd (k.toNat + (b - (v.entry.regs .r0 + k)).toNat) (by omega) _ hb ?_
  rw [UInt32.ofNat_add, UInt32.ofNat_toNat, UInt32.ofNat_toNat, UInt32.ofNat_toNat]
  abel

namespace Held

theorem regs_divideArguments : Lower.divideArguments.regs = [.r0, .r1] := by decide

/-- Pushing the operands of a division. -/
theorem push (h : v.Held 0 c) (hroom : 4 * v.saved.size + v.frame.toNat + 8 ≤ 2 ^ 32) :
    ∃ c', c.effect? (.stmdb .sp Lower.divideArguments) = some c' ∧ v.Held 8 c' := by
  have hn : ¬ (Lower.divideArguments.regs = [] ∨ Reg.sp ∈ Lower.divideArguments.regs) := by decide
  have hsp : c.regs .sp - 4 * UInt32.ofNat Lower.divideArguments.size = v.stack - 8 := by
    rw [h.sp, sub_zero]
    rfl
  simp only [Core.effect?, if_neg hn, hsp, Option.some.injEq, exists_eq_left']
  have hregs {r : Reg} (hr : r ≠ .sp) : (c.set .sp (v.stack - 8)).regs r = c.regs r :=
    Core.regs_set_of_ne hr
  constructor
  · exact Core.regs_set_self (c := c) (r := .sp)
  · exact (hregs (by decide)).trans h.base
  · intro r hr hsp hn
    exact (hregs hsp).trans (h.regs r hr hsp hn)
  · intro b hb
    refine (Memory.setWords_of_outside ?_).trans (h.mem b hb)
    have := toNat_sub_of_covers hroom hb
    rw [List.length_map, regs_divideArguments]
    exact (this ▸ Nat.le_add_left _ _ : 8 ≤ (b - (v.stack - UInt32.ofNat 8)).toNat)

/-- Popping the operands of a division. -/
theorem pop (h : v.Held 8 c) :
    ∃ c', c.effect? (.ldmia .sp Lower.divideArguments) = some c' ∧ v.Held 0 c' := by
  have hn : ¬ (Lower.divideArguments.regs = [] ∨ Reg.sp ∈ Lower.divideArguments.regs) := by decide
  have hsp : c.regs .sp + 4 * UInt32.ofNat Lower.divideArguments.size = v.stack := by
    rw [h.sp]
    exact sub_add_cancel _ _
  simp only [Core.effect?, if_neg hn, hsp, Option.some.injEq, exists_eq_left']
  have hregs {r : Reg} (hsp : r ≠ .sp) (hr : r ∉ Lower.divideArguments.regs) :
      ((c.loadAll (c.regs .sp) Lower.divideArguments.regs).set .sp v.stack).regs r = c.regs r :=
    (Core.regs_set_of_ne hsp).trans (Core.regs_loadAll_of_not_mem hr)
  constructor
  · rw [Core.regs_set_self, sub_zero]
  · rw [hregs (by decide) (by decide), h.base]
  · intro r hr hsp hs
    have hne : r ∉ Lower.divideArguments.regs := by
      have hall : ∀ r ∈ Abi.preserved, r ∉ Lower.divideArguments.regs := by decide
      exact hall r hr
    rw [hregs hsp hne, h.regs r hr hsp hs]
  · intro b hb
    rw [Core.mem_set, Core.mem_loadAll, h.mem b hb]

/-- The registers that are saved can be read back. -/
theorem word_saved (h : v.Held level c) {i : Nat} {r : Reg} (hi : v.saved.regs[i]? = some r) :
    c.mem.word (v.saveArea + 4 * UInt32.ofNat i) = v.entry.regs r := by
  have hlen : v.saved.regs.length = v.saved.size := RegisterSet.length_regs _
  have hsize := v.saved.size_le
  have hlt : i < v.saved.size := hlen ▸ (List.getElem?_eq_some_iff.mp hi).1
  have hbyte (k : UInt32) (hk : k.toNat < 4) :
      v.Covers (v.saveArea + 4 * UInt32.ofNat i + k) := by
    have he : v.saveArea + 4 * UInt32.ofNat i + k - v.saveArea = 4 * UInt32.ofNat i + k := by
      abel
    rw [Covers, he, UInt32.toNat_add, UInt32.toNat_mul, UInt32.toNat_ofNat']
    simp only [UInt32.reduceToNat]
    omega
  have h0 := hbyte 0 (by decide)
  rw [add_zero] at h0
  have hword : Memory.word (v.entry.mem.setWords v.saveArea (v.saved.regs.map v.entry.regs))
      (v.saveArea + 4 * UInt32.ofNat i) = v.entry.regs r := by
    refine Memory.word_setWords ?_ ?_
    · rw [List.length_map, hlen]
      omega
    · rw [List.getElem?_map, hi, Option.map_some]
  rw [← hword, Memory.word, Memory.word, h.mem _ h0, h.mem _ (hbyte 1 (by decide)),
    h.mem _ (hbyte 2 (by decide)), h.mem _ (hbyte 3 (by decide))]

/-- The end of a function gives the caller its registers back. -/
theorem restore (h : v.Held 0 c) (hs : ∃ used, Frame.saved used = .ok v.saved)
    (hr : c.run? (Frame.adjust .add v.frame ++ [.ldmia .sp v.saved]) = some c') :
    (∀ r ∈ Abi.preserved, c'.regs r = v.entry.regs r) ∧ c'.regs .lr = v.entry.regs .lr := by
  obtain ⟨used, hs⟩ := hs
  obtain ⟨c₁, h₁, hsp, -, hkept, hload⟩ := c.run?_restore v.frame hs
  obtain rfl : c₁ = c' := Option.some.inj (h₁.symm.trans hr)
  have harea : c.regs .sp + v.frame = v.saveArea := by
    rw [h.sp, sub_zero, stack, sub_add_cancel]
  have hsaved {r : Reg} (hr : r ∈ v.saved.regs) : c₁.regs r = v.entry.regs r := by
    obtain ⟨i, hi⟩ := List.mem_iff_getElem?.mp hr
    rw [hload i r hi, harea, h.word_saved hi]
  refine ⟨fun r hp => ?_, hsaved (Frame.lr_mem_saved hs)⟩
  by_cases hsp' : r = .sp
  · rw [hsp', hsp, harea, saveArea, sub_add_cancel]
  · by_cases hm : r ∈ v.saved.regs
    · exact hsaved hm
    · have h12 : r ≠ .r12 := by
        rintro rfl
        exact absurd hp (by decide)
      rw [hkept r hsp' h12 hm, h.regs r hp hsp' hm]

end Held

end Activation

end A32Lowering
