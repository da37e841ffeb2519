import Mathlib
import A32Lowering.Proofs.Computation

/-!
# Machines that hold the variables of a program

The machine keeps each variable of a program in a place of its own: a register, a word of the frame
or a word of the context block. As long as the context block does not overlap the frame, writing one
variable changes no other, and so a statement does to the machine what it does to the variables.

## Main definitions

* `Operand.InScope` : the operands that a frame and a context block of some sizes have room for.
* `Storage.Agrees` : the machine holds the values of the variables.
* `Memory.Disjoint` : two blocks of memory that do not overlap.

## Main results

* `Core.value_put` : writing a variable changes no other.
* `Storage.Agrees.apply` : a statement keeps the agreement.
-/

namespace A32Lowering

/-- An operand that exists for a frame and a context block of some sizes: an index of the allocator,
a whole word of the frame, or a whole word of the context block. -/
structure Operand.InScope (frame : UInt32) (size : Nat) (o : Operand) : Prop where
  register : o.kind = .register → o.low < 6
  temporary : o.kind = .temporary → o.slot % 4 = 0 ∧ o.slot.toNat + 4 ≤ frame.toNat
  relative : o.kind = .relative → o.low % 4 = 0 ∧ o.low.toNat + 4 ≤ size

/-- Whether two operands name one variable. -/
def Operand.names (d o : Operand) : Bool :=
  match d.kind, o.kind with
  | .register, .register => o.low = d.low
  | .temporary, .temporary => o.slot = d.slot
  | .relative, .relative => o.low = d.low
  | _, _ => false

/-- The machine holds the values of the variables. -/
def Storage.Agrees (frame : UInt32) (size : Nat) (s : Storage) (c : Core) : Prop :=
  ∀ o : Operand, o.InScope frame size → s.value o = c.storage.value o

/-- Writing a variable changes no other. -/
theorem Storage.value_set (s : Storage) (d o : Operand) (v : UInt32) :
    (s.set d v).value o = if d.names o then v else s.value o := by
  cases hd : d.kind with
  | register | temporary | relative =>
    cases ho : o.kind <;>
      simp only [set, value, Operand.names, hd, ho, Function.update_apply, decide_eq_true_eq,
        Bool.false_eq_true, if_false]
  | _ => simp only [set, Operand.names, hd, Bool.false_eq_true, if_false]

namespace Memory

/-- Two blocks of memory, of `m` and of `n` bytes, that do not overlap. -/
def Disjoint (a : UInt32) (m : Nat) (b : UInt32) (n : Nat) : Prop :=
  ∀ i < m, ∀ j < n, a + UInt32.ofNat i ≠ b + UInt32.ofNat j

variable {a b : UInt32} {m n : Nat}

theorem Disjoint.symm (h : Disjoint a m b n) : Disjoint b n a m :=
  fun j hj i hi => (h i hi j hj).symm

theorem Apart.symm (h : Apart a b) : Apart b a := ⟨h.2, h.1⟩

/-- Words of blocks that do not overlap have no byte in common. -/
theorem Disjoint.apart (h : Disjoint a m b n) {i j : UInt32} (hi : i.toNat + 4 ≤ m)
    (hj : j.toNat + 4 ≤ n) : Apart (a + i) (b + j) := by
  have key {a b i j : UInt32} {m n : Nat} (h : Disjoint a m b n) (hi : i.toNat + 4 ≤ m)
      (hj : j.toNat + 4 ≤ n) : 4 ≤ (b + j - (a + i)).toNat := by
    by_contra hlt
    let k := b + j - (a + i)
    have hk : k.toNat < 4 := by simpa [k] using hlt
    refine h (i.toNat + k.toNat) (by omega) j.toNat (by omega) ?_
    rw [UInt32.ofNat_add, UInt32.ofNat_toNat, UInt32.ofNat_toNat, UInt32.ofNat_toNat, ← add_assoc]
    exact add_sub_cancel _ _
  exact ⟨key h hi hj, key h.symm hj hi⟩

/-- Different words at multiples of four have no byte in common. -/
theorem apart_of_aligned {i j : UInt32} (hi : i % 4 = 0) (hj : j % 4 = 0) (hne : i ≠ j) :
    Apart (a + i) (a + j) := by
  have hi : i.toNat % 4 = 0 := congrArg UInt32.toNat hi
  have hj : j.toNat % 4 = 0 := congrArg UInt32.toNat hj
  have hne : i.toNat ≠ j.toNat := fun h => hne (UInt32.toNat_inj.mp h)
  have hi' := i.toNat_lt
  have hj' := j.toNat_lt
  constructor
  · rw [add_sub_add_left_eq_sub, UInt32.toNat_sub]
    omega
  · rw [add_sub_add_left_eq_sub, UInt32.toNat_sub]
    omega

end Memory

theorem Abi.register_inj {i j : UInt32} {r : Reg} (hi : Abi.register i = .ok r)
    (hj : Abi.register j = .ok r) : i = j := by
  have hi := Abi.register_eq_ok_iff.mp hi
  have hj := Abi.register_eq_ok_iff.mp hj
  have hn : Abi.registers.Nodup := by decide
  obtain ⟨hlt, -⟩ := List.getElem?_eq_some_iff.mp hi
  exact UInt32.toNat_inj.mp ((List.getElem?_inj hlt hn).mp (hi.trans hj.symm))

theorem Abi.register_ne {i : UInt32} {r : Reg} (h : Abi.register i = .ok r) :
    r ≠ .sp ∧ r ≠ Abi.base := by
  have hall : ∀ r ∈ Abi.registers, r ≠ .sp ∧ r ≠ Abi.base := by decide
  exact hall r (List.mem_of_getElem? (Abi.register_eq_ok_iff.mp h))

namespace Core

variable {frame : UInt32} {size : Nat} {c : Core} {d o : Operand} {v : UInt32}

/-- The context block and the frame do not overlap. -/
def Separate (frame : UInt32) (size : Nat) (c : Core) : Prop :=
  Memory.Disjoint (c.regs Abi.base) size (c.regs .sp) frame.toNat

/-- Writing a variable in its place changes no other. -/
theorem value_put (hs : c.Separate frame size) (hd : d.InScope frame size)
    (ho : o.InScope frame size) :
    (c.put d v).storage.value o = if d.names o then v else c.storage.value o := by
  cases hk : d.kind with
  | register =>
    obtain ⟨r, hr⟩ := Access.succeeds_register d.low |>.mpr (hd.register hk)
    obtain ⟨hsp, hbase⟩ := Abi.register_ne hr
    rw [put_register hk hr]
    cases ho' : o.kind with
    | register =>
      obtain ⟨q, hq⟩ := Access.succeeds_register o.low |>.mpr (ho.register ho')
      rw [value_register ho' hq, value_register ho' hq]
      simp only [Operand.names, hk, ho', decide_eq_true_eq]
      split_ifs with he
      · rw [he, hr] at hq
        rw [← Except.ok.inj hq, regs_set_self]
      · have hne : q ≠ r := by
          rintro rfl
          exact he (Abi.register_inj hq hr)
        rw [regs_set_of_ne hne]
    | temporary =>
      simp only [Storage.value, storage, Operand.names, hk, ho', Bool.false_eq_true, if_false,
        regs_set_of_ne hsp.symm, mem_set]
    | relative =>
      simp only [Storage.value, storage, Operand.names, hk, ho', Bool.false_eq_true, if_false,
        regs_set_of_ne hbase.symm, mem_set]
    | _ => simp only [Storage.value, Operand.names, hk, ho', Bool.false_eq_true, if_false]
  | temporary =>
    obtain ⟨hd4, hdf⟩ := hd.temporary hk
    cases ho' : o.kind with
    | register =>
      simp only [Storage.value, storage, put, Operand.names, hk, ho', Bool.false_eq_true, if_false,
        regs_store]
    | temporary =>
      obtain ⟨ho4, -⟩ := ho.temporary ho'
      simp only [Storage.value, storage, put, Operand.names, hk, ho', decide_eq_true_eq, regs_store,
        mem_store]
      split_ifs with he
      · rw [he, Memory.word_setWord_self]
      · rw [Memory.word_setWord_of_apart (Memory.apart_of_aligned hd4 ho4 (Ne.symm he))]
    | relative =>
      obtain ⟨-, hof⟩ := ho.relative ho'
      simp only [Storage.value, storage, put, Operand.names, hk, ho', Bool.false_eq_true, if_false,
        regs_store, mem_store]
      rw [Memory.word_setWord_of_apart (hs.apart hof hdf).symm]
    | _ => simp only [Storage.value, Operand.names, hk, ho', Bool.false_eq_true, if_false]
  | relative =>
    obtain ⟨hd4, hdf⟩ := hd.relative hk
    cases ho' : o.kind with
    | register =>
      simp only [Storage.value, storage, put, Operand.names, hk, ho', Bool.false_eq_true, if_false,
        regs_store]
    | temporary =>
      obtain ⟨-, hof⟩ := ho.temporary ho'
      simp only [Storage.value, storage, put, Operand.names, hk, ho', Bool.false_eq_true, if_false,
        regs_store, mem_store]
      rw [Memory.word_setWord_of_apart (hs.apart hdf hof)]
    | relative =>
      obtain ⟨ho4, -⟩ := ho.relative ho'
      simp only [Storage.value, storage, put, Operand.names, hk, ho', decide_eq_true_eq, regs_store,
        mem_store]
      split_ifs with he
      · rw [he, Memory.word_setWord_self]
      · rw [Memory.word_setWord_of_apart (Memory.apart_of_aligned hd4 ho4 (Ne.symm he))]
    | _ => simp only [Storage.value, Operand.names, hk, ho', Bool.false_eq_true, if_false]
  | _ => simp only [put, Operand.names, hk, Bool.false_eq_true, if_false]

/-- Writing a variable moves neither the stack pointer nor the context pointer. -/
theorem regs_put {r : Reg} (hr : r = .sp ∨ r = Abi.base) : (c.put d v).regs r = c.regs r := by
  unfold put
  split
  · cases hd : Abi.register d.low with
    | error => rfl
    | ok q =>
      obtain ⟨hsp, hbase⟩ := Abi.register_ne hd
      refine regs_set_of_ne ?_
      rcases hr with rfl | rfl
      · exact hsp.symm
      · exact hbase.symm
  · rfl
  · rfl
  · rfl

theorem regs_apply {x : Statement} {r : Reg} (hr : r = .sp ∨ r = Abi.base) :
    (c.apply x).regs r = c.regs r := by
  unfold apply
  split
  · exact regs_put hr
  · rfl

end Core

namespace Statement

variable {x : Statement} {f g : Operand → UInt32}

theorem mem_slots {o : Operand} :
    o ∈ x.slots ↔ x.dst = some o ∨ x.src1 = some o ∨ x.src2 = some o := by
  simp [slots, eq_comm]

/-- What a statement computes depends on the values of its operands only. -/
theorem result_congr (h : ∀ o ∈ x.slots, f o = g o) : x.result f = x.result g := by
  have h1 {o : Operand} (ho : x.src1 = some o) : f o = g o := h o (mem_slots.mpr (.inr (.inl ho)))
  have h2 {o : Operand} (ho : x.src2 = some o) : f o = g o := h o (mem_slots.mpr (.inr (.inr ho)))
  unfold result
  split
  · exact h1 ‹_›
  · rw [h1 ‹_›]
  · simp only [result₂, amount, h1 ‹_›, h2 ‹_›]
  · rfl

/-- Whether a jump is taken depends on the values of its operands only. -/
theorem taken_congr (h : ∀ o ∈ x.slots, f o = g o) : x.taken f = x.taken g := by
  have h1 {o : Operand} (ho : x.src1 = some o) : f o = g o := h o (mem_slots.mpr (.inr (.inl ho)))
  have h2 {o : Operand} (ho : x.src2 = some o) : f o = g o := h o (mem_slots.mpr (.inr (.inr ho)))
  unfold taken
  split
  · rfl
  · rw [h1 ‹_›, h2 ‹_›]
  · rfl

end Statement

namespace Storage.Agrees

variable {frame : UInt32} {size : Nat} {s : Storage} {c c' : Core} {x : Statement}

/-- Cores that differ in scratch registers and flags only hold the same variables. -/
theorem of_same (h : s.Agrees frame size c) (hc : Core.Same c c') : s.Agrees frame size c' := by
  intro o ho
  rw [hc.storage_eq]
  exact h o ho

/-- A statement does to the machine what it does to the variables. -/
theorem apply (h : s.Agrees frame size c) (hs : c.Separate frame size)
    (hx : ∀ o ∈ x.slots, o.InScope frame size) : (x.apply s).Agrees frame size (c.apply x) := by
  unfold Statement.apply Core.apply
  cases hd : x.dst with
  | some d =>
    intro o ho
    have hin := hx d (Statement.mem_slots.mpr (.inl hd))
    have hr : x.result s.value = x.result c.storage.value :=
      Statement.result_congr fun o ho => h o (hx o ho)
    simp only [Storage.value_set, Core.value_put hs hin ho, hr, h o ho]
  | none => exact h

end Storage.Agrees

end A32Lowering
