import Mathlib
import A32Lowering.Proofs.Activation
import A32Lowering.Proofs.Lowerable

/-!
# The stack in the body of a function

The items of a statement write nothing but what the body of a function may write, and leave the
stack as they find it. Only a division moves the stack pointer: it pushes its operands for the first
of its calls and takes them back for the second. So there is nothing pushed where control can come
from elsewhere.

## Main definitions

* `Activation.Flows` : items with what is pushed in front of them and behind them.
* `Activation.Admits` : a statement that keeps to the rules of an activation.

## Main results

* `Activation.Flows.unique`, `Activation.Flows.of_width_eq` : what is pushed at a position.
* `Statement.flows` : the items of a statement.
-/

namespace A32Lowering

namespace Activation

variable {v : Activation}

/-! ### Items of a body -/

/-- Items of a body that begin with `n` bytes pushed on the stack and end with `k`. There are labels
and jumps only where nothing is pushed. -/
inductive Flows (v : Activation) : UInt32 → List Item → UInt32 → Prop
  | nil (n : UInt32) : Flows v n [] n
  | instr {n k : UInt32} {i : Instr} {l : List Item} (hi : i.Confined v.Owns (v.Slot n))
    (h : Flows v n l k) : Flows v n (.instr i :: l) k
  | report {n k x : UInt32} {l : List Item} (h : Flows v n l k) : Flows v n (.report x :: l) k
  | mark {k b : UInt32} {l : List Item} (h : Flows v 0 l k) : Flows v 0 (.mark b :: l) k
  | jump {k b : UInt32} {cc : CondCode} {l : List Item} (h : Flows v 0 l k) :
    Flows v 0 (.jump cc b :: l) k
  | push {k : UInt32} {l : List Item}
    (hroom : 4 * v.saved.size + v.frame.toNat + 8 ≤ 2 ^ 32) (h : Flows v 8 l k) :
    Flows v 0 (.instr (.stmdb .sp Lower.divideArguments) :: l) k
  | pop {k : UInt32} {l : List Item} (h : Flows v 0 l k) :
    Flows v 8 (.instr (.ldmia .sp Lower.divideArguments) :: l) k
  | call {n k : UInt32} {l : List Item} (h : Flows v n l k) :
    Flows v n (.instr (.mov .lr .pc) :: .instr (.mov .pc Abi.callAddress) :: l) k

namespace Flows

variable {n k j : UInt32} {l r : List Item}

theorem append (hl : v.Flows n l k) (hr : v.Flows k r j) : v.Flows n (l ++ r) j := by
  induction hl with
  | nil => exact hr
  | instr hi _ ih => exact .instr hi (ih hr)
  | report _ ih => exact .report (ih hr)
  | mark _ ih => exact .mark (ih hr)
  | jump _ ih => exact .jump (ih hr)
  | push hroom _ ih => exact .push hroom (ih hr)
  | pop _ ih => exact .pop (ih hr)
  | call _ ih => exact .call (ih hr)

theorem instrs {l : List Instr} (h : Confined v.Owns (v.Slot n) l) :
    v.Flows n (l.map .instr) n := by
  induction l with
  | nil => exact .nil n
  | cons i l ih =>
    obtain ⟨hi, hl⟩ := confined_cons.mp h
    exact .instr hi (ih hl)

theorem itemCall (h : v.Owns Abi.callAddress) (addr : UInt32) : v.Flows n (Item.call addr) n :=
  .report (.instr h (.instr h (.call (.nil n))))

theorem flatten {ls : List (List Item)} (h : ∀ l ∈ ls, v.Flows 0 l 0) :
    v.Flows 0 ls.flatten 0 := by
  induction ls with
  | nil => exact .nil 0
  | cons l ls ih =>
    obtain ⟨hl, hls⟩ := List.forall_mem_cons.mp h
    exact hl.append (ih hls)

/-- What is pushed at a position follows from the items behind it. -/
theorem unique (h : v.Flows n l k) (h' : v.Flows j l k) : n = j := by
  induction h with
  | nil =>
    cases h'
    rfl
  | instr hi _ ih =>
    cases h' with
    | instr _ h' => exact ih h'
    | push | pop => exact hi.elim
    | call => exact (hi.ne_lr rfl).elim
  | report _ ih =>
    cases h' with
    | report h' => exact ih h'
  | mark | jump => cases h'; rfl
  | push =>
    cases h' with
    | instr hi => exact hi.elim
    | push => rfl
  | pop =>
    cases h' with
    | instr hi => exact hi.elim
    | pop => rfl
  | call _ ih =>
    cases h' with
    | instr hi => exact (hi.ne_lr rfl).elim
    | call h' => exact ih h'

/-- Items without words push nothing. -/
theorem of_width_eq_zero (h : v.Flows n (l ++ r) k) (hl : Items.width l = 0) : v.Flows n r k := by
  induction l with
  | nil => exact h
  | cons i l ih =>
    rw [Items.width_cons] at hl
    cases i with
    | instr | jump => simp [Item.width] at hl
    | mark | report =>
      cases h with
      | _ h => exact ih h (by omega)

/-- Items without words can stand where nothing is pushed. -/
theorem append_of_width_eq_zero (h : v.Flows 0 r k) (hl : Items.width l = 0) :
    v.Flows 0 (l ++ r) k := by
  induction l with
  | nil => exact h
  | cons i l ih =>
    rw [Items.width_cons] at hl
    cases i with
    | instr | jump => simp [Item.width] at hl
    | mark => exact .mark (ih (by omega))
    | report => exact .report (ih (by omega))

/-- Nothing is pushed at a position if that is so behind or in front of the items without words
there. -/
theorem of_width_eq {l' r' : List Item} (he : l ++ r = l' ++ r')
    (hw : Items.width l = Items.width l') (h : v.Flows 0 r' k) : v.Flows 0 r k := by
  obtain ⟨z, rfl, rfl⟩ | ⟨z, rfl, rfl⟩ := List.append_eq_append_iff.mp he
  · rw [Items.width_append] at hw
    exact h.append_of_width_eq_zero (by omega)
  · rw [Items.width_append] at hw
    exact h.of_width_eq_zero (by omega)

/-- A jump to a routine stands behind the instruction that takes the return address. -/
theorem ne_jump (h : v.Flows n (.instr (.mov .pc Abi.callAddress) :: r) k) : False := by
  cases h with
  | instr hi => exact hi.ne_pc rfl

end Flows

end Activation

/-! ### The operands of a statement -/

/-- The bytes that an operand takes on the stack. -/
def Operand.stackBytes (o : Operand) : Nat :=
  match o.kind with
  | .temporary | .tmpReference => 4
  | .temporary64 => 8
  | .temporary128 => 16
  | _ => 0

/-- The bytes that an operand takes in the context block. -/
def Operand.contextBytes (o : Operand) : Nat :=
  match o.kind with
  | .relative | .relReference => 4
  | .relative64 => 8
  | .relative128 => 16
  | _ => 0

namespace Activation

variable {v : Activation} {level half : UInt32} {s : Operand} {a : Reg × LoadOffset} {size : Nat}

/-- What a statement needs of an activation: its registers are saved, its temporaries lie in the
frame and its context words in a block that is clear of the registers that are saved. -/
structure Admits (v : Activation) (size : Nat) (x : Statement) : Prop where
  registers : ∀ o ∈ x.slots, o.kind = .register → ∀ r, Abi.register o.low = .ok r →
    r ∈ v.saved.regs
  stack : ∀ o ∈ x.slots, 0 < o.stackBytes → o.slot.toNat + o.stackBytes ≤ v.frame.toNat
  context : ∀ o ∈ x.slots, 0 < o.contextBytes → o.low.toNat + o.contextBytes ≤ size
  apart : Memory.Disjoint (v.entry.regs .r0) size v.saveArea (4 * v.saved.size)
  room : 4 * v.saved.size + v.frame.toNat ≤ 2 ^ 32
  divide : x.op = .div ∨ x.op = .divs → 4 * v.saved.size + v.frame.toNat + 8 ≤ 2 ^ 32

theorem slot_temporary (hroom : 4 * v.saved.size + v.frame.toNat ≤ 2 ^ 32)
    (hs : s.slot.toNat + (half.toNat + 4) ≤ v.frame.toNat)
    (h : Access.temporaryAddress level s half = .ok a) : v.Slot level a := by
  obtain ⟨o, ho, rfl⟩ := Except.map_eq_ok_iff.mp h
  intro c hc _
  have hbits : o.bits = s.slot + level + half := Access.bits_of_offset ho
  have haddr : c.regs .sp + o.bits = v.stack + (s.slot + half) := by
    rw [hc.sp, hbits]
    abel
  have hlt := v.frame.toNat_lt
  rw [haddr]
  refine clear_stack hroom ?_
  rw [UInt32.toNat_add]
  omega

theorem slot_relative (hd : Memory.Disjoint (v.entry.regs .r0) size v.saveArea (4 * v.saved.size))
    (hs : s.low.toNat + (half.toNat + 4) ≤ size)
    (h : Access.relativeAddress s half = .ok a) : v.Slot level a := by
  obtain ⟨o, ho, rfl⟩ := Except.map_eq_ok_iff.mp h
  unfold Access.relative at ho
  split_ifs at ho
  intro c hc _
  have hbits : o.bits = s.low + half := Access.bits_of_offset ho
  have haddr : c.regs Abi.base + o.bits = v.entry.regs .r0 + (s.low + half) := by
    rw [hc.base, hbits]
  rw [haddr]
  refine clear_context hd ?_
  rw [UInt32.toNat_add]
  omega

/-- The words of an operand may be stored to. -/
theorem Admits.slot {x : Statement} (h : v.Admits size x) (hs : s ∈ x.slots)
    (ha : Access.Slot level s a) : v.Slot level a := by
  have hstack := h.stack s hs
  have hcontext := h.context s hs
  cases ha with
  | word ha =>
    unfold Access.address at ha
    split at ha
    next hk =>
      simp only [Operand.contextBytes, hk] at hcontext
      exact slot_relative h.apart (hcontext (by decide)) ha
    next hk =>
      simp only [Operand.stackBytes, hk] at hstack
      exact slot_temporary h.room (hstack (by decide)) ha
    · cases ha
  | low ha | high ha =>
    unfold Access.address64 at ha
    split at ha
    next hk =>
      simp only [Operand.contextBytes, hk] at hcontext
      have := hcontext (by decide)
      exact slot_relative h.apart (by simp only [UInt32.reduceToNat]; omega) ha
    next hk =>
      simp only [Operand.stackBytes, hk] at hstack
      have := hstack (by decide)
      exact slot_temporary h.room (by simp only [UInt32.reduceToNat]; omega) ha
    · cases ha
  | reference hk ha =>
    simp only [Operand.stackBytes, hk] at hstack
    exact slot_temporary h.room (hstack (by decide)) ha

theorem owns_scratch {r : Reg} (h : r ∈ Abi.scratch) : v.Owns r := by
  have hall : ∀ r ∈ Abi.scratch, r ≠ .sp ∧ r ≠ Abi.base ∧ r ≠ .lr ∧ r ≠ .pc ∧
      r ∉ Abi.preserved := by decide
  obtain ⟨hsp, hbase, hlr, hpc, hp⟩ := hall r h
  exact ⟨hsp, hbase, hlr, hpc, fun hm => (hp hm).elim⟩

theorem owns_register {r : Reg} (h : r ∈ Abi.registers) (hs : r ∈ v.saved.regs) : v.Owns r := by
  have hall : ∀ r ∈ Abi.registers, r ≠ .sp ∧ r ≠ Abi.base ∧ r ≠ .lr ∧ r ≠ .pc := by decide
  obtain ⟨hsp, hbase, hlr, hpc⟩ := hall r h
  exact ⟨hsp, hbase, hlr, hpc, fun _ => hs⟩

end Activation

namespace Statement

open Activation Activation.Flows

variable {v : Activation} {size : Nat} {x : Statement} {ps qs : List Parameter} {l : List Item}

theorem flows_jumpItems {c : Except Fault (List Instr)}
    (hc : ∀ m, c = .ok m → Confined v.Owns (v.Slot 0) m) (h : Action.jumpItems x c = .ok l) :
    v.Flows 0 l 0 := by
  obtain ⟨m, cc, hm, -, rfl⟩ := Action.jumpItems_eq_ok h
  exact (instrs (hc m hm)).append (.jump (.nil 0))

/-- A division pushes its operands for the first call and takes them back for the second. -/
theorem flows_divideItems [Helper.Entries] {signed : Bool} {d s1 s2 : Operand}
    (hx : v.Admits size x) (hd : d ∈ x.slots) (hcall : v.Owns Abi.callAddress)
    (hroom : 4 * v.saved.size + v.frame.toNat + 8 ≤ 2 ^ 32)
    (h : Action.divideItems signed d s1 s2 = .ok l) : v.Flows 0 l 0 := by
  obtain ⟨-, a, b, q, r, ha, hb, hq, hr, rfl⟩ := Action.divideItems_eq_ok h
  have h0 : v.Owns .r0 := owns_scratch (by decide)
  have h1 : v.Owns .r1 := owns_scratch (by decide)
  have ha : v.Flows 0 (a.map .instr) 0 := instrs (Access.confined_argument h0 ha)
  have hb : v.Flows 0 (b.map .instr) 0 := instrs (Access.confined_argument h1 hb)
  have hq : v.Flows 8 (q.map .instr) 8 :=
    instrs (Access.confined_store64_low (fun _ => hx.slot hd) hq)
  have hr : v.Flows 0 (r.map .instr) 0 :=
    instrs (Access.confined_store64_high (fun _ => hx.slot hd) hr)
  simp only [List.map_append, List.append_assoc, List.append_nil]
  refine ha.append (hb.append (.push hroom ?_))
  refine (itemCall hcall _).append (hq.append (.pop ?_))
  exact (itemCall hcall _).append hr

/-- The items of a statement leave the stack as they find it. -/
theorem flows [Helper.Entries] (hx : v.Admits size x) (hcall : v.Owns Abi.callAddress)
    (h : x.items ps = .ok (l, qs)) : v.Flows 0 l 0 := by
  obtain ⟨r, a, hr, ha, h⟩ := items_eq_ok h
  have h1 : v.Owns .r1 := owns_scratch (by decide)
  have h2 : v.Owns .r2 := owns_scratch (by decide)
  cases h with
  | @straight a m hm =>
    have hp : a.Permits v.Owns (v.Slot 0) 0 x := by
      refine ⟨fun _ => owns_scratch, fun d r hd hk hreg => ?_,
        fun hdef d => Rules.kind_of_select hr ha hdef, fun d w hd hw => ?_, fun _ c _ hb => ?_⟩
      · exact owns_register (List.mem_of_getElem? (Abi.register_eq_ok_iff.mp hreg))
          (hx.registers d (mem_slots.mpr (.inl hd)) hk r hreg)
      · exact hx.slot (mem_slots.mpr (.inl hd)) hw
      · exact absurd hb (by decide)
    exact instrs (Straight.confined hp hm)
  | mark => exact .mark (.nil 0)
  | jump => exact .jump (.nil 0)
  | jumpIf _ _ _ hl => exact flows_jumpItems (fun _ => Straight.confined_compareCode h1 h2) hl
  | jumpIfCst _ _ _ hl => exact flows_jumpItems (fun _ => Straight.confined_compareCstCode h1 h2) hl
  | param => exact .nil 0
  | call _ _ hl =>
    obtain ⟨-, -, m, hm, rfl⟩ := Action.callItems_eq_ok hl
    have hargs : ∀ r ∈ Abi.arguments, v.Owns r := fun _ => owns_scratch
    exact (instrs (Parameter.confined_codeAll hargs hm)).append (itemCall hcall _)
  | @divide signed d _ _ _ hd _ _ hl =>
    have hop : x.op = .div ∨ x.op = .divs := by
      have hall : ∀ r ∈ Rules.general ++ Rules.wide, ∀ b, r.action = .divide b →
          r.shape.op = .div ∨ r.shape.op = .divs := by decide
      rw [Rules.op_of_select hr]
      exact hall r (Rules.select_eq_ok hr).1 signed ha
    exact flows_divideItems hx (mem_slots.mpr (.inl hd)) hcall (hx.divide hop) hl

end Statement

theorem Program.flows_of_mem_bodies [Helper.Entries] {v : Activation} {size : Nat}
    {params rest : List Parameter} {p : Program} {ls : List (List Item)}
    (hx : ∀ x ∈ p, v.Admits size x) (hcall : v.Owns Abi.callAddress)
    (h : Program.bodies params p = .ok (ls, rest)) : ∀ l ∈ ls, v.Flows 0 l 0 := by
  induction p generalizing params ls with
  | nil =>
    obtain ⟨rfl, -⟩ := Prod.mk.inj (Except.pure_eq_ok_iff.mp h)
    simp
  | cons x p ih =>
    simp only [bodies, Except.bind_eq_ok_iff, Except.pure_eq_ok_iff] at h
    obtain ⟨⟨l, ps⟩, hl, ⟨ls', ps'⟩, hr, h⟩ := h
    obtain ⟨rfl, rfl⟩ := Prod.mk.inj h
    obtain ⟨hx, hp⟩ := List.forall_mem_cons.mp hx
    exact List.forall_mem_cons.mpr ⟨Statement.flows hx hcall hl, ih hp hr⟩

end A32Lowering
