import Mathlib
import A32Lowering.Proofs.CalleeSaved
import A32Lowering.Proofs.Emission

/-!
# The machine with the divide helpers

A division calls routines that are not part of the code. All that is known of a routine is what it
returns, what it keeps and that it comes back at the return address; the machine goes on with
whatever it leaves. What the routines return for a quotient and a remainder is a division of words.

## Main definitions

* `IsDivision` : the quotient and the remainder of two words.
* `Helper.Returns` : what a routine is trusted with.
* `Routines`, `Routines.Serve` : what a host has at addresses, and that the helpers are among it.
* `Machine.advance?`, `Machine.Advances` : the machine together with the routines.

## Main results

* `Helper.isDivision_value?` : what the routines return is the quotient and the remainder.
* `Core.advances_run` : straight-line code calls no routine.
* `Core.advances_callee` : a call of a routine comes back behind the call.
-/

namespace A32Lowering

/-! ### Quotients and remainders -/

/-- The quotient and the remainder of two words. With sign the quotient goes toward zero, and the
one that does not fit into a word wraps around. -/
structure IsDivision (signed : Bool) (a b q r : UInt32) : Prop where
  quotient : if signed then q.toInt32 = Int32.ofInt (a.toInt32.toInt.tdiv b.toInt32.toInt)
    else q.toNat = a.toNat / b.toNat
  remainder : if signed then r.toInt32.toInt = a.toInt32.toInt.tmod b.toInt32.toInt
    else r.toNat = a.toNat % b.toNat
  eq : a = q * b + r
  lt : if signed then r.toInt32.toInt.natAbs < b.toInt32.toInt.natAbs else r.toNat < b.toNat

namespace Helper

theorem toInt_ne_zero {b : UInt32} (hb : b ≠ 0) : b.toInt32.toInt ≠ 0 := fun h =>
  hb (UInt32.toBitVec_inj.mp (BitVec.eq_of_toInt_eq h))

/-- What the routines return is the quotient and the remainder. -/
theorem isDivision_value? (signed : Bool) {a b : UInt32} (hb : b ≠ 0) :
    ∃ q r, (quotient signed).value? a b = some q ∧ (remainder signed).value? a b = some r ∧
      IsDivision signed a b q r := by
  cases signed with
  | false =>
    have hpos : 0 < b.toNat := Nat.pos_of_ne_zero fun h => hb (UInt32.toNat_inj.mp h)
    have heq : a = a / b * b + a % b := by
      have ha := a.toNat_lt
      have hsum := Nat.div_add_mod' a.toNat b.toNat
      have hle : a.toNat / b.toNat * b.toNat ≤ a.toNat := Nat.div_mul_le_self _ _
      rw [← UInt32.toNat_inj, UInt32.toNat_add, UInt32.toNat_mul, UInt32.toNat_div,
        UInt32.toNat_mod, Nat.mod_eq_of_lt (hle.trans_lt ha), hsum, Nat.mod_eq_of_lt ha]
    exact ⟨a / b, a % b, if_neg hb, if_neg hb, UInt32.toNat_div a b, UInt32.toNat_mod a b, heq,
      (UInt32.toNat_mod a b).trans_lt (Nat.mod_lt _ hpos)⟩
  | true =>
    have hpos : 0 < b.toInt32.toInt.natAbs := Int.natAbs_pos.mpr (toInt_ne_zero hb)
    have hq : a.toInt32 / b.toInt32 = Int32.ofInt (a.toInt32.toInt.tdiv b.toInt32.toInt) := by
      rw [Int32.ofInt_tdiv a.toInt32.minValue_le_toInt a.toInt32.toInt_le
        b.toInt32.minValue_le_toInt b.toInt32.toInt_le, Int32.ofInt_toInt, Int32.ofInt_toInt]
    have heq : a.toInt32 = a.toInt32 / b.toInt32 * b.toInt32 + a.toInt32 % b.toInt32 := by
      calc a.toInt32
          = Int32.ofInt (a.toInt32.toInt.tdiv b.toInt32.toInt * b.toInt32.toInt +
              a.toInt32.toInt.tmod b.toInt32.toInt) := by
            rw [Int.tdiv_mul_add_tmod, Int32.ofInt_toInt]
        _ = a.toInt32 / b.toInt32 * b.toInt32 + a.toInt32 % b.toInt32 := by
            rw [Int32.ofInt_add, Int32.ofInt_mul, ← hq, ← Int32.toInt_mod, Int32.ofInt_toInt,
              Int32.ofInt_toInt]
    refine ⟨_, _, if_neg hb, if_neg hb, hq, Int32.toInt_mod _ _,
      congrArg Int32.toUInt32 heq, ?_⟩
    have hr : (a.toInt32 % b.toInt32).toInt.natAbs =
        a.toInt32.toInt.natAbs % b.toInt32.toInt.natAbs := by
      rw [Int32.toInt_mod, Int.natAbs_tmod]
    exact hr.trans_lt (Nat.mod_lt _ hpos)

end Helper

/-- The quotient of the least number by minus one wraps around. -/
example : IsDivision true 0x80000000 0xFFFFFFFF 0x80000000 0 :=
  ⟨by decide, by decide, by decide, by decide⟩

/-! ### The machine with the routines -/

/-- A byte of the free part of a stack, which lies between a limit and the stack pointer. -/
def Core.Free (limit : UInt32) (c : Core) (x : UInt32) : Prop := limit ≤ x ∧ x < c.regs .sp

/-- What a routine is trusted with: it returns its result, and it keeps the registers that routines
keep and all bytes that are not in the free part of the stack. Anything else may change. -/
structure Helper.Returns (limit : UInt32) (h : Helper) (c c' : Core) : Prop where
  value : ∀ v, h.value? (c.regs .r0) (c.regs .r1) = some v → c'.regs .r0 = v
  regs : ∀ r ∈ Abi.preserved, c'.regs r = c.regs r
  mem : ∀ x, ¬ c.Free limit x → c'.mem x = c.mem x

/-- A routine that returns its result and changes the other scratch registers. -/
def Helper.plain (h : Helper) (c : Core) : Core :=
  ((c.set .r12 0).set .r1 0).set .r0 ((h.value? (c.regs .r0) (c.regs .r1)).getD 0)

theorem Helper.returns_plain (limit : UInt32) (h : Helper) (c : Core) :
    h.Returns limit c (h.plain c) where
  value v hv := by rw [plain, Core.regs_set_self, hv, Option.getD_some]
  regs r hr := by
    have hne : ∀ r ∈ Abi.preserved, r ≠ .r0 ∧ r ≠ .r1 ∧ r ≠ .r12 := by decide
    obtain ⟨h0, h1, h12⟩ := hne r hr
    rw [plain, Core.regs_set_of_ne h0, Core.regs_set_of_ne h1, Core.regs_set_of_ne h12]
  mem _ _ := rfl

/-- What a host has at addresses of code. -/
abbrev Routines := UInt32 → Option (Core → Core)

/-- The host has every helper at its address. -/
def Routines.Serve [Helper.Entries] (limit : UInt32) (routines : Routines) : Prop :=
  ∀ h : Helper, ∃ f, routines h.address = some f ∧ ∀ c, h.Returns limit c (f c)

/-- A host with a plain routine for every helper and nothing else. -/
def Routines.plain [Helper.Entries] : Routines := fun a =>
  (Helper.all.find? fun h => h.address = a).map Helper.plain

theorem Routines.serve_plain [Helper.Entries] (hinj : Function.Injective Helper.address)
    (limit : UInt32) : plain.Serve limit := fun h =>
  ⟨h.plain, by rw [plain, Helper.find?_of_injective hinj, Option.map_some], h.returns_plain limit⟩

namespace Machine

/-- The address that a machine is about to call. -/
def callee? (image : UInt32 → Option UInt32) (m : Machine) : Option UInt32 :=
  if m.fetch? image = some (.plain (.mov .pc Abi.callAddress)) then
    some (m.regs Abi.callAddress)
  else none

/-- One step of the machine together with the routines: a call of a routine does what the routine
does and goes on at the return address. -/
def advance? (image : UInt32 → Option UInt32) (routines : Routines) (m : Machine) :
    Option Machine :=
  match (m.callee? image).bind routines with
  | some f => some { f m.toCore with pc := m.regs .lr }
  | none => m.step? image

/-- The machines that a machine comes to by the instructions of an image and the routines. -/
def Advances (image : UInt32 → Option UInt32) (routines : Routines) : Machine → Machine → Prop :=
  Relation.ReflTransGen fun m m' => m.advance? image routines = some m'

end Machine

namespace Core

open Items

variable {image : UInt32 → Option UInt32} {org : UInt32} {d : Nat → UInt32 → Option Int} {pos : Nat}
  {c c' : Core}

/-- An instruction that is no call does what the machine does. -/
theorem advance?_of_fetch? (routines : Routines) {m : Machine} {i : Instr}
    (hf : m.fetch? image = some (.plain i)) (hi : i ≠ .mov .pc Abi.callAddress) :
    m.advance? image routines = m.step? image := by
  have hn : m.callee? image = none := if_neg fun h =>
    hi (Decoded.plain.inj (Option.some.inj (hf.symm.trans h)))
  rw [Machine.advance?, hn, Option.bind_none]

/-- A call of a routine does what the routine does. -/
theorem advance?_callee {routines : Routines} {m : Machine} {addr ret : UInt32} {f : Core → Core}
    (hf : m.fetch? image = some (.plain (.mov .pc Abi.callAddress)))
    (h4 : m.regs Abi.callAddress = addr) (hlr : m.regs .lr = ret) (hr : routines addr = some f) :
    m.advance? image routines = some { f m.toCore with pc := ret } := by
  have ha : m.callee? image = some addr := by rw [Machine.callee?, if_pos hf, h4]
  rw [Machine.advance?, ha, Option.bind_some, hr, hlr]

/-- Straight-line code calls no routine. -/
theorem advances_run (routines : Routines) {l : List Instr} {rest : List Item}
    (hl : Loaded image org d pos (l.map .instr ++ rest)) (hg : General l)
    (hr : c.run? l = some c') :
    Machine.Advances image routines (c.machineAt org pos)
      (c'.machineAt org (pos + 4 * l.length)) := by
  refine steps_run (fun {pos i l c c'} hl hi he => ?_) hl hg hr
  have hne : i ≠ Instr.mov .pc Abi.callAddress := by
    rintro rfl
    exact absurd hi.usesPc (by decide)
  rw [advance?_of_fetch? routines (fetch?_instr hl hi.decode_encode) hne, step?_instr hl hi he]

/-- A call of a routine comes back behind the call with what the routine leaves. -/
theorem advances_callee {routines : Routines} {addr : UInt32} {f : Core → Core}
    (hr : routines addr = some f) {rest : List Item}
    (hl : Loaded image org d pos (Item.call addr ++ rest)) (c : Core) :
    Machine.Advances image routines (c.machineAt org pos)
      ((f (c.linked addr (org + UInt32.ofNat (pos + 16)))).machineAt org (pos + 16)) := by
  have hl := loaded_call hl
  have hpair := advances_run routines hl (general_callPair _) (run?_loadPair (c := c))
  have hl : Loaded image org d (pos + 8)
      (.instr (.mov .lr .pc) :: .instr (.mov .pc Abi.callAddress) :: rest) :=
    (loaded_append.mp hl).2
  have hlink := step?_link (c := c.set Abi.callAddress addr) hl
  rw [← advance?_of_fetch? routines (fetch?_instr hl (by decide +kernel)) (by decide)] at hlink
  have hgoto := advance?_callee
    (fetch?_instr (c := c.linked addr (org + UInt32.ofNat (pos + 16))) (loaded_cons.mp hl).2
      (by decide +kernel)) regs_linked_callAddress regs_linked_lr hr
  exact (hpair.tail hlink).tail hgoto

end Core

end A32Lowering
