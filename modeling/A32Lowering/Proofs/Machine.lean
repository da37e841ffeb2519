import Mathlib
import A32Lowering.Proofs.Decode
import A32Lowering.Proofs.Footprint

/-!
# The machine

The part of the machine that the instructions of lowering can see: sixteen registers, the condition
flags, and a memory of bytes with addresses of thirty-two bits. Addresses wrap around and need not
be aligned. Code is fetched from an image that the machine does not write.

## Main definitions

* `Flags`, `CondCode.holds` : the condition flags and the conditions on them.
* `Memory.word`, `Memory.setWord` : words in memory, the least significant byte first.
* `Core` : registers, flags and memory; `Core.effect?` : what an instruction does to them.
* `Machine` : a core with a program counter; `Machine.step?` : one instruction of an image.

## Main results

* `Memory.word_setWord_self`, `Memory.setWord_of_outside` : what a store does to memory.
* `Core.effect?_confined` : a confined instruction changes nothing but what it is confined to.
-/

namespace A32Lowering

/-! ### Flags -/

/-- The condition flags. -/
structure Flags where
  negative : Bool
  zero : Bool
  carry : Bool
  overflow : Bool
  deriving DecidableEq, Repr

/-- Whether the flags satisfy a condition. The conditions come in pairs that differ in the lowest
bit and exclude each other. -/
def CondCode.holds (f : Flags) (c : CondCode) : Bool :=
  match c.code.toNat with
  | 0 => f.zero
  | 1 => !f.zero
  | 2 => f.carry
  | 3 => !f.carry
  | 4 => f.negative
  | 5 => !f.negative
  | 6 => f.overflow
  | 7 => !f.overflow
  | 8 => f.carry && !f.zero
  | 9 => !(f.carry && !f.zero)
  | 10 => f.negative == f.overflow
  | 11 => !(f.negative == f.overflow)
  | 12 => !f.zero && f.negative == f.overflow
  | 13 => !(!f.zero && f.negative == f.overflow)
  | 14 => true
  | _ => false

/-- A sum with a carry that comes in, and the flags of it. -/
def addWithCarry (x y : UInt32) (carry : Bool) : UInt32 × Flags :=
  let sum := x.toNat + y.toNat + carry.toNat
  let signed := x.toBitVec.toInt + y.toBitVec.toInt + carry.toNat
  let r := UInt32.ofNat sum
  (r, ⟨r.toBitVec.msb, r = 0, 2 ^ 32 ≤ sum, signed ≠ r.toBitVec.toInt⟩)

/-! ### Memory -/

/-- A memory of bytes. -/
abbrev Memory := UInt32 → UInt8

namespace Memory

/-- The word at an address. -/
def word (mem : Memory) (a : UInt32) : UInt32 :=
  wordOfBytes (mem a) (mem (a + 1)) (mem (a + 2)) (mem (a + 3))

/-- The memory with a word stored at an address. -/
def setWord (mem : Memory) (a w : UInt32) : Memory := fun b =>
  match (b - a).toNat with
  | 0 => w.toUInt8
  | 1 => (w >>> 8).toUInt8
  | 2 => (w >>> 16).toUInt8
  | 3 => (w >>> 24).toUInt8
  | _ => mem b

/-- The memory with words stored from an address upwards. -/
def setWords (mem : Memory) (a : UInt32) : List UInt32 → Memory
  | [] => mem
  | w :: ws => (mem.setWord a w).setWords (a + 4) ws

variable {mem : Memory} {a b w : UInt32}

/-- The word that was stored is there. -/
theorem word_setWord_self : (mem.setWord a w).word a = w := by
  have h1 : a + 1 - a = 1 := add_sub_cancel_left a 1
  have h2 : a + 2 - a = 2 := add_sub_cancel_left a 2
  have h3 : a + 3 - a = 3 := add_sub_cancel_left a 3
  simp only [word, setWord, sub_self, h1, h2, h3]
  exact wordOfBytes_wordBytes w

/-- A store changes only the four bytes of its word. -/
theorem setWord_of_outside (h : 4 ≤ (b - a).toNat) : mem.setWord a w b = mem b := by
  unfold setWord
  split <;> first | omega | rfl

/-- Words at two addresses have no byte in common. -/
def Apart (a b : UInt32) : Prop := 4 ≤ (b - a).toNat ∧ 4 ≤ (a - b).toNat

theorem le_toNat_add_sub (h : Apart a b) {k : UInt32} (hk : k.toNat < 4) :
    4 ≤ (b + k - a).toNat := by
  obtain ⟨h1, h2⟩ := h
  have hsum : (b - a).toNat + (a - b).toNat = 2 ^ 32 := by
    rw [UInt32.toNat_sub, UInt32.toNat_sub] at *
    have := a.toNat_lt
    have := b.toNat_lt
    omega
  rw [add_sub_right_comm, UInt32.toNat_add]
  have : (b - a).toNat + k.toNat < 2 ^ 32 := by omega
  rw [Nat.mod_eq_of_lt this]
  omega

/-- A store leaves a word alone that has no byte in common with it. -/
theorem word_setWord_of_apart (h : Apart a b) : (mem.setWord a w).word b = mem.word b := by
  have h0 := le_toNat_add_sub h (k := 0) (by decide)
  rw [add_zero] at h0
  rw [word, word, setWord_of_outside h0, setWord_of_outside (le_toNat_add_sub h (by decide)),
    setWord_of_outside (le_toNat_add_sub h (by decide)),
    setWord_of_outside (le_toNat_add_sub h (by decide))]

/-- Storing words changes only their bytes. -/
theorem setWords_of_outside {ws : List UInt32} (h : 4 * ws.length ≤ (b - a).toNat) :
    mem.setWords a ws b = mem b := by
  induction ws generalizing mem a with
  | nil => rfl
  | cons w ws ih =>
    rw [List.length_cons] at h
    have h4 : (b - (a + 4)).toNat = (b - a).toNat - 4 := by
      rw [← sub_sub, UInt32.toNat_sub_of_le _ _ (UInt32.le_iff_toNat_le.mpr (by simp; omega))]
      rfl
    rw [setWords, ih (by omega), setWord_of_outside (by omega)]

/-- The words that were stored are there. -/
theorem word_setWords {ws : List UInt32} (hlen : 4 * ws.length ≤ 2 ^ 32) {i : Nat}
    (h : ws[i]? = some w) : (mem.setWords a ws).word (a + 4 * UInt32.ofNat i) = w := by
  induction ws generalizing mem a i with
  | nil => simp at h
  | cons v ws ih =>
    rw [List.length_cons] at hlen
    cases i with
    | succ i =>
      have ha : a + 4 * UInt32.ofNat (i + 1) = a + 4 + 4 * UInt32.ofNat i := by
        rw [UInt32.ofNat_add, mul_add, ← add_assoc, add_right_comm]
        rfl
      rw [setWords, ha]
      exact ih (by omega) h
    | zero =>
      obtain rfl := Option.some.inj h
      -- The words above do not reach around to this one.
      have hb (k : UInt32) (hk : k.toNat < 4) :
          (mem.setWord a v).setWords (a + 4) ws (a + k) = mem.setWord a v (a + k) := by
        refine setWords_of_outside ?_
        rw [add_sub_add_left_eq_sub, UInt32.toNat_sub]
        simp only [UInt32.reduceToNat]
        omega
      have h0 := hb 0 (by decide)
      rw [add_zero] at h0
      have hz : a + 4 * UInt32.ofNat 0 = a := by simp
      have hw : (mem.setWord a v).word a = v := word_setWord_self
      rw [word] at hw
      rw [hz, setWords, word, h0, hb 1 (by decide), hb 2 (by decide), hb 3 (by decide), hw]

end Memory

/-! ### Operands -/

/-- Registers, flags and memory. -/
structure Core where
  regs : Reg → UInt32
  flags : Flags
  mem : Memory

namespace Core

/-- The core with a register written. -/
def set (c : Core) (r : Reg) (v : UInt32) : Core := { c with regs := Function.update c.regs r v }

/-- The core with a word stored. -/
def store (c : Core) (a v : UInt32) : Core := { c with mem := c.mem.setWord a v }

variable {c : Core} {r s : Reg} {a v : UInt32}

@[simp] theorem regs_set_self : (c.set r v).regs r = v := Function.update_self ..

theorem regs_set_of_ne (h : s ≠ r) : (c.set r v).regs s = c.regs s := Function.update_of_ne h ..

@[simp] theorem flags_set : (c.set r v).flags = c.flags := rfl

@[simp] theorem mem_set : (c.set r v).mem = c.mem := rfl

@[simp] theorem regs_store : (c.store a v).regs = c.regs := rfl

@[simp] theorem flags_store : (c.store a v).flags = c.flags := rfl

@[simp] theorem mem_store : (c.store a v).mem = c.mem.setWord a v := rfl

end Core

/-- A value shifted by an amount, and the bit that is shifted out last; a shift by nothing leaves
the carry as it was. -/
def ShiftKind.apply (kind : ShiftKind) (v : UInt32) (n : Nat) (carry : Bool) : UInt32 × Bool :=
  let x := v.toBitVec
  if n = 0 then (v, carry)
  else match kind.code.toNat % 4 with
    | 0 => (⟨x <<< n⟩, n ≤ 32 && x.getLsbD (32 - n))
    | 1 => (⟨x >>> n⟩, x.getLsbD (n - 1))
    | 2 => (⟨x.sshiftRight n⟩, if n ≤ 32 then x.getLsbD (n - 1) else x.msb)
    | _ => (⟨x.rotateRight n⟩, (x.rotateRight n).msb)

/-- A shift of a value. A shift right by the amount zero is one by thirty-two, and a rotation by
the amount zero is one by a single bit through the carry. -/
def Shift.eval (c : Core) (v : UInt32) : Shift → UInt32 × Bool
  | byRegister kind r => kind.apply v ((c.regs r).toNat % 256) c.flags.carry
  | byAmount kind n =>
    if n = 0 ∧ kind.code.toNat % 4 = 3 then
      (⟨BitVec.cons c.flags.carry (v.toBitVec.extractLsb' 1 31)⟩, v.toBitVec.getLsbD 0)
    else if n = 0 ∧ kind.code.toNat % 4 ≠ 0 then kind.apply v 32 c.flags.carry
    else kind.apply v n.val c.flags.carry

/-- The value of a second operand, and the carry that it leaves. -/
def Operand2.eval (c : Core) : Operand2 → UInt32 × Bool
  | reg r shift => shift.eval c (c.regs r)
  | imm i => (i.value, if i.rot = 0 then c.flags.carry else i.value.toBitVec.msb)

/-- The flags of a bitwise operation: it has no overflow, and the carry comes from its second
operand. -/
def Flags.bitwise (f : Flags) (r : UInt32) (carry : Bool) : Flags :=
  ⟨r.toBitVec.msb, r = 0, carry, f.overflow⟩

/-- The result of an operation, and the flags of it. -/
def AluOp.eval (f : Flags) (x : UInt32) (y : UInt32 × Bool) : AluOp → UInt32 × Flags
  | and => (x &&& y.1, f.bitwise (x &&& y.1) y.2)
  | eor => (x ^^^ y.1, f.bitwise (x ^^^ y.1) y.2)
  | orr => (x ||| y.1, f.bitwise (x ||| y.1) y.2)
  | bic => (x &&& ~~~y.1, f.bitwise (x &&& ~~~y.1) y.2)
  | add => addWithCarry x y.1 false
  | adc => addWithCarry x y.1 f.carry
  | sub => addWithCarry x (~~~y.1) true
  | sbc => addWithCarry x (~~~y.1) f.carry

/-- The flags of a comparison. -/
def CompareOp.eval (x y : UInt32) : CompareOp → Flags
  | cmp => (addWithCarry x (~~~y) true).2
  | cmn => (addWithCarry x y false).2

/-- The value of a move. -/
def MoveOp.eval (y : UInt32) : MoveOp → UInt32
  | mov => y
  | mvn => ~~~y

/-- The product of two words as two words, the low one first. -/
def product (signed : Bool) (x y : UInt32) : UInt32 × UInt32 :=
  let p : BitVec 64 := if signed then x.toBitVec.signExtend 64 * y.toBitVec.signExtend 64
    else x.toBitVec.setWidth 64 * y.toBitVec.setWidth 64
  (⟨p.setWidth 32⟩, ⟨p.extractLsb' 32 32⟩)

/-! ### Instructions -/

/-- The registers of a set, in the order in which block transfers take them. -/
def RegisterSet.regs (s : RegisterSet) : List Reg := s.toList.map fun k => ⟨UInt8.ofNat k⟩

namespace Core

/-- The core with registers loaded from an address upwards. -/
def loadAll (c : Core) (a : UInt32) : List Reg → Core
  | [] => c
  | r :: rs => (c.set r (c.mem.word a)).loadAll (a + 4) rs

/-- What an instruction does that has nothing to do with the program counter. Block transfers of no
register or of their own base, and products into one register, have no defined result. -/
def effect? (c : Core) : Instr → Option Core
  | .alu op flags rd rn op2 =>
    let r := op.eval c.flags (c.regs rn) (op2.eval c)
    some { c.set rd r.1 with flags := if flags then r.2 else c.flags }
  | .compare op rn op2 => some { c with flags := op.eval (c.regs rn) (op2.eval c).1 }
  | .move op cond rd op2 =>
    some (if cond.holds c.flags then c.set rd (op.eval (op2.eval c).1) else c)
  | .movw rd v => some (c.set rd v.toUInt32)
  | .movt rd v => some (c.set rd ((c.regs rd &&& (0xFFFF : UInt32)) ||| v.toUInt32 <<< 16))
  | .ldr rd rn off => some (c.set rd (c.mem.word (c.regs rn + off.bits)))
  | .str rd rn off => some (c.store (c.regs rn + off.bits) (c.regs rd))
  | .stmdb rn s =>
    let a := c.regs rn - 4 * UInt32.ofNat s.size
    if s.regs = [] ∨ rn ∈ s.regs then none
    else some { c.set rn a with mem := c.mem.setWords a (s.regs.map c.regs) }
  | .ldmia rn s =>
    if s.regs = [] ∨ rn ∈ s.regs then none
    else some ((c.loadAll (c.regs rn) s.regs).set rn (c.regs rn + 4 * UInt32.ofNat s.size))
  | .mull signed lo hi rn rm =>
    let p := product signed (c.regs rn) (c.regs rm)
    if lo = hi then none else some ((c.set lo p.1).set hi p.2)
  | .bx _ | .branch _ _ => none

@[simp] theorem mem_loadAll {c : Core} {a : UInt32} {rs : List Reg} :
    (c.loadAll a rs).mem = c.mem := by
  induction rs generalizing c a with
  | nil => rfl
  | cons r rs ih => rw [loadAll, ih, mem_set]

theorem regs_loadAll_of_not_mem {c : Core} {a : UInt32} {rs : List Reg} {r : Reg} (h : r ∉ rs) :
    (c.loadAll a rs).regs r = c.regs r := by
  induction rs generalizing c a with
  | nil => rfl
  | cons s rs ih =>
    obtain ⟨hne, hr⟩ := not_or.mp (mt List.mem_cons.mpr h)
    rw [loadAll, ih hr, regs_set_of_ne hne]

theorem regs_loadAll {c : Core} {a : UInt32} {rs : List Reg} (hn : rs.Nodup) {i : Nat} {r : Reg}
    (h : rs[i]? = some r) : (c.loadAll a rs).regs r = c.mem.word (a + 4 * UInt32.ofNat i) := by
  induction rs generalizing c a i with
  | nil => simp at h
  | cons s rs ih =>
    obtain ⟨hs, hn⟩ := List.nodup_cons.mp hn
    cases i with
    | zero =>
      obtain rfl := Option.some.inj h
      rw [loadAll, regs_loadAll_of_not_mem hs, regs_set_self]
      simp
    | succ i =>
      have ha : a + 4 * UInt32.ofNat (i + 1) = a + 4 + 4 * UInt32.ofNat i := by
        rw [UInt32.ofNat_add, mul_add, ← add_assoc, add_right_comm]
        rfl
      rw [loadAll, ih hn h, ha, mem_set]

/-- A confined instruction changes no other register and no other byte. -/
theorem effect?_confined {own : Reg → Prop} {slot : Reg × LoadOffset → Prop} {c c' : Core}
    {i : Instr} (h : i.Confined own slot) (he : c.effect? i = some c') :
    (∀ r, ¬ own r → c'.regs r = c.regs r) ∧
    ∀ b, (∀ a, slot a → 4 ≤ (b - (c.regs a.1 + a.2.bits)).toNat) → c'.mem b = c.mem b := by
  have hset {rd : Reg} {v : UInt32} (ho : own rd) (r : Reg) (hr : ¬ own r) :
      (c.set rd v).regs r = c.regs r := regs_set_of_ne fun e => hr (e ▸ ho)
  cases i with
  | alu op flags rd rn op2 =>
    simp only [effect?, Option.some.injEq] at he
    subst he
    exact ⟨hset h, fun b _ => rfl⟩
  | compare op rn op2 =>
    simp only [effect?, Option.some.injEq] at he
    subst he
    exact ⟨fun r _ => rfl, fun b _ => rfl⟩
  | move op cond rd op2 =>
    simp only [effect?, Option.some.injEq] at he
    subst he
    split_ifs
    · exact ⟨hset h, fun b _ => rfl⟩
    · exact ⟨fun r _ => rfl, fun b _ => rfl⟩
  | movw rd v | movt rd v | ldr rd rn off =>
    simp only [effect?, Option.some.injEq] at he
    subst he
    exact ⟨hset h, fun b _ => rfl⟩
  | str rd rn off =>
    simp only [effect?, Option.some.injEq] at he
    subst he
    exact ⟨fun r _ => rfl, fun b hb => Memory.setWord_of_outside (hb (rn, off) h)⟩
  | mull signed lo hi rn rm =>
    simp only [effect?] at he
    split_ifs at he
    obtain rfl := Option.some.inj he
    refine ⟨fun r hr => ?_, fun b _ => rfl⟩
    have hhi : r ≠ hi := fun e => hr (e ▸ h.2.1)
    rw [regs_set_of_ne hhi, hset h.1 r hr]
  | stmdb | ldmia | bx | branch => exact h.elim

end Core

/-- Whether a register of a second operand is the program counter. -/
def Operand2.usesPc : Operand2 → Bool
  | reg r (.byAmount _ _) => r = .pc
  | reg r (.byRegister _ s) => r = .pc || s = .pc
  | imm _ => false

/-- Whether an instruction names the program counter. -/
def Instr.usesPc : Instr → Bool
  | alu _ _ rd rn op2 => rd = .pc || rn = .pc || op2.usesPc
  | compare _ rn op2 => rn = .pc || op2.usesPc
  | move _ _ rd op2 => rd = .pc || op2.usesPc
  | movw rd _ | movt rd _ => rd = .pc
  | ldr rd rn _ | str rd rn _ => rd = .pc || rn = .pc
  | stmdb rn s | ldmia rn s => rn = .pc || s.regs.contains .pc
  | bx rm => rm = .pc
  | branch _ _ => false
  | mull _ lo hi rn rm => lo = .pc || hi = .pc || rn = .pc || rm = .pc

/-- A core with a program counter. -/
structure Machine extends Core where
  pc : UInt32

namespace Machine

/-- The machine at another address. -/
def goto (m : Machine) (a : UInt32) : Machine := { m with pc := a }

/-- The machine behind an instruction that left a core. -/
def next (m : Machine) (c : Core) : Machine := { c with pc := m.pc + 4 }

/-- A move from or to the program counter. A register takes the address two instructions further
on. -/
def movePc? (m : Machine) (rd rm : Reg) : Option Machine :=
  if rd = .pc then if rm = .pc then none else some (m.goto (m.regs rm))
  else some (m.next (m.toCore.set rd (m.pc + 8)))

/-- What an instruction does. The program counter can be copied to a register and a register to the
program counter; its other uses are left out. A return takes the address as it is: its lowest bit
chooses the instruction set. -/
def exec? (m : Machine) (i : Instr) : Option Machine :=
  if i.usesPc then
    match i with
    | .move op cond rd (.reg rm shift) =>
      if op = .mov ∧ cond = .al ∧ shift = .none then m.movePc? rd rm else none
    | _ => none
  else
    match i with
    | .bx rm => some (m.goto (m.regs rm))
    | i => (m.toCore.effect? i).map m.next

/-- What a word does. A branch counts words from the address two instructions further on. -/
def perform? (m : Machine) : Decoded → Option Machine
  | .plain i => m.exec? i
  | .branch cond words =>
    some (m.goto (if cond.holds m.flags then m.pc + 8 + 4 * UInt32.ofInt words else m.pc + 4))

/-- The instruction of an image at the program counter. -/
def step? (image : UInt32 → Option UInt32) (m : Machine) : Option Machine := do
  let w ← image m.pc
  let d ← decode w
  m.perform? d

end Machine

end A32Lowering
