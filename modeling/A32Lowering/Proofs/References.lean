import Mathlib
import A32Lowering.Proofs.DoubleWords

/-!
# References

A reference is the address of a word, kept in a word on the stack or in the context block. A program
computes a reference from one in the context block, loads the word that a reference leads to, and
stores a word there. The code of such a statement reads all that it needs before it writes, so it
does what the statement says also when the reference leads to a variable, or to a reference.

## Main definitions

* `Op.refers` : the operations on references.
* `Core.refer` : the core behind an operation on a reference.

## Main results

* `Straight.run?_refer` : the code of an operation does what the operation says.
* `Program.reaches_refer` : the same for a statement of a function.
* `Session.lower_refers` : any number of statements, from any statement of a function on.
-/

namespace A32Lowering

/-- The operations on references. -/
def Op.refers : Op → Bool
  | .addref | .loadfromref | .storeatref => true
  | _ => false

namespace Core

/-- The core behind an operation on a reference. A sum of a reference in the context block and a
value becomes a reference on the stack, the word that a reference leads to gets to a destination, or
a value is stored where a reference leads to. -/
def refer (c : Core) (x : Statement) : Core :=
  match x.op, x.dst, x.src1, x.src2 with
  | .addref, some d, some a, some b =>
    c.store (c.place d) (c.mem.word (c.place a) + c.storage.value b)
  | .loadfromref, some d, some a, _ => c.put d (c.mem.word (c.mem.word (c.place a)))
  | .storeatref, _, some a, some b => c.store (c.mem.word (c.place a)) (c.storage.value b)
  | _, _, _, _ => c

/-- The registers that the code of an operation on a reference uses for itself. -/
abbrev referScratch : List Reg := [.r0, .r1]

variable {c c' : Core} {x : Statement} {s d : Operand} {r : Reg} {l : List Instr} {v : UInt32}

theorem referScratch_subset : referScratch ⊆ Abi.scratch := by decide

/-- The code of an operation on a reference leaves nothing behind that another one reads. -/
theorem EqOff.refer (h : EqOff referScratch c c') (x : Statement) :
    EqOff referScratch (c.refer x) (c'.refer x) := by
  have hs := h.same referScratch_subset
  unfold Core.refer
  split
  · rw [hs.place_eq, hs.place_eq, h.mem, hs.storage_eq]
    exact h.store _
  · rw [hs.place_eq, h.mem]
    exact h.put referScratch_subset _ _
  · rw [hs.place_eq, h.mem, hs.storage_eq]
    exact h.store _
  · exact h

/-! ### Access to references -/

/-- Loading a reference from the context block writes one register. -/
theorem run?_loadRelReference (h : Access.loadRelReference r s = .ok l) :
    c.run? l = some (c.set r (c.mem.word (c.place s))) := by
  simp only [Access.loadRelReference, Except.bind_eq_ok_iff, Except.pure_eq_ok_iff] at h
  obtain ⟨_, hk, a, ha, rfl⟩ := h
  have hrel : s.isRelative = true := by
    simp [Operand.isRelative, Access.expect_eq_ok_iff.mp hk]
  rw [Access.loadFrom, run?_singleton, effect?, regs_add_bits_of_relativeAddress hrel ha, add_zero]

/-- Loading a reference from the stack writes one register. -/
theorem run?_loadTmpReference (h : Access.loadTmpReference 0 r s = .ok l) :
    c.run? l = some (c.set r (c.mem.word (c.place s))) := by
  simp only [Access.loadTmpReference, Except.bind_eq_ok_iff, Except.pure_eq_ok_iff] at h
  obtain ⟨_, hk, a, ha, rfl⟩ := h
  have htmp : s.isRelative = false := by
    simp [Operand.isRelative, Access.expect_eq_ok_iff.mp hk]
  rw [Access.loadFrom, run?_singleton, effect?, regs_add_bits_of_temporaryAddress htmp ha, add_zero]

/-- Loading a word of the context block writes one register. -/
theorem run?_loadRelative (h : Access.loadRelative r s = .ok l) :
    c.run? l = some (c.set r (c.storage.value s)) := by
  simp only [Access.loadRelative, Except.bind_eq_ok_iff, Except.pure_eq_ok_iff] at h
  obtain ⟨_, hk, a, ha, rfl⟩ := h
  have haddr : Access.address 0 s = .ok a := by
    rw [Access.address, Access.expect_eq_ok_iff.mp hk]
    exact ha
  rw [Access.loadFrom, run?_singleton, effect?, value_of_address haddr]

/-- Loading the word at an address in a register. -/
theorem run?_loadAt {ra : Reg} :
    c.run? [.ldr r ra 0] = some (c.set r (c.mem.word (c.regs ra))) := by
  have h0 : LoadOffset.bits 0 = 0 := rfl
  rw [run?_singleton, effect?, h0, add_zero]

/-- Storing a reference on the stack, behind code that has written scratch registers. -/
theorem run?_storeTmpReference (hs : EqOff referScratch c c') (hv : c'.regs r = v)
    (h : Access.storeTmpReference 0 d r = .ok l) :
    ∃ c'', c'.run? l = some c'' ∧ EqOff referScratch (c.store (c.place d) v) c'' := by
  simp only [Access.storeTmpReference, Except.bind_eq_ok_iff, Except.pure_eq_ok_iff] at h
  obtain ⟨_, hk, a, ha, rfl⟩ := h
  have htmp : d.isRelative = false := by
    simp [Operand.isRelative, Access.expect_eq_ok_iff.mp hk]
  refine ⟨c'.store (c'.place d) v, ?_, ?_⟩
  · rw [Access.storeTo, run?_singleton, effect?, regs_add_bits_of_temporaryAddress htmp ha,
      add_zero, hv]
  · rw [(hs.same referScratch_subset).place_eq]
    exact hs.store _

/-- Storing a register at an address in another one, behind code that has written scratch
registers. -/
theorem run?_storeAt {ra : Reg} {addr : UInt32} (hs : EqOff referScratch c c')
    (ha : c'.regs ra = addr) (hv : c'.regs r = v) :
    ∃ c'', c'.run? [.str r ra 0] = some c'' ∧ EqOff referScratch (c.store addr v) c'' := by
  have h0 : LoadOffset.bits 0 = 0 := rfl
  refine ⟨_, by rw [run?_singleton, effect?], ?_⟩
  rw [h0, add_zero, ha, hv]
  exact hs.store _

end Core

/-! ### The code of the operations -/

/-- The rules for operations on references. -/
theorem Rules.of_refers {r : Rule Action} (hr : r ∈ general ++ wide)
    (hx : r.shape.op.refers = true) :
    (r.shape.op = .addref ∧ (r.action = .straight .refAddReg ∨ r.action = .straight .refAddCst)) ∨
    (r.shape.op = .loadfromref ∧
      (r.action = .straight .refLoadReg ∨ r.action = .straight .refLoadMem)) ∨
    (r.shape.op = .storeatref ∧ (r.action = .straight .refStoreReg ∨
      r.action = .straight .refStoreRel ∨ r.action = .straight .refStoreCst)) := by
  have hall : ∀ r ∈ general ++ wide, r.shape.op.refers = true →
      (r.shape.op = .addref ∧
        (r.action = .straight .refAddReg ∨ r.action = .straight .refAddCst)) ∨
      (r.shape.op = .loadfromref ∧
        (r.action = .straight .refLoadReg ∨ r.action = .straight .refLoadMem)) ∨
      (r.shape.op = .storeatref ∧ (r.action = .straight .refStoreReg ∨
        r.action = .straight .refStoreRel ∨ r.action = .straight .refStoreCst)) := by decide
  exact hall r hr hx

theorem Rules.straight_of_refers {r : Rule Action} (hr : r ∈ general ++ wide)
    (hx : r.shape.op.refers = true) : ∃ a, r.action = .straight a := by
  rcases of_refers hr hx with ⟨-, h | h⟩ | ⟨-, h | h⟩ | ⟨-, h | h | h⟩ <;> exact ⟨_, h⟩

namespace Straight

open A32Lowering.Core

variable {c : Core} {x : Statement} {r : Rule Action} {a : Straight} {l : List Instr}

/-- The sum of a reference and a value. A constant may need a register of its own. -/
theorem run?_addref (hx : x.op = .addref) (ha : a = .refAddReg ∨ a = .refAddCst)
    (h : a.code 0 x = .ok l) : ∃ c', c.run? l = some c' ∧ EqOff referScratch (c.refer x) c' := by
  rcases ha with rfl | rfl
  · cases code_eq_ok_iff.mp h with | @refAddReg d a b rb _ _ hd ha hb hk hrb hla hls
    have hne : rb ≠ .r0 := Abi.ne_of_register hrb (by decide)
    let c₁ := c.set .r0 (c.mem.word (c.place a))
    let c₂ := c₁.set .r0 (c.mem.word (c.place a) + c.storage.value b)
    have hs : EqOff referScratch c c₂ := ((EqOff.refl _ c).set (by decide)).set (by decide)
    have hsum : c₁.run? [.alu .add false .r0 .r0 (.plain rb)] = some c₂ := by
      rw [run?_singleton, effect?_alu, AluOp.fst_eval_add, fst_eval_plain, regs_set_self,
        regs_set_of_ne hne, ← value_register hk hrb]
    obtain ⟨c', hc', hs'⟩ := run?_storeTmpReference hs regs_set_self hls
    refine ⟨c', ?_, ?_⟩
    · rw [List.append_assoc, run?_append_of_eq (run?_loadRelReference hla),
        run?_append_of_eq hsum, hc']
    · simpa only [refer, hx, hd, ha, hb] using hs'
  · cases code_eq_ok_iff.mp h with | @refAddCst d a b _ _ _ hd ha hb hk hla hlb hls
    let c₁ := c.set .r0 (c.mem.word (c.place a))
    have hs₁ : EqOff referScratch c c₁ := (EqOff.refl _ c).set (by decide)
    obtain ⟨c₂, hc₂, hsum⟩ := run?_addConstant (c := c₁) hlb
    have hs₂ : EqOff referScratch c c₂ := by
      rcases hc₂ with rfl | rfl
      · exact hs₁
      · exact hs₁.set (by decide)
    rw [regs_set_self, ← value_constant (c := c) hk] at hsum
    obtain ⟨c', hc', hs'⟩ :=
      run?_storeTmpReference (hs₂.set (r := .r0) (by decide)) regs_set_self hls
    refine ⟨c', ?_, ?_⟩
    · rw [List.append_assoc, run?_append_of_eq (run?_loadRelReference hla),
        run?_append_of_eq hsum, hc']
    · simpa only [refer, hx, hd, ha, hb] using hs'

/-- The word that a reference leads to. -/
theorem run?_loadfromref (hx : x.op = .loadfromref) (ha : a = .refLoadReg ∨ a = .refLoadMem)
    (h : a.code 0 x = .ok l) : ∃ c', c.run? l = some c' ∧ EqOff referScratch (c.refer x) c' := by
  rcases ha with rfl | rfl
  · cases code_eq_ok_iff.mp h with | refLoadReg hd ha hk hrd hla
    refine ⟨_, by rw [run?_append_of_eq (run?_loadTmpReference hla), run?_loadAt], ?_⟩
    simp only [refer, hx, hd, ha, put_register hk hrd, regs_set_self]
    exact ((EqOff.refl _ c).set (by decide)).set_set
  · cases code_eq_ok_iff.mp h with | @refLoadMem d a _ _ hd ha hla hls
    let w := c.mem.word (c.place a)
    have hs : EqOff referScratch c ((c.set .r0 w).set .r1 (c.mem.word w)) :=
      ((EqOff.refl _ c).set (by decide)).set (by decide)
    refine ⟨((c.set .r0 w).set .r1 (c.mem.word w)).put d (c.mem.word w), ?_, ?_⟩
    · rw [List.append_assoc, run?_append_of_eq (run?_loadTmpReference hla),
        run?_append_of_eq run?_loadAt, run?_storeOperand hls, regs_set_self, regs_set_self, mem_set]
    · simpa only [refer, hx, hd, ha] using hs.put referScratch_subset d (c.mem.word w)

/-- A value is stored where a reference leads to. -/
theorem run?_storeatref (hx : x.op = .storeatref)
    (ha : a = .refStoreReg ∨ a = .refStoreRel ∨ a = .refStoreCst) (h : a.code 0 x = .ok l) :
    ∃ c', c.run? l = some c' ∧ EqOff referScratch (c.refer x) c' := by
  rcases ha with rfl | rfl | rfl
  · cases code_eq_ok_iff.mp h with | @refStoreReg a b rb _ ha hb hk hrb hla
    have hne : rb ≠ .r0 := Abi.ne_of_register hrb (by decide)
    have hs : EqOff referScratch c (c.set .r0 (c.mem.word (c.place a))) :=
      (EqOff.refl _ c).set (by decide)
    obtain ⟨c', hc', hs'⟩ := run?_storeAt hs regs_set_self (regs_set_of_ne hne)
    refine ⟨c', by rw [run?_append_of_eq (run?_loadTmpReference hla), hc'], ?_⟩
    simpa only [refer, hx, ha, hb, value_register hk hrb] using hs'
  · cases code_eq_ok_iff.mp h with | @refStoreRel a b _ _ ha hb hla hlb
    let c₁ := c.set .r0 (c.mem.word (c.place a))
    have hs₁ : EqOff referScratch c c₁ := (EqOff.refl _ c).set (by decide)
    have hval : c₁.storage = c.storage := (hs₁.same referScratch_subset).storage_eq
    obtain ⟨c', hc', hs'⟩ := run?_storeAt (v := c₁.storage.value b)
      (hs₁.set (r := .r1) (by decide))
      ((regs_set_of_ne (by decide)).trans regs_set_self) regs_set_self
    refine ⟨c', ?_, ?_⟩
    · rw [List.append_assoc, run?_append_of_eq (run?_loadTmpReference hla),
        run?_append_of_eq (run?_loadRelative hlb), hc']
    · rw [hval] at hs'
      simpa only [refer, hx, ha, hb] using hs'
  · cases code_eq_ok_iff.mp h with | @refStoreCst a b _ ha hb hk hla
    have hs₁ : EqOff referScratch c (c.set .r0 (c.mem.word (c.place a))) :=
      (EqOff.refl _ c).set (by decide)
    obtain ⟨c', hc', hs'⟩ := run?_storeAt (hs₁.set (r := .r1) (by decide))
      ((regs_set_of_ne (by decide)).trans regs_set_self) regs_set_self
    refine ⟨c', ?_, ?_⟩
    · rw [List.append_assoc, run?_append_of_eq (run?_loadTmpReference hla),
        run?_append_of_eq run?_load, hc']
    · simpa only [refer, hx, ha, hb, value_constant hk] using hs'

/-- The code of an operation on a reference does what the operation says, and writes nothing else
but two scratch registers. -/
theorem run?_refer (hsel : Rules.select x = .ok r) (hx : x.op.refers = true)
    (ha : r.action = .straight a) (h : a.code 0 x = .ok l) (c : Core) :
    ∃ c', c.run? l = some c' ∧ EqOff referScratch (c.refer x) c' := by
  have hr := (Rules.select_eq_ok hsel).1
  have hop := Rules.op_of_select hsel
  rcases Rules.of_refers hr (hop ▸ hx) with ⟨ho, hr⟩ | ⟨ho, hr⟩ | ⟨ho, hr⟩ <;>
    simp only [ha, Action.straight.injEq] at hr
  · exact run?_addref (hop.trans ho) hr h
  · exact run?_loadfromref (hop.trans ho) hr h
  · exact run?_storeatref (hop.trans ho) hr h

end Straight

/-! ### Statements of a function -/

namespace Program

open Items
open A32Lowering.Core (EqOff referScratch)

variable [Helper.Entries] {image : UInt32 → Option UInt32} {org : UInt32}
  {d : Nat → UInt32 → Option Int} {base : Nat} {p q : Program} {frame : UInt32} {a : Assembly}
  {k : Nat} {c c₀ : Core}

/-- The code of an operation on a reference in a function does what the operation says. -/
theorem reaches_refer {x : Statement} (ha : p.assemble frame = .ok a)
    (himage : Loaded image org d base a.items) (hk : p[k]? = some x) (hx : x.op.refers = true)
    (c : Core) :
    ∃ c', Machine.Reaches image (c.machineAt org (base + a.start k))
        (c'.machineAt org (base + a.start (k + 1))) ∧
      EqOff referScratch (c.refer x) c' := by
  obtain ⟨used, saved, prolog, body, -, -, -, hbody, rfl⟩ := assemble_eq_ok_iff.mp ha
  obtain ⟨l, ps, qs, hbk, hitems⟩ := exists_items_of_bodies hbody hk
  obtain ⟨rest, hload⟩ := Assembly.loaded_body himage hbk
  obtain ⟨r, act, hsel, hact, h⟩ := Statement.items_eq_ok hitems
  have hmem := (Rules.select_eq_ok hsel).1
  have hop := Rules.op_of_select hsel
  obtain ⟨a, hstraight⟩ := Rules.straight_of_refers hmem (hop ▸ hx)
  obtain rfl : act = .straight a := hact.symm.trans hstraight
  cases h with
  | straight hm =>
    obtain ⟨c', hrun, heq⟩ := Straight.run?_refer hsel hx hact hm c
    have hreach := Core.reaches_run hload (Straight.general (Rules.kindInRange hmem hact) hm) hrun
    refine ⟨c', ?_, heq⟩
    rwa [Assembly.start_succ hbk, ← add_assoc, width_instrs]

/-- Operations on references one after another, from any statement of a function on. The core may
differ from the one that the operations are applied to in scratch registers. -/
theorem reaches_refers (ha : p.assemble frame = .ok a) (himage : Loaded image org d base a.items)
    (hq : q <+: p.drop k) (hx : ∀ x ∈ q, x.op.refers = true) (hc : EqOff referScratch c₀ c) :
    ∃ c', Machine.Reaches image (c.machineAt org (base + a.start k))
        (c'.machineAt org (base + a.start (k + q.length))) ∧
      EqOff referScratch (q.foldl Core.refer c₀) c' := by
  induction q generalizing k c c₀ with
  | nil => exact ⟨c, .refl, hc⟩
  | cons x q ih =>
    obtain ⟨rest, hrest⟩ := hq
    have hk : p[k]? = some x := by
      rw [← List.head?_drop, ← hrest]
      rfl
    have hnext : q <+: p.drop (k + 1) := by
      rw [← List.tail_drop, ← hrest]
      exact List.prefix_append q rest
    obtain ⟨hx₁, hx⟩ := List.forall_mem_cons.mp hx
    obtain ⟨c₁, hr₁, hc₁⟩ := reaches_refer ha himage hk hx₁ c
    obtain ⟨c', hr, hc'⟩ := ih hnext hx ((hc.refer x).trans hc₁)
    refine ⟨c', hr₁.trans ?_, hc'⟩
    rwa [add_assoc, add_comm 1] at hr

end Program

namespace Session

open A32Lowering.Core (EqOff referScratch)

/-- Operations on references. However many of them stand one after another in a function that was
lowered, the machine comes from the code of the first one to the end of the code of the last one.
The core is then the one behind the operations, but for two scratch registers: each of them has
written the one word or register that it is for, with the values and addresses as they were in front
of it. References may lead anywhere, also to the variables and references that the operations
use. -/
theorem lower_refers [Helper.Entries] [PendingHeap] {s t : Session} (hs : s.Idle) {p : Program}
    {frame : UInt32} (h : s.lower p frame = (t, .ok ())) {image : UInt32 → Option UInt32}
    {org : UInt32} (himage : t.stream.code.LoadedAt image org) {k : Nat} {q : Program}
    (hq : q <+: p.drop k) (hx : ∀ x ∈ q, x.op.refers = true) (c : Core) :
    ∃ c', Machine.Reaches image (c.machineAt org (s.offset p frame k))
        (c'.machineAt org (s.offset p frame (k + q.length))) ∧
      EqOff referScratch (q.foldl Core.refer c) c' := by
  obtain ⟨a, ha, hl, -, hload⟩ := loaded_of_lower hs h himage
  rw [offset_eq hs ha hl, offset_eq hs ha hl]
  exact Program.reaches_refers ha hload hq hx (.refl _ c)

/-- For `caller` the reference leads to its own slot, so that the value which is stored where it
leads to is the next reference, and the word which that one leads to replaces it again. -/
def selfReference : Program :=
  [{ op := .addref, dst := some (.tmpReference 4), src1 := some (.relReference 8),
      src2 := some (.constant 0xF8F9F8FD) },
    { op := .storeatref, src1 := some (.tmpReference 4), src2 := some (.relative 8) },
    { op := .loadfromref, dst := some (.temporary 4), src1 := some (.tmpReference 4) }]

theorem lower_refers_selfReference :
    ∃ t, (fresh false .recording).lower selfReference 8 = (t, .ok ()) ∧
    ∃ c', Machine.Reaches (t.stream.code.image 0x8000)
        (caller.machineAt 0x8000 ((fresh false .recording).offset selfReference 8 0))
        (c'.machineAt 0x8000 ((fresh false .recording).offset selfReference 8 3)) ∧
      EqOff referScratch (selfReference.foldl Core.refer caller) c' := by
  have hok : ((fresh false .recording).lower selfReference 8).2 = .ok () := by decide +kernel
  have hsize : ((fresh false .recording).lower selfReference 8).1.stream.code.size ≤ 2 ^ 32 := by
    decide +kernel
  exact ⟨_, Prod.ext rfl hok, lower_refers (ready_fresh false (by decide)).toIdle
    (Prod.ext rfl hok) (Code.loadedAt_image hsize 0x8000) (List.prefix_refl _) (by decide) caller⟩

end Session

end A32Lowering
