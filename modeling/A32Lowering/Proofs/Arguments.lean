import Mathlib
import A32Lowering.Proofs.DoubleWords
import A32Lowering.Proofs.Relocations
import A32Lowering.Proofs.Waiting

/-!
# Passing arguments

What a call finds in the argument registers. The parameters that a call takes get consecutive
slots, the last declared one first; two words begin at an even slot, and four words are passed by
address. The code for a parameter writes no register but those of its own slots, and no source of a
parameter is an argument register, so all parameters are passed with the values that they have when
the call begins.

## Main definitions

* `Core.passed` : the words that an operand passes.
* `Core.arguments` : the slots of operands, with their words.

## Main results

* `Core.run?_add`, `Core.run?_address128` : an address in a register.
* `Parameter.run?_code`, `Parameter.run?_codeAll` : the code for one parameter and for all of them.
* `LowerAt.reaches_routine` : a call arrives at its routine with its arguments.
-/

namespace A32Lowering

namespace Core

/-- The words that an operand passes as a parameter, the low one first. Four words are passed by
address. -/
def passed (c : Core) (o : Operand) : List UInt32 :=
  match o.kind with
  | .context => [c.regs Abi.base]
  | .constant64 => [o.low, o.high]
  | .temporary64 | .relative64 => [c.mem.word (c.place o), c.mem.word (c.place o + 4)]
  | .temporary128 | .relative128 => [c.place o]
  | _ => [c.storage.value o]

end Core

/-- The slot at which an operand starts as a parameter when some slots are taken: two words start at
an even one. -/
def Operand.start (o : Operand) (slot : Nat) : Nat :=
  if o.words = 2 then Parameter.evenSlot slot else slot

/-- The slots that operands take as parameters, in order and from one slot on, with their words. -/
def Core.arguments (c : Core) : Nat → List Operand → List (Nat × UInt32)
  | _, [] => []
  | slot, o :: os =>
    (c.passed o).mapIdx (fun i w => (o.start slot + i, w)) ++
      c.arguments (o.start slot + o.words) os

theorem Operand.le_start (o : Operand) (slot : Nat) : slot ≤ o.start slot := by
  unfold start Parameter.evenSlot
  split_ifs <;> omega

namespace Core

variable {c c' : Core} {o : Operand} {l : List Instr} {v : UInt32}

/-- Cores that differ in scratch registers and flags only pass the same words. -/
theorem Same.passed_eq (h : Same c c') : c'.passed o = c.passed o := by
  simp only [passed, h.place_eq, h.mem, h.storage_eq, h.regs Abi.base (by decide)]

theorem Same.arguments_eq (h : Same c c') {slot : Nat} {os : List Operand} :
    c'.arguments slot os = c.arguments slot os := by
  induction os generalizing slot with
  | nil => rfl
  | cons o os ih => rw [arguments, arguments, h.passed_eq, ih]

/-- Adding a constant to a register, with the target as the scratch register, writes the target
only. -/
theorem run?_add {rd rn : Reg} (h : Constant.add rd rn v rd = .ok l) :
    c.run? l = some (c.set rd (c.regs rn + v)) := by
  obtain ⟨c₁, hc₁, hr⟩ := run?_addConstant (c := c) h
  rcases hc₁ with rfl | rfl
  · exact hr
  · rw [hr, set_set]

/-- The address of an operand of four words gets into a register. -/
theorem run?_address128 {r : Reg} (h : Access.address128 0 r o = .ok l) :
    o.isMemory128 = true ∧ c.run? l = some (c.set r (c.place o)) := by
  unfold Access.address128 at h
  split at h
  next hk =>
    split_ifs at h
    refine ⟨by simp [Operand.isMemory128, hk], ?_⟩
    rw [run?_add h]
    simp [place, Operand.isRelative, hk]
  next hk =>
    refine ⟨by simp [Operand.isMemory128, hk], ?_⟩
    rw [run?_add h]
    simp [place, Operand.isRelative, hk]
  next => cases h

end Core

/-! ### The code for parameters -/

/-- A core in which some slots have words and at most the argument registers from a slot on have
changed. -/
structure Core.Passes (c c' : Core) (slot : Nat) (ys : List (Nat × UInt32)) : Prop where
  mem : c'.mem = c.mem
  regs : ∀ r, (∀ i, slot ≤ i → Abi.arguments[i]? ≠ some r) → c'.regs r = c.regs r
  words : ∀ y ∈ ys, ∃ r, Abi.arguments[y.1]? = some r ∧ c'.regs r = y.2

namespace Core.Passes

variable {c c₁ c₂ : Core} {slot next : Nat} {ys zs : List (Nat × UInt32)}

theorem nil (c : Core) (slot : Nat) : c.Passes c slot [] :=
  ⟨rfl, fun _ _ => rfl, fun y hy => by cases hy⟩

/-- A register that gets a word. -/
theorem set {r : Reg} {w : UInt32} (hr : Abi.arguments[slot]? = some r) :
    c.Passes (c.set r w) slot [(slot, w)] := by
  refine ⟨rfl, fun q hq => regs_set_of_ne ?_, fun y hy => ?_⟩
  · rintro rfl
    exact hq slot le_rfl hr
  · obtain rfl := List.mem_singleton.mp hy
    exact ⟨r, hr, regs_set_self⟩

theorem mono (h : c.Passes c₁ next ys) (hle : slot ≤ next) : c.Passes c₁ slot ys :=
  ⟨h.mem, fun r hr => h.regs r fun i hi => hr i (hle.trans hi), h.words⟩

/-- Words stay in their slots when later ones are filled. -/
theorem append (h : c.Passes c₁ slot ys) (h' : c₁.Passes c₂ next zs) (hle : slot ≤ next)
    (hys : ∀ y ∈ ys, y.1 < next) : c.Passes c₂ slot (ys ++ zs) := by
  refine ⟨h'.mem.trans h.mem, fun r hr => ?_, fun y hy => ?_⟩
  · rw [h'.regs r fun i hi => hr i (hle.trans hi), h.regs r hr]
  · rcases List.mem_append.mp hy with hy | hy
    · obtain ⟨r, hr, hv⟩ := h.words y hy
      refine ⟨r, hr, (h'.regs r fun i hi hri => ?_).trans hv⟩
      -- Different slots are different registers.
      have hn : Abi.arguments.Nodup := by decide
      have hlt : y.1 < Abi.arguments.length := (List.getElem?_eq_some_iff.mp hr).1
      have heq : y.1 = i := (List.getElem?_inj hlt hn).mp (hr.trans hri.symm)
      have := hys y hy
      omega
    · exact h'.words y hy

theorem same (h : c.Passes c₁ slot ys) : Same c c₁ := by
  refine ⟨fun r hr => h.regs r fun i _ hi => hr ?_, h.mem⟩
  have hall : ∀ r ∈ Abi.arguments, r ∈ Abi.scratch := by decide
  exact hall r (List.mem_of_getElem? hi)

end Core.Passes

namespace Parameter

open A32Lowering.Core

variable {q : Parameter} {o : Operand} {slot next : Nat} {l : List Instr} {r : Reg}

theorem register?_eq_ok_iff : register? slot = .ok r ↔ Abi.arguments[slot]? = some r := by
  unfold register?
  split
  next h => rw [h, Except.ok.injEq, Option.some.injEq]
  next h => simp [h]

theorem mem_scratch_of_register? (h : register? slot = .ok r) : r ∈ Abi.scratch := by
  have hall : ∀ r ∈ Abi.arguments, r ∈ Abi.scratch := by decide
  exact hall r (register?_mem_arguments h)

theorem length_passed (c : Core) (o : Operand) : (c.passed o).length = o.words := by
  unfold Core.passed Operand.words Operand.isMemory64
  cases o.kind <;> rfl

/-- The code for a parameter of one word. -/
theorem passes_word (hw : o.words = 1) (hr : register? slot = .ok r) {c : Core} {w : UInt32}
    (hp : c.passed o = [w]) (hrun : c.run? l = some (c.set r w)) :
    slot + 1 = o.start slot + o.words ∧ ∃ c', c.run? l = some c' ∧
      c.Passes c' slot ((c.passed o).mapIdx fun i w => (o.start slot + i, w)) := by
  have hs : o.start slot = slot := if_neg (by omega)
  rw [hs, hw, hp]
  exact ⟨rfl, _, hrun, .set (register?_eq_ok_iff.mp hr)⟩

/-- The code for a parameter of two words. -/
theorem passes_words {r' : Reg} (hw : o.words = 2) (hr : register? (evenSlot slot) = .ok r)
    (hr' : register? (evenSlot slot + 1) = .ok r') {c : Core} {lo hi : UInt32}
    (hp : c.passed o = [lo, hi]) (hrun : c.run? l = some ((c.set r lo).set r' hi)) :
    evenSlot slot + 2 = o.start slot + o.words ∧ ∃ c', c.run? l = some c' ∧
      c.Passes c' slot ((c.passed o).mapIdx fun i w => (o.start slot + i, w)) := by
  have hs : o.start slot = evenSlot slot := if_pos hw
  have hle : slot ≤ evenSlot slot := hs ▸ o.le_start slot
  rw [hs, hw, hp]
  have hlo : c.Passes (c.set r lo) (evenSlot slot) [(evenSlot slot, lo)] :=
    .set (register?_eq_ok_iff.mp hr)
  have hhi : (c.set r lo).Passes ((c.set r lo).set r' hi) (evenSlot slot + 1)
      [(evenSlot slot + 1, hi)] := .set (register?_eq_ok_iff.mp hr')
  exact ⟨rfl, _, hrun, (hlo.append hhi (by omega) (by simp)).mono hle⟩

/-- The code for a parameter puts the words that its operand passes into their slots. -/
theorem run?_code (hd : q.DeclaredBy o) (h : q.code 0 slot = .ok (l, next)) (c : Core) :
    next = o.start slot + o.words ∧ ∃ c', c.run? l = some c' ∧
      c.Passes c' slot ((c.passed o).mapIdx fun i w => (o.start slot + i, w)) := by
  obtain ⟨cl, sh, hsh, hadm, hd⟩ := hd
  -- The class of the parameter settles the kind of its operand, and so what is passed.
  cases cl with
  | context =>
    cases List.mem_singleton.mp hsh
    have hk : o.kind = .context := of_decide_eq_true hadm
    simp only [declare, Except.bind_eq_ok_iff, Except.pure_eq_ok_iff] at hd
    obtain ⟨_, -, rfl⟩ := hd
    simp only [code, Except.bind_eq_ok_iff, Except.pure_eq_ok_iff, Prod.mk.injEq] at h
    obtain ⟨r, hr, rfl, rfl⟩ := h
    have hp : c.passed o = [c.regs Abi.base] := by simp only [Core.passed, hk]
    exact passes_word (by simp [Operand.words, Operand.isMemory64, hk]) hr hp
      (by rw [run?_singleton, effect?_mov])
  | register =>
    cases List.mem_singleton.mp hsh
    have hk : o.kind = .register := of_decide_eq_true hadm
    simp only [declare, Except.bind_eq_ok_iff, Except.pure_eq_ok_iff] at hd
    obtain ⟨own, hown, rfl⟩ := hd
    simp only [code, Except.bind_eq_ok_iff, Except.pure_eq_ok_iff, Prod.mk.injEq] at h
    obtain ⟨r, hr, rfl, rfl⟩ := h
    have hp : c.passed o = [c.regs own] := by simp only [Core.passed, hk, value_register hk hown]
    exact passes_word (by simp [Operand.words, Operand.isMemory64, hk]) hr hp
      (by rw [run?_singleton, effect?_mov])
  | memory =>
    cases List.mem_singleton.mp hsh
    have hk : o.kind = .temporary ∨ o.kind = .relative := by
      simpa [Pattern.admitsOperand, Operand.isMemory] using hadm
    obtain rfl := Except.pure_eq_ok_iff.mp hd
    simp only [code, Except.bind_eq_ok_iff, Except.pure_eq_ok_iff, Prod.mk.injEq] at h
    obtain ⟨r, hr, _, hl, rfl, rfl⟩ := h
    refine passes_word ?_ hr ?_ (run?_loadOperand hl) <;>
      rcases hk with hk | hk <;> simp [Operand.words, Operand.isMemory64, Core.passed, hk]
  | constant =>
    cases List.mem_singleton.mp hsh
    have hk : o.kind = .constant := of_decide_eq_true hadm
    simp only [declare, Except.bind_eq_ok_iff, Except.pure_eq_ok_iff] at hd
    obtain ⟨_, -, rfl⟩ := hd
    simp only [code, Except.bind_eq_ok_iff, Except.pure_eq_ok_iff, Prod.mk.injEq] at h
    obtain ⟨r, hr, rfl, rfl⟩ := h
    have hp : c.passed o = [o.low] := by simp only [Core.passed, hk, value_constant hk]
    exact passes_word (by simp [Operand.words, Operand.isMemory64, hk]) hr hp run?_load
  | memory64 =>
    cases List.mem_singleton.mp hsh
    have hk : o.kind = .temporary64 ∨ o.kind = .relative64 := by
      simpa [Pattern.admitsOperand, Operand.isMemory64] using hadm
    obtain rfl := Except.pure_eq_ok_iff.mp hd
    simp only [code, Except.bind_eq_ok_iff, Except.pure_eq_ok_iff, Prod.mk.injEq] at h
    obtain ⟨r, hr, l₁, h₁, r', hr', l₂, h₂, rfl, rfl⟩ := h
    have hw : o.words = 2 := by
      rcases hk with hk | hk <;> simp [Operand.words, Operand.isMemory64, hk]
    have hp : c.passed o = [c.mem.word (c.place o), c.mem.word (c.place o + 4)] := by
      rcases hk with hk | hk <;> simp only [Core.passed, hk]
    have hs : Same c (c.set r (c.mem.word (c.place o))) :=
      (Same.refl c).set (mem_scratch_of_register? hr)
    exact passes_words hw hr hr' hp
      (by rw [run?_append_of_eq (run?_load64 h₁), run?_load64 h₂, add_zero, hs.place_eq, hs.mem])
  | constant64 =>
    cases List.mem_singleton.mp hsh
    have hk : o.kind = .constant64 := of_decide_eq_true hadm
    obtain rfl := Except.pure_eq_ok_iff.mp hd
    simp only [code, Except.bind_eq_ok_iff, Except.pure_eq_ok_iff, Prod.mk.injEq] at h
    obtain ⟨r, hr, r', hr', rfl, rfl⟩ := h
    have hp : c.passed o = [o.low, o.high] := by simp only [Core.passed, hk]
    exact passes_words (by simp [Operand.words, hk]) hr hr' hp
      (by rw [run?_append_of_eq run?_load, run?_load])
  | memory128 =>
    obtain rfl := Except.pure_eq_ok_iff.mp hd
    simp only [code, Except.bind_eq_ok_iff, Except.pure_eq_ok_iff, Prod.mk.injEq] at h
    obtain ⟨r, hr, _, hl, rfl, rfl⟩ := h
    obtain ⟨hm, hrun⟩ := run?_address128 (c := c) hl
    have hk : o.kind = .temporary128 ∨ o.kind = .relative128 := by
      simpa [Operand.isMemory128] using hm
    refine passes_word ?_ hr ?_ hrun <;>
      rcases hk with hk | hk <;> simp [Operand.words, Operand.isMemory64, Core.passed, hk]

/-- The code for parameters puts the words that their operands pass into their slots. -/
theorem run?_codeAll {ps : List Parameter} {os : List Operand}
    (hd : List.Forall₂ DeclaredBy ps os) (h : codeAll 0 slot ps = .ok l) (c : Core) :
    ∃ c', c.run? l = some c' ∧ c.Passes c' slot (c.arguments slot os) := by
  induction hd generalizing slot l c with
  | nil =>
    obtain rfl := Except.pure_eq_ok_iff.mp h
    exact ⟨c, rfl, .nil c slot⟩
  | @cons q o ps os hq hd ih =>
    simp only [codeAll, Except.bind_eq_ok_iff, Except.pure_eq_ok_iff] at h
    obtain ⟨⟨l₁, next⟩, h₁, l₂, h₂, rfl⟩ := h
    obtain ⟨rfl, c₁, hr₁, hp₁⟩ := run?_code hq h₁ c
    obtain ⟨c₂, hr₂, hp₂⟩ := ih h₂ c₁
    rw [hp₁.same.arguments_eq] at hp₂
    refine ⟨c₂, by rw [run?_append_of_eq hr₁, hr₂], hp₁.append hp₂ ?_ fun y hy => ?_⟩
    · exact (o.le_start slot).trans (Nat.le_add_right _ _)
    · obtain ⟨i, hi, rfl⟩ := List.mem_mapIdx.mp hy
      rw [length_passed] at hi
      exact Nat.add_lt_add_left hi _

end Parameter

theorem Parameter.general_of_declared {ps : List Parameter} {os : List Operand}
    (hd : List.Forall₂ DeclaredBy ps os) : ∀ q ∈ ps, q.General := by
  induction hd with
  | nil => simp
  | cons h _ ih => exact List.forall_mem_cons.mpr ⟨h.general, ih⟩

/-- The items of a call statement. -/
theorem Statement.items_call [Helper.Entries] {x : Statement} {ps qs : List Parameter}
    {l : List Item} (hop : x.op = .call) (h : x.items ps = .ok (l, qs)) : ∃ target count,
      x.src1 = some target ∧ x.src2 = some count ∧
        Action.callItems ps target count = .ok (l, qs) := by
  obtain ⟨r, a, hr, ha, h⟩ := items_eq_ok h
  have hcall : r.shape.op = .call := (Rules.op_of_select hr).symm.trans hop
  have hall := Rules.op_of_calls (Rules.select_eq_ok hr).1
  obtain rfl : a = .call := ha.symm.trans (hall.1.mpr hcall)
  cases h with
  | call ht hc hl => exact ⟨_, _, ht, hc, hl⟩

namespace Core

variable {image : UInt32 → Option UInt32} {org : UInt32} {d : Nat → UInt32 → Option Int}
  {pos : Nat} {ps : List Parameter} {os : List Operand} {m : List Instr} {addr : UInt32}
  {rest : List Item}

/-- The code for parameters and a call behind it. -/
theorem reaches_passing (hd : List.Forall₂ Parameter.DeclaredBy ps os)
    (hm : Parameter.codeAll 0 0 ps = .ok m)
    (hl : Items.Loaded image org d pos (m.map .instr ++ (Item.call addr ++ rest))) (c : Core) :
    ∃ c₁ : Core, c.Passes c₁ 0 (c.arguments 0 os) ∧
      Machine.Reaches image (c.machineAt org pos)
        { c₁.linked addr (org + UInt32.ofNat (pos + 4 * m.length + 16)) with pc := addr } := by
  obtain ⟨c₁, hr, hp⟩ := Parameter.run?_codeAll hd hm c
  have hg : General m := Parameter.general_codeAll (Parameter.general_of_declared hd) hm
  have hload := (Items.loaded_append.mp hl).2
  rw [Items.width_instrs] at hload
  exact ⟨c₁, hp, (reaches_run hl hg hr).trans (reaches_call c₁ hload)⟩

end Core

namespace LowerAt

/-- A call. When a function is lowered up to a call statement and the statement is lowered too, then
the machine comes from the beginning of its code to the routine. The argument registers hold the
parameters that the call takes, the last declared one first, with the values that their operands
have where the code begins; the parameters declared earlier wait for another call. The link register
has the address behind the code, and nothing else changes but scratch registers and the one for the
address of the routine. -/
theorem reaches_routine [Helper.Entries] {s u t : Session} (hs : s.Idle) {p : Program}
    {frame : UInt32} {k : Nat} (hu : outcome (upTo p frame k) s = (.ok (), u)) {x : Statement}
    (hop : x.op = .call) (h : outcome (Lower.statement x) u = (.ok (), t))
    {image : UInt32 → Option UInt32} {org : UInt32}
    (himage : t.stream.code.LoadedFrom u.stream.size image org) (c : Core) :
    ∃ target count n, x.src1 = some target ∧ x.src2 = some count ∧ n = count.low.toNat ∧
      n ≤ (p.waiting k).length ∧ t.params = u.params.drop n ∧
      List.Forall₂ Parameter.DeclaredBy t.params ((p.waiting k).drop n) ∧
      ∃ c' : Core, Machine.Reaches image (c.machineAt org u.stream.size)
          { c' with pc := target.low } ∧
        (∀ y ∈ c.arguments 0 ((p.waiting k).take n),
          ∃ r, Abi.arguments[y.1]? = some r ∧ c'.regs r = y.2) ∧
        c'.regs .lr = org + UInt32.ofNat t.stream.size ∧ c'.mem = c.mem ∧
        ∀ r ∉ Abi.scratch, r ≠ Abi.callAddress → r ≠ .lr → c'.regs r = c.regs r := by
  obtain ⟨-, hlevel, hobs⟩ := frame_upTo hs hu
  have hd := declared_upTo hs hu
  obtain ⟨l, ps, hi, rfl, -, hsize, hload⟩ :=
    Lower.loaded_of_outcome hlevel (hobs ▸ hs.observer) h
  obtain ⟨target, count, ht, hc, hi⟩ := Statement.items_call hop hi
  obtain ⟨hlen, hps, m, hm, rfl⟩ := Action.callItems_eq_ok hi
  have hload := hload himage
  rw [← List.append_nil (_ ++ _), List.append_assoc] at hload
  obtain ⟨c₁, hp, hreach⟩ := Core.reaches_passing (List.forall₂_take _ hd) hm hload c
  have hcall : Items.width (Item.call target.low) = 16 := rfl
  have hend : u.stream.size + 4 * m.length + 16 = t.stream.size := by
    rw [hsize, Items.width_append, Items.width_instrs, hcall, add_assoc]
  rw [hend] at hreach
  refine ⟨target, count, _, ht, hc, rfl, hd.length_eq ▸ hlen, hps, hps ▸ List.forall₂_drop _ hd, _,
    hreach, fun y hy => ?_, Core.regs_linked_lr, hp.mem, fun r hr h4 hlr => ?_⟩
  · obtain ⟨r, hr, hv⟩ := hp.words y hy
    have hne : ∀ r ∈ Abi.arguments, r ≠ Abi.callAddress ∧ r ≠ .lr := by decide
    obtain ⟨h4, hlr⟩ := hne r (List.mem_of_getElem? hr)
    exact ⟨r, hr, (Core.regs_linked_of_ne h4 hlr).trans hv⟩
  · rw [Core.regs_linked_of_ne h4 hlr, hp.same.regs r hr]

/-- Four parameters of different kinds for two calls. -/
def twoCalls : Program :=
  [{ op := .param, src1 := some .context },
    { op := .param, src1 := some (.register 0) },
    { op := .param, src1 := some (.temporary64 8) },
    { op := .param, src1 := some (.constant 0x12345678) }]

/-- A call that takes the last two parameters that wait. -/
def callOfTwo : Statement :=
  { op := .call, src1 := some (.constant 0x80001000), src2 := some (.constant 2) }

theorem reaches_routine_twoCalls : ∃ u t,
    outcome (upTo twoCalls 16 4) (.fresh false .recording) = (.ok (), u) ∧
    outcome (Lower.statement callOfTwo) u = (.ok (), t) ∧
    ∃ target count n, callOfTwo.src1 = some target ∧ callOfTwo.src2 = some count ∧
      n = count.low.toNat ∧ n ≤ (twoCalls.waiting 4).length ∧ t.params = u.params.drop n ∧
      List.Forall₂ Parameter.DeclaredBy t.params ((twoCalls.waiting 4).drop n) ∧
      ∃ c' : Core, Machine.Reaches (t.stream.code.image 0x8000)
          (Session.caller.machineAt 0x8000 u.stream.size) { c' with pc := target.low } ∧
        (∀ y ∈ Session.caller.arguments 0 ((twoCalls.waiting 4).take n),
          ∃ r, Abi.arguments[y.1]? = some r ∧ c'.regs r = y.2) ∧
        c'.regs .lr = 0x8000 + UInt32.ofNat t.stream.size ∧ c'.mem = Session.caller.mem ∧
        ∀ r ∉ Abi.scratch, r ≠ Abi.callAddress → r ≠ .lr →
          c'.regs r = Session.caller.regs r := by
  have hup : (outcome (upTo twoCalls 16 4) (.fresh false .recording)).1 = .ok () := by
    decide +kernel
  have hcall : (outcome (Lower.statement callOfTwo)
      (outcome (upTo twoCalls 16 4) (.fresh false .recording)).2).1 = .ok () := by decide +kernel
  have hsize : (outcome (Lower.statement callOfTwo)
      (outcome (upTo twoCalls 16 4) (.fresh false .recording)).2).2.stream.code.size ≤ 2 ^ 32 := by
    decide +kernel
  exact ⟨_, _, Prod.ext hup rfl, Prod.ext hcall rfl,
    reaches_routine (Session.ready_fresh false (by decide)).toIdle (Prod.ext hup rfl) rfl
      (Prod.ext hcall rfl) ((Code.loadedAt_image hsize 0x8000).loadedFrom _) Session.caller⟩

/-- A number of two words leaves out a slot. -/
example : (Session.caller.arguments 0 ((twoCalls.waiting 4).take 2)).map Prod.fst = [0, 2, 3] := by
  decide +kernel

end LowerAt

end A32Lowering
