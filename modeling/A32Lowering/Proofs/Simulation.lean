import Mathlib
import A32Lowering.Proofs.Agreement
import A32Lowering.Proofs.Composition
import A32Lowering.Proofs.Frames
import A32Lowering.Proofs.Positions

/-!
# The machine runs the program

The code of a function on words does what the program says. Behind the prolog the machine is at the
first statement; and whenever it is at a statement with the values of all variables, it comes to the
statement that the program goes to next, with the values that the program has then.

## Main results

* `Statement.reaches` : the code of one statement.
* `Program.reaches_step` : one step of the program.
* `Session.lower_simulates` : any number of steps, from the start of the function.
-/

namespace A32Lowering

open Items

section

variable {image : UInt32 → Option UInt32} {org : UInt32} {d : Nat → UInt32 → Option Int}
  {pos t : Nat} {rest : List Item} {c c' : Core} {b : UInt32}

/-- Straight-line code and a jump behind it. -/
theorem Core.reaches_jump {m : List Instr} {cc : CondCode} (hg : General m) (hcc : cc.InRange)
    (hr : c.run? m = some c')
    (hl : Loaded image org d pos (m.map .instr ++ [.jump cc b] ++ rest))
    (hj : LeadsTo d pos (m.map .instr ++ [.jump cc b]) b t) :
    Machine.Reaches image (c.machineAt org pos) (c'.machineAt org
      (if cc.holds c'.flags then t else pos + width (m.map .instr ++ [.jump cc b]))) := by
  rw [List.append_assoc] at hl
  have hrun := reaches_run hl hg hr
  obtain ⟨-, hl⟩ := loaded_append.mp hl
  rw [width_instrs] at hl
  obtain ⟨hd, hreach, h4⟩ := hj (pos + 4 * m.length) cc (by
    rw [placed_append, width_instrs]
    exact List.mem_append_right _ List.mem_cons_self)
  have hw : pos + width (m.map .instr ++ [Item.jump cc b]) = pos + 4 * m.length + 4 := by
    rw [width_append, width_instrs, width_cons, width_nil, Item.width, ← add_assoc]
  rw [hw]
  exact hrun.tail (step?_jump hl hcc hd hreach h4)

end

/-- Straight-line code is not for jumps. -/
theorem Rules.op_of_straight {r : Rule Action} {a : Straight} (hr : r ∈ general ++ wide)
    (ha : r.action = .straight a) : r.shape.op ≠ .jmp ∧ r.shape.op ≠ .condjmp := by
  have hall : ∀ r ∈ general ++ wide, (r.shape.op ≠ .jmp ∧ r.shape.op ≠ .condjmp) ∨
      r.action = .jump ∨ r.action = .jumpIf ∨ r.action = .jumpIfCst := by decide
  simpa [ha] using hall r hr

/-- Whether an action passes parameters or calls a routine. -/
def Action.calls : Action → Bool
  | .param _ | .call | .divide _ => true
  | _ => false

/-- The operations on words pass no parameters and call no routine. -/
theorem Rules.calls_of_isBasic {r : Rule Action} (hr : r ∈ general ++ wide)
    (hb : r.shape.op.isBasic = true) : r.action.calls = false := by
  have hall : ∀ r ∈ general ++ wide, r.shape.op.isBasic = true → r.action.calls = false := by decide
  exact hall r hr hb

namespace Statement

variable {image : UInt32 → Option UInt32} {org : UInt32} {d : Nat → UInt32 → Option Int}
  {pos t : Nat} {x : Statement} {ps qs : List Parameter} {l rest : List Item}

/-- The code of a comparison and a conditional jump behind it. -/
theorem reaches_jumpItems {c c' : Core} {s1 s2 : Operand} {m : List Instr}
    {compare : Except Fault (List Instr)} (hm : compare = .ok m) (hg : General m)
    (h : Action.jumpItems x compare = .ok l) (hr : c.run? m = some c')
    (hf : c'.flags = (addWithCarry (c.storage.value s1) (~~~c.storage.value s2) true).2)
    (hl : Loaded image org d pos (l ++ rest)) (hj : LeadsTo d pos l x.block t) :
    Machine.Reaches image (c.machineAt org pos) (c'.machineAt org
      (if x.cond.holds (c.storage.value s1) (c.storage.value s2) then t else pos + width l)) := by
  obtain ⟨m', cc, hm', hcc, rfl⟩ := Action.jumpItems_eq_ok h
  obtain rfl := Except.ok.inj (hm.symm.trans hm')
  rw [← CondCode.holds_ofCondition hcc, ← hf]
  exact Core.reaches_jump hg (CondCode.inRange_ofCondition hcc).1 hr hl hj

/-- The code of a statement computes its result and goes where the statement goes. -/
theorem reaches [Helper.Entries] (c : Core) (hb : x.op.isBasic = true)
    (h : x.items ps = .ok (l, qs)) (hl : Loaded image org d pos (l ++ rest))
    (hj : LeadsTo d pos l x.block t) :
    ∃ c', Machine.Reaches image (c.machineAt org pos)
        (c'.machineAt org (if x.taken c.storage.value then t else pos + width l)) ∧
      Core.Same (c.apply x) c' := by
  obtain ⟨r, a, hr, ha, h⟩ := items_eq_ok h
  obtain ⟨hmem, hadm⟩ := Rules.select_eq_ok hr
  have hop := Rules.op_of_select hr
  have hsh := Rules.shape_mem_shapes hmem
  cases h with
  | straight hm =>
    obtain ⟨c', hc', hs⟩ := Straight.run?_code (c := c) hr ha hb hm
    refine ⟨c', ?_, hs⟩
    obtain ⟨hjmp, hcond⟩ := Rules.op_of_straight hmem ha
    have htaken : x.taken c.storage.value = false := by
      unfold taken
      split
      · exact absurd (hop.symm.trans ‹_›) hjmp
      · exact absurd (hop.symm.trans ‹_›) hcond
      · rfl
    rw [htaken, width_instrs]
    exact Core.reaches_run hl (Straight.general (Rules.kindInRange hmem ha) hm) hc'
  | mark =>
    rw [ha] at hsh
    rw [List.mem_singleton.mp hsh, Shape.admits_iff] at hadm
    obtain ⟨ho, hdst, -, -⟩ := hadm
    have htaken : x.taken c.storage.value = false := by simp only [taken, ho]
    refine ⟨c, ?_, ?_⟩
    · rw [htaken]
      exact .refl
    · rw [Core.apply, Pattern.admits_absent.mp hdst]
      exact .refl c
  | jump =>
    rw [ha] at hsh
    rw [List.mem_singleton.mp hsh, Shape.admits_iff] at hadm
    obtain ⟨ho, hdst, -, -⟩ := hadm
    have htaken : x.taken c.storage.value = true := by simp only [taken, ho]
    refine ⟨c, ?_, ?_⟩
    · rw [htaken]
      exact Core.reaches_jump (m := []) (by simp) CondCode.inRange_al rfl hl hj
    · rw [Core.apply, Pattern.admits_absent.mp hdst]
      exact .refl c
  | jumpIf h1 h2 _ hl' =>
    obtain ⟨m, _, hm, -⟩ := Action.jumpItems_eq_ok hl'
    obtain ⟨c', hc', hs, hf⟩ := Straight.run?_compareCode (c := c) hm
    rw [ha] at hsh
    rw [List.mem_singleton.mp hsh, Shape.admits_iff] at hadm
    obtain ⟨ho, hdst, -, -⟩ := hadm
    refine ⟨c', ?_, ?_⟩
    · simp only [taken, ho, h1, h2]
      exact reaches_jumpItems hm (Straight.general_compareCode hm) hl' hc' hf hl hj
    · rw [Core.apply, Pattern.admits_absent.mp hdst]
      exact hs
  | jumpIfCst h1 h2 hk hl' =>
    obtain ⟨m, _, hm, -⟩ := Action.jumpItems_eq_ok hl'
    obtain ⟨c', hc', hs, hf⟩ := Straight.run?_compareCstCode (c := c) hk hm
    rw [ha] at hsh
    rw [List.mem_singleton.mp hsh, Shape.admits_iff] at hadm
    obtain ⟨ho, hdst, -, -⟩ := hadm
    refine ⟨c', ?_, ?_⟩
    · simp only [taken, ho, h1, h2]
      exact reaches_jumpItems hm (Straight.general_compareCstCode hm) hl' hc' hf hl hj
    · rw [Core.apply, Pattern.admits_absent.mp hdst]
      exact hs
  | param | call | divide =>
    have hcalls := Rules.calls_of_isBasic hmem (hop ▸ hb)
    rw [ha] at hcalls
    cases hcalls

end Statement

namespace Program

variable [Helper.Entries] {image : UInt32 → Option UInt32} {org : UInt32} {base : Nat}
  {p : Program} {frame : UInt32} {size : Nat} {a : Assembly}

/-- The jumps of a statement lead to the label statements of their blocks. -/
theorem leadsTo (ha : p.assemble frame = .ok a) (hl : Linkable base a.items) {k : Nat}
    {l : List Item} (hk : a.body[k]? = some l) (b : UInt32) :
    LeadsTo (displacement? base a.items) (base + a.start k) l b
      (base + a.start (p.labelIndex b)) :=
  fun j cc hj => leadsTo_items ha hl b j cc (Assembly.mem_placed_items hk hj)

/-- One step of a program. The machine comes from the code of a statement to that of the statement
which is next, with the values of all variables. -/
theorem reaches_step (ha : p.assemble frame = .ok a) (hl : Linkable base a.items)
    (himage : Loaded image org (displacement? base a.items) base a.items)
    (hb : ∀ x ∈ p, x.op.isBasic = true) (hx : ∀ x ∈ p, ∀ o ∈ x.slots, o.InScope frame size)
    {σ : State} {c : Core} (hσ : σ.toStorage.Agrees frame size c) (hs : c.Separate frame size) :
    ∃ c', Machine.Reaches image (c.machineAt org (base + a.start σ.next))
        (c'.machineAt org (base + a.start (p.step σ).next)) ∧
      (p.step σ).toStorage.Agrees frame size c' ∧
      ∀ r, r = .sp ∨ r = Abi.base → c'.regs r = c.regs r := by
  unfold step
  cases hk : p[σ.next]? with
  | none => exact ⟨c, .refl, hσ, fun _ _ => rfl⟩
  | some x =>
    have hmem : x ∈ p := List.mem_of_getElem? hk
    obtain ⟨used, saved, prolog, body, -, -, -, hbody, rfl⟩ := assemble_eq_ok_iff.mp ha
    obtain ⟨l, ps, qs, hbk, hitems⟩ := exists_items_of_bodies hbody hk
    obtain ⟨rest, hload⟩ := Assembly.loaded_body himage hbk
    obtain ⟨c', hc', hsame⟩ := Statement.reaches c (hb x hmem) hitems hload
      (leadsTo ha hl hbk x.block)
    have htaken : x.taken σ.value = x.taken c.storage.value :=
      Statement.taken_congr fun o ho => hσ o (hx x hmem o ho)
    refine ⟨c', ?_, (hσ.apply hs (hx x hmem)).of_same hsame, fun r hr => ?_⟩
    · simp only [htaken]
      split_ifs with ht
      · rwa [if_pos ht] at hc'
      · rwa [if_neg ht, add_assoc, ← Assembly.start_succ hbk] at hc'
    · have hscratch : r ∉ Abi.scratch := by rcases hr with rfl | rfl <;> decide
      rw [hsame.regs r hscratch, Core.regs_apply hr]

/-- Any number of steps of a program. -/
theorem reaches_steps (ha : p.assemble frame = .ok a) (hl : Linkable base a.items)
    (himage : Loaded image org (displacement? base a.items) base a.items)
    (hb : ∀ x ∈ p, x.op.isBasic = true) (hx : ∀ x ∈ p, ∀ o ∈ x.slots, o.InScope frame size)
    {σ : State} {c : Core} (hσ : σ.toStorage.Agrees frame size c) (hs : c.Separate frame size)
    (n : Nat) :
    ∃ c', Machine.Reaches image (c.machineAt org (base + a.start σ.next))
        (c'.machineAt org (base + a.start (p.step^[n] σ).next)) ∧
      (p.step^[n] σ).toStorage.Agrees frame size c' ∧
      ∀ r, r = .sp ∨ r = Abi.base → c'.regs r = c.regs r := by
  induction n with
  | zero => exact ⟨c, .refl, hσ, fun _ _ => rfl⟩
  | succ n ih =>
    obtain ⟨c₁, hr₁, hσ₁, hk₁⟩ := ih
    have hs₁ : c₁.Separate frame size := by
      unfold Core.Separate
      rw [hk₁ .sp (.inl rfl), hk₁ Abi.base (.inr rfl)]
      exact hs
    obtain ⟨c₂, hr₂, hσ₂, hk₂⟩ := reaches_step ha hl himage hb hx hσ₁ hs₁
    rw [Function.iterate_succ_apply']
    exact ⟨c₂, hr₁.trans hr₂, hσ₂, fun r hr => (hk₂ r hr).trans (hk₁ r hr)⟩

/-- The operands of a function on words that was assembled are in scope when its temporaries lie in
the frame and its context words in the context block. -/
theorem inScope (ha : p.assemble frame = .ok a) (hb : ∀ x ∈ p, x.op.isBasic = true)
    (htmp : ∀ x ∈ p, ∀ o ∈ x.slots, o.kind = .temporary →
      o.slot % 4 = 0 ∧ o.slot.toNat + 4 ≤ frame.toNat)
    (hrel : ∀ x ∈ p, ∀ o ∈ x.slots, o.kind = .relative → o.low.toNat + 4 ≤ size) :
    ∀ x ∈ p, ∀ o ∈ x.slots, o.InScope frame size := by
  intro x hx o ho
  obtain ⟨-, hlow, -⟩ := exists_assemble_iff.mp ⟨a, ha⟩
  have hdiv : x.op.divides = false := by
    have hall : ∀ op : Op, op.isBasic = true → op.divides = false := by
      intro op
      cases op <;> simp [Op.isBasic, Op.divides]
    exact hall x.op (hb x hx)
  have hu := ((Statement.fits_iff hdiv).mp (hlow x hx).toFits).1 o ho
  refine ⟨hu.register, htmp x hx o ho, fun hk => ⟨hu.aligned ?_, hrel x hx o ho hk⟩⟩
  simp [Operand.isRelative, hk]

end Program

namespace Session

/-- The code of a function on words does what the program says. From the start of the function the
machine comes to the first statement, behind a prolog that saves registers below the stack pointer.
From then on, for any number of steps of a program whose variables have the values that the machine
holds there, the machine comes to the code of the statement that is next, with the values of all
variables and with the same stack pointer and context pointer. Every temporary is a whole word of
the frame, every context word one of a block of `size` bytes, and the block does not overlap the
frame. -/
theorem lower_simulates [Helper.Entries] [PendingHeap] {s t : Session} (hs : s.Idle) {p : Program}
    {frame : UInt32} (h : s.lower p frame = (t, .ok ())) (hb : ∀ x ∈ p, x.op.isBasic = true)
    (htmp : ∀ x ∈ p, ∀ o ∈ x.slots, o.kind = .temporary →
      o.slot % 4 = 0 ∧ o.slot.toNat + 4 ≤ frame.toNat)
    {size : Nat} (hrel : ∀ x ∈ p, ∀ o ∈ x.slots, o.kind = .relative → o.low.toNat + 4 ≤ size)
    {image : UInt32 → Option UInt32} {org : UInt32} (himage : t.stream.code.LoadedAt image org)
    (c : Core) (hdisj : Memory.Disjoint (c.regs .r0) size
      (c.regs .sp - 4 * UInt32.ofNat p.saves.size - frame) frame.toNat) :
    ∃ c₀, Machine.Reaches image (c.machineAt org s.stream.size)
        (c₀.machineAt org (s.offset p frame 0)) ∧ c.Entered p.saves frame c₀ ∧
      ∀ σ : State, σ.next = 0 → σ.toStorage.Agrees frame size c₀ → ∀ n, ∃ c',
        Machine.Reaches image (c₀.machineAt org (s.offset p frame 0))
          (c'.machineAt org (s.offset p frame (p.step^[n] σ).next)) ∧
        (p.step^[n] σ).toStorage.Agrees frame size c' ∧
        ∀ r, r = .sp ∨ r = Abi.base → c'.regs r = c₀.regs r := by
  obtain ⟨a, ha, hl, -, hload⟩ := loaded_of_lower hs h himage
  obtain ⟨c₀, hr₀, he⟩ := Program.reaches_first ha hload c
  simp only [offset_eq hs ha hl]
  refine ⟨c₀, hr₀, he, fun σ hσ0 hσ n => ?_⟩
  have hsep : c₀.Separate frame size := by
    unfold Core.Separate
    rw [he.sp, he.base]
    exact hdisj
  have hsteps := Program.reaches_steps ha hl hload hb (Program.inScope ha hb htmp hrel) hσ hsep n
  rwa [hσ0] at hsteps

/-- A loop that adds a context word to a stack word as often as a register says. -/
def tally : Program :=
  [{ op := .label, block := 3 },
    { op := .add, dst := some (.temporary 4), src1 := some (.temporary 4),
      src2 := some (.relative 8) },
    { op := .sub, dst := some (.register 0), src1 := some (.register 0),
      src2 := some (.constant 1) },
    { op := .condjmp, cond := .ne, src1 := some (.register 0), src2 := some (.constant 0),
      block := 3 }]

/-- A core with a stack and a context block above it. -/
def caller : Core where
  regs r := if r = .sp then 0x10000 else if r = .r0 then 0x20000 else 3
  flags := ⟨false, false, false, false⟩
  mem _ := 7

theorem lower_simulates_tally : ∃ t, (fresh false .recording).lower tally 8 = (t, .ok ()) ∧
    ∃ c₀, Machine.Reaches (t.stream.code.image 0x8000) (caller.machineAt 0x8000 0)
        (c₀.machineAt 0x8000 ((fresh false .recording).offset tally 8 0)) ∧
      caller.Entered tally.saves 8 c₀ ∧
      ∀ σ : State, σ.next = 0 → σ.toStorage.Agrees 8 12 c₀ → ∀ n, ∃ c',
        Machine.Reaches (t.stream.code.image 0x8000)
          (c₀.machineAt 0x8000 ((fresh false .recording).offset tally 8 0))
          (c'.machineAt 0x8000 ((fresh false .recording).offset tally 8 (tally.step^[n] σ).next)) ∧
        (tally.step^[n] σ).toStorage.Agrees 8 12 c' ∧
        ∀ r, r = .sp ∨ r = Abi.base → c'.regs r = c₀.regs r := by
  have hok : ((fresh false .recording).lower tally 8).2 = .ok () := by decide +kernel
  have hsize : ((fresh false .recording).lower tally 8).1.stream.code.size ≤ 2 ^ 32 := by
    decide +kernel
  have hdisj : Memory.Disjoint (caller.regs .r0) 12
      (caller.regs .sp - 4 * UInt32.ofNat tally.saves.size - 8) (8 : UInt32).toNat := by
    unfold Memory.Disjoint
    decide +kernel
  have hbasic : ∀ x ∈ tally, x.op.isBasic = true := by decide
  have htmp : ∀ x ∈ tally, ∀ o ∈ x.slots, o.kind = .temporary →
      o.slot % 4 = 0 ∧ o.slot.toNat + 4 ≤ (8 : UInt32).toNat := by decide +kernel
  have hrel : ∀ x ∈ tally, ∀ o ∈ x.slots, o.kind = .relative → o.low.toNat + 4 ≤ 12 := by
    decide +kernel
  have h : (fresh false .recording).lower tally 8 =
      (((fresh false .recording).lower tally 8).1, .ok ()) := Prod.ext rfl hok
  exact ⟨_, h, lower_simulates (ready_fresh false (by decide)).toIdle h hbasic htmp hrel
    (Code.loadedAt_image hsize 0x8000) caller hdisj⟩

end Session

end A32Lowering
