import Mathlib
import A32Lowering.Proofs.Positions
import A32Lowering.Proofs.Values

/-!
# The code of one statement

Lowering a statement adds the words of its items behind the stream. So an image that holds the code
from the old end of the stream on holds the items, and the machine does what they say: straight-line
code changes the core, and a call goes to its routine with the return address behind it.

## Main definitions

* `Code.LoadedFrom` : an image that holds the code from a position on.
* `Core.linked` : the core in front of the jump of a call.

## Main results

* `Session.code_placeAll`, `Session.loaded_of_placeAll` : placing items adds their words.
* `Session.reaches_placeAll` : straight-line code runs from the old end of the stream to the new
  one.
* `Lower.outcome_straight` : what a straight-line action writes.
* `Lower.loaded_of_outcome` : what an image holds that has the code of a statement.
* `Core.reaches_call` : a call goes to its routine.
* `LowerAt.frame_upTo` : at every statement the stack level is zero.
-/

namespace A32Lowering

/-- An image that holds code from a position on, when the code stands at an address. -/
def Code.LoadedFrom (code : Code) (start : Nat) (image : UInt32 → Option UInt32)
    (org : UInt32) : Prop :=
  ∀ pos w, start ≤ pos → code.word? pos = some w → image (org + UInt32.ofNat pos) = some w

theorem Code.LoadedAt.loadedFrom {code : Code} {image : UInt32 → Option UInt32} {org : UInt32}
    (h : code.LoadedAt image org) (start : Nat) : code.LoadedFrom start image org :=
  fun pos w _ hw => h.words pos w hw

namespace Session

variable {s t : Session} {i : Item} {l : List Item} {image : UInt32 → Option UInt32} {org : UInt32}

theorem code_labelOf (b : UInt32) : (s.labelOf b).2.stream.code = s.stream.code := by
  unfold labelOf
  split <;> rfl

theorem code_mark {u v : Stream} {n : Label} (h : u.mark n = .ok v) : v.code = u.code := by
  unfold Stream.mark at h
  split at h
  · cases h
  · cases h
  · obtain rfl := Except.ok.inj h
    simp only [Stream.note]
    split_ifs <;> rfl

/-- Placing an item adds its word. -/
theorem code_place (h : s.place i = some t) : t.stream.code =
    s.stream.code ++ Code.ofWords (Items.words (fun _ _ => none) s.stream.size [i]) := by
  cases i with
  | instr i =>
    obtain rfl := Option.some.inj h
    rw [Stream.code_emit, Code.append_eq]
    rfl
  | jump c b =>
    obtain rfl := Option.some.inj h
    rw [Stream.code_emit, Code.append_eq, code_labelOf]
    rfl
  | mark b =>
    rw [place] at h
    split at h
    next stream hm =>
      obtain rfl := Option.some.inj h
      exact (code_mark hm).trans ((code_labelOf b).trans (Array.append_empty).symm)
    · cases h
  | report v =>
    obtain rfl := Option.some.inj h
    refine Eq.trans ?_ (Array.append_empty).symm
    split_ifs <;> rfl

/-- Placing items adds their words. -/
theorem code_placeAll (h : s.placeAll l = some t) : t.stream.code =
    s.stream.code ++ Code.ofWords (Items.words (fun _ _ => none) s.stream.size l) := by
  induction l generalizing s with
  | nil =>
    obtain rfl := Option.some.inj h
    exact (Array.append_empty).symm
  | cons i l ih =>
    rw [placeAll_cons] at h
    obtain ⟨u, hu, h⟩ := Option.bind_eq_some_iff.mp h
    have hcode := code_place hu
    have hsize : u.stream.size = s.stream.size + Items.width [i] := by
      rw [Stream.size, hcode, Array.size_append, Code.size_ofWords, Items.four_mul_length_words]
      rfl
    rw [ih h, hcode, hsize, Array.append_assoc, ← Code.ofWords_append, ← Items.words_append]
    rfl

theorem size_placeAll (h : s.placeAll l = some t) :
    t.stream.size = s.stream.size + Items.width l := by
  rw [Stream.size, code_placeAll h, Array.size_append, Code.size_ofWords,
    Items.four_mul_length_words]
  rfl

/-- An image that holds the code behind the old end of the stream holds the items. -/
theorem loaded_of_placeAll (h : s.placeAll l = some t)
    (hl : t.stream.code.LoadedFrom s.stream.size image org) :
    Items.Loaded image org (fun _ _ => none) s.stream.size l := by
  intro x hx w hw
  refine hl _ _ (Items.mem_placed hx).2.1 ?_
  rw [code_placeAll h]
  exact Items.word?_words hx hw

/-- Straight-line code that was written runs from the old end of the stream to the new one. -/
theorem reaches_placeAll {m : List Instr} (h : s.placeAll (m.map .instr) = some t)
    (hl : t.stream.code.LoadedFrom s.stream.size image org) (hg : General m) {c c' : Core}
    (hr : c.run? m = some c') :
    Machine.Reaches image (c.machineAt org s.stream.size) (c'.machineAt org t.stream.size) := by
  have hload := loaded_of_placeAll h hl
  rw [← List.append_nil (m.map Item.instr)] at hload
  rw [size_placeAll h, Items.width_instrs]
  exact Core.reaches_run hload hg hr

end Session

/-! ### Lowering a statement -/

namespace Lower

variable [Helper.Entries] {s t : Session} {x : Statement}

/-- A straight-line action writes its code. -/
theorem outcome_straight {a : Straight} : outcome (action x (.straight a)) s = (.ok (), t) ↔
    ∃ l, a.code s.level x = .ok l ∧ s.placeAll (l.map .instr) = some t := by
  simp only [action, outcome_level_bind, outcome_emitChecked_eq_ok_iff, Session.placeAll_instrs,
    Option.some.injEq]

/-- Lowering a statement does what the rule for it says. -/
theorem outcome_statement_eq_action {r : Rule Action} (hsel : Rules.select x = .ok r) :
    outcome (statement x) s = outcome (action x r.action) s := by
  simp only [statement, hsel, check, pure_bind]

/-- Lowering a statement places its items, and an image that holds the new code holds them. -/
theorem loaded_of_outcome (hl : s.level = 0) (ho : s.observer ≠ .refusing)
    (h : outcome (statement x) s = (.ok (), t)) :
    ∃ l ps, x.items s.params = .ok (l, ps) ∧ t.params = ps ∧ t.level = 0 ∧
      t.stream.size = s.stream.size + Items.width l ∧
      ∀ {image org}, t.stream.code.LoadedFrom s.stream.size image org →
        Items.Loaded image org (fun _ _ => none) s.stream.size l := by
  obtain ⟨l, ps, hi, hp⟩ := (outcome_statement_eq_ok_iff hl ho).mp h
  obtain ⟨hparams, hlevel, -⟩ := Session.placeAll_frame hp
  have hsize := Session.size_placeAll (s := { s with params := ps }) hp
  exact ⟨l, ps, hi, hparams, hlevel.trans hl, hsize, fun hload =>
    Session.loaded_of_placeAll (s := { s with params := ps }) hp hload⟩

end Lower

namespace LowerAt

variable [Helper.Entries] {s u : Session} {p : Program} {frame : UInt32} {k : Nat}

/-- What holds at every statement of a function: the parameters that wait are those of the
statements in front of it, and the stack level is zero. -/
theorem frame_upTo (hs : s.Idle) (h : outcome (upTo p frame k) s = (.ok (), u)) :
    (∃ ls, Program.bodies [] (p.take k) = .ok (ls, u.params)) ∧ u.level = 0 ∧
      u.observer = s.observer := by
  obtain ⟨hparams, -, -⟩ := Session.isClean_iff.mp hs.clean
  obtain ⟨saved, _, hsaved, h⟩ := outcome_bind_eq_ok_iff.mp h
  obtain ⟨-, rfl⟩ := Lower.outcome_check_eq_ok_iff.mp (outcome_located_eq_ok_iff.mp hsaved)
  obtain ⟨_, _, hprolog, h⟩ := outcome_bind_eq_ok_iff.mp h
  obtain ⟨prolog, -, rfl⟩ :=
    Lower.outcome_emitChecked_eq_ok_iff.mp (outcome_located_eq_ok_iff.mp hprolog)
  rw [outcome_modify_bind] at h
  obtain ⟨ls, ps, hb, hp⟩ := (outcome_statements_eq_ok_iff
    (s := { s with stream := s.stream.emitAll prolog, level := 0 }) rfl hs.observer).mp h
  obtain ⟨hps, hlevel, hobs⟩ := Session.placeAll_frame hp
  have hb : Program.bodies [] (p.take k) = .ok (ls, ps) := hparams ▸ hb
  exact ⟨⟨ls, hps ▸ hb⟩, hlevel, hobs⟩

end LowerAt

/-! ### Calls -/

namespace Core

open Items

variable {image : UInt32 → Option UInt32} {org : UInt32} {d : Nat → UInt32 → Option Int}
  {pos : Nat} {c : Core} {addr : UInt32} {rest : List Item}

/-- The core in front of the jump of a call to an address, with a return address. -/
def linked (c : Core) (addr ret : UInt32) : Core := (c.set Abi.callAddress addr).set .lr ret

@[simp] theorem mem_linked {ret : UInt32} : (c.linked addr ret).mem = c.mem := rfl

@[simp] theorem regs_linked_lr {ret : UInt32} : (c.linked addr ret).regs .lr = ret := regs_set_self

@[simp] theorem regs_linked_callAddress {ret : UInt32} :
    (c.linked addr ret).regs Abi.callAddress = addr := by
  rw [linked, regs_set_of_ne (by decide), regs_set_self]

theorem regs_linked_of_ne {ret : UInt32} {r : Reg} (h4 : r ≠ Abi.callAddress) (hlr : r ≠ .lr) :
    (c.linked addr ret).regs r = c.regs r := by
  rw [linked, regs_set_of_ne hlr, regs_set_of_ne h4]

/-- The copy of the program counter that a call makes is the address behind the call. -/
theorem step?_link (hl : Loaded image org d pos (.instr (.mov .lr .pc) :: rest)) :
    (c.machineAt org pos).step? image =
      some ((c.set .lr (org + UInt32.ofNat (pos + 8))).machineAt org (pos + 4)) := by
  have hw : image (c.machineAt org pos).pc = some (Instr.mov .lr .pc).encode :=
    (loaded_cons.mp hl).1 _ rfl
  have hd : decode (Instr.mov .lr .pc).encode = some (.plain (.mov .lr .pc)) := by decide +kernel
  rw [Machine.step?, hw, Option.bind_eq_bind, Option.bind_some, hd, ← next_machineAt (c := c),
    UInt32.ofNat_add, ← add_assoc]
  rfl

/-- The jump of a call goes to the address in its register. -/
theorem step?_goto (hl : Loaded image org d pos (.instr (.mov .pc Abi.callAddress) :: rest)) :
    (c.machineAt org pos).step? image =
      some ((c.machineAt org pos).goto (c.regs Abi.callAddress)) := by
  have hw : image (c.machineAt org pos).pc = some (Instr.mov .pc Abi.callAddress).encode :=
    (loaded_cons.mp hl).1 _ rfl
  have hd : decode (Instr.mov .pc Abi.callAddress).encode =
      some (.plain (.mov .pc Abi.callAddress)) := by decide +kernel
  rw [Machine.step?, hw, Option.bind_eq_bind, Option.bind_some, hd]
  rfl

/-- The items of a call behind the report. -/
theorem loaded_call (hl : Loaded image org d pos (Item.call addr ++ rest)) :
    Loaded image org d pos ((Constant.loadPair Abi.callAddress addr).map .instr ++
      .instr (.mov .lr .pc) :: .instr (.mov .pc Abi.callAddress) :: rest) :=
  (loaded_cons.mp hl).2

theorem general_callPair (addr : UInt32) : General (Constant.loadPair Abi.callAddress addr) := by
  have h4 : Abi.callAddress.General := by decide
  simp [Constant.loadPair, h4]

/-- A call goes to its routine, with the address behind it as the return address. -/
theorem reaches_call (c : Core) (hl : Loaded image org d pos (Item.call addr ++ rest)) :
    Machine.Reaches image (c.machineAt org pos)
      { c.linked addr (org + UInt32.ofNat (pos + 16)) with pc := addr } := by
  have hl := loaded_call hl
  have hpair := reaches_run hl (general_callPair addr) (run?_loadPair (c := c))
  have hl := (loaded_append.mp hl).2
  have hlink := step?_link (c := c.set Abi.callAddress addr) hl
  have hgoto := step?_goto (c := c.linked addr (org + UInt32.ofNat (pos + 16)))
    (loaded_cons.mp hl).2
  rw [regs_linked_callAddress] at hgoto
  exact (hpair.tail hlink).tail hgoto

end Core

end A32Lowering
