import Mathlib
import A32Lowering.CommandLine
import A32Lowering.Proofs.CalleeSaved
import A32Lowering.Proofs.Relocations

/-!
# The frame that the command line asks for

The prolog and the epilog of a function move the stack pointer by the frame size, in one instruction
or with a constant in a register, and both do so by exactly the size that lowering was given. That
size is a word, while the command line takes a longer number and refuses only negative ones. So the
code reserves what was asked for modulo the size of a word, and exactly what was asked for when that
is a word.

## Main definitions

* `Machine.after?` : the machine after a number of instructions.
* `Code.Passes` : code that is executed from one position to another without a jump.
* `CodeObject.Reserves` : the number of bytes that the code of a function reserves.

## Main results

* `compile_reserves` : a compiled function reserves its frame.
* `CodeObject.Reserves.unique` : it reserves nothing else.
* `CommandLine.lower_reserves` : what the functions reserve that the command line prints.
-/

namespace A32Lowering

/-- The machine after a number of instructions of an image. -/
def Machine.after? (image : UInt32 → Option UInt32) : Nat → Machine → Option Machine
  | 0, m => some m
  | k + 1, m => (m.step? image).bind (after? image k)

/-- Straight-line code takes one step for each instruction. -/
theorem Core.after?_run {image : UInt32 → Option UInt32} {org : UInt32}
    {d : Nat → UInt32 → Option Int} {pos : Nat} {l : List Instr} {rest : List Item} {c c' : Core}
    (hl : Items.Loaded image org d pos (l.map .instr ++ rest)) (hg : General l)
    (hr : c.run? l = some c') : (c.machineAt org pos).after? image l.length =
      some (c'.machineAt org (pos + 4 * l.length)) := by
  induction l generalizing c pos with
  | nil =>
    obtain rfl := Option.some.inj hr
    rfl
  | cons i l ih =>
    obtain ⟨hi, hg⟩ := general_cons.mp hg
    rw [run?_cons] at hr
    obtain ⟨c₁, h₁, hr⟩ := Option.bind_eq_some_iff.mp hr
    have hlen : pos + 4 * (l.length + 1) = pos + 4 + 4 * l.length := by omega
    rw [List.length_cons, Machine.after?, step?_instr hl hi h₁, Option.bind_some, hlen]
    exact ih (Items.loaded_cons.mp hl).2 hg hr

/-- Code that is executed from one position to another, instruction by instruction, with a relation
between the cores at both. -/
def Code.Passes (code : Code) (start stop : Nat) (R : Core → Core → Prop) : Prop :=
  ∀ {image : UInt32 → Option UInt32} {org : UInt32}, code.LoadedAt image org → ∀ c : Core,
    ∃ c' : Core, (c.machineAt org start).after? image ((stop - start) / 4) =
      some (c'.machineAt org stop) ∧ R c c'

/-- The code of a function reserves some bytes for its frame: behind the instruction that saves
registers the stack pointer is lowered by them, and in front of the one that restores registers it
is raised by them. -/
structure CodeObject.Reserves [Helper.Entries] (o : CodeObject) (p : Program) (frame : UInt32)
    (n : Int) : Prop where
  push : o.code.word? 0 = some (Instr.stmdb .sp p.saves).encode
  enter : o.code.Passes 4 ((Session.fresh true .recording).offset p frame 0)
    fun c c' => ((c.regs .sp - c'.regs .sp).toNat : Int) = n
  leave : o.code.Passes ((Session.fresh true .recording).offset p frame p.length)
    (o.code.size - 8) fun c c' => ((c'.regs .sp - c.regs .sp).toNat : Int) = n
  pop : o.code.word? (o.code.size - 8) = some (Instr.ldmia .sp p.saves).encode
  ret : o.code.word? (o.code.size - 4) = some (Instr.bx .lr).encode

/-! ### Code made of items -/

namespace Items

variable {d : Nat → UInt32 → Option Int} {after : List Item}

/-- The word of one instruction. -/
theorem word?_instr (before : List Item) {i : Instr} :
    (Code.ofWords (words d 0 (before ++ .instr i :: after))).word? (width before) =
      some i.encode := by
  refine word?_ofWords (x := (width before, .instr i)) ?_ rfl
  rw [placed_append, Nat.zero_add]
  exact List.mem_append_right _ List.mem_cons_self

/-- Straight-line code is passed. -/
theorem passes (before : List Item) {l : List Instr} (hg : General l) {R : Core → Core → Prop}
    (hR : ∀ c : Core, ∃ c', c.run? l = some c' ∧ R c c') :
    (Code.ofWords (words d 0 (before ++ (l.map .instr ++ after)))).Passes (width before)
      (width before + 4 * l.length) R := by
  intro image org himage c
  obtain ⟨c', hrun, hc'⟩ := hR c
  have hload : Loaded image org d 0 (before ++ (l.map .instr ++ after)) :=
    fun x hx w hw => himage.words _ _ (word?_ofWords hx hw)
  have hl := (loaded_append.mp hload).2
  rw [Nat.zero_add] at hl
  have hsteps : (width before + 4 * l.length - width before) / 4 = l.length := by omega
  refine ⟨c', ?_, hc'⟩
  rw [hsteps]
  exact Core.after?_run hl hg hrun

end Items

/-! ### The two moves of the stack pointer -/

section

variable {p : Program} {a : Assembly} {o : CompileOptions} {obj : CodeObject} {frame : UInt32}

/-- The prolog behind the instruction that saves registers. -/
def Frame.enter (size : UInt32) : List Instr := adjust .sub size ++ [.mov Abi.base .r0]

theorem Frame.general_enter (size : UInt32) : General (enter size) := by
  have hmov : General [.mov Abi.base .r0] := by
    have hr : Abi.base.General ∧ Reg.r0.General := by decide
    simp [hr, Instr.mov, CondCode.inRange_al]
  exact general_append.mpr ⟨general_adjust .sub size, hmov⟩

theorem Core.run?_enter (c : Core) (size : UInt32) : ∃ c', c.run? (Frame.enter size) = some c' ∧
    ((c.regs .sp - c'.regs .sp).toNat : Int) = size.toNat := by
  obtain ⟨c', hrun, hsp, -⟩ := Core.run?_adjust c size .sub (by simp [Arith.eval])
  refine ⟨_, (run?_append_of_eq hrun).trans (run?_singleton.trans effect?_mov), ?_⟩
  rw [regs_set_of_ne (by decide), hsp, Arith.eval, sub_sub_cancel]

theorem Core.run?_leave (c : Core) (size : UInt32) : ∃ c',
    c.run? (Frame.adjust .add size) = some c' ∧
      ((c'.regs .sp - c.regs .sp).toNat : Int) = size.toNat := by
  obtain ⟨c', hrun, hsp, -⟩ := Core.run?_adjust c size .add (by simp [Arith.eval])
  refine ⟨c', hrun, ?_⟩
  rw [hsp, Arith.eval, add_sub_cancel_left]

/-- The items of a function with its prolog set apart. -/
theorem Program.items_enter [Helper.Entries] (ha : p.assemble frame = .ok a) :
    a.items = .instr (.stmdb .sp p.saves) :: ((Frame.enter frame).map .instr ++
      (a.body.flatten ++ a.epilog.map .instr)) ∧
    a.start 0 = 4 + 4 * (Frame.enter frame).length := by
  obtain ⟨used, saved, prolog, body, hu, hsaved, hprolog, -, rfl⟩ :=
    Program.assemble_eq_ok_iff.mp ha
  unfold Frame.prolog at hprolog
  split_ifs at hprolog
  obtain rfl := Except.ok.inj hprolog
  rw [Program.saves_eq hu hsaved, Assembly.start_zero]
  refine ⟨by simp [Assembly.items, Frame.enter], ?_⟩
  simp only [Frame.enter, List.length_append, List.length_singleton]
  omega

/-- The items of a function with its epilog set apart. -/
theorem Program.items_leave [Helper.Entries] (ha : p.assemble frame = .ok a) :
    a.items = a.front p.length ++ ((Frame.adjust .add frame).map .instr ++
      [.instr (.ldmia .sp p.saves), .instr (.bx .lr)]) := by
  obtain ⟨used, saved, prolog, body, hu, hsaved, -, hbody, rfl⟩ :=
    Program.assemble_eq_ok_iff.mp ha
  rw [Assembly.items_eq_front _ p.length, Program.saves_eq hu hsaved,
    ← Program.length_bodies hbody]
  simp [Frame.epilog]

/-- A compiled function reserves its frame. -/
theorem compile_reserves [Helper.Entries] [PendingHeap] (h : compile p o = .ok obj) :
    obj.Reserves p o.frame o.frame.toNat := by
  obtain ⟨l, ⟨a, ha, rfl, hlink⟩, hcode, -⟩ := compile_eq_ok h
  have hidle : (Session.fresh true .recording).Idle :=
    (Session.ready_fresh true (by decide)).toIdle
  have hoff (k : Nat) : (Session.fresh true .recording).offset p o.frame k = a.start k :=
    (Session.offset_eq hidle ha hlink k).trans (Nat.zero_add _)
  obtain ⟨hfirst, hstart⟩ := Program.items_enter ha
  have hlast := Program.items_leave ha
  have hsize : obj.code.size = a.start p.length + 4 * (Frame.adjust .add o.frame).length + 8 := by
    rw [hcode, Code.size_ofWords, Items.four_mul_length_words, hlast, Items.width_append,
      Items.width_append, Items.width_instrs]
    rfl
  have hpop : Items.width (a.front p.length ++ (Frame.adjust .add o.frame).map .instr) =
      obj.code.size - 8 := by
    rw [hsize, Items.width_append, Items.width_instrs]
    rfl
  constructor
  case push =>
    rw [hcode, hfirst]
    exact Items.word?_instr []
  case enter =>
    rw [hcode, hoff, hstart, hfirst]
    exact Items.passes [_] (Frame.general_enter _) (Core.run?_enter · _)
  case leave =>
    rw [hsize, hcode, hoff, hlast]
    exact Items.passes _ (Frame.general_adjust .add _) (Core.run?_leave · _)
  case pop =>
    rw [← hpop, hcode, hlast, ← List.append_assoc]
    exact Items.word?_instr _
  case ret =>
    have hret : Items.width (a.front p.length ++ (Frame.adjust .add o.frame).map .instr ++
        [.instr (.ldmia .sp p.saves)]) = obj.code.size - 4 := by
      rw [Items.width_append, hpop, hsize]
      rfl
    rw [← hret, hcode, hlast, ← List.append_assoc, List.append_cons]
    exact Items.word?_instr _

namespace CodeObject

variable {n m : Int}

/-- Code that fits into memory reserves one number of bytes only. -/
theorem Reserves.unique [Helper.Entries] (h : obj.Reserves p frame n) (h' : obj.Reserves p frame m)
    (hsize : obj.code.size ≤ 2 ^ 32) : n = m := by
  -- Both numbers are read from one run, since a machine takes one course.
  have himage := Code.loadedAt_image hsize 0
  obtain ⟨c₁, hrun₁, rfl⟩ := h.enter himage ⟨fun _ => 0, ⟨false, false, false, false⟩, fun _ => 0⟩
  obtain ⟨c₂, hrun₂, rfl⟩ := h'.enter himage ⟨fun _ => 0, ⟨false, false, false, false⟩, fun _ => 0⟩
  have hsame : c₁ = c₂ := congrArg Machine.toCore (Option.some.inj (hrun₁.symm.trans hrun₂))
  rw [hsame]

end CodeObject

end

/-- A number that is cut to a word. -/
theorem natCast_toNat_ofInt (n : Int) : ((UInt32.ofInt n).toNat : Int) = n % 2 ^ 32 := by
  have hnat : (UInt32.ofInt n).toNat = (n % 2 ^ 32).toNat :=
    UInt32.toNat_ofNat_of_lt' (by simp only [UInt32.size]; omega)
  rw [hnat]
  omega

namespace CommandLine

variable {w : Surroundings} {a : Arguments} {o : CompileOptions} {path out : String}

/-- What is printed for each argument when nothing fails. -/
theorem each_eq_ok {f : String → String × Except Error Unit} {args : List String}
    (h : each f args = (out, .ok ())) : ∃ outs, out = String.join outs ∧
      List.Forall₂ (fun arg s => f arg = (s, .ok ())) args outs := by
  induction args generalizing out with
  | nil => exact ⟨[], (Prod.mk.inj h).1.symm, .nil⟩
  | cons arg args ih =>
    rw [each] at h
    split at h
    · cases h
    next s hs =>
      obtain ⟨hout, hrest⟩ := Prod.mk.inj h
      obtain ⟨outs, hjoin, hall⟩ := ih (Prod.ext rfl hrest)
      refine ⟨s :: outs, ?_, .cons hs hall⟩
      calc out = s ++ (each f args).1 := hout.symm
        _ = s ++ String.join outs := congrArg (s ++ ·) hjoin
        _ = String.join (s :: outs) := String.join_cons.symm

/-- What is printed for a file starts with its compiled function. -/
theorem lowerFile_eq_ok [Helper.Entries] [PendingHeap] (h : lowerFile w a o path = (out, .ok ())) :
    ∃ text p obj rest,
    w.file path = .ok text ∧ Program.read text = .ok p ∧ compile p o = .ok obj ∧
      out = objectText w a obj ++ rest := by
  rw [lowerFile] at h
  split at h
  · cases h
  next obj hobj =>
    unfold compileFile at hobj
    split at hobj
    · cases hobj
    next text htext =>
      split at hobj
      · cases hobj
      next p hp =>
        obtain ⟨rest, hout⟩ : ∃ rest, out = objectText w a obj ++ rest := by
          split_ifs at h
          · split at h
            · cases h
            · exact ⟨_, by rw [← (Prod.mk.inj h).1, String.append_assoc, String.append_assoc,
                String.append_assoc, String.append_assoc]⟩
          · exact ⟨"", by rw [← (Prod.mk.inj h).1, String.append_empty]⟩
        exact ⟨text, p, obj, rest, htext, hp, Except.mapError_eq_ok_iff.mp hobj, hout⟩

/-- What the command `lower` compiles files for. -/
def options (a : Arguments) : CompileOptions where
  target := (Target.parse a.os a.arch).1
  frame := UInt32.ofInt a.frame
  listing := true

/-- The command `lower` prints its files one after the other when nothing fails. -/
theorem lower_eq_ok [Helper.Entries] [PendingHeap] (h : lower w a = (out, .ok ())) :
    0 ≤ a.frame ∧ each (lowerFile w a (options a)) a.plain = (out, .ok ()) := by
  rw [lower] at h
  split at h
  · cases h
  next target htarget =>
    split_ifs at h with hneg
    · cases h
    · rw [options, htarget]
      exact ⟨not_lt.mp hneg, h⟩

/-- What the functions reserve that the command `lower` prints. When it does not fail, the frame
size is not negative, and for every file, in order, it prints a compiled function that reserves the
frame size modulo the size of a word: its prolog lowers the stack pointer by it and its epilog
raises the stack pointer by it. So a function that fits into memory reserves the very frame size
exactly when that is below the size of a word. -/
theorem lower_reserves [Helper.Entries] [PendingHeap] (w : Surroundings) (a : Arguments)
    {out : String} (h : lower w a = (out, .ok ())) :
    0 ≤ a.frame ∧ ∃ outs, out = String.join outs ∧
      List.Forall₂ (fun path s => ∃ text p obj rest, w.file path = .ok text ∧
        Program.read text = .ok p ∧ compile p (options a) = .ok obj ∧
        s = objectText w a obj ++ rest ∧
        obj.Reserves p (options a).frame (a.frame % 2 ^ 32) ∧
        (obj.code.size ≤ 2 ^ 32 →
          (obj.Reserves p (options a).frame a.frame ↔ a.frame < 2 ^ 32))) a.plain outs := by
  obtain ⟨h0, heach⟩ := lower_eq_ok h
  obtain ⟨outs, hjoin, hall⟩ := each_eq_ok heach
  refine ⟨h0, outs, hjoin, hall.imp fun path s hs => ?_⟩
  obtain ⟨text, p, obj, rest, htext, hp, hobj, hout⟩ := lowerFile_eq_ok hs
  have hreserves : obj.Reserves p (options a).frame (a.frame % 2 ^ 32) := by
    have hword := compile_reserves hobj
    rwa [options, natCast_toNat_ofInt] at hword
  refine ⟨text, p, obj, rest, htext, hp, hobj, hout, hreserves, fun hsize => ⟨fun h' => ?_, ?_⟩⟩
  · rw [h'.unique hreserves hsize]
    exact Int.emod_lt_of_pos _ (by decide)
  · intro hlt
    rwa [Int.emod_eq_of_lt h0 hlt] at hreserves

/-- A directory with one file, a function that does nothing. -/
def oneFile : Surroundings where
  file path := if path = "f.ir" then .ok (Text.ofString "nop") else .error .notFound

/-- Decoded words are printed of a function whose frame size is no immediate, so that both moves
need a register. -/
theorem lower_reserves_oneFile : ∃ out,
    lower oneFile { frame := 4100, disasm := true, plain := ["f.ir"] } = (out, .ok ()) ∧
    ∃ p obj rest,
      compile p { target := ⟨"linux", "arm", .aapcs⟩, frame := 4100, listing := true } = .ok obj ∧
      out = String.join (wordLines oneFile.instruction obj.code) ++ rest ∧
      obj.Reserves p 4100 4100 := by
  have hok : (lower oneFile { frame := 4100, disasm := true, plain := ["f.ir"] }).2 = .ok () := by
    decide +kernel
  obtain ⟨-, outs, hjoin, hall⟩ := lower_reserves oneFile
    { frame := 4100, disasm := true, plain := ["f.ir"] } (Prod.ext rfl hok)
  refine ⟨_, Prod.ext rfl hok, ?_⟩
  obtain ⟨s, _, ⟨text, p, obj, rest, -, -, hobj, hout, hreserves, -⟩, hnil, rfl⟩ :=
    List.forall₂_cons_left_iff.mp hall
  obtain rfl := List.forall₂_nil_left_iff.mp hnil
  have hoptions : options { frame := 4100, disasm := true, plain := ["f.ir"] } =
      { target := ⟨"linux", "arm", .aapcs⟩, frame := 4100, listing := true } := by decide +kernel
  rw [hoptions] at hobj hreserves
  rw [String.join_cons, String.join_nil, String.append_empty] at hjoin
  exact ⟨p, obj, _, hobj, (hjoin.trans hout).trans String.append_assoc, hreserves⟩

/-- The arguments that ask for a frame size eight above the size of a word. -/
def wideFrame : Arguments where
  frame := 4294967304
  plain := ["f.ir"]

/-- A frame size eight above the size of a word is not refused. The function that is printed
reserves eight bytes. -/
theorem lower_cuts_frame : ∃ obj,
    compile [{ op := .nop }] { target := ⟨"linux", "arm", .aapcs⟩, frame := 8, listing := true } =
      .ok obj ∧
    lower oneFile wideFrame = (objectText oneFile wideFrame obj, .ok ()) ∧
    obj.Reserves [{ op := .nop }] 8 8 ∧ ¬ obj.Reserves [{ op := .nop }] 8 wideFrame.frame := by
  have hlower : (compile [{ op := .nop }]
      { target := ⟨"linux", "arm", .aapcs⟩, frame := 8, listing := true }).map (fun obj =>
        (decide (obj.code.size ≤ 2 ^ 32), objectText oneFile wideFrame obj, Except.ok ())) =
      .ok (true, lower oneFile wideFrame) := by decide +kernel
  obtain ⟨obj, hobj, hout⟩ := Except.map_eq_ok_iff.mp hlower
  obtain ⟨hsize, hout⟩ := Prod.mk.inj hout
  have hreserves : obj.Reserves [{ op := .nop }] 8 8 := compile_reserves hobj
  refine ⟨obj, hobj, hout.symm, hreserves, fun h => ?_⟩
  exact absurd (h.unique hreserves (of_decide_eq_true hsize)) (by decide)

end CommandLine

end A32Lowering
