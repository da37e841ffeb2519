import Mathlib
import A32Lowering.Proofs.Comparisons
import A32Lowering.Proofs.PatchSites
import A32Lowering.Proofs.Rotations

/-!
# Constants in registers

A constant is built in a register by a move, by a move of its complement, by its low half alone or
by both halves, and it is added to a register by an addition, by a subtraction of its negation or
by way of a scratch register. Which form is taken is not seen in what the code does. A constant
that linking can replace always has the form with both halves. That form is found again at the
position that is reported, and with another value in it the code builds that value.

## Main definitions

* `Code.Performs` : what executing a part of code does to every core.
* `Constant.IsImmediate` : a constant that an immediate stands for.

## Main results

* `LoadPair.exists_patched` : a load pair that is patched is the load pair of the new value.
* `Constant.add_eq_error_iff` : when a constant cannot be added.
* `Core.run?_addConstant_frame` : what adding a constant leaves as it was.
* `Lower.builds_constants` : what the code that loads or adds a constant does.
-/

namespace A32Lowering

/-- Wherever the code stands, executing it from a position leads from every core to another position
with a core that is related to the first one. -/
def Code.Performs (code : Code) (start stop : Nat) (R : Core → Core → Prop) : Prop :=
  ∀ ⦃image : UInt32 → Option UInt32⦄ ⦃org : UInt32⦄, code.LoadedFrom start image org →
    ∀ c : Core, ∃ c' : Core,
      Machine.Reaches image (c.machineAt org start) (c'.machineAt org stop) ∧ R c c'

/-- Code that is written does what its instructions do. -/
theorem Stream.performs_emitAll (s : Stream) {l : List Instr} (hg : General l)
    {R : Core → Core → Prop} (hrun : ∀ c : Core, ∃ c', c.run? l = some c' ∧ R c c') :
    (s.emitAll l).code.Performs s.size (s.emitAll l).size R := by
  intro image org himage c
  obtain ⟨c', hc', hR⟩ := hrun c
  exact ⟨c', Session.reaches_placeAll (Session.placeAll_instrs { stream := s } l) himage hg hc', hR⟩

/-! ### Load pairs -/

namespace Code.HoldsPair

variable {code : Code} {pos : Nat} {r : Reg} {v : UInt32}

/-- A load pair builds its value and changes nothing else. -/
theorem performs (h : code.HoldsPair pos r v) (hr : r.General) :
    code.Performs pos (pos + 8) fun c c' => c' = c.set r v := by
  intro image org himage c
  have hlow : image (org + UInt32.ofNat pos) = _ := himage _ _ le_rfl h.1
  have hhigh : image (org + UInt32.ofNat (pos + 4)) = _ := himage _ _ (Nat.le_add_right _ _) h.2
  have hload : Items.Loaded image org (fun _ _ => none) pos
      ((Constant.loadPair r v).map .instr ++ []) := by
    refine Items.loaded_cons.mpr ⟨fun w hw => ?_, Items.loaded_cons.mpr ⟨fun w hw => ?_, ?_⟩⟩
    · exact Option.some.inj hw ▸ hlow
    · exact Option.some.inj hw ▸ hhigh
    · exact List.forall_mem_nil _
  have hg : General (Constant.loadPair r v) := by simp [Constant.loadPair, hr]
  have hreach := Core.reaches_run hload hg (Core.run?_loadPair (c := c))
  have hlen : 4 * (Constant.loadPair r v).length = 8 := rfl
  rw [hlen] at hreach
  exact ⟨_, hreach, rfl⟩

theorem pairAt (h : code.HoldsPair pos r v) (hr : r.InRange) : code.PairAt pos
    (Instr.movw r (Constant.lowHalf v)).encode (Instr.movt r (Constant.highHalf v)).encode := by
  have hsize := le_size_of_word? h.2
  exact ⟨Int.natCast_nonneg pos, by omega, h.1, h.2,
    LoadPair.isMovw_iff.mp (LoadPair.isMovw_movw hr _),
    LoadPair.isMovt_iff.mp (LoadPair.isMovt_movt hr _)⟩

end Code.HoldsPair

/-- A load pair that was written is there. -/
theorem Stream.holdsPair_emitAll (s : Stream) (r : Reg) (v : UInt32) :
    (s.emitAll (Constant.loadPair r v)).code.HoldsPair s.size r v := by
  have hcode : (s.emitAll (Constant.loadPair r v)).code =
      (s.code.append (Instr.movw r (Constant.lowHalf v)).encode).append
        (Instr.movt r (Constant.highHalf v)).encode := by
    simp only [Constant.loadPair, emitAll, List.foldl_cons, List.foldl_nil, code_emit]
  rw [hcode, Stream.size]
  constructor
  · rw [Code.word?_append_of_le _ _ (Code.size_append ..).ge]
    exact Code.word?_append_size _ _
  · rw [← Code.size_append s.code (Instr.movw r (Constant.lowHalf v)).encode]
    exact Code.word?_append_size _ _

/-- A load pair is patched into the load pair of the new value. -/
theorem LoadPair.exists_patched {code : Code} {pos : Nat} {r : Reg} {v : UInt32} (hr : r.InRange)
    (h : code.HoldsPair pos r v) (w : UInt32) : ∃ patched, patch code pos w = .ok patched ∧
      Patched code pos w patched ∧ patched.HoldsPair pos r w := by
  have hpair := h.pairAt hr
  have hnew := pairAt_rewrite hpair w
  rw [withLow_movw hr, withHigh_movt hr] at hnew
  exact ⟨_, patch_of_pairAt hpair w, patched_rewrite hpair w, hnew.low, hnew.high⟩

/-! ### Sums -/

namespace Constant

variable {rd rn scratch : Reg} {v : UInt32} {l : List Instr} {f : Fault}

/-- A constant that an immediate stands for, whether or not it is looked for. -/
def IsImmediate (v : UInt32) : Prop := ∃ i : Immediate, i.value = v

theorem direct_iff : Direct v ↔ IsImmediate v ∨ IsImmediate (-v) :=
  or_congr Immediate.isSome_ofWord?_iff Immediate.isSome_ofWord?_iff

/-- A constant cannot be added exactly when it has to be built in the register that it is added
to. -/
theorem add_eq_error_iff : add rd rn v scratch = .error f ↔
    (¬ Direct v ∧ scratch = rn) ∧ f = .scratchIsOperand scratch := by
  unfold add Direct
  split
  next i hi => simp [hi]
  next i hn hi => simp [hn, hi]
  next hn hn' => split_ifs with hs <;> simp [hn, hn', hs, eq_comm]

/-- A constant that needs no other register is added in one instruction. -/
theorem add_of_direct (h : add rd rn v scratch = .ok l) (hd : Direct v) :
    ∃ op i, l = [.alu op false rd rn (.imm i)] := by
  unfold add at h
  split at h
  next i _ => exact ⟨_, i, (Except.ok.inj h).symm⟩
  next i _ _ => exact ⟨_, i, (Except.ok.inj h).symm⟩
  next hn hn' => simp [Direct, hn, hn'] at hd

end Constant

/-- The core behind the addition of a constant has the sum in the target register. It differs from
the core in front of it in no other register, the scratch register apart when the constant is built
there. -/
theorem Core.run?_addConstant_frame {c : Core} {rd rn scratch : Reg} {v : UInt32}
    {l : List Instr} (h : Constant.add rd rn v scratch = .ok l) : ∃ c', c.run? l = some c' ∧
      c'.regs rd = c.regs rn + v ∧ c'.flags = c.flags ∧ c'.mem = c.mem ∧
      ∀ r ≠ rd, (r = scratch → Constant.Direct v) → c'.regs r = c.regs r := by
  obtain ⟨c₁, hc₁, hrun⟩ := run?_addConstant (c := c) h
  have hkeep : c₁.flags = c.flags ∧ c₁.mem = c.mem := by
    rcases hc₁ with rfl | rfl <;> exact ⟨rfl, rfl⟩
  refine ⟨_, hrun, regs_set_self, hkeep.1, hkeep.2, fun r hr hdirect => ?_⟩
  by_cases hs : r = scratch
  · -- One instruction writes the target register and no other.
    obtain ⟨op, i, rfl⟩ := Constant.add_of_direct h (hdirect hs)
    rw [run?_singleton, effect?_alu] at hrun
    rw [← Option.some.inj hrun, regs_set_of_ne hr]
  · rw [regs_set_of_ne hr]
    rcases hc₁ with rfl | rfl
    · rfl
    · exact regs_set_of_ne hs

namespace Lower

variable {u : Session} {r rd rn scratch : Reg}

/-- Code that comes to a fault is not written, and nothing else is done. -/
theorem outcome_emitChecked_eq_fault_iff {x : Except Fault (List Instr)} {f : Fault} :
    outcome (emitChecked x) u = (.error (.fault f), u) ↔ x = .error f := by
  cases x <;> simp [emitChecked, check]

/-- What the code that loads or adds a constant does, whatever form the constant takes.

A constant that is loaded is in its register behind the code, and no other register, no flag and no
byte of memory has changed. If linking may replace it, then the code is a MOVW and a MOVT, and an
observer is told once of the constant and of the position of the MOVW. All code that holds these
eight bytes can be patched there with any value, and builds that value then.

A constant cannot be added exactly when it is no immediate, its negation is none either and the
scratch register is the operand; nothing is written then. Otherwise the sum is in its register
behind the code, and nothing else has changed but the scratch register, and that one only if neither
the constant nor its negation is an immediate. The registers may be the same ones otherwise. -/
theorem builds_constants (u : Session) (v : UInt32) (hr : r.General) (hrd : rd.General)
    (hrn : rn.General) (hscratch : scratch.General) :
    (∃ t, outcome (emit (Constant.load r v)) u = (.ok (), t) ∧ t.reports = u.reports ∧
      t.stream.code.Performs u.stream.size t.stream.size fun c c' => c' = c.set r v) ∧
    (∃ t, outcome (loadRelocatable r v) u =
        (if u.observer = .refusing then .error .refused else .ok (), t) ∧
      t.stream = u.stream.emitAll
        [.movw r (Constant.lowHalf v), .movt r (Constant.highHalf v)] ∧
      t.reports = (if u.observer = .recording then u.reports.push ⟨v, u.stream.size⟩
        else u.reports) ∧
      (t.stream.code.Performs u.stream.size t.stream.size fun c c' => c' = c.set r v) ∧
      ∀ (code : Code) (w : UInt32),
        (∀ i, u.stream.size ≤ i → i < t.stream.size → code[i]? = t.stream.code[i]?) →
        ∃ patched, LoadPair.patch code u.stream.size w = .ok patched ∧
          LoadPair.Patched code u.stream.size w patched ∧
          patched.Performs u.stream.size t.stream.size fun c c' => c' = c.set r w) ∧
    (outcome (emitChecked (Constant.add rd rn v scratch)) u =
        (.error (.fault (.scratchIsOperand scratch)), u) ↔
      ¬ Constant.IsImmediate v ∧ ¬ Constant.IsImmediate (-v) ∧ scratch = rn) ∧
    (Constant.IsImmediate v ∨ Constant.IsImmediate (-v) ∨ scratch ≠ rn →
      ∃ t, outcome (emitChecked (Constant.add rd rn v scratch)) u = (.ok (), t) ∧
        t.stream.code.Performs u.stream.size t.stream.size fun c c' =>
          c'.regs rd = c.regs rn + v ∧ c'.flags = c.flags ∧ c'.mem = c.mem ∧
          ∀ r ≠ rd, (r = scratch → Constant.IsImmediate v ∨ Constant.IsImmediate (-v)) →
            c'.regs r = c.regs r) := by
  have hsize := Stream.size_emitAll u.stream (Constant.loadPair r v)
  have hpair := Stream.holdsPair_emitAll u.stream r v
  refine ⟨⟨_, outcome_emit _, rfl, ?_⟩,
    ⟨_, outcome_loadRelocatable u r v, rfl, rfl, hsize ▸ hpair.performs hr, ?_⟩, ?_, ?_⟩
  · exact Stream.performs_emitAll _ (Constant.general_load hr v) fun c => ⟨_, Core.run?_load, rfl⟩
  · intro code w hcode
    have hheld : code.HoldsPair u.stream.size r v :=
      hpair.congr fun i hi hi' => hcode i hi (hsize ▸ hi')
    obtain ⟨patched, hok, hpatched, hnew⟩ := LoadPair.exists_patched hr.inRange hheld w
    exact ⟨patched, hok, hpatched, hsize ▸ hnew.performs hr⟩
  · rw [outcome_emitChecked_eq_fault_iff, Constant.add_eq_error_iff, and_iff_left rfl,
      Constant.direct_iff, not_or, and_assoc]
  · rw [← or_assoc, ← Constant.direct_iff]
    intro hok
    cases hadd : Constant.add rd rn v scratch with
    | error f =>
      obtain ⟨⟨hindirect, hs⟩, -⟩ := Constant.add_eq_error_iff.mp hadd
      exact (hok.elim hindirect (absurd hs)).elim
    | ok l =>
      refine ⟨_, outcome_emitChecked_eq_ok_iff.mpr ⟨l, rfl, rfl⟩, ?_⟩
      exact Stream.performs_emitAll _ (Constant.general_add hrd hrn hscratch hadd) fun c =>
        Core.run?_addConstant_frame hadd

/-- A constant that is no immediate, nor is its negation. Loaded for linking and patched, the code
builds the new value; added with the target as the scratch register, the sum is in the target and
nothing else has changed; and it cannot be added to the scratch register. -/
theorem builds_constants_aliased :
    (∃ t, outcome (loadRelocatable .lr 0x12345678) (.fresh false .recording) = (.ok (), t) ∧
      t.reports = #[⟨0x12345678, 0⟩] ∧
      ∃ patched, LoadPair.patch t.stream.code 0 0xCAFEBABE = .ok patched ∧
        patched.Performs 0 8 fun c c' => c' = c.set .lr 0xCAFEBABE) ∧
    (∃ t, outcome (emitChecked (Constant.add .r12 .sp 0x12345678 .r12))
        (.fresh false .recording) = (.ok (), t) ∧
      t.stream.code.Performs 0 12 fun c c' => c'.regs .r12 = c.regs .sp + 0x12345678 ∧
        ∀ r ≠ .r12, c'.regs r = c.regs r) ∧
    outcome (emitChecked (Constant.add .r12 .sp 0x12345678 .sp)) (.fresh false .recording) =
      (.error (.fault (.scratchIsOperand .sp)), .fresh false .recording) := by
  have hdirect : ¬ Constant.Direct 0x12345678 := by decide +kernel
  obtain ⟨hno, hneg⟩ := not_or.mp (mt Constant.direct_iff.mpr hdirect)
  have hlr : Reg.lr.General := by decide
  have h12 : Reg.r12.General := by decide
  have hsp : Reg.sp.General := by decide
  obtain ⟨-, ⟨t, ht, hstream, hreports, -, hpatch⟩, -, hadd⟩ :=
    builds_constants (.fresh false .recording) 0x12345678 hlr h12 hsp h12
  obtain ⟨-, -, hfault, -⟩ :=
    builds_constants (.fresh false .recording) 0x12345678 hlr h12 hsp hsp
  refine ⟨⟨t, ht, hreports, ?_⟩, ?_, hfault.mpr ⟨hno, hneg, rfl⟩⟩
  · obtain ⟨patched, hok, -, hperforms⟩ := hpatch t.stream.code 0xCAFEBABE fun _ _ _ => rfl
    rw [hstream, Stream.size_emitAll] at hperforms
    exact ⟨patched, hok, hperforms⟩
  · obtain ⟨t, ht, hperforms⟩ := hadd (.inr (.inr (by decide)))
    obtain rfl : _ = t := congrArg Prod.snd ht
    have hsize : (outcome (emitChecked (Constant.add .r12 .sp 0x12345678 .r12))
        (.fresh false .recording)).2.stream.size = 12 := by decide +kernel
    rw [hsize] at hperforms
    refine ⟨_, ht, fun image org himage c => ?_⟩
    obtain ⟨c', hreach, hsum, -, -, hkeep⟩ := hperforms himage c
    exact ⟨c', hreach, hsum, fun r hr => hkeep r hr fun h => absurd h hr⟩

end Lower

end A32Lowering
