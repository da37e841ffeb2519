import Mathlib
import A32Lowering.Proofs.Composition
import A32Lowering.Proofs.StackFlow

/-!
# Functions keep the registers of their callers

Whatever path a function takes, and whatever the routines do that it calls, its caller gets its
registers back. The proof follows the machine through the code that saves the registers, the
statements, and the code that restores them: at every position it says what holds there, and every
step leads to a position where that holds again.

## Main definitions

* `Activation.Placed` : a function in memory.
* `Activation.At` : where a machine is in an activation, and what holds there.
* `Activation.Keeps` : what a function owes its caller.

## Main results

* `Activation.Placed.safe` : one step from any position.
* `Activation.Placed.at_of_runs` : any number of steps.
* `Activation.Placed.held_of_at` : what holds at the start of a statement.
* `Session.lower_keeps` : every function that was lowered keeps the registers of its caller.
-/

namespace A32Lowering

open Items

/-! ### Single instructions -/

section

variable {image : UInt32 → Option UInt32} {org : UInt32} {d : Nat → UInt32 → Option Int}
  {pos : Nat} {c c' : Core} {l : List Item}

theorem Core.fetch?_instr {i : Instr} (hl : Loaded image org d pos (.instr i :: l))
    (hd : decode i.encode = some (.plain i)) :
    (c.machineAt org pos).fetch? image = some (.plain i) := by
  have hw : image (c.machineAt org pos).pc = some i.encode := (loaded_cons.mp hl).1 _ rfl
  rw [Machine.fetch?, hw, Option.bind_some, hd]

theorem Core.fetch?_jump {cc : CondCode} {b : UInt32} {t : Nat}
    (hl : Loaded image org d pos (.jump cc b :: l)) (hc : cc.InRange)
    (hd : d pos b = some (Stream.displacement pos t)) (hr : InReach (Stream.displacement pos t)) :
    (c.machineAt org pos).fetch? image =
      some (.branch cc (Stream.displacement pos t)) := by
  have hw : image (c.machineAt org pos).pc =
      some (Stream.branchTo (Instr.branch cc 0).encode (Stream.displacement pos t)) :=
    (loaded_cons.mp hl).1 _ (by simp only [Item.word?, hd])
  rw [Machine.fetch?, hw, Option.bind_some, decode_branchTo hc hr]

/-- A confined instruction has a result. -/
theorem Instr.Confined.exists_effect? {own : Reg → Prop} {slot : Reg × LoadOffset → Prop}
    {i : Instr} (h : i.Confined own slot) (c : Core) : ∃ c', c.effect? i = some c' := by
  cases i with
  | mull signed lo hi rn rm => exact ⟨_, if_neg h.2.2⟩
  | stmdb | ldmia | bx | branch => exact h.elim
  | _ => exact ⟨_, rfl⟩

end

namespace Assembly

variable (a : Assembly)

theorem start_eq (k : Nat) : a.start k = a.start 0 + width (a.body.take k).flatten := by
  simp [start, front]

theorem start_length : a.start a.body.length = a.start 0 + width a.body.flatten := by
  rw [start_eq, List.take_length]

end Assembly

namespace Activation

/-- The instructions that restore the registers of the caller, in front of the return. -/
def restore (v : Activation) : List Instr := Frame.adjust .add v.frame ++ [.ldmia .sp v.saved]

/-- A function in memory whose statements keep to the rules of the activation. -/
structure Placed [Helper.Entries] (v : Activation) (p : Program) (a : Assembly)
    (image : UInt32 → Option UInt32) (org : UInt32) (pos : Nat) : Prop where
  assembled : p.assemble v.frame = .ok a
  saved : ∃ used, Frame.saved used = .ok v.saved
  prolog : Frame.prolog v.frame v.saved = .ok a.prolog
  epilog : a.epilog = v.restore ++ [.bx .lr]
  flows : ∀ l ∈ a.body, v.Flows 0 l 0
  linkable : Linkable pos a.items
  fits : pos + width a.items ≤ 2 ^ 32
  loaded : Loaded image org (displacement? pos a.items) pos a.items

/-- Where a machine is in an activation, and what holds there. -/
inductive At (v : Activation) (a : Assembly) (org : UInt32) (pos : Nat) : Machine → Prop
  /-- In the code that saves the registers. -/
  | prolog {c : Core} {done todo : List Instr} (h : a.prolog = done ++ todo) (hne : todo ≠ [])
    (hr : v.entry.run? done = some c) : At v a org pos (c.machineAt org (pos + 4 * done.length))
  /-- In a statement, or behind the last one. -/
  | body {c : Core} {l r : List Item} {n : UInt32} (h : a.body.flatten = l ++ r)
    (hf : v.Flows n r 0) (hc : v.Held n c) :
    At v a org pos (c.machineAt org (pos + a.start 0 + width l))
  /-- In front of the jump to a routine. -/
  | call {c : Core} {l r : List Item} {n : UInt32}
    (h : a.body.flatten = l ++ .instr (.mov .lr .pc) :: .instr (.mov .pc Abi.callAddress) :: r)
    (hf : v.Flows n r 0) (hc : v.Held n c)
    (hlr : c.regs .lr = org + UInt32.ofNat (pos + a.start 0 + width l + 8)) :
    At v a org pos (c.machineAt org (pos + a.start 0 + width l + 4))
  /-- In the code that restores the registers. -/
  | epilog {c₀ c : Core} {done todo : List Instr} (h : v.restore = done ++ todo)
    (hc : v.Held 0 c₀) (hr : c₀.run? done = some c) :
    At v a org pos (c.machineAt org (pos + a.start a.body.length + 4 * done.length))

/-- A machine that can go on, and that does what the caller expects when it returns. -/
structure Safe (v : Activation) (a : Assembly) (image : UInt32 → Option UInt32) (org : UInt32)
    (pos : Nat) (m : Machine) : Prop where
  progress : ∃ m', m.step? image = some m'
  next : ∀ m', v.Step image m m' → v.At a org pos m'
  returns : ∀ rm, m.fetch? image = some (.plain (.bx rm)) →
    (∀ r ∈ Abi.preserved, m.regs r = v.entry.regs r) ∧
      ∃ m', m.step? image = some m' ∧ m'.toCore = m.toCore ∧ m'.pc = v.entry.regs .lr

variable {v : Activation} {p : Program} {a : Assembly} {image : UInt32 → Option UInt32}
  {org : UInt32} {pos q : Nat} {d : Nat → UInt32 → Option Int} {c c' : Core} {i : Instr}
  {rest : List Item}

/-- Behind an item of the body that has a word. -/
theorem At.body_next {l r : List Item} {i : Item} {n : UInt32}
    (h : a.body.flatten = l ++ i :: r) (hi : i.width = 4) (hf : v.Flows n r 0) (hc : v.Held n c) :
    v.At a org pos (c.machineAt org (pos + a.start 0 + width l + 4)) := by
  have hw : pos + a.start 0 + width l + 4 = pos + a.start 0 + width (l ++ [i]) := by
    rw [width_append, width_cons, width_nil, hi, ← add_assoc]
  rw [hw]
  exact .body (by simpa using h) hf hc

/-- A general instruction with a result is safe if the machine is where it belongs behind it. -/
theorem safe_instr (hl : Loaded image org d q (.instr i :: rest)) (hi : i.General)
    (he : c.effect? i = some c')
    (hnext : (∀ rs rn off, i = .str rs rn off → rn ≠ .sp → rn ≠ Abi.base →
      v.Clear (c.regs rn + off.bits)) → v.At a org pos (c'.machineAt org (q + 4))) :
    v.Safe a image org pos (c.machineAt org q) := by
  have hfetch : (c.machineAt org q).fetch? image = some (.plain i) :=
    Core.fetch?_instr hl hi.decode_encode
  have hstep := Core.step?_instr hl hi he
  refine ⟨⟨_, hstep⟩, fun m' hs => ?_, fun rm hrm => ?_⟩
  · cases hs with
    | own _ _ hstore h =>
      obtain rfl := Option.some.inj (hstep.symm.trans h)
      exact hnext fun rs rn off e => hstore rs rn off (e ▸ hfetch)
    | call hcall =>
      obtain rfl : i = .mov .pc Abi.callAddress := by simpa [hfetch] using hcall
      exact absurd hi.usesPc (by decide)
  · obtain rfl : i = .bx rm := by simpa [hfetch] using hrm
    cases he

namespace Placed

variable [Helper.Entries] (h : v.Placed p a image org pos)

include h

/-- The code that saves the registers. -/
theorem safe_prolog {done todo : List Instr} (hp : a.prolog = done ++ todo) (hne : todo ≠ [])
    (hr : v.entry.run? done = some c) :
    v.Safe a image org pos (c.machineAt org (pos + 4 * done.length)) := by
  obtain ⟨i, todo, rfl⟩ := List.exists_cons_of_ne_nil hne
  obtain ⟨used, hs⟩ := h.saved
  have hgen : General a.prolog := Frame.general_prolog (Frame.general_saved hs) h.prolog
  have hload := h.loaded
  rw [Assembly.items, hp, List.map_append, List.append_assoc, List.append_assoc, loaded_append,
    width_instrs] at hload
  obtain ⟨c₂, hrun, hent⟩ := Core.run?_prolog (c := v.entry) hs h.prolog
  rw [hp, Core.run?_append_of_eq hr, Core.run?_cons, Option.bind_eq_some_iff] at hrun
  obtain ⟨c₁, h₁, hrest⟩ := hrun
  rw [hp] at hgen
  refine safe_instr hload.2 (hgen i (by simp)) h₁ fun _ => ?_
  have hlen : pos + 4 * done.length + 4 = pos + 4 * (done ++ [i]).length := by
    rw [List.length_append, List.length_singleton]
    omega
  have hr₁ : v.entry.run? (done ++ [i]) = some c₁ := by
    rw [Core.run?_append_of_eq hr, Core.run?_singleton, h₁]
  rw [hlen]
  cases todo with
  | cons j todo => exact .prolog (by simpa using hp) (by simp) hr₁
  | nil =>
    obtain rfl := Option.some.inj hrest
    have hstart : pos + 4 * (done ++ [i]).length = pos + a.start 0 + width [] := by
      rw [← hp, Assembly.start_zero, width_nil, add_zero]
    rw [hstart]
    exact .body rfl (Flows.flatten h.flows) (held_of_entered h.saved hent)

theorem loaded_epilog :
    Loaded image org (displacement? pos a.items) (pos + a.start a.body.length)
      (v.restore.map .instr ++ [.instr (.bx .lr)]) := by
  have hload := h.loaded
  generalize displacement? pos a.items = d at hload ⊢
  rw [Assembly.items_eq_front a a.body.length, loaded_append, List.drop_length, List.flatten_nil,
    List.nil_append, h.epilog, List.map_append] at hload
  exact hload.2

/-- The code that restores the registers, and the return. -/
theorem safe_epilog {c₀ : Core} {done todo : List Instr} (hp : v.restore = done ++ todo)
    (hc : v.Held 0 c₀) (hr : c₀.run? done = some c) :
    v.Safe a image org pos (c.machineAt org (pos + a.start a.body.length + 4 * done.length)) := by
  obtain ⟨used, hs⟩ := h.saved
  have hload := h.loaded_epilog
  rw [hp, List.map_append, List.append_assoc, loaded_append, width_instrs] at hload
  cases todo with
  | cons i todo =>
    have hgen : General v.restore := by
      have hsp : Reg.sp.General := by decide
      simp only [restore, general_append, general_cons, general_nil, Instr.General]
      exact ⟨Frame.general_adjust _ _, ⟨hsp, Frame.general_saved hs⟩, trivial⟩
    rw [hp] at hgen
    obtain ⟨c₂, hrun, -⟩ := c₀.run?_restore v.frame hs
    have hrun : c₀.run? v.restore = some c₂ := hrun
    rw [hp, Core.run?_append_of_eq hr, Core.run?_cons, Option.bind_eq_some_iff] at hrun
    obtain ⟨c₁, h₁, -⟩ := hrun
    refine safe_instr hload.2 (hgen i (by simp)) h₁ fun _ => ?_
    have hlen : pos + a.start a.body.length + 4 * done.length + 4 =
        pos + a.start a.body.length + 4 * (done ++ [i]).length := by
      rw [List.length_append, List.length_singleton]
      omega
    rw [hlen]
    have hp₁ : v.restore = (done ++ [i]) ++ todo := by simpa using hp
    exact .epilog hp₁ hc (by rw [Core.run?_append_of_eq hr, Core.run?_singleton, h₁])
  | nil =>
    rw [List.append_nil] at hp
    have hlr : Reg.lr.General := by decide
    have hfetch : (c.machineAt org (pos + a.start a.body.length + 4 * done.length)).fetch? image =
        some (.plain (.bx .lr)) := Core.fetch?_instr hload.2 (Instr.General.decode_encode hlr)
    have hstep : (c.machineAt org (pos + a.start a.body.length + 4 * done.length)).step? image =
        some ((c.machineAt org (pos + a.start a.body.length + 4 * done.length)).goto
          (c.regs .lr)) := by
      rw [Machine.step?_eq_bind, hfetch]
      rfl
    obtain ⟨hregs, hback⟩ := hc.restore h.saved (hp ▸ hr : c₀.run? v.restore = some c)
    refine ⟨⟨_, hstep⟩, fun m' hs => ?_, fun rm _ => ⟨hregs, _, hstep, rfl, hback⟩⟩
    cases hs with
    | own _ hbx => exact (hbx _ hfetch).elim
    | call hcall => simp [hfetch, Instr.mov] at hcall

/-- The items of the body from a position on. -/
theorem loaded_body {l r : List Item} (hb : a.body.flatten = l ++ r) :
    Loaded image org (displacement? pos a.items) (pos + a.start 0 + width l)
      (r ++ a.epilog.map .instr) := by
  have hload := h.loaded
  generalize displacement? pos a.items = d at hload ⊢
  rw [Assembly.items, hb, List.append_assoc, loaded_append, List.append_assoc, loaded_append,
    width_instrs, ← Assembly.start_zero] at hload
  exact hload.2.2

theorem encodable_body {l r : List Item} (hb : a.body.flatten = l ++ r) : Encodable r := by
  have henc := Program.encodable_assemble h.assembled
  rw [Assembly.items, hb] at henc
  simp only [encodable_append] at henc
  exact henc.1.2.2

theorem at_start (hc : v.Held 0 c) (k : Nat) :
    v.At a org pos (c.machineAt org (pos + a.start k)) := by
  have hb : a.body.flatten = (a.body.take k).flatten ++ (a.body.drop k).flatten := by
    rw [← List.flatten_append, List.take_append_drop]
  rw [Assembly.start_eq, ← add_assoc]
  exact .body hb (Flows.flatten fun l hl => h.flows l (List.mem_of_mem_drop hl)) hc

/-- An item of the body that is an instruction. -/
theorem safe_body_instr {l r : List Item} {n : UInt32} (hb : a.body.flatten = l ++ .instr i :: r)
    (hi : i.General) (he : c.effect? i = some c')
    (hc : (∀ rs rn off, i = .str rs rn off → rn ≠ .sp → rn ≠ Abi.base →
      v.Clear (c.regs rn + off.bits)) → v.Held n c') (hf : v.Flows n r 0) :
    v.Safe a image org pos (c.machineAt org (pos + a.start 0 + width l)) :=
  safe_instr (h.loaded_body hb) hi he fun hstore => .body_next hb rfl hf (hc hstore)

/-- A jump goes on behind it, or to a statement. -/
theorem safe_jump {l r : List Item} {cc : CondCode} {b : UInt32}
    (hb : a.body.flatten = l ++ .jump cc b :: r) (hc : v.Held 0 c) (hf : v.Flows 0 r 0) :
    v.Safe a image org pos (c.machineAt org (pos + a.start 0 + width l)) := by
  have hload := h.loaded_body hb
  have hcc : cc.InRange := (encodable_cons.mp (h.encodable_body hb)).1
  have hmem : (pos + a.start 0 + width l, Item.jump cc b) ∈ placed pos a.items := by
    rw [Assembly.items, hb, List.append_assoc, placed_append, List.append_assoc, placed_append,
      width_instrs, ← Assembly.start_zero]
    exact List.mem_append_right _ (List.mem_append_right _ List.mem_cons_self)
  obtain ⟨hd, hr, h4⟩ := Program.leadsTo_items h.assembled h.linkable b _ cc hmem
  have hfetch : (c.machineAt org (pos + a.start 0 + width l)).fetch? image = some (.branch cc _) :=
    Core.fetch?_jump hload hcc hd hr
  have hstep := Core.step?_jump (c := c) hload hcc hd hr h4
  refine ⟨⟨_, hstep⟩, fun m' hs => ?_, fun rm hrm => ?_⟩
  · cases hs with
    | call hcall => simp [hfetch] at hcall
    | own _ _ _ hown =>
      obtain rfl := Option.some.inj (hstep.symm.trans hown)
      split_ifs
      · exact h.at_start hc _
      · exact .body_next hb rfl hf hc
  · simp [hfetch] at hrm

/-- The return address of a call is taken. -/
theorem safe_link {l r : List Item} {n : UInt32}
    (hb : a.body.flatten = l ++ .instr (.mov .lr .pc) :: .instr (.mov .pc Abi.callAddress) :: r)
    (hc : v.Held n c) (hf : v.Flows n r 0) :
    v.Safe a image org pos (c.machineAt org (pos + a.start 0 + width l)) := by
  have hfetch : (c.machineAt org (pos + a.start 0 + width l)).fetch? image =
      some (.plain (.mov .lr .pc)) := Core.fetch?_instr (h.loaded_body hb) (by decide +kernel)
  have hstep : (c.machineAt org (pos + a.start 0 + width l)).step? image =
      some ((c.set .lr (org + UInt32.ofNat (pos + a.start 0 + width l + 8))).machineAt org
        (pos + a.start 0 + width l + 4)) := by
    rw [Machine.step?_eq_bind, hfetch, ← Core.next_machineAt (c := c),
      UInt32.ofNat_add (pos + a.start 0 + width l) 8, ← add_assoc]
    rfl
  refine ⟨⟨_, hstep⟩, fun m' hs => ?_, fun rm hrm => ?_⟩
  · cases hs with
    | call hcall =>
      simp only [hfetch, Option.some.injEq, Decoded.plain.injEq] at hcall
      exact absurd hcall (by decide)
    | own _ _ _ hown =>
      obtain rfl := Option.some.inj (hstep.symm.trans hown)
      exact .call hb hf (hc.set_lr _) Core.regs_set_self
  · simp [hfetch, Instr.mov] at hrm

/-- A called routine comes back behind the call. -/
theorem safe_call {l r : List Item} {n : UInt32}
    (hb : a.body.flatten = l ++ .instr (.mov .lr .pc) :: .instr (.mov .pc Abi.callAddress) :: r)
    (hc : v.Held n c) (hf : v.Flows n r 0)
    (hlr : c.regs .lr = org + UInt32.ofNat (pos + a.start 0 + width l + 8)) :
    v.Safe a image org pos (c.machineAt org (pos + a.start 0 + width l + 4)) := by
  have hload := (loaded_cons.mp (h.loaded_body hb)).2
  have hfetch : (c.machineAt org (pos + a.start 0 + width l + 4)).fetch? image =
      some (.plain (.mov .pc Abi.callAddress)) := Core.fetch?_instr hload (by decide +kernel)
  have hstep : (c.machineAt org (pos + a.start 0 + width l + 4)).step? image =
      some ((c.machineAt org (pos + a.start 0 + width l + 4)).goto (c.regs Abi.callAddress)) := by
    rw [Machine.step?_eq_bind, hfetch]
    rfl
  refine ⟨⟨_, hstep⟩, fun m' hs => ?_, fun rm hrm => ?_⟩
  · cases hs with
    | own hcall => exact (hcall hfetch).elim
    | @call c₁ _ hret =>
      have hm : ({ c₁ with pc := c.regs .lr } : Machine) =
          c₁.machineAt org (pos + a.start 0 + width
            (l ++ [.instr (.mov .lr .pc), .instr (.mov .pc Abi.callAddress)])) := by
        rw [hlr, Core.machineAt, width_append, ← add_assoc]
        rfl
      have hat : v.At a org pos { c₁ with pc := c.regs .lr } := by
        rw [hm]
        exact .body (by simpa using hb) hf (hc.returns hret)
      exact hat
  · simp [hfetch, Instr.mov] at hrm

/-- The machine is safe in the body. -/
theorem safe_body {l r : List Item} {n : UInt32} (hb : a.body.flatten = l ++ r)
    (hf : v.Flows n r 0) (hc : v.Held n c) :
    v.Safe a image org pos (c.machineAt org (pos + a.start 0 + width l)) := by
  generalize hk : (0 : UInt32) = k at hf
  have hgen {i : Instr} {l r : List Item} (hb : a.body.flatten = l ++ .instr i :: r)
      (h1 : i ≠ .mov .lr .pc) (h2 : i ≠ .mov .pc Abi.callAddress) : i.General := by
    rcases (encodable_cons.mp (h.encodable_body hb)).1 with hi | rfl | rfl
    · exact hi
    · exact (h1 rfl).elim
    · exact (h2 rfl).elim
  -- What is left of the body decides; items without words are passed over.
  induction hf generalizing l with
  | nil n =>
    subst hk
    have hw : pos + a.start 0 + width l =
        pos + a.start a.body.length + 4 * ([] : List Instr).length := by
      rw [Assembly.start_length, hb, List.append_nil, List.length_nil, mul_zero, add_zero,
        add_assoc]
    rw [hw]
    exact h.safe_epilog (List.nil_append _).symm hc rfl
  | instr hi hf ih =>
    obtain ⟨c₁, he⟩ := hi.exists_effect? c
    refine h.safe_body_instr hb (hgen hb ?_ ?_) he (fun hstore => hc.effect? hi hstore he)
      (hk ▸ hf)
    · rintro rfl
      exact hi.ne_lr rfl
    · rintro rfl
      exact hi.ne_pc rfl
  | @report n k x r hf ih =>
    have hw : width (l ++ [.report x]) = width l := by simp [Item.width]
    rw [← hw]
    exact ih (by simpa using hb) hc hk
  | @mark k b r hf ih =>
    have hw : width (l ++ [.mark b]) = width l := by simp [Item.width]
    rw [← hw]
    exact ih (by simpa using hb) hc hk
  | jump hf => exact h.safe_jump hb hc (hk ▸ hf)
  | push hroom hf =>
    obtain ⟨c₁, he, hc₁⟩ := hc.push hroom
    exact h.safe_body_instr hb (hgen hb (by decide) (by decide)) he (fun _ => hc₁) (hk ▸ hf)
  | pop hf =>
    obtain ⟨c₁, he, hc₁⟩ := hc.pop
    exact h.safe_body_instr hb (hgen hb (by decide) (by decide)) he (fun _ => hc₁) (hk ▸ hf)
  | call hf => exact h.safe_link hb hc (hk ▸ hf)

/-- A machine that is where it belongs is safe. -/
theorem safe {m : Machine} (hm : v.At a org pos m) : v.Safe a image org pos m := by
  cases hm with
  | prolog hp hne hr => exact h.safe_prolog hp hne hr
  | body hb hf hc => exact h.safe_body hb hf hc
  | call hb hf hc hlr => exact h.safe_call hb hc hf hlr
  | epilog hp hc hr => exact h.safe_epilog hp hc hr

theorem at_entry : v.At a org pos (v.entry.machineAt org pos) := by
  have hne : a.prolog ≠ [] := by
    have hp := h.prolog
    unfold Frame.prolog at hp
    split_ifs at hp
    rw [← Except.ok.inj hp]
    simp
  exact .prolog (List.nil_append _).symm hne rfl

/-- Every machine that comes up in an activation is where it belongs. -/
theorem at_of_runs {m : Machine} (hm : v.Runs image (v.entry.machineAt org pos) m) :
    v.At a org pos m := by
  induction hm with
  | refl => exact h.at_entry
  | tail _ hs ih => exact (h.safe ih).next _ hs

theorem width_items : width a.items = a.start a.body.length + 4 * v.restore.length + 4 := by
  rw [Assembly.items_eq_front a a.body.length, h.epilog, List.drop_length, List.flatten_nil,
    List.nil_append, width_append, width_instrs, List.length_append, Assembly.start]
  rfl

theorem start_le (k : Nat) : a.start k ≤ a.start a.body.length ∧
    pos + a.start a.body.length + 4 * v.restore.length < 2 ^ 32 := by
  have hfits := h.fits
  rw [h.width_items] at hfits
  have hle : width (a.body.take k).flatten ≤ width a.body.flatten := by
    conv_rhs => rw [← List.take_append_drop k a.body, List.flatten_append, width_append]
    exact Nat.le_add_right _ _
  rw [Assembly.start_eq a k, Assembly.start_length] at *
  omega

/-- What holds at the start of a statement. -/
theorem held_of_at {m : Machine} (hm : v.At a org pos m) {k : Nat}
    (hpc : m.pc = org + UInt32.ofNat (pos + a.start k)) : v.Held 0 m.toCore := by
  obtain ⟨hk, hlt⟩ := h.start_le k
  have hk0 : a.start 0 ≤ a.start k := by
    rw [Assembly.start_eq a k]
    exact Nat.le_add_right _ _
  -- The code fits into the address space, so an address is that of one position only.
  have hinj {q : Nat} (hq : q ≤ pos + a.start a.body.length + 4 * v.restore.length)
      (he : org + UInt32.ofNat q = org + UInt32.ofNat (pos + a.start k)) :
      q = pos + a.start k := by
    have he := congrArg UInt32.toNat (add_left_cancel he)
    rw [UInt32.toNat_ofNat', UInt32.toNat_ofNat'] at he
    omega
  have hsplit : a.body.flatten = (a.body.take k).flatten ++ (a.body.drop k).flatten := by
    rw [← List.flatten_append, List.take_append_drop]
  have hflows : v.Flows 0 (a.body.drop k).flatten 0 :=
    Flows.flatten fun l hl => h.flows l (List.mem_of_mem_drop hl)
  cases hm with
  | @prolog c done todo hp hne hr =>
    have hlen : done.length < a.prolog.length := by
      rw [hp, List.length_append]
      exact Nat.lt_add_of_pos_right (List.length_pos_of_ne_nil hne)
    have hstart := a.start_zero
    have hq := hinj (q := pos + 4 * done.length) (by omega) hpc
    omega
  | @body c l r n hb hf hc =>
    have hw : width a.body.flatten = width l + width r := by rw [hb, width_append]
    have hlen := a.start_length
    have hq := hinj (q := pos + a.start 0 + width l) (by omega) hpc
    rw [Assembly.start_eq a k] at hq
    have h0 := hflows.of_width_eq (hb.symm.trans hsplit) (by omega)
    obtain rfl := hf.unique h0
    exact hc
  | @call c l r n hb hf hc hlr =>
    have hw : width a.body.flatten = width l + (4 + (4 + width r)) := by
      rw [hb, width_append]
      rfl
    have hlen := a.start_length
    have hq := hinj (q := pos + a.start 0 + width l + 4) (by omega) hpc
    rw [Assembly.start_eq a k] at hq
    have hl : width (l ++ [.instr (.mov .lr .pc)]) = width l + 4 := width_append ..
    have h0 := hflows.of_width_eq (l := l ++ [.instr (.mov .lr .pc)])
      (by simpa using hb.symm.trans hsplit) (by omega)
    exact h0.ne_jump.elim
  | @epilog c₀ c done todo hp hc hr =>
    have hlen : v.restore.length = done.length + todo.length := by rw [hp, List.length_append]
    have hq := hinj (q := pos + a.start a.body.length + 4 * done.length) (by omega) hpc
    obtain rfl : done = [] := List.length_eq_zero_iff.mp (by omega)
    obtain rfl := Option.some.inj hr
    exact hc

end Placed

end Activation

/-! ### Functions that were lowered -/

/-- The bytes of stack that a function uses: the registers that it saves, its frame, and the
operands of a division. -/
def Program.stackBytes (p : Program) (frame : UInt32) : Nat :=
  4 * p.saves.size + frame.toNat + if p.any fun x => x.op.divides then 8 else 0

/-- The statements of a program keep to the rules of an activation that saves their registers, with
their temporaries in the frame and their context words in a block that is clear of what is saved. -/
theorem Program.admits {p : Program} {v : Activation} {used : RegisterSet} {size : Nat}
    (hu : Frame.usage p = .ok used) (hs : Frame.saved used = .ok v.saved)
    (htmp : ∀ x ∈ p, ∀ o ∈ x.slots, 0 < o.stackBytes →
      o.slot.toNat + o.stackBytes ≤ v.frame.toNat)
    (hrel : ∀ x ∈ p, ∀ o ∈ x.slots, 0 < o.contextBytes → o.low.toNat + o.contextBytes ≤ size)
    (hroom : 4 * v.saved.size + v.frame.toNat +
      (if p.any fun x => x.op.divides then 8 else 0) ≤ 2 ^ 32)
    (hdisj : Memory.Disjoint (v.entry.regs .r0) size v.saveArea (4 * v.saved.size)) :
    ∀ x ∈ p, v.Admits size x := by
  intro x hx
  refine ⟨fun o ho hk r hr => ?_, htmp x hx, hrel x hx, hdisj, by omega, fun hd => ?_⟩
  · have hmem : o ∈ p.flatMap Frame.registerOperands :=
      List.mem_flatMap.mpr ⟨x, hx, List.mem_filter.mpr ⟨ho, by simpa using hk⟩⟩
    exact RegisterSet.mem_regs.mpr (Frame.mem_saved_of_operand hu hs hmem hr)
  · have hdiv : x.op.divides = true := by rcases hd with hd | hd <;> rw [hd] <;> rfl
    have hany : p.any (fun x => x.op.divides) = true := List.any_eq_true.mpr ⟨x, hx, hdiv⟩
    rwa [hany] at hroom

/-- What a function owes its caller, whatever path it takes and whatever the routines do that it
calls: it does not get stuck; the stack pointer and the context pointer are in place at the start of
every statement; the last word is the return; and when the function returns, the caller has its
registers back and goes on at its return address. -/
structure Activation.Keeps (v : Activation) (image : UInt32 → Option UInt32) (org : UInt32)
    (first : Nat) (statements : List Nat) (last : Nat) : Prop where
  progress : ∀ m, v.Runs image (v.entry.machineAt org first) m → ∃ m', m.step? image = some m'
  statement : ∀ m, v.Runs image (v.entry.machineAt org first) m →
    ∀ q ∈ statements, m.pc = org + UInt32.ofNat q →
      m.regs .sp = v.entry.regs .sp - 4 * UInt32.ofNat v.saved.size - v.frame ∧
      m.regs Abi.base = v.entry.regs .r0
  last : ∀ m : Machine, m.pc = org + UInt32.ofNat last →
    m.fetch? image = some (.plain (.bx .lr))
  returns : ∀ m, v.Runs image (v.entry.machineAt org first) m →
    ∀ rm, m.fetch? image = some (.plain (.bx rm)) →
      (∀ r ∈ Abi.preserved, m.regs r = v.entry.regs r) ∧
      ∃ m', m.step? image = some m' ∧ m'.toCore = m.toCore ∧ m'.pc = v.entry.regs .lr

theorem Activation.Placed.keeps [Helper.Entries] {v : Activation} {p : Program} {a : Assembly}
    {image : UInt32 → Option UInt32} {org : UInt32} {pos : Nat} (h : v.Placed p a image org pos)
    {statements : List Nat} (hst : ∀ q ∈ statements, ∃ k, q = pos + a.start k) :
    v.Keeps image org pos statements (pos + width a.items - 4) where
  progress m hm := (h.safe (h.at_of_runs hm)).progress
  statement m hm q hq hpc := by
    obtain ⟨k, rfl⟩ := hst q hq
    have hheld := h.held_of_at (h.at_of_runs hm) hpc
    exact ⟨by rw [hheld.sp, sub_zero]; rfl, hheld.base⟩
  last m hpc := by
    have hload := (loaded_append.mp h.loaded_epilog).2
    rw [width_instrs] at hload
    have hlast : pos + width a.items - 4 = pos + a.start a.body.length + 4 * v.restore.length := by
      rw [h.width_items]
      omega
    have hm : m.fetch? image = (m.toCore.machineAt org (pos + width a.items - 4)).fetch? image := by
      rw [Machine.fetch?, hpc]
      rfl
    have hlr : Reg.lr.General := by decide
    rw [hm, hlast]
    exact Core.fetch?_instr hload (Instr.General.decode_encode hlr)
  returns m hm := (h.safe (h.at_of_runs hm)).returns

namespace Session

/-- Every function keeps the registers of its caller, if its temporaries lie in the frame, its
context words in a block apart from the registers that are saved, and the stack is large enough. -/
theorem lower_keeps [Helper.Entries] [PendingHeap] {s t : Session} (hs : s.Idle) {p : Program}
    {frame : UInt32} (h : s.lower p frame = (t, .ok ()))
    (htmp : ∀ x ∈ p, ∀ o ∈ x.slots, 0 < o.stackBytes →
      o.slot.toNat + o.stackBytes ≤ frame.toNat)
    {size : Nat} (hrel : ∀ x ∈ p, ∀ o ∈ x.slots, 0 < o.contextBytes →
      o.low.toNat + o.contextBytes ≤ size)
    {image : UInt32 → Option UInt32} {org : UInt32} (himage : t.stream.code.LoadedAt image org)
    (c : Core) (hroom : p.stackBytes frame ≤ (c.regs .sp).toNat)
    (hdisj : Memory.Disjoint (c.regs .r0) size
      (c.regs .sp - 4 * UInt32.ofNat p.saves.size) (4 * p.saves.size)) :
    Activation.Keeps ⟨c, p.saves, frame⟩ image org s.stream.size
      ((List.range p.length).map (s.offset p frame)) (t.stream.size - 4) := by
  obtain ⟨a, ha, hl, hfits, hload⟩ := loaded_of_lower hs h himage
  obtain ⟨used, saved, prolog, body, hu, hsv, hp, hbody, ha'⟩ := Program.assemble_eq_ok_iff.mp ha
  obtain rfl := Program.saves_eq hu hsv
  let v : Activation := ⟨c, p.saves, frame⟩
  have hsp := (c.regs .sp).toNat_lt
  have hx : ∀ x ∈ p, v.Admits size x :=
    Program.admits hu hsv htmp hrel (hroom.trans hsp.le) hdisj
  have hcall : v.Owns Abi.callAddress :=
    Activation.owns_register (by decide) (Activation.callAddress_mem_saved ⟨used, hsv⟩)
  have hplaced : v.Placed p a image org s.stream.size := by
    refine ⟨ha, ⟨used, hsv⟩, ?_, ?_, ?_, hl, hfits, hload⟩
    · rw [ha']
      exact hp
    · rw [ha']
      exact (List.append_assoc (Frame.adjust .add frame) [.ldmia .sp p.saves] [.bx .lr]).symm
    · rw [ha']
      exact Program.flows_of_mem_bodies hx hcall hbody
  have hsize : t.stream.size = s.stream.size + width a.items := by
    have hlinks : p.Links frame a.items := ⟨a, ha, rfl, (linkable_add _ 0 _).mp hl⟩
    rw [lower_of_links hs hlinks] at h
    rw [← (Prod.mk.inj h).1, size_extend]
  rw [hsize]
  refine hplaced.keeps fun q hq => ?_
  obtain ⟨k, -, rfl⟩ := List.mem_map.mp hq
  exact ⟨k, offset_eq hs ha hl k⟩

/-- A loop that divides a register by ten, stores the quotient through a reference and calls a
routine with the remainder. -/
def digits : Program :=
  [{ op := .label, block := 1 },
    { op := .divs, dst := some (.temporary64 0), src1 := some (.register 0),
      src2 := some (.constant 10) },
    { op := .mov, dst := some (.register 0), src1 := some (.temporary 0) },
    { op := .addref, dst := some (.tmpReference 8), src1 := some (.relReference 4),
      src2 := some (.register 1) },
    { op := .storeatref, src1 := some (.tmpReference 8), src2 := some (.register 0) },
    { op := .param, src1 := some (.temporary 4) },
    { op := .call, src1 := some (.constant 0x9000), src2 := some (.constant 1) },
    { op := .condjmp, cond := .ne, src1 := some (.register 0), src2 := some (.constant 0),
      block := 1 }]

/-- A core with a stack above a context block. -/
def visitor : Core where
  regs r := if r = .sp then 0x20000 else if r = .r0 then 0x10000 else r.code.toUInt32
  flags := ⟨false, false, false, false⟩
  mem _ := 5

theorem lower_keeps_digits : ∃ t, (fresh true .recording).lower digits 12 = (t, .ok ()) ∧
    Activation.Keeps ⟨visitor, digits.saves, 12⟩ (t.stream.code.image 0x8000) 0x8000
      (fresh true .recording).stream.size
      ((List.range digits.length).map ((fresh true .recording).offset digits 12))
      (t.stream.size - 4) := by
  have hroom : digits.stackBytes 12 ≤ (visitor.regs .sp).toNat := by decide +kernel
  have hdisj : Memory.Disjoint (visitor.regs .r0) 8
      (visitor.regs .sp - 4 * UInt32.ofNat digits.saves.size) (4 * digits.saves.size) := by
    unfold Memory.Disjoint
    decide +kernel
  obtain ⟨t, h, hsize⟩ : ∃ t, (fresh true .recording).lower digits 12 = (t, .ok ()) ∧
      t.stream.code.size ≤ 2 ^ 32 := by
    have hok : ((fresh true .recording).lower digits 12).2 = .ok () := by decide +kernel
    have hsize : ((fresh true .recording).lower digits 12).1.stream.code.size ≤ 2 ^ 32 := by
      decide +kernel
    exact ⟨((fresh true .recording).lower digits 12).1, lower_eq_of_snd hok, hsize⟩
  exact ⟨t, h, lower_keeps (ready_fresh true (by decide)).toIdle h (by decide) (by decide)
    (Code.loadedAt_image hsize 0x8000) visitor hroom hdisj⟩

end Session

end A32Lowering
