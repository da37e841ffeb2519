import Mathlib
import A32Lowering.Proofs.Footprint

/-!
# The items of a program

Lowering without a stream: the items of each statement, which depend on the statement and on the
parameters that wait for a call, and the items of a whole function. Nothing here knows where the
function stands or which labels its blocks get.

## Main definitions

* `Item.call` : the items of a call to an address.
* `Action.Gives` : the items that an action gives for a statement, case by case.
* `Statement.items` : the items of a statement, and the parameters that wait behind it.
* `Program.bodies` : the items of each statement of a program.
* `Assembly`, `Program.assemble` : the items of a function.

## Main results

* `Action.items_eq_ok_iff`, `Statement.items_eq_ok` : what the items of a statement can be.
* `Program.plain_assemble` : the instructions of a function are no branches to labels.
* `Program.length_bodies` : there is one list of items for each statement.
-/

namespace A32Lowering

open Access (need expect)

namespace Rules

/-- The rule for a statement is one of the table whose shape the statement has. -/
theorem select_eq_ok {x : Statement} {r : Rule Action} (h : select x = .ok r) :
    r ∈ general ++ wide ∧ r.shape.admits x = true := by
  unfold select at h
  split at h
  next r' hr =>
    obtain rfl := Except.ok.inj h
    rw [Table.select?, table, Table.rulesOf_ofRules] at hr
    exact ⟨List.mem_of_mem_filter (List.mem_of_find?_eq_some hr), by simpa using List.find?_some hr⟩
  · cases h

/-- The rule for a statement is one for its operation. -/
theorem op_of_select {x : Statement} {r : Rule Action} (h : select x = .ok r) :
    x.op = r.shape.op := by
  have hs := (select_eq_ok h).2
  simp only [Shape.admits, Bool.and_eq_true, decide_eq_true_eq] at hs
  exact hs.1.1.1.symm

/-- The rules that write a register without asking for its class are for statements whose
destination is a register. -/
theorem dst_of_definesRegister {r : Rule Action} {a : Straight} (hr : r ∈ general ++ wide)
    (ha : r.action = .straight a) (hd : a.definesRegister = true) : r.shape.dst = .register := by
  have hall : ∀ r ∈ general ++ wide, r.shape.dst = .register ∨
      r.action ≠ .straight .movRegReg ∧ r.action ≠ .straight .movRegMem := by decide
  rcases hall r hr with hp | ⟨hn, hn'⟩
  · exact hp
  · cases a with
    | movRegReg => exact (hn ha).elim
    | movRegMem => exact (hn' ha).elim
    | _ => cases hd

theorem kind_of_select {x : Statement} {r : Rule Action} {a : Straight} {d : Operand}
    (h : select x = .ok r) (ha : r.action = .straight a) (hd : a.definesRegister = true)
    (hx : x.dst = some d) : d.kind = .register := by
  obtain ⟨hr, hs⟩ := select_eq_ok h
  have hp := dst_of_definesRegister hr ha hd
  simp only [Shape.admits, Bool.and_eq_true, hp, hx] at hs
  simpa [Pattern.admits, Pattern.admitsOperand] using hs.1.1.2

end Rules

/-- The items of a call to an address: the constant that linking can replace, the return address,
and the jump. -/
def Item.call (addr : UInt32) : List Item :=
  .report addr :: (Constant.loadPair Abi.callAddress addr
    ++ [Instr.mov .lr .pc, Instr.mov .pc Abi.callAddress]).map .instr

namespace Action

/-- The items of a conditional jump behind a comparison. -/
def jumpItems (x : Statement) (compare : Except Fault (List Instr)) :
    Except Fault (List Item) := do
  let l ← compare
  let cc ← CondCode.ofCondition x.cond
  return l.map .instr ++ [.jump cc x.block]

/-- The items of a call that takes some of the parameters that wait, and those it leaves. -/
def callItems (params : List Parameter) (target count : Operand) :
    Except Fault (List Item × List Parameter) := do
  expect .callTarget .constant target
  expect .parameterCount .constant count
  let n := count.low.toNat
  if params.length < n then throw (.missingParameters n params.length)
  let l ← Parameter.codeAll 0 0 (params.take n)
  return (l.map .instr ++ Item.call target.low, params.drop n)

/-- The items of a division. -/
def divideItems [Helper.Entries] (signed : Bool) (d s1 s2 : Operand) :
    Except Fault (List Item) := do
  expect .temporary64 .temporary64 d
  let a ← Access.argument 0 .r0 s1
  let b ← Access.argument 0 .r1 s2
  let q ← Access.store64 8 d .r0 0
  let r ← Access.store64 0 d .r0 4
  return (a ++ b ++ [Instr.stmdb .sp Lower.divideArguments]).map .instr
    ++ Item.call (Helper.quotient signed).address
    ++ (q ++ [Instr.ldmia .sp Lower.divideArguments]).map .instr
    ++ Item.call (Helper.remainder signed).address
    ++ r.map .instr

/-- The items that a rule gives for a statement, and the parameters that wait behind it. -/
def items [Helper.Entries] (params : List Parameter) (x : Statement) :
    Action → Except Fault (List Item × List Parameter)
  | straight a => do return ((← a.code 0 x).map .instr, params)
  | mark => return ([.mark x.block], params)
  | jump => return ([.jump .al x.block], params)
  | jumpIf => do
    let a ← need x.src1
    let b ← need x.src2
    if b.kind = .constant then throw .constantCompared
    return (← jumpItems x (Straight.compareCode 0 a b), params)
  | jumpIfCst => do
    let a ← need x.src1
    let b ← need x.src2
    expect .constant .constant b
    return (← jumpItems x (Straight.compareCstCode 0 a b), params)
  | param c => do
    let p ← Parameter.declare (← need x.src1) c
    return ([], p :: params)
  | call => do callItems params (← need x.src1) (← need x.src2)
  | divide signed => do
    return (← divideItems signed (← need x.dst) (← need x.src1) (← need x.src2), params)

/-- The items of a conditional jump: its comparison, and the jump. -/
theorem jumpItems_eq_ok {x : Statement} {c : Except Fault (List Instr)} {l : List Item}
    (h : jumpItems x c = .ok l) : ∃ m cc, c = .ok m ∧ CondCode.ofCondition x.cond = .ok cc ∧
      l = m.map .instr ++ [.jump cc x.block] := by
  simp only [jumpItems, Except.bind_eq_ok_iff, Except.pure_eq_ok_iff] at h
  obtain ⟨m, hm, cc, hcc, rfl⟩ := h
  exact ⟨m, cc, hm, hcc, rfl⟩

/-- The items of a call take parameters that wait. -/
theorem callItems_eq_ok {ps qs : List Parameter} {target count : Operand} {l : List Item}
    (h : callItems ps target count = .ok (l, qs)) : count.low.toNat ≤ ps.length ∧
      qs = ps.drop count.low.toNat ∧ ∃ m, Parameter.codeAll 0 0 (ps.take count.low.toNat) = .ok m ∧
        l = m.map .instr ++ Item.call target.low := by
  simp only [callItems, Except.bind_eq_ok_iff] at h
  obtain ⟨_, -, _, -, h⟩ := h
  split_ifs at h with hlen
  · simp at h
  simp only [Except.bind_eq_ok_iff, Except.pure_eq_ok_iff, Prod.mk.injEq] at h
  obtain ⟨m, hm, rfl, rfl⟩ := h
  exact ⟨not_lt.mp hlen, rfl, m, hm, rfl⟩

/-- The parts of the code of a division. -/
theorem divideItems_eq_ok [Helper.Entries] {signed : Bool} {d s1 s2 : Operand}
    {l : List Item} (h : divideItems signed d s1 s2 = .ok l) :
    d.kind = .temporary64 ∧ ∃ la lb lq lr,
      Access.argument 0 .r0 s1 = .ok la ∧ Access.argument 0 .r1 s2 = .ok lb ∧
      Access.store64 8 d .r0 0 = .ok lq ∧ Access.store64 0 d .r0 4 = .ok lr ∧
      l = (la ++ lb ++ [Instr.stmdb .sp Lower.divideArguments]).map .instr ++
        (Item.call (Helper.quotient signed).address ++ (lq.map .instr ++
          ([Instr.ldmia .sp Lower.divideArguments].map .instr ++
            (Item.call (Helper.remainder signed).address ++ (lr.map .instr ++ []))))) := by
  simp only [divideItems, Except.bind_eq_ok_iff, Except.pure_eq_ok_iff] at h
  obtain ⟨_, hd, la, ha, lb, hb, lq, hq, lr, hr, rfl⟩ := h
  refine ⟨Access.expect_eq_ok_iff.mp hd, la, lb, lq, lr, ha, hb, hq, hr, ?_⟩
  simp only [List.map_append, List.append_assoc, List.append_nil]

/-- What an action gives for a statement, with the operands that it takes for it. -/
inductive Gives [Helper.Entries] (params : List Parameter) (x : Statement) :
    Action → List Item → List Parameter → Prop
  | straight {a : Straight} {m : List Instr} (hm : a.code 0 x = .ok m) :
      Gives params x (.straight a) (m.map .instr) params
  | mark : Gives params x .mark [.mark x.block] params
  | jump : Gives params x .jump [.jump .al x.block] params
  | jumpIf {a b : Operand} {l : List Item} (h1 : x.src1 = some a) (h2 : x.src2 = some b)
      (hk : b.kind ≠ .constant) (hl : jumpItems x (Straight.compareCode 0 a b) = .ok l) :
      Gives params x .jumpIf l params
  | jumpIfCst {a b : Operand} {l : List Item} (h1 : x.src1 = some a) (h2 : x.src2 = some b)
      (hk : b.kind = .constant) (hl : jumpItems x (Straight.compareCstCode 0 a b) = .ok l) :
      Gives params x .jumpIfCst l params
  | param {c : ParameterClass} {o : Operand} {q : Parameter} (h1 : x.src1 = some o)
      (hq : Parameter.declare o c = .ok q) : Gives params x (.param c) [] (q :: params)
  | call {target count : Operand} {l : List Item} {rest : List Parameter}
      (h1 : x.src1 = some target) (h2 : x.src2 = some count)
      (hl : callItems params target count = .ok (l, rest)) : Gives params x .call l rest
  | divide {signed : Bool} {d a b : Operand} {l : List Item} (hd : x.dst = some d)
      (h1 : x.src1 = some a) (h2 : x.src2 = some b)
      (hl : divideItems signed d a b = .ok l) : Gives params x (.divide signed) l params

/-- The items that a rule gives can be had exactly when its action gives them. -/
theorem items_eq_ok_iff [Helper.Entries] {params rest : List Parameter} {x : Statement}
    {a : Action} {l : List Item} :
    a.items params x = .ok (l, rest) ↔ a.Gives params x l rest := by
  constructor
  · intro h
    cases a with
    | straight =>
      simp only [items, Except.bind_eq_ok_iff, Except.pure_eq_ok_iff, Prod.mk.injEq] at h
      obtain ⟨m, hm, rfl, rfl⟩ := h
      exact .straight hm
    | mark | jump =>
      simp only [items, Except.pure_eq_ok_iff, Prod.mk.injEq] at h
      obtain ⟨rfl, rfl⟩ := h
      constructor
    | jumpIf =>
      simp only [items, Except.bind_eq_ok_iff, Access.need_eq_ok_iff] at h
      obtain ⟨a, h1, b, h2, h⟩ := h
      split_ifs at h with hk
      · simp at h
      · simp only [Except.bind_eq_ok_iff, Except.pure_eq_ok_iff, Prod.mk.injEq] at h
        obtain ⟨m, hm, rfl, rfl⟩ := h
        exact .jumpIf h1 h2 hk hm
    | jumpIfCst =>
      simp only [items, Except.bind_eq_ok_iff, Access.need_eq_ok_iff, Access.expect_eq_ok_iff,
        Except.pure_eq_ok_iff, Prod.mk.injEq] at h
      obtain ⟨a, h1, b, h2, _, hk, m, hm, rfl, rfl⟩ := h
      exact .jumpIfCst h1 h2 hk hm
    | param =>
      simp only [items, Except.bind_eq_ok_iff, Access.need_eq_ok_iff, Except.pure_eq_ok_iff,
        Prod.mk.injEq] at h
      obtain ⟨o, h1, q, hq, rfl, rfl⟩ := h
      exact .param h1 hq
    | call =>
      simp only [items, Except.bind_eq_ok_iff, Access.need_eq_ok_iff] at h
      obtain ⟨target, h1, count, h2, hl⟩ := h
      exact .call h1 h2 hl
    | divide =>
      simp only [items, Except.bind_eq_ok_iff, Access.need_eq_ok_iff, Except.pure_eq_ok_iff,
        Prod.mk.injEq] at h
      obtain ⟨d, hd, a, h1, b, h2, m, hm, rfl, rfl⟩ := h
      exact .divide hd h1 h2 hm
  · intro h
    cases h with
    | straight hm => simp [items, hm]
    | mark | jump => rfl
    | jumpIf h1 h2 hk hl => simp [items, h1, h2, hk, hl, need]
    | jumpIfCst h1 h2 hk hl => simp [items, h1, h2, hk, hl, need, expect]
    | param h1 hq => simp [items, h1, hq, need]
    | call h1 h2 hl => simp [items, h1, h2, hl, need]
    | divide hd h1 h2 hl => simp [items, hd, h1, h2, hl, need]

end Action

/-- The items of a statement, and the parameters that wait behind it. -/
def Statement.items [Helper.Entries] (params : List Parameter) (x : Statement) :
    Except Fault (List Item × List Parameter) := do
  let r ← Rules.select x
  r.action.items params x

/-- The items of a statement are what the action of its rule gives. -/
theorem Statement.items_eq_ok [Helper.Entries] {params rest : List Parameter} {x : Statement}
    {l : List Item} (h : x.items params = .ok (l, rest)) :
    ∃ r a, Rules.select x = .ok r ∧ r.action = a ∧ a.Gives params x l rest := by
  obtain ⟨r, hr, h⟩ := Except.bind_eq_ok_iff.mp h
  exact ⟨r, r.action, hr, rfl, Action.items_eq_ok_iff.mp h⟩

/-- The items of each statement of a program, and the parameters that wait behind it. -/
def Program.bodies [Helper.Entries] :
    List Parameter → Program → Except Fault (List (List Item) × List Parameter)
  | params, [] => return ([], params)
  | params, x :: rest => do
    let (l, params) ← x.items params
    let (ls, params) ← bodies params rest
    return (l :: ls, params)

/-- A function before it has a place: the code that surrounds it and the items of each
statement. -/
structure Assembly where
  prolog : List Instr
  body : List (List Item)
  epilog : List Instr

/-- All items of a function in order. -/
def Assembly.items (a : Assembly) : List Item :=
  a.prolog.map .instr ++ a.body.flatten ++ a.epilog.map .instr

/-- The items of a function, whose parameters are all taken by calls. -/
def Program.assemble [Helper.Entries] (p : Program) (frame : UInt32) : Except Fault Assembly := do
  let saved ← Frame.saved (← Frame.usage p)
  let prolog ← Frame.prolog frame saved
  let (body, params) ← Program.bodies [] p
  if !params.isEmpty then throw (.unusedParameters params.length)
  return ⟨prolog, body, Frame.epilog frame saved⟩

/-- What makes up the items of a function. -/
theorem Program.assemble_eq_ok_iff [Helper.Entries] {p : Program} {frame : UInt32} {a : Assembly} :
    p.assemble frame = .ok a ↔ ∃ used saved prolog body,
      Frame.usage p = .ok used ∧ Frame.saved used = .ok saved ∧
      Frame.prolog frame saved = .ok prolog ∧ Program.bodies [] p = .ok (body, []) ∧
      a = ⟨prolog, body, Frame.epilog frame saved⟩ := by
  simp only [assemble, Except.bind_eq_ok_iff]
  constructor
  · rintro ⟨used, hu, saved, hs, prolog, hp, ⟨body, params⟩, hb, h⟩
    cases params with
    | cons q params => simp at h
    | nil => exact ⟨used, saved, prolog, body, hu, hs, hp, hb, (Except.pure_eq_ok_iff.mp h).symm⟩
  · rintro ⟨used, saved, prolog, body, hu, hs, hp, hb, rfl⟩
    exact ⟨used, hu, saved, hs, prolog, hp, (body, []), hb, rfl⟩

theorem Program.length_bodies [Helper.Entries] {params rest : List Parameter} {p : Program}
    {ls : List (List Item)} (h : Program.bodies params p = .ok (ls, rest)) :
    ls.length = p.length := by
  induction p generalizing params ls with
  | nil =>
    obtain ⟨rfl, -⟩ := Prod.mk.inj (Except.pure_eq_ok_iff.mp h)
    rfl
  | cons x p ih =>
    simp only [bodies, Except.bind_eq_ok_iff, Except.pure_eq_ok_iff] at h
    obtain ⟨⟨l, ps⟩, -, ⟨ls', ps'⟩, hr, h⟩ := h
    obtain ⟨rfl, rfl⟩ := Prod.mk.inj h
    rw [List.length_cons, List.length_cons, ih hr]

/-! ### Instructions are no branches to labels -/

namespace Items

theorem plain_append {l r : List Item} : Plain (l ++ r) ↔ Plain l ∧ Plain r := by
  simp only [Plain, List.mem_append]
  exact ⟨fun h => ⟨fun i hi => h i (.inl hi), fun i hi => h i (.inr hi)⟩,
    fun h i hi => hi.elim (h.1 i) (h.2 i)⟩

theorem plain_nil : Plain [] := by
  intro i hi
  cases hi

theorem plain_instrs {l : List Instr} (h : ∀ i ∈ l, i.isBranch = false) :
    Plain (l.map .instr) := by
  intro i hi
  obtain ⟨j, hj, he⟩ := List.mem_map.mp hi
  obtain rfl := Item.instr.inj he
  exact h j hj

theorem plain_of_confined {l : List Instr} (h : Confined (fun _ => True) (fun _ => True) l) :
    Plain (l.map .instr) :=
  plain_instrs fun i hi => (h i hi).isBranch_eq_false

theorem plain_call (addr : UInt32) : Plain (Item.call addr) := by
  intro i hi
  simp only [Item.call, Constant.loadPair, Instr.mov, List.cons_append, List.nil_append,
    List.map_cons, List.map_nil, List.mem_cons, reduceCtorEq, false_or, Item.instr.injEq,
    List.not_mem_nil, or_false] at hi
  rcases hi with rfl | rfl | rfl | rfl <;> rfl

theorem plain_jumpItems {x : Statement} {c : Except Fault (List Instr)} {l : List Item}
    (hc : ∀ m, c = .ok m → Confined (fun _ => True) (fun _ => True) m)
    (h : Action.jumpItems x c = .ok l) : Plain l := by
  obtain ⟨m, cc, hm, -, rfl⟩ := Action.jumpItems_eq_ok h
  exact plain_append.mpr ⟨plain_of_confined (hc m hm), fun i hi => by simp at hi⟩

theorem plain_divideItems [Helper.Entries] {signed : Bool} {d s1 s2 : Operand} {l : List Item}
    (h : Action.divideItems signed d s1 s2 = .ok l) : Plain l := by
  obtain ⟨-, a, b, q, r, ha, hb, hq, hr, rfl⟩ := Action.divideItems_eq_ok h
  have hp (g : RegisterSet) : Plain ([Instr.stmdb .sp g].map .instr) :=
    plain_instrs (by simp [Instr.isBranch])
  have hp' (g : RegisterSet) : Plain ([Instr.ldmia .sp g].map .instr) :=
    plain_instrs (by simp [Instr.isBranch])
  have ha := plain_of_confined (Access.confined_argument trivial ha)
  have hb := plain_of_confined (Access.confined_argument trivial hb)
  have hq := plain_of_confined (Access.confined_store64_low (fun _ _ => trivial) hq)
  have hr := plain_of_confined (Access.confined_store64_high (fun _ _ => trivial) hr)
  simp only [List.map_append, plain_append]
  exact ⟨⟨⟨ha, hb⟩, hp _⟩, plain_call _, hq, hp' _, plain_call _, hr, plain_nil⟩

end Items

/-- The instructions of a statement are no branches to labels. -/
theorem Statement.plain_items [Helper.Entries] {params rest : List Parameter} {x : Statement}
    {l : List Item} (h : x.items params = .ok (l, rest)) : Items.Plain l := by
  obtain ⟨r, a, hr, ha, h⟩ := Statement.items_eq_ok h
  cases h with
  | @straight a m hm =>
    have hp : a.Permits (fun _ => True) (fun _ => True) 0 x :=
      ⟨fun _ _ => trivial, fun _ _ _ _ _ => trivial, fun hd _ => Rules.kind_of_select hr ha hd,
        fun _ _ _ _ => trivial, fun _ => trivial⟩
    exact Items.plain_of_confined (Straight.confined hp hm)
  | mark | jump =>
    intro i hi
    simp at hi
  | jumpIf _ _ _ hl =>
    exact Items.plain_jumpItems (fun _ => Straight.confined_compareCode trivial trivial) hl
  | jumpIfCst _ _ _ hl =>
    exact Items.plain_jumpItems (fun _ => Straight.confined_compareCstCode trivial trivial) hl
  | param => exact Items.plain_nil
  | call _ _ hl =>
    obtain ⟨-, -, m, hm, rfl⟩ := Action.callItems_eq_ok hl
    have hm := Items.plain_of_confined (Parameter.confined_codeAll (fun _ _ => trivial) hm)
    exact Items.plain_append.mpr ⟨hm, Items.plain_call _⟩
  | divide _ _ _ hl => exact Items.plain_divideItems hl

theorem Program.plain_bodies [Helper.Entries] {params rest : List Parameter} {p : Program}
    {ls : List (List Item)} (h : Program.bodies params p = .ok (ls, rest)) :
    Items.Plain ls.flatten := by
  induction p generalizing params ls with
  | nil =>
    obtain ⟨rfl, -⟩ := Prod.mk.inj (Except.pure_eq_ok_iff.mp h)
    exact Items.plain_nil
  | cons x p ih =>
    simp only [bodies, Except.bind_eq_ok_iff, Except.pure_eq_ok_iff] at h
    obtain ⟨⟨l, ps⟩, hl, ⟨ls', ps'⟩, hr, h⟩ := h
    obtain ⟨rfl, rfl⟩ := Prod.mk.inj h
    rw [List.flatten_cons]
    exact Items.plain_append.mpr ⟨Statement.plain_items hl, ih hr⟩

namespace Frame

theorem plain_adjust (op : AluOp) (size : UInt32) : Items.Plain ((adjust op size).map .instr) := by
  unfold adjust
  split_ifs
  · exact Items.plain_nil
  · split
    · exact Items.plain_instrs (by simp [Instr.isBranch])
    · rw [List.map_append]
      exact Items.plain_append.mpr ⟨Items.plain_of_confined (Constant.confined_load trivial _),
        Items.plain_instrs (by simp [Instr.isBranch])⟩

theorem plain_prolog {size : UInt32} {saved : RegisterSet} {l : List Instr}
    (h : prolog size saved = .ok l) : Items.Plain (l.map .instr) := by
  unfold prolog at h
  split_ifs at h
  obtain rfl := Except.ok.inj h
  simp only [List.map_append, Items.plain_append]
  exact ⟨⟨Items.plain_instrs (by simp [Instr.isBranch]), plain_adjust _ _⟩,
    Items.plain_instrs (by simp [Instr.isBranch, Instr.mov])⟩

theorem plain_epilog (size : UInt32) (saved : RegisterSet) :
    Items.Plain ((epilog size saved).map .instr) := by
  rw [epilog, List.map_append]
  exact Items.plain_append.mpr ⟨plain_adjust _ _, Items.plain_instrs (by simp [Instr.isBranch])⟩

end Frame

/-- The instructions of a function are no branches to labels. -/
theorem Program.plain_assemble [Helper.Entries] {p : Program} {frame : UInt32} {a : Assembly}
    (h : p.assemble frame = .ok a) : Items.Plain a.items := by
  obtain ⟨used, saved, prolog, body, -, -, hp, hb, rfl⟩ := Program.assemble_eq_ok_iff.mp h
  exact Items.plain_append.mpr ⟨Items.plain_append.mpr ⟨Frame.plain_prolog hp,
    Program.plain_bodies hb⟩, Frame.plain_epilog _ _⟩

end A32Lowering
