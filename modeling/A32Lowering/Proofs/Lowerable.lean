import Mathlib
import A32Lowering.Proofs.Accessible
import A32Lowering.Proofs.Assembly

/-!
# Which statements can be lowered

The conditions under which the items of a statement can be had, read off the statement alone, apart
from the parameters that wait for a call.

## Main definitions

* `Statement.slots` : the operands of a statement.
* `Statement.Fits`, `Statement.Lowerable` : the conditions on one statement.
* `Action.shapes` : the shapes of the rules that have an action.

## Main results

* `Statement.fits_iff_usable`, `Statement.fits_iff_defines` : the conditions, by what an operation
  does with its operands.
* `Shape.admits_unary`, `Shape.admits_binary` : the operands that a shape describes.
* `Rules.shape_mem_shapes` : a rule has a shape of its action.
* `Straight.succeeds_code` : when a straight-line lowering succeeds.
* `Action.succeeds_items` : when the items of a statement that is no parameter and no call can be
  had.
-/

namespace A32Lowering

/-- The operands of a statement. -/
def Statement.slots (x : Statement) : List Operand := [x.dst, x.src1, x.src2].filterMap id

/-- The operations whose destination is computed in a register first. -/
def Op.defines : Op → Bool
  | .add | .sub | .and | .or | .xor | .srl | .sra | .sll | .cmp => true
  | _ => false

/-- The operations that read the condition of a statement. -/
def Op.compares : Op → Bool
  | .cmp | .condjmp => true
  | _ => false

/-- The operations that divide. -/
def Op.divides : Op → Bool
  | .div | .divs => true
  | _ => false

/-- The conditions on the operands and on the condition of a statement. A division stores its
quotient while two words are on the stack. -/
structure Statement.Fits (x : Statement) : Prop where
  registers : ∀ o ∈ x.slots, o.kind = .register → o.low < 6
  definable : x.op.defines = true → ∀ d, x.dst = some d → d.kind ≠ .constant
  condition : x.op.compares = true → x.cond ∈ Condition.named
  sources : ∀ o, x.src1 = some o ∨ x.src2 = some o → o.Accessible
  destination : ∀ d, x.dst = some d →
    if x.op.divides then d.slot + 8 < 4096 ∧ d.slot + 4 < 4096 else d.Accessible

/-- A statement that a rule of the table is for and that fits. -/
structure Statement.Lowerable (x : Statement) : Prop extends x.Fits where
  rule : ∃ r ∈ Rules.general ++ Rules.wide, r.shape.admits x = true

theorem Statement.fits_iff {x : Statement} (h : x.op.divides = false) : x.Fits ↔
    (∀ o ∈ x.slots, o.Usable) ∧
    (x.op.defines = true → ∀ d, x.dst = some d → d.kind ≠ .constant) ∧
    (x.op.compares = true → x.cond ∈ Condition.named) := by
  have hmem {o : Operand} : o ∈ x.slots ↔ x.dst = some o ∨ x.src1 = some o ∨ x.src2 = some o := by
    simp [slots, eq_comm]
  constructor
  · refine fun hf => ⟨fun o ho => ⟨?_, hf.registers o ho⟩, hf.definable, hf.condition⟩
    rcases hmem.mp ho with ho | ho
    · simpa [h] using hf.destination o ho
    · exact hf.sources o ho
  · refine fun ⟨hu, hd, hc⟩ => ⟨fun o ho => (hu o ho).register, hd, hc,
      fun o ho => (hu o (hmem.mpr (.inr ho))).toAccessible, fun d ho => ?_⟩
    simpa [h] using (hu d (hmem.mpr (.inl ho))).toAccessible

/-- The operations that neither divide, nor read a condition, nor compute their result in a register
first, ask for nothing but operands that can be used. -/
theorem Statement.fits_iff_usable {x : Statement} (h : x.op.divides = false)
    (hd : x.op.defines = false) (hc : x.op.compares = false) :
    x.Fits ↔ ∀ o ∈ x.slots, o.Usable := by
  simp [fits_iff h, hd, hc]

/-- The operations that compute their result in a register first. -/
theorem Statement.fits_iff_defines {x : Statement} {d s t : Operand} (h : x.op.defines = true)
    (hd : x.dst = some d) (hs : x.src1 = some s) (ht : x.src2 = some t) :
    x.Fits ↔ (d.kind ≠ .constant ∧ d.Usable) ∧ (s.Usable ∧ t.Usable) ∧
      (x.op.compares = true → x.cond ∈ Condition.named) := by
  have hdiv : x.op.divides = false := by
    revert h
    cases x.op <;> simp [Op.defines, Op.divides]
  rw [fits_iff hdiv]
  simp only [slots, hd, hs, ht, h, List.filterMap_cons, id_eq, List.filterMap_nil,
    List.forall_mem_cons, List.not_mem_nil, false_implies, implies_true, and_true,
    Option.some.injEq, forall_const, forall_eq']
  tauto

namespace Pattern

theorem admits_absent {o : Option Operand} : absent.admits o = true ↔ o = none := by
  cases o <;> simp [admits, admitsOperand]

theorem admits_iff {p : Pattern} (h : p ≠ absent) {o : Option Operand} :
    p.admits o = true ↔ ∃ s, o = some s ∧ p.admitsOperand s = true := by
  cases o <;> simp [admits, h]

theorem any_of_var {s : Operand} (h : var.admitsOperand s = true) :
    any.admitsOperand s = true := by
  simp only [admitsOperand, Bool.or_eq_true] at h ⊢
  exact .inl h

theorem kind_of_admits_register {o : Option Operand} {s : Operand} (h : register.admits o = true)
    (ho : o = some s) : s.kind = .register := by
  subst ho
  exact of_decide_eq_true h

end Pattern

theorem Shape.admits_iff {op : Op} {d p q : Pattern} {x : Statement} :
    (⟨op, d, p, q⟩ : Shape).admits x = true ↔
      x.op = op ∧ d.admits x.dst = true ∧ p.admits x.src1 = true ∧ q.admits x.src2 = true := by
  simp only [admits, Bool.and_eq_true, decide_eq_true_eq, and_assoc, @eq_comm _ op]

/-- The operands of a statement with one source. -/
theorem Shape.admits_unary {sh : Shape} {x : Statement} (h : sh.admits x = true)
    (hd : sh.dst ≠ .absent) (hs : sh.src1 ≠ .absent) (ht : sh.src2 = .absent) :
    x.op = sh.op ∧ ∃ d s, x.dst = some d ∧ x.src1 = some s ∧ x.src2 = none ∧
      sh.dst.admitsOperand d = true ∧ sh.src1.admitsOperand s = true := by
  obtain ⟨ho, h0, h1, h2⟩ := Shape.admits_iff.mp h
  obtain ⟨d, hd, hkd⟩ := (Pattern.admits_iff hd).mp h0
  obtain ⟨s, hs, hks⟩ := (Pattern.admits_iff hs).mp h1
  exact ⟨ho, d, s, hd, hs, Pattern.admits_absent.mp (ht ▸ h2), hkd, hks⟩

/-- The operands of a statement with two sources. -/
theorem Shape.admits_binary {sh : Shape} {x : Statement} (h : sh.admits x = true)
    (hd : sh.dst ≠ .absent) (hs : sh.src1 ≠ .absent) (ht : sh.src2 ≠ .absent) :
    x.op = sh.op ∧ ∃ d s t, x.dst = some d ∧ x.src1 = some s ∧ x.src2 = some t ∧
      sh.dst.admitsOperand d = true ∧ sh.src1.admitsOperand s = true ∧
      sh.src2.admitsOperand t = true := by
  obtain ⟨ho, h0, h1, h2⟩ := Shape.admits_iff.mp h
  obtain ⟨d, hd, hkd⟩ := (Pattern.admits_iff hd).mp h0
  obtain ⟨s, hs, hks⟩ := (Pattern.admits_iff hs).mp h1
  obtain ⟨t, ht, hkt⟩ := (Pattern.admits_iff ht).mp h2
  exact ⟨ho, d, s, t, hd, hs, ht, hkd, hks, hkt⟩

/-- The operation that a binary operation is for. -/
def Arith.op : Arith → Op
  | add => .add | sub => .sub | and => .and | or => .or | xor => .xor

namespace Action

/-- The shapes of the rules with straight-line code. -/
def straightShapes : Straight → List Shape
  | .nothing => [⟨.nop, .absent, .absent, .absent⟩]
  | .movRegReg => [⟨.mov, .register, .register, .absent⟩]
  | .movRegMem => [⟨.mov, .register, .memory, .absent⟩]
  | .movRegCst => [⟨.mov, .register, .constant, .absent⟩]
  | .movMemReg => [⟨.mov, .memory, .register, .absent⟩]
  | .movMemMem => [⟨.mov, .memory, .memory, .absent⟩]
  | .movMemCst => [⟨.mov, .memory, .constant, .absent⟩]
  | .arithCst a => [⟨a.op, .any, .any, .constant⟩]
  | .arith a => [⟨a.op, .any, .any, .any⟩]
  | .shift _ => [⟨.srl, .any, .any, .any⟩, ⟨.sra, .any, .any, .any⟩, ⟨.sll, .any, .any, .any⟩]
  | .compareCst => [⟨.cmp, .any, .any, .constant⟩]
  | .compare => [⟨.cmp, .any, .any, .any⟩]
  | .notRegReg => [⟨.not, .register, .register, .absent⟩]
  | .notMemReg => [⟨.not, .memory, .register, .absent⟩]
  | .notMemMem => [⟨.not, .memory, .memory, .absent⟩]
  | .resultReg => [⟨.retval, .register, .absent, .absent⟩]
  | .resultTmp => [⟨.retval, .temporary, .absent, .absent⟩]
  | .resultMem64 => [⟨.retval, .memory64, .absent, .absent⟩]
  | .multiply _ => [⟨.mul, .temporary64, .any, .any⟩, ⟨.muls, .temporary64, .any, .any⟩]
  | .refAddReg => [⟨.addref, .tmpRef, .relRef, .register⟩]
  | .refAddCst => [⟨.addref, .tmpRef, .relRef, .constant⟩]
  | .refLoadReg => [⟨.loadfromref, .register, .tmpRef, .absent⟩]
  | .refLoadMem => [⟨.loadfromref, .memory, .tmpRef, .absent⟩]
  | .refStoreReg => [⟨.storeatref, .absent, .tmpRef, .register⟩]
  | .refStoreRel => [⟨.storeatref, .absent, .tmpRef, .relative⟩]
  | .refStoreCst => [⟨.storeatref, .absent, .tmpRef, .constant⟩]
  | .mov64Mem => [⟨.mov64, .memory64, .memory64, .absent⟩]
  | .mov64Cst => [⟨.mov64, .memory64, .constant64, .absent⟩]
  | .arith64 _ _ _ => [.add64, .sub64, .and64].flatMap fun op =>
    [⟨op, .memory64, .memory64, .memory64⟩, ⟨op, .memory64, .memory64, .constant64⟩]

/-- The shapes of the rules that declare a parameter. -/
def parameterShapes : ParameterClass → List Shape
  | .context => [⟨.param, .absent, .context, .absent⟩]
  | .register => [⟨.param, .absent, .register, .absent⟩]
  | .memory => [⟨.param, .absent, .memory, .absent⟩]
  | .constant => [⟨.param, .absent, .constant, .absent⟩]
  | .memory64 => [⟨.param, .absent, .memory64, .absent⟩]
  | .constant64 => [⟨.param, .absent, .constant64, .absent⟩]
  | .memory128 =>
    [⟨.param, .absent, .memory128, .absent⟩, ⟨.paramRet, .absent, .temporary128, .absent⟩]

/-- The shapes of the rules that have an action. -/
def shapes : Action → List Shape
  | straight a => straightShapes a
  | mark => [⟨.label, .absent, .absent, .absent⟩]
  | jump => [⟨.jmp, .absent, .absent, .absent⟩]
  | jumpIf => [⟨.condjmp, .absent, .var, .var⟩]
  | jumpIfCst => [⟨.condjmp, .absent, .var, .constant⟩]
  | param c => parameterShapes c
  | call => [⟨.call, .absent, .constant, .constant⟩]
  | divide _ => [.div, .divs].flatMap fun op => [⟨op, .temporary64, .register, .register⟩,
    ⟨op, .temporary64, .register, .constant⟩, ⟨op, .temporary64, .memory, .constant⟩]

end Action

/-- A rule has a shape of its action. -/
theorem Rules.shape_mem_shapes {r : Rule Action} (h : r ∈ general ++ wide) :
    r.shape ∈ r.action.shapes := by
  have hall : ∀ r ∈ general ++ wide, r.shape ∈ r.action.shapes := by decide
  exact hall r h

open Access

namespace Straight

variable {x : Statement} {sh : Shape}

theorem succeeds_code_arithCst {a : Arith} (hsh : sh ∈ Action.straightShapes (arithCst a))
    (h : sh.admits x = true) : Succeeds ((arithCst a).code 0 x) ↔ x.Fits := by
  obtain rfl := List.mem_singleton.mp hsh
  obtain ⟨ho, d, s, t, hd, hs, ht, hkd, hks, hkt⟩ :=
    Shape.admits_binary h (by simp) (by simp) (by simp)
  have hop : a.op.defines = true ∧ a.op.compares = false := by cases a <;> decide
  have hkt : t.kind = .constant := of_decide_eq_true hkt
  rw [code, hd, hs, ht, Statement.fits_iff_defines (ho ▸ hop.1) hd hs ht, ho]
  exact (succeeds_arithCstCode hkd hks hkt).trans (by simp [usable_of_constant hkt, hop.2])

theorem succeeds_code_arith {a : Arith} (hsh : sh ∈ Action.straightShapes (arith a))
    (h : sh.admits x = true) : Succeeds ((arith a).code 0 x) ↔ x.Fits := by
  obtain rfl := List.mem_singleton.mp hsh
  obtain ⟨ho, d, s, t, hd, hs, ht, hkd, hks, hkt⟩ :=
    Shape.admits_binary h (by simp) (by simp) (by simp)
  have hop : a.op.defines = true ∧ a.op.compares = false := by cases a <;> decide
  rw [code, hd, hs, ht, Statement.fits_iff_defines (ho ▸ hop.1) hd hs ht, ho]
  exact (succeeds_arithCode hkd hks hkt).trans (by simp [hop.2])

theorem succeeds_code_shift {kind : ShiftKind} (hsh : sh ∈ Action.straightShapes (shift kind))
    (h : sh.admits x = true) : Succeeds ((shift kind).code 0 x) ↔ x.Fits := by
  obtain ⟨op, p, p₁, p₂⟩ := sh
  have hop : (op.defines = true ∧ op.compares = false) ∧ p = .any ∧ p₁ = .any ∧ p₂ = .any := by
    simp only [Action.straightShapes, List.mem_cons, List.not_mem_nil, or_false] at hsh
    rcases hsh with hsh | hsh | hsh <;> cases hsh <;> decide
  obtain ⟨hop, rfl, rfl, rfl⟩ := hop
  obtain ⟨ho, d, s, t, hd, hs, ht, hkd, hks, hkt⟩ :=
    Shape.admits_binary h (by simp) (by simp) (by simp)
  rw [code, hd, hs, ht, Statement.fits_iff_defines (ho ▸ hop.1) hd hs ht, ho]
  exact (succeeds_shiftCode hkd hks hkt).trans (by simp [hop.2])

theorem succeeds_code_compareCst (hsh : sh ∈ Action.straightShapes compareCst)
    (h : sh.admits x = true) : Succeeds (compareCst.code 0 x) ↔ x.Fits := by
  obtain rfl := List.mem_singleton.mp hsh
  obtain ⟨ho, d, s, t, hd, hs, ht, hkd, hks, hkt⟩ :=
    Shape.admits_binary h (by simp) (by simp) (by simp)
  have hkt : t.kind = .constant := of_decide_eq_true hkt
  have hcode := succeeds_comparison (c := x.cond) hkd (compareCstCode 0 s t)
  rw [succeeds_compareCstCode hks] at hcode
  rw [code, hd, hs, ht, Statement.fits_iff_defines (ho ▸ rfl) hd hs ht, ho]
  exact (succeeds_expect_bind hkt).trans
    (hcode.trans (by simp [usable_of_constant hkt, Op.compares]))

theorem succeeds_code_compare (hsh : sh ∈ Action.straightShapes compare)
    (h : sh.admits x = true) : Succeeds (compare.code 0 x) ↔ x.Fits := by
  obtain rfl := List.mem_singleton.mp hsh
  obtain ⟨ho, d, s, t, hd, hs, ht, hkd, hks, hkt⟩ :=
    Shape.admits_binary h (by simp) (by simp) (by simp)
  have hcode := succeeds_comparison (c := x.cond) hkd (compareCode 0 s t)
  rw [succeeds_compareCode hks hkt] at hcode
  rw [code, hd, hs, ht, Statement.fits_iff_defines (ho ▸ rfl) hd hs ht, ho]
  exact hcode.trans (by simp [Op.compares])

theorem succeeds_code_multiply {signed : Bool}
    (hsh : sh ∈ Action.straightShapes (multiply signed)) (h : sh.admits x = true) :
    Succeeds ((multiply signed).code 0 x) ↔ x.Fits := by
  obtain ⟨op, p, p₁, p₂⟩ := sh
  have hop : (op.divides = false ∧ op.defines = false ∧ op.compares = false) ∧
      p = .temporary64 ∧ p₁ = .any ∧ p₂ = .any := by
    simp only [Action.straightShapes, List.mem_cons, List.not_mem_nil, or_false] at hsh
    rcases hsh with hsh | hsh <;> cases hsh <;> decide
  obtain ⟨⟨hdiv, hdef, hcmp⟩, rfl, rfl, rfl⟩ := hop
  obtain ⟨ho, d, s, t, hd, hs, ht, hkd, hks, hkt⟩ :=
    Shape.admits_binary h (by simp) (by simp) (by simp)
  have hkd : d.kind = .temporary64 := of_decide_eq_true hkd
  rw [Statement.fits_iff_usable (ho ▸ hdiv) (ho ▸ hdef) (ho ▸ hcmp), code, hd, hs, ht]
  refine (succeeds_multiplyCode hkd hks hkt).trans ?_
  simp only [Statement.slots, hd, hs, ht, List.filterMap_cons, id_eq, List.filterMap_nil,
    List.forall_mem_cons, usable_iff_accessible (s := d) (by simp [hkd])]
  tauto

theorem succeeds_code_arith64 {lo hi : AluOp} {flags : Bool}
    (hsh : sh ∈ Action.straightShapes (arith64 lo flags hi)) (h : sh.admits x = true) :
    Succeeds ((arith64 lo flags hi).code 0 x) ↔ x.Fits := by
  obtain ⟨op, p, p₁, p₂⟩ := sh
  have hop : (op.divides = false ∧ op.defines = false ∧ op.compares = false) ∧
      p = .memory64 ∧ p₁ = .memory64 ∧ (p₂ = .memory64 ∨ p₂ = .constant64) := by
    simp only [Action.straightShapes, List.flatMap_cons, List.flatMap_nil, List.cons_append,
      List.nil_append, List.append_nil, List.mem_cons, List.not_mem_nil, or_false] at hsh
    rcases hsh with hsh | hsh | hsh | hsh | hsh | hsh <;> cases hsh <;> decide
  obtain ⟨⟨hdiv, hdef, hcmp⟩, rfl, rfl, hp⟩ := hop
  have hne : p₂ ≠ .absent := by rcases hp with rfl | rfl <;> decide
  obtain ⟨ho, d, s, t, hd, hs, ht, hkd, hks, hkt⟩ :=
    Shape.admits_binary h (by simp) (by simp) hne
  have hkt : t.isMemory64 = true ∨ t.kind = .constant64 := by
    rcases hp with rfl | rfl
    · exact .inl hkt
    · exact .inr (of_decide_eq_true hkt)
  have hu : t.Usable ↔ t.Accessible :=
    usable_iff_accessible fun hk => by simp [Operand.isMemory64, hk] at hkt
  rw [Statement.fits_iff_usable (ho ▸ hdiv) (ho ▸ hdef) (ho ▸ hcmp), code, hd, hs, ht]
  refine (succeeds_arith64Code hkd hks hkt).trans ?_
  simp only [Statement.slots, hd, hs, ht, List.filterMap_cons, id_eq, List.filterMap_nil,
    List.forall_mem_cons, usable_iff_of_isMemory64 hkd, usable_iff_of_isMemory64 hks, hu]
  tauto

theorem succeeds_code_refAdd {a : Straight} (ha : a = refAddReg ∨ a = refAddCst)
    (hsh : sh ∈ Action.straightShapes a) (h : sh.admits x = true) :
    Succeeds (a.code 0 x) ↔ x.Fits := by
  rcases ha with rfl | rfl
  all_goals
    obtain rfl := List.mem_singleton.mp hsh
    obtain ⟨ho, d, s, t, hd, hs, ht, hkd, hks, hkt⟩ :=
      Shape.admits_binary h (by simp) (by simp) (by simp)
    rw [Statement.fits_iff_usable (ho ▸ rfl) (ho ▸ rfl) (ho ▸ rfl)]
    have hadd : Succeeds (Constant.add .r0 .r0 t.low .r1) := succeeds_add (by decide)
    simp only [Pattern.admitsOperand, decide_eq_true_eq] at hkd hks hkt
    simp [code, Statement.slots, hd, hs, ht, succeeds_bind_iff, succeeds_register,
      succeeds_loadRelReference, succeeds_storeTmpReference, hadd, expect_of_eq,
      usable_iff_of_register, usable_of_constant, usable_iff_accessible, hkd, hks, hkt, and_comm,
      and_left_comm]

/-- The code of a straight-line lowering can be had exactly when the statement fits. -/
theorem succeeds_code {a : Straight} (hsh : sh ∈ Action.straightShapes a)
    (h : sh.admits x = true) : Succeeds (a.code 0 x) ↔ x.Fits := by
  cases a with
  | nothing =>
    obtain rfl := List.mem_singleton.mp hsh
    obtain ⟨ho, hd, hs, ht⟩ := Shape.admits_iff.mp h
    simp only [Pattern.admits_absent] at hd hs ht
    rw [Statement.fits_iff_usable (ho ▸ rfl) (ho ▸ rfl) (ho ▸ rfl)]
    simp [code, Statement.slots, hd, hs, ht]
  | movRegReg | movRegMem | movRegCst | movMemReg | movMemMem | movMemCst | notRegReg | notMemReg
  | notMemMem | refLoadReg | refLoadMem | mov64Mem | mov64Cst =>
    obtain rfl := List.mem_singleton.mp hsh
    obtain ⟨ho, d, s, hd, hs, ht, hkd, hks⟩ := Shape.admits_unary h (by simp) (by simp) rfl
    rw [Statement.fits_iff_usable (ho ▸ rfl) (ho ▸ rfl) (ho ▸ rfl)]
    simp only [Pattern.admitsOperand, decide_eq_true_eq] at hkd hks
    simp [code, Statement.slots, hd, hs, ht, succeeds_bind_iff, succeeds_register,
      succeeds_load, succeeds_store, succeeds_loadTmpReference, usable_iff_of_isMemory,
      succeeds_loadPair, succeeds_storePair, expect_of_eq, usable_of_constant, usable_of_constant64,
      usable_iff_of_register, usable_iff_of_isMemory64, usable_iff_accessible, hkd, hks, and_comm]
  | resultReg | resultTmp | resultMem64 =>
    obtain rfl := List.mem_singleton.mp hsh
    obtain ⟨ho, hd, hs, ht⟩ := Shape.admits_iff.mp h
    obtain ⟨d, hd, hkd⟩ := (Pattern.admits_iff (by simp)).mp hd
    simp only [Pattern.admits_absent] at hs ht
    rw [Statement.fits_iff_usable (ho ▸ rfl) (ho ▸ rfl) (ho ▸ rfl)]
    simp only [Pattern.admitsOperand, decide_eq_true_eq] at hkd
    simp [code, Statement.slots, hd, hs, ht, succeeds_bind_iff, succeeds_register,
      succeeds_storeTemporary, succeeds_storePair, expect_of_eq, usable_iff_of_register,
      usable_iff_of_isMemory64, usable_iff_accessible, hkd]
  | refStoreReg | refStoreRel | refStoreCst =>
    obtain rfl := List.mem_singleton.mp hsh
    obtain ⟨ho, hd, hs, ht⟩ := Shape.admits_iff.mp h
    obtain ⟨s, hs, hks⟩ := (Pattern.admits_iff (by simp)).mp hs
    obtain ⟨t, ht, hkt⟩ := (Pattern.admits_iff (by simp)).mp ht
    simp only [Pattern.admits_absent] at hd
    rw [Statement.fits_iff_usable (ho ▸ rfl) (ho ▸ rfl) (ho ▸ rfl)]
    simp only [Pattern.admitsOperand, decide_eq_true_eq] at hks hkt
    simp [code, Statement.slots, hd, hs, ht, succeeds_bind_iff, succeeds_register,
      succeeds_loadTmpReference, succeeds_loadRelative, expect_of_eq, usable_iff_of_register,
      usable_of_constant, usable_iff_accessible, hks, hkt]
  | refAddReg => exact succeeds_code_refAdd (.inl rfl) hsh h
  | refAddCst => exact succeeds_code_refAdd (.inr rfl) hsh h
  | arithCst a => exact succeeds_code_arithCst hsh h
  | arith a => exact succeeds_code_arith hsh h
  | shift kind => exact succeeds_code_shift hsh h
  | multiply signed => exact succeeds_code_multiply hsh h
  | arith64 lo flags hi => exact succeeds_code_arith64 hsh h
  | compareCst => exact succeeds_code_compareCst hsh h
  | compare => exact succeeds_code_compare hsh h

end Straight

namespace Action

/-- Whether an action leaves the parameters that wait alone. -/
def isQuiet : Action → Bool
  | param _ | call => false
  | _ => true

variable {params rest : List Parameter} {x : Statement} {a : Action}

theorem params_of_items [Helper.Entries] (hq : a.isQuiet = true) {l : List Item}
    (h : a.items params x = .ok (l, rest)) : rest = params := by
  cases items_eq_ok_iff.mp h with
  | param | call => cases hq
  | _ => rfl

theorem succeeds_jumpItems {compare : Except Fault (List Instr)} :
    Succeeds (jumpItems x compare) ↔ Succeeds compare ∧ x.cond ∈ Condition.named := by
  rw [jumpItems, succeeds_bind fun _ _ => succeeds_bind fun _ _ => iff_true_intro
    (succeeds_pure _), Straight.succeeds_ofCondition, and_true]

/-- A division needs its operands, and its destination above two words that it pushes. -/
theorem succeeds_divideItems [Helper.Entries] {signed : Bool} {d s1 s2 : Operand}
    (hd : d.kind = .temporary64) (h1 : Pattern.any.admitsOperand s1 = true)
    (h2 : Pattern.any.admitsOperand s2 = true) :
    Succeeds (divideItems signed d s1 s2) ↔
      s1.Usable ∧ s2.Usable ∧ d.slot + 8 < 4096 ∧ d.slot + 4 < 4096 := by
  rw [divideItems, succeeds_expect_bind hd, succeeds_bind fun _ _ => succeeds_bind fun _ _ =>
    succeeds_bind fun _ _ => succeeds_bind fun _ _ => iff_true_intro (succeeds_pure _),
    succeeds_argument h1, succeeds_argument h2, and_true]
  simp [store64, address64, hd, temporaryAddress, succeeds_temporary]

/-- A division fits when its sources do and its destination is above two words that it pushes. -/
theorem succeeds_items_divide [Helper.Entries] {signed : Bool} {sh : Shape}
    (hsh : sh ∈ (divide signed).shapes) (h : sh.admits x = true) :
    Succeeds ((divide signed).items params x) ↔ x.Fits := by
  obtain ⟨op, p, p₁, p₂⟩ := sh
  have hop : (op.divides = true ∧ op.defines = false ∧ op.compares = false) ∧
      p = .temporary64 ∧ (p₁ = .register ∨ p₁ = .memory) ∧ (p₂ = .register ∨ p₂ = .constant) := by
    simp only [shapes, List.flatMap_cons, List.flatMap_nil, List.cons_append, List.nil_append,
      List.append_nil, List.mem_cons, List.not_mem_nil, or_false] at hsh
    rcases hsh with hsh | hsh | hsh | hsh | hsh | hsh <;> cases hsh <;> decide
  obtain ⟨⟨hdiv, hdef, hcmp⟩, rfl, hp₁, hp₂⟩ := hop
  have hn₁ : p₁ ≠ .absent := by rcases hp₁ with rfl | rfl <;> decide
  have hn₂ : p₂ ≠ .absent := by rcases hp₂ with rfl | rfl <;> decide
  obtain ⟨ho, d, s, t, hd, hs, ht, hkd, hks, hkt⟩ := Shape.admits_binary h (by simp) hn₁ hn₂
  have hkd : d.kind = .temporary64 := of_decide_eq_true hkd
  have hks : Pattern.any.admitsOperand s = true := by
    rcases hp₁ with rfl | rfl <;> simp_all [Pattern.admitsOperand]
  have hkt : Pattern.any.admitsOperand t = true := by
    rcases hp₂ with rfl | rfl <;> simp_all [Pattern.admitsOperand]
  have hi : Succeeds ((divide signed).items params x) ↔
      s.Usable ∧ t.Usable ∧ d.slot + 8 < 4096 ∧ d.slot + 4 < 4096 := by
    rw [← succeeds_divideItems hkd hks hkt, items, hd, hs, ht]
    exact succeeds_map
  have hdiv : x.op.divides = true := ho ▸ hdiv
  have hdef : x.op.defines = false := ho ▸ hdef
  have hcmp : x.op.compares = false := ho ▸ hcmp
  rw [hi]
  constructor
  · rintro ⟨hus, hut, hw⟩
    refine ⟨?_, by simp [hdef], by simp [hcmp], ?_, ?_⟩
    · simpa [Statement.slots, hd, hs, ht, hkd] using ⟨hus.register, hut.register⟩
    · rintro o (ho | ho)
      · exact Option.some.inj (hs.symm.trans ho) ▸ hus.toAccessible
      · exact Option.some.inj (ht.symm.trans ho) ▸ hut.toAccessible
    · simpa [hdiv, hd] using hw
  · intro hf
    have hw := hf.destination d hd
    rw [if_pos hdiv] at hw
    exact ⟨⟨hf.sources s (.inl hs), hf.registers s (by simp [Statement.slots, hs])⟩,
      ⟨hf.sources t (.inr ht), hf.registers t (by simp [Statement.slots, ht])⟩, hw⟩

/-- The items of a statement that has nothing to do with parameters can be had exactly when the
statement fits. -/
theorem succeeds_items [Helper.Entries] (hq : a.isQuiet = true) {sh : Shape} (hs : sh ∈ a.shapes)
    (h : sh.admits x = true) : Succeeds (a.items params x) ↔ x.Fits := by
  cases a with
  | param | call => cases hq
  | straight a =>
    rw [items, succeeds_bind fun _ _ => iff_true_intro (succeeds_pure _), and_true]
    exact Straight.succeeds_code hs h
  | mark | jump =>
    cases List.mem_singleton.mp hs
    obtain ⟨ho, hd, hs, ht⟩ := Shape.admits_iff.mp h
    simp only [Pattern.admits_absent] at hd hs ht
    rw [Statement.fits_iff_usable (ho ▸ rfl) (ho ▸ rfl) (ho ▸ rfl)]
    simp [items, Statement.slots, hd, hs, ht]
  | jumpIf =>
    cases List.mem_singleton.mp hs
    obtain ⟨ho, hd, hs, ht⟩ := Shape.admits_iff.mp h
    obtain ⟨s, hs, hks⟩ := (Pattern.admits_iff (by simp)).mp hs
    obtain ⟨t, ht, hkt⟩ := (Pattern.admits_iff (by simp)).mp ht
    simp only [Pattern.admits_absent] at hd
    have hk : t.kind ≠ .constant := by
      intro hk
      simp [Pattern.admitsOperand, Operand.isMemory, hk] at hkt
    have hcode := Straight.succeeds_compareCode (Pattern.any_of_var hks) (Pattern.any_of_var hkt)
    rw [Statement.fits_iff (ho ▸ rfl)]
    simp [items, Statement.slots, Op.defines, Op.compares, ho, hd, hs, ht, succeeds_bind_iff, hk,
      succeeds_jumpItems, hcode]
  | jumpIfCst =>
    cases List.mem_singleton.mp hs
    obtain ⟨ho, hd, hs, ht⟩ := Shape.admits_iff.mp h
    obtain ⟨s, hs, hks⟩ := (Pattern.admits_iff (by simp)).mp hs
    obtain ⟨t, ht, hkt⟩ := (Pattern.admits_iff (by simp)).mp ht
    simp only [Pattern.admits_absent] at hd
    have hk : t.kind = .constant := of_decide_eq_true hkt
    have hcode : Succeeds (Straight.compareCstCode 0 s t) ↔ s.Usable :=
      Straight.succeeds_compareCstCode (Pattern.any_of_var hks)
    rw [Statement.fits_iff (ho ▸ rfl)]
    simp [items, Statement.slots, Op.defines, Op.compares, ho, hd, hs, ht, succeeds_bind_iff, hk,
      expect_of_eq, succeeds_jumpItems, hcode, usable_of_constant]
  | divide signed => exact succeeds_items_divide hs h

end Action

end A32Lowering
