import Mathlib
import A32Lowering.Proofs.Emission

/-!
# Parameters that wait for a call

Which parameters wait at a statement, read off the statements in front of it: a parameter statement
puts its operand in front of those that wait, and a call takes as many as it names from the front.
The session keeps the parameters that these operands declare, in the same order.

## Main definitions

* `Statement.waiting`, `Program.waiting` : the operands of the parameters that wait.
* `Parameter.DeclaredBy` : the parameter that an operand declares.

## Main results

* `Statement.declared_items`, `Program.declared_bodies` : a statement and a program keep the
  parameters in step with the operands.
* `LowerAt.declared_upTo` : the parameters that a session keeps at a statement.
-/

namespace A32Lowering

namespace Statement

/-- The number of parameters that a call names. -/
def count (x : Statement) : Nat := (x.src2.map fun n => n.low.toNat).getD 0

/-- The operands of the parameters that wait behind a statement, the last declared one first, when
`os` are those that wait in front of it. -/
def waiting (x : Statement) (os : List Operand) : List Operand :=
  match x.op with
  | .param | .paramRet => x.src1.toList ++ os
  | .call => os.drop x.count
  | _ => os

end Statement

/-- The operands of the parameters that wait in front of the statement with an index, the last
declared one first. -/
def Program.waiting (p : Program) (k : Nat) : List Operand :=
  (p.take k).foldl (fun os x => x.waiting os) []

/-- A parameter that a statement with an operand declares. -/
def Parameter.DeclaredBy (q : Parameter) (o : Operand) : Prop :=
  ∃ c, ∃ sh ∈ Action.parameterShapes c, sh.src1.admitsOperand o = true ∧ declare o c = .ok q

theorem Parameter.DeclaredBy.general {q : Parameter} {o : Operand} (h : q.DeclaredBy o) :
    q.General := by
  obtain ⟨c, sh, -, -, hd⟩ := h
  exact general_declare hd

/-- The shapes of parameter statements. -/
theorem Action.op_of_parameterShapes {c : ParameterClass} {sh : Shape}
    (h : sh ∈ parameterShapes c) : (sh.op = .param ∨ sh.op = .paramRet) ∧ sh.src1 ≠ .absent := by
  have hall : ∀ c ∈ [ParameterClass.context, .register, .memory, .constant, .memory64, .constant64,
      .memory128], ∀ sh ∈ parameterShapes c,
      (sh.op = .param ∨ sh.op = .paramRet) ∧ sh.src1 ≠ .absent := by decide
  exact hall c (by cases c <;> decide) sh h

namespace Statement

variable {x : Statement} {ps qs : List Parameter} {os : List Operand} {l : List Item}

theorem waiting_of_isQuiet {r : Rule Action} (hr : r ∈ Rules.general ++ Rules.wide)
    (hop : x.op = r.shape.op) (hq : r.action.isQuiet = true) : x.waiting os = os := by
  obtain ⟨h1, h2, h3⟩ := (Rules.isQuiet_iff hr).mp hq
  unfold waiting
  split
  · exact absurd (hop.symm.trans ‹_›) h1
  · exact absurd (hop.symm.trans ‹_›) h2
  · exact absurd (hop.symm.trans ‹_›) h3
  · rfl

/-- A statement keeps the parameters in step with the operands. -/
theorem declared_items [Helper.Entries] (h : x.items ps = .ok (l, qs))
    (hd : List.Forall₂ Parameter.DeclaredBy ps os) :
    List.Forall₂ Parameter.DeclaredBy qs (x.waiting os) := by
  obtain ⟨r, a, hr, ha, h⟩ := items_eq_ok h
  obtain ⟨hmem, hadm⟩ := Rules.select_eq_ok hr
  have hsh := Rules.shape_mem_shapes hmem
  obtain ⟨hop, -, h1, -⟩ := Shape.admits_iff.mp hadm
  -- All but parameter statements and calls leave the parameters as they are.
  cases h with
  | straight | mark | jump | jumpIf | jumpIfCst | divide =>
    rwa [waiting_of_isQuiet hmem hop (by rw [ha]; rfl)]
  | @param c o q ho hq =>
    rw [ha] at hsh
    obtain ⟨hparam, hne⟩ := Action.op_of_parameterShapes hsh
    obtain ⟨o', ho', hadm⟩ := (Pattern.admits_iff hne).mp h1
    obtain rfl := Option.some.inj (ho.symm.trans ho')
    have hw : x.waiting os = o :: os := by
      rw [← hop] at hparam
      rcases hparam with hp | hp <;> simp [waiting, hp, ho]
    rw [hw]
    exact .cons ⟨c, _, hsh, hadm, hq⟩ hd
  | @call _ count _ _ _ hcount hl =>
    rw [ha] at hsh
    have hcall : x.op = .call := hop.trans (congrArg Shape.op (List.mem_singleton.mp hsh))
    obtain ⟨-, rfl, -⟩ := Action.callItems_eq_ok hl
    have hw : x.waiting os = os.drop count.low.toNat := by
      simp [waiting, hcall, Statement.count, hcount]
    rw [hw]
    exact List.forall₂_drop _ hd

end Statement

/-- A program keeps the parameters in step with the operands. -/
theorem Program.declared_bodies [Helper.Entries] {p : Program} {ps qs : List Parameter}
    {os : List Operand} {ls : List (List Item)} (h : Program.bodies ps p = .ok (ls, qs))
    (hd : List.Forall₂ Parameter.DeclaredBy ps os) :
    List.Forall₂ Parameter.DeclaredBy qs (p.foldl (fun os x => x.waiting os) os) := by
  induction p generalizing ps os ls with
  | nil =>
    obtain ⟨-, rfl⟩ := Prod.mk.inj (Except.pure_eq_ok_iff.mp h)
    exact hd
  | cons x p ih =>
    simp only [bodies, Except.bind_eq_ok_iff, Except.pure_eq_ok_iff] at h
    obtain ⟨⟨l, ps'⟩, hl, ⟨ls', qs'⟩, hr, h⟩ := h
    obtain ⟨-, rfl⟩ := Prod.mk.inj h
    exact ih hr (Statement.declared_items hl hd)

/-- The items of the statement with an index, and the parameters that wait in front of it. -/
theorem Program.declared_at [Helper.Entries] {p : Program} {ps qs : List Parameter}
    {os : List Operand} {ls : List (List Item)} (h : Program.bodies ps p = .ok (ls, qs))
    (hd : List.Forall₂ Parameter.DeclaredBy ps os) {k : Nat} {x : Statement}
    (hk : p[k]? = some x) : ∃ l ps' qs', ls[k]? = some l ∧ x.items ps' = .ok (l, qs') ∧
      List.Forall₂ Parameter.DeclaredBy ps' ((p.take k).foldl (fun os x => x.waiting os) os) := by
  induction p generalizing ps os ls k with
  | nil => simp at hk
  | cons y p ih =>
    simp only [bodies, Except.bind_eq_ok_iff, Except.pure_eq_ok_iff] at h
    obtain ⟨⟨l, ps'⟩, hl, ⟨ls', qs'⟩, hr, h⟩ := h
    obtain ⟨rfl, rfl⟩ := Prod.mk.inj h
    cases k with
    | zero =>
      obtain rfl := Option.some.inj hk
      exact ⟨l, ps, ps', rfl, hl, hd⟩
    | succ k => exact ih hr (Statement.declared_items hl hd) hk

/-- The parameters that a session keeps at a statement are those that the operands declare which
wait there. -/
theorem LowerAt.declared_upTo [Helper.Entries] {s u : Session} (hs : s.Idle) {p : Program}
    {frame : UInt32} {k : Nat} (h : outcome (upTo p frame k) s = (.ok (), u)) :
    List.Forall₂ Parameter.DeclaredBy u.params (p.waiting k) := by
  obtain ⟨⟨ls, hb⟩, -, -⟩ := frame_upTo hs h
  exact Program.declared_bodies hb .nil

end A32Lowering
