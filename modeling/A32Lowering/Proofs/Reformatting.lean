import Mathlib
import A32Lowering.Proofs.Sentences

/-!
# Printing what was read

Whatever is read can be printed and is read again. The printed form shows every operation, every
condition and every operand, and the block number of an operation that refers to a block. A block
number behind any other operation is accepted and kept, but it is not printed.

## Main definitions

* `Statement.shown` : the statement with its block number as far as it is printed.

## Main results

* `Operand.Spelled.normal`, `Sentence.Spelled.isNamed` : everything in a statement that was read has
  a name, and only its block number can get lost.
* `Program.read_text_of_read` : what printing and reading again gives, and when nothing is lost.
-/

namespace A32Lowering

open Text

/-- The statement with its block number as far as it is printed: zero unless the operation refers
to a block. -/
def Statement.shown (x : Statement) : Statement :=
  { x with block := if x.op.jumps then x.block else 0 }

theorem Statement.shown_eq_self_iff {x : Statement} :
    x.shown = x ↔ x.op.jumps = true ∨ x.block = 0 := by
  obtain ⟨op, cond, dst, src1, src2, block⟩ := x
  by_cases hj : op.jumps = true
  · simp [shown, hj]
  · simp [shown, hj, eq_comm]

namespace Operand

theorem isNamed_some {s : Operand} : IsNamed (some s) ↔ s.kind ∈ Kind.named := by
  simp [IsNamed]

/-- A number behind a storage name makes an operand that shows everything it holds. -/
theorem normal_of_mem_storage {e : String × (UInt32 → Operand)} (he : e ∈ storage) (v : UInt32) :
    (e.2 v).kind ∈ Kind.named ∧ (e.2 v).normal = e.2 v := by
  simp only [storage, List.mem_cons, List.not_mem_nil, or_false] at he
  rcases he with rfl | rfl | rfl | rfl | rfl | rfl | rfl | rfl | rfl <;>
    exact ⟨List.elem_iff.mp rfl, rfl⟩

/-- An operand that is spelled has a named storage class and shows everything it holds. -/
theorem Spelled.normal {o : Option Operand} {w : Text} (h : Spelled o w) :
    IsNamed o ∧ o.map Operand.normal = o := by
  have hsome {s : Operand} (hs : s.kind ∈ Kind.named ∧ s.normal = s) :
      IsNamed (some s) ∧ (some s).map Operand.normal = some s :=
    ⟨isNamed_some.mpr hs.1, congrArg some hs.2⟩
  cases h with
  | absent => exact ⟨fun s hs => (by cases hs), rfl⟩
  | context => exact hsome ⟨List.elem_iff.mp rfl, rfl⟩
  | constant _ => exact hsome ⟨List.elem_iff.mp rfl, rfl⟩
  | constant64 _ => exact hsome ⟨List.elem_iff.mp rfl, rfl⟩
  | colon hs _ _ => exact hsome (normal_of_mem_storage hs _)
  | bare hs _ _ _ => exact hsome (normal_of_mem_storage hs _)

end Operand

namespace Sentence

theorem OperandsSpelled.exists_spelled {n : Nat} {os : List (Option Operand)} {t : Text}
    (h : OperandsSpelled n os t) : ∀ o ∈ os, ∃ w, Operand.Spelled o w := by
  induction h with
  | nil => simp
  | cons _ ho _ ih => exact List.forall_mem_cons.mpr ⟨⟨_, ho⟩, ih⟩

/-- What a statement that is made by a sentence shows: named parts, and operands with nothing but
what is printed. -/
theorem Spelled.isNamed {s : Sentence} {t : Text} (h : s.Spelled t) :
    s.statement.IsNamed ∧ s.statement.normal = s.statement.shown := by
  obtain ⟨⟨hop, hcond⟩, hos⟩ : (s.op ∈ Op.named ∧ (s.cond = .none ∨ s.cond ∈ Condition.named)) ∧
      ∀ o ∈ s.operands, ∃ w, Operand.Spelled o w := by
    cases h with
    | short _ hh _ _ _ _ => exact ⟨⟨hh.cut_dot.1, hh.cut_dot.2.1⟩, by simp⟩
    | full hh hos _ _ => exact ⟨⟨hh.cut_dot.1, hh.cut_dot.2.1⟩, hos.exists_spelled⟩
  have hoperand (i : Nat) : Operand.IsNamed (s.operands[i]?).join ∧
      ((s.operands[i]?).join).map Operand.normal = (s.operands[i]?).join := by
    cases hi : s.operands[i]? with
    | none => exact ⟨fun s hs => (by cases hs), rfl⟩
    | some o =>
      obtain ⟨w, hw⟩ := hos o (List.mem_of_getElem? hi)
      exact hw.normal
  refine ⟨⟨hop, hcond, (hoperand 0).1, (hoperand 1).1, (hoperand 2).1⟩, ?_⟩
  simp only [Statement.normal, Statement.shown, statement, (hoperand 0).2, (hoperand 1).2,
    (hoperand 2).2]

end Sentence

namespace Program

/-- The statements of a program that was read. -/
theorem isNamed_of_read {t : Text} {p : Program} (h : Program.read t = .ok p) :
    ∀ x ∈ p, x.IsNamed ∧ x.normal = x.shown := by
  obtain ⟨xs, hxs, rfl⟩ := readLines_eq_ok_iff.mp h
  intro x hx
  obtain ⟨o, ho, hxo⟩ := List.mem_flatMap.mp hx
  obtain rfl : o = some x := Option.mem_toList.mp hxo
  obtain ⟨l, hl⟩ : ∃ l, readLine (uncommented l) = .ok (some x) := by
    obtain ⟨i, hi, hx⟩ := List.mem_iff_getElem.mp ho
    exact ⟨_, (hxs.get (hxs.length_eq ▸ hi) hi).trans (congrArg _ hx)⟩
  obtain ⟨s, -, u, -, hu, rfl, -⟩ := Sentence.exists_of_readLine hl
  exact hu.isNamed

/-- Printing what was read and reading it again loses nothing but block numbers behind operations
that refer to no block. So a text is read again as it was exactly if it has no such number other
than zero. -/
theorem read_text_of_read {t : Text} {p : Program} (h : Program.read t = .ok p) :
    Program.read p.text = .ok (p.map Statement.shown) ∧
      (Program.read p.text = .ok p ↔ ∀ x ∈ p, x.op.jumps = true ∨ x.block = 0) := by
  have hnamed := isNamed_of_read h
  have hread : Program.read p.text = .ok (p.map Statement.shown) := by
    rw [read_text fun x hx => (hnamed x hx).1]
    exact congrArg _ (List.map_congr_left fun x hx => (hnamed x hx).2)
  refine ⟨hread, ?_⟩
  rw [hread, Except.ok.injEq]
  nth_rewrite 2 [← List.map_id p]
  rw [List.map_inj_left]
  exact forall₂_congr fun x _ => Statement.shown_eq_self_iff

/-- A text with all kinds of operands and block numbers in both forms. -/
def variedText : Text :=
  ascii "label 3 // top\n cmp.ab r1,t64:0o10 , #64:-1\n\ncondjmp. _, ctx, rref7->0x_3\njmp -> 3\r\n"

/-- The program of the varied text. -/
def variedProgram : Program :=
  [{ op := .label, block := 3 },
    { op := .cmp, cond := .ab, dst := some (.register 1), src1 := some (.temporary64 8),
      src2 := some (.constant64 0xFFFFFFFFFFFFFFFF) },
    { op := .condjmp, src1 := some .context, src2 := some (.relReference 7), block := 3 },
    { op := .jmp, block := 3 }]

theorem read_text_of_read_varied :
    Program.read variedText = .ok variedProgram ∧
      Program.read variedProgram.text = .ok variedProgram := by
  have h : Program.read variedText = .ok variedProgram := by decide +kernel
  exact ⟨h, (read_text_of_read h).2.mpr (by decide +kernel)⟩

/-- The block number behind a move is read, and is gone after printing and reading again. -/
theorem read_text_loses_block :
    let move : Statement := { op := .mov, dst := some (.register 0), src1 := some (.register 1) }
    Program.read (ascii "mov r0, r1 -> 5") = .ok [{ move with block := 5 }] ∧
      Program.read (Program.text [{ move with block := 5 }]) = .ok [move] ∧
      move ≠ { move with block := 5 } := by
  decide +kernel

end Program

end A32Lowering
