import A32Lowering.Lowering.Parameter
import A32Lowering.Lowering.Straight
import A32Lowering.Selection.Table

/-!
# The selection table of lowering

The rules that pick a lowering for a statement. Where two rules of an operation overlap, the one
for a constant stands before the general one.

## Main definitions

* `Action` : what a rule does.
* `Rules.general`, `Rules.wide` : the partitions.
* `Rules.table` : the table of both.
-/

namespace A32Lowering

/-- What a rule does with a statement. -/
inductive Action where
  /-- Writes straight-line code. -/
  | straight (a : Straight)
  /-- Places the label of the block. -/
  | mark
  /-- Jumps to the block. -/
  | jump
  /-- Compares two operands and jumps to the block. -/
  | jumpIf
  /-- Compares an operand with a constant and jumps to the block. -/
  | jumpIfCst
  /-- Declares a parameter. -/
  | param (c : ParameterClass)
  /-- Passes parameters and calls a routine. -/
  | call
  /-- Calls the divide helpers. -/
  | divide (signed : Bool)
  deriving DecidableEq, Repr

namespace Rules

/-- A rule of the table. -/
def rule (op : Op) (dst src1 src2 : Pattern) (name : String) (action : Action) : Rule Action :=
  ⟨⟨op, dst, src1, src2⟩, name, action⟩

/-- A rule with straight-line code. -/
def line (op : Op) (dst src1 src2 : Pattern) (name : String) (a : Straight) : Rule Action :=
  rule op dst src1 src2 name (.straight a)

/-- The two rules of a binary operation. -/
def arith (op : Op) (a : Arith) : List (Rule Action) :=
  [line op .any .any .constant (a.name ++ "_any_any_cst") (.arithCst a),
    line op .any .any .any (a.name ++ "_any_any_any") (.arith a)]

/-- Moves, labels and the absence of an operation. -/
def moves : List (Rule Action) :=
  [rule .label .absent .absent .absent "label" .mark,
    line .nop .absent .absent .absent "nop" .nothing,
    line .mov .register .register .absent "mov_reg_reg" .movRegReg,
    line .mov .register .memory .absent "mov_reg_mem" .movRegMem,
    line .mov .register .constant .absent "mov_reg_cst" .movRegCst,
    line .mov .memory .register .absent "mov_mem_reg" .movMemReg,
    line .mov .memory .memory .absent "mov_mem_mem" .movMemMem,
    line .mov .memory .constant .absent "mov_mem_cst" .movMemCst]

/-- Shifts. -/
def shifts : List (Rule Action) :=
  [line .srl .any .any .any "srl" (.shift .lsr),
    line .sra .any .any .any "sra" (.shift .asr),
    line .sll .any .any .any "sll" (.shift .lsl)]

/-- Parameters, calls and results. -/
def calls : List (Rule Action) :=
  [rule .param .absent .context .absent "param_ctx" (.param .context),
    rule .param .absent .register .absent "param_reg" (.param .register),
    rule .param .absent .memory .absent "param_mem" (.param .memory),
    rule .param .absent .constant .absent "param_cst" (.param .constant),
    rule .param .absent .memory64 .absent "param_mem64" (.param .memory64),
    rule .param .absent .constant64 .absent "param_cst64" (.param .constant64),
    rule .param .absent .memory128 .absent "param_mem128" (.param .memory128),
    rule .paramRet .absent .temporary128 .absent "param_ret_tmp128" (.param .memory128),
    rule .call .absent .constant .constant "call" .call,
    line .retval .register .absent .absent "retval_reg" .resultReg,
    line .retval .temporary .absent .absent "retval_tmp" .resultTmp,
    line .retval .memory64 .absent .absent "retval_mem64" .resultMem64]

/-- Jumps and comparisons. -/
def jumps : List (Rule Action) :=
  [rule .jmp .absent .absent .absent "jmp" .jump,
    rule .condjmp .absent .var .constant "condjmp_var_cst" .jumpIfCst,
    rule .condjmp .absent .var .var "condjmp_var_var" .jumpIf,
    line .cmp .any .any .constant "cmp_any_any_cst" .compareCst,
    line .cmp .any .any .any "cmp_any_any_any" .compare]

/-- Complements, divisions and products. -/
def products : List (Rule Action) :=
  [line .not .register .register .absent "not_reg_reg" .notRegReg,
    line .not .memory .register .absent "not_mem_reg" .notMemReg,
    line .not .memory .memory .absent "not_mem_mem" .notMemMem,
    rule .div .temporary64 .register .register "div_tmp64_reg_reg" (.divide false),
    rule .div .temporary64 .register .constant "div_tmp64_reg_cst" (.divide false),
    rule .div .temporary64 .memory .constant "div_tmp64_mem_cst" (.divide false),
    rule .divs .temporary64 .register .register "divs_tmp64_reg_reg" (.divide true),
    rule .divs .temporary64 .register .constant "divs_tmp64_reg_cst" (.divide true),
    rule .divs .temporary64 .memory .constant "divs_tmp64_mem_cst" (.divide true),
    line .mul .temporary64 .any .any "mul_tmp64_any_any" (.multiply false),
    line .muls .temporary64 .any .any "muls_tmp64_any_any" (.multiply true)]

/-- References. -/
def references : List (Rule Action) :=
  [line .addref .tmpRef .relRef .register "addref_tmp_rel_reg" .refAddReg,
    line .addref .tmpRef .relRef .constant "addref_tmp_rel_cst" .refAddCst,
    line .loadfromref .register .tmpRef .absent "loadfromref_reg_tmp" .refLoadReg,
    line .loadfromref .memory .tmpRef .absent "loadfromref_mem_tmp" .refLoadMem,
    line .storeatref .absent .tmpRef .register "storeatref_tmp_reg" .refStoreReg,
    line .storeatref .absent .tmpRef .relative "storeatref_tmp_rel" .refStoreRel,
    line .storeatref .absent .tmpRef .constant "storeatref_tmp_cst" .refStoreCst]

/-- The rules for words. -/
def general : List (Rule Action) :=
  moves ++ arith .add .add ++ arith .sub .sub ++ arith .and .and ++ arith .or .or
    ++ arith .xor .xor ++ shifts ++ calls ++ jumps ++ products ++ references

/-- The rules for two words. -/
def wide : List (Rule Action) :=
  [line .mov64 .memory64 .memory64 .absent "mov64_mem_mem" .mov64Mem,
    line .mov64 .memory64 .constant64 .absent "mov64_mem_cst" .mov64Cst,
    line .add64 .memory64 .memory64 .memory64 "add64_mem_mem_mem" (.arith64 .add true .adc),
    line .add64 .memory64 .memory64 .constant64 "add64_mem_mem_cst" (.arith64 .add true .adc),
    line .sub64 .memory64 .memory64 .memory64 "sub64_mem_mem_mem" (.arith64 .sub true .sbc),
    line .sub64 .memory64 .memory64 .constant64 "sub64_mem_mem_cst" (.arith64 .sub true .sbc),
    line .and64 .memory64 .memory64 .memory64 "and64_mem_mem_mem" (.arith64 .and false .and),
    line .and64 .memory64 .memory64 .constant64 "and64_mem_mem_cst" (.arith64 .and false .and)]

/-- The selection table of lowering. -/
def table : Table Action := Table.ofRules (general ++ wide)

/-- The rule for a statement. -/
def select (x : Statement) : Except Fault (Rule Action) :=
  match table.select? x with
  | some r => .ok r
  | none => .error (.noRule x)

end Rules

end A32Lowering
