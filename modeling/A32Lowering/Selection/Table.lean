import A32Lowering.Program.Statement
import A32Lowering.Selection.Pattern

/-!
# Selection tables

A rule applies to the statements of one operation whose operands its three patterns describe. A
table keeps the rules of each operation in the order of their declaration, and the first rule that
applies is the one to use. Rules are declared in partitions, which must not declare the same
operation with the same patterns.

## Main definitions

* `Shape`, `Rule`, `Rule.applies`.
* `Table`, `Table.ofRules`, `Table.rulesOf`, `Table.select?`.
* `Table.build` : the table of some partitions, or the first overlap between them.

## Main results

* `Table.rulesOf_ofRules` : a table loses, repeats and reorders nothing.
-/

namespace A32Lowering

/-- The operation and the operand patterns of a rule. -/
structure Shape where
  op : Op
  dst : Pattern
  src1 : Pattern
  src2 : Pattern
  deriving DecidableEq, Repr

/-- Whether a statement has a shape. -/
def Shape.admits (h : Shape) (x : Statement) : Bool :=
  h.op = x.op && h.dst.admits x.dst && h.src1.admits x.src1 && h.src2.admits x.src2

/-- A named rule: what to do with the statements of a shape. -/
structure Rule (α : Type) where
  shape : Shape
  name : String
  action : α
  deriving Repr

/-- The rules of each operation, in the order of their declaration. -/
structure Table (α : Type) where
  entries : List (Op × List (Rule α))

namespace Table

variable {α : Type}

/-- The table without rules. -/
def empty : Table α := ⟨[]⟩

/-- The rules of an operation. -/
def rulesOf (t : Table α) (op : Op) : List (Rule α) :=
  ((t.entries.find? fun e => e.1 = op).map Prod.snd).getD []

/-- The entries with a rule added behind those of its operation. -/
def insertEntry (r : Rule α) : List (Op × List (Rule α)) → List (Op × List (Rule α))
  | [] => [(r.shape.op, [r])]
  | e :: rest =>
    if e.1 = r.shape.op then (e.1, e.2 ++ [r]) :: rest else e :: insertEntry r rest

/-- The table with a rule added behind those of its operation. -/
def insert (t : Table α) (r : Rule α) : Table α := ⟨insertEntry r t.entries⟩

/-- A rule is added behind those of its operation, and those of other operations stay. -/
theorem rulesOf_insert (t : Table α) (r : Rule α) (op : Op) :
    (t.insert r).rulesOf op = t.rulesOf op ++ if r.shape.op = op then [r] else [] := by
  obtain ⟨entries⟩ := t
  induction entries with
  | nil => by_cases h : r.shape.op = op <;> simp [rulesOf, insert, insertEntry, h]
  | cons e rest ih =>
    simp only [rulesOf, insert] at ih
    by_cases h : e.1 = r.shape.op
    · by_cases h' : r.shape.op = op <;> simp [rulesOf, insert, insertEntry, h, h']
    · by_cases h' : e.1 = op
      · subst h'
        simp [rulesOf, insert, insertEntry, h, Ne.symm h]
      · simp [rulesOf, insert, insertEntry, h, h', ih]

/-- The table of some rules. -/
def ofRules (rules : List (Rule α)) : Table α := rules.foldl insert empty

/-- The rules of an operation are all those declared for it, in their order. -/
theorem rulesOf_ofRules (rules : List (Rule α)) (op : Op) :
    (ofRules rules).rulesOf op = rules.filter fun r => r.shape.op = op := by
  suffices h : ∀ t : Table α, (rules.foldl insert t).rulesOf op =
      t.rulesOf op ++ rules.filter fun r => r.shape.op = op from
    (h empty).trans (by simp [rulesOf, empty])
  intro t
  induction rules generalizing t with
  | nil => simp
  | cons r rules ih => by_cases h : r.shape.op = op <;> simp [ih, rulesOf_insert, h]

/-- The first rule that applies to a statement. -/
def select? (t : Table α) (x : Statement) : Option (Rule α) :=
  (t.rulesOf x.op).find? fun r => r.shape.admits x

/-- A rule whose shape two partitions declare. -/
structure Overlap where
  name : String
  first : Nat
  second : Nat
  deriving DecidableEq, Repr

/-- The wording of the error for two partitions that declare one shape. -/
def Overlap.message (o : Overlap) : String :=
  "matcher " ++ o.name ++ " declared in partitions " ++ toString o.first ++ " and "
    ++ toString o.second

/-- The first rule of partition `n` whose shape is already owned by another partition. -/
def overlapIn (owners : List (Shape × Nat)) (n : Nat) (part : List (Rule α)) : Option Overlap :=
  part.findSome? fun r =>
    (owners.find? fun o => o.1 = r.shape).map fun o => ⟨r.name, o.2, n⟩

/-- The first rule whose shape an earlier partition declares; `n` is the number of the first
partition in the list, and `owners` holds the shapes of those before it. -/
def overlapFrom (owners : List (Shape × Nat)) : Nat → List (List (Rule α)) → Option Overlap
  | _, [] => none
  | n, part :: rest =>
    overlapIn owners n part <|> overlapFrom (owners ++ part.map fun r => (r.shape, n)) (n + 1) rest

/-- The table of some partitions, in order, unless two of them declare one shape. -/
def build (parts : List (List (Rule α))) : Except Overlap (Table α) :=
  match overlapFrom [] 0 parts with
  | some o => .error o
  | none => .ok (ofRules parts.flatten)

end Table

end A32Lowering
