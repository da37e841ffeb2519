import Mathlib
import A32Lowering.Lowering.Session

/-!
# Items of a function

The body of a function is described without a stream: a list of items, each of them an
instruction, a jump to a block, the place of a block, or a report about the constant that is
loaded next. An item that stands for an instruction takes four bytes and every other one none, so
the place of each item follows from the items before it. Blocks keep the numbers of the program;
the labels that a stream gives them are the order in which blocks are mentioned first.

## Main definitions

* `Item`, `Item.width`, `Items.width` : items and the bytes they take.
* `Items.placed` : the items with their positions.
* `Items.marks`, `Items.jumps`, `Items.reports`, `Items.lines`, `Items.words` : what items at
  their positions contribute to a stream.
* `Items.blocks`, `Items.number` : the blocks in the order of their first mention.
* `Items.target` : the position of a block.
* `Items.Plain`, `Items.Linkable` : items that can be written, and whose jumps can be filled in.
-/

namespace A32Lowering

/-- One entry of the body of a function. -/
inductive Item where
  /-- An instruction that is no branch. -/
  | instr (i : Instr)
  /-- A branch to a block. -/
  | jump (cond : CondCode) (block : UInt32)
  /-- The place of a block. -/
  | mark (block : UInt32)
  /-- A report about the constant that the next two instructions load. -/
  | report (value : UInt32)
  deriving DecidableEq, Repr

/-- Whether an instruction is a branch to a label. -/
def Instr.isBranch : Instr → Bool
  | .branch _ _ => true
  | _ => false

namespace Item

/-- The number of bytes of an item. -/
def width : Item → Nat
  | instr _ | jump _ _ => 4
  | mark _ | report _ => 0

/-- The block that an item mentions. -/
def block? : Item → Option UInt32
  | jump _ b | mark b => some b
  | instr _ | report _ => none

/-- The block that is placed here, with the position. -/
def mark? : Nat × Item → Option (UInt32 × Nat)
  | (pos, mark b) => some (b, pos)
  | _ => none

/-- The position of a jump and its block. -/
def jump? : Nat × Item → Option (Nat × UInt32)
  | (pos, jump _ b) => some (pos, b)
  | _ => none

/-- The report that is made here. -/
def report? : Nat × Item → Option Report
  | (pos, report v) => some ⟨v, pos⟩
  | _ => none

/-- The line of an item in a listing that gives blocks numbers. -/
def line? (number : UInt32 → Nat) : Nat × Item → Option ListingLine
  | (pos, instr i) => some ⟨pos, i.text⟩
  | (pos, jump c b) => some ⟨pos, (Instr.branch c (number b)).text⟩
  | (pos, mark b) => some ⟨pos, "L" ++ toString (number b : Label) ++ ":"⟩
  | (_, report _) => none

/-- The word of an item; the displacement of a jump stays zero where `d` gives none. -/
def word? (d : Nat → UInt32 → Option Int) : Nat × Item → Option UInt32
  | (_, instr i) => some i.encode
  | (pos, jump c b) =>
    let w := (Instr.branch c 0).encode
    some (match d pos b with
      | none => w
      | some n => Stream.branchTo w n)
  | _ => none

end Item

namespace Items

/-- The number of bytes of some items. -/
def width (l : List Item) : Nat := (l.map Item.width).sum

@[simp] theorem width_nil : width [] = 0 := rfl

@[simp] theorem width_cons (i : Item) (l : List Item) : width (i :: l) = i.width + width l := rfl

@[simp] theorem width_append (l r : List Item) : width (l ++ r) = width l + width r := by
  simp [width]

@[simp] theorem width_instrs (l : List Instr) : width (l.map .instr) = 4 * l.length := by
  induction l with
  | nil => rfl
  | cons i l ih =>
    rw [List.map_cons, width_cons, ih, List.length_cons, Item.width]
    omega

/-- The items with their positions, the first of them at `pos`. -/
def placed : Nat → List Item → List (Nat × Item)
  | _, [] => []
  | pos, i :: l => (pos, i) :: placed (pos + i.width) l

theorem placed_append (pos : Nat) (l r : List Item) :
    placed pos (l ++ r) = placed pos l ++ placed (pos + width l) r := by
  induction l generalizing pos with
  | nil => rfl
  | cons i l ih =>
    rw [List.cons_append, placed, placed, ih, width_cons, Nat.add_assoc, List.cons_append]

/-- Items moved by `k` bytes keep their order and their distances. -/
theorem placed_add (k pos : Nat) (l : List Item) :
    placed (k + pos) l = (placed pos l).map fun x => (k + x.1, x.2) := by
  induction l generalizing pos with
  | nil => rfl
  | cons i l ih => rw [placed, placed, List.map_cons, Nat.add_assoc, ih]

theorem mem_placed {pos : Nat} {l : List Item} {x : Nat × Item} (h : x ∈ placed pos l) :
    x.2 ∈ l ∧ pos ≤ x.1 ∧ x.1 + x.2.width ≤ pos + width l := by
  induction l generalizing pos with
  | nil => cases h
  | cons i l ih =>
    rcases List.mem_cons.mp h with rfl | h
    · simp
    · obtain ⟨hm, hl, hu⟩ := ih h
      exact ⟨List.mem_cons_of_mem _ hm, by omega, by rw [width_cons]; omega⟩

/-- A positioned item splits the items in front of it from those behind it. -/
theorem exists_split_of_mem_placed {pos : Nat} {l : List Item} {x : Nat × Item}
    (h : x ∈ placed pos l) : ∃ a b, l = a ++ x.2 :: b ∧ x.1 = pos + width a := by
  induction l generalizing pos with
  | nil => cases h
  | cons i l ih =>
    rcases List.mem_cons.mp h with rfl | h
    · exact ⟨[], l, rfl, rfl⟩
    · obtain ⟨a, b, rfl, hp⟩ := ih h
      exact ⟨i :: a, b, rfl, by rw [hp, width_cons]; omega⟩

/-- The places of blocks. -/
def marks (pos : Nat) (l : List Item) : List (UInt32 × Nat) := (placed pos l).filterMap Item.mark?

/-- The positions of jumps, with their blocks. -/
def jumps (pos : Nat) (l : List Item) : List (Nat × UInt32) := (placed pos l).filterMap Item.jump?

/-- The reports. -/
def reports (pos : Nat) (l : List Item) : List Report := (placed pos l).filterMap Item.report?

/-- The listing. -/
def lines (number : UInt32 → Nat) (pos : Nat) (l : List Item) : List ListingLine :=
  (placed pos l).filterMap (Item.line? number)

/-- The words, with the displacements that `d` gives. -/
def words (d : Nat → UInt32 → Option Int) (pos : Nat) (l : List Item) : List UInt32 :=
  (placed pos l).filterMap (Item.word? d)

theorem marks_append (pos : Nat) (l r : List Item) :
    marks pos (l ++ r) = marks pos l ++ marks (pos + width l) r := by
  rw [marks, placed_append, List.filterMap_append, marks, marks]

theorem jumps_append (pos : Nat) (l r : List Item) :
    jumps pos (l ++ r) = jumps pos l ++ jumps (pos + width l) r := by
  rw [jumps, placed_append, List.filterMap_append, jumps, jumps]

theorem reports_append (pos : Nat) (l r : List Item) :
    reports pos (l ++ r) = reports pos l ++ reports (pos + width l) r := by
  rw [reports, placed_append, List.filterMap_append, reports, reports]

theorem lines_append (number : UInt32 → Nat) (pos : Nat) (l r : List Item) :
    lines number pos (l ++ r) = lines number pos l ++ lines number (pos + width l) r := by
  rw [lines, placed_append, List.filterMap_append, lines, lines]

theorem words_append (d : Nat → UInt32 → Option Int) (pos : Nat) (l r : List Item) :
    words d pos (l ++ r) = words d pos l ++ words d (pos + width l) r := by
  rw [words, placed_append, List.filterMap_append, words, words]

section Singleton

variable (pos : Nat) (i : Item)

@[simp] theorem marks_singleton : marks pos [i] = (Item.mark? (pos, i)).toList := by
  simp only [marks, placed, List.filterMap_cons, List.filterMap_nil]
  cases Item.mark? (pos, i) <;> rfl

@[simp] theorem jumps_singleton : jumps pos [i] = (Item.jump? (pos, i)).toList := by
  simp only [jumps, placed, List.filterMap_cons, List.filterMap_nil]
  cases Item.jump? (pos, i) <;> rfl

@[simp] theorem reports_singleton : reports pos [i] = (Item.report? (pos, i)).toList := by
  simp only [reports, placed, List.filterMap_cons, List.filterMap_nil]
  cases Item.report? (pos, i) <;> rfl

@[simp] theorem lines_singleton (number : UInt32 → Nat) :
    lines number pos [i] = (Item.line? number (pos, i)).toList := by
  simp only [lines, placed, List.filterMap_cons, List.filterMap_nil]
  cases Item.line? number (pos, i) <;> rfl

@[simp] theorem words_singleton (d : Nat → UInt32 → Option Int) :
    words d pos [i] = (Item.word? d (pos, i)).toList := by
  simp only [words, placed, List.filterMap_cons, List.filterMap_nil]
  cases Item.word? d (pos, i) <;> rfl

end Singleton

/-- Every four bytes of items are one word. -/
theorem four_mul_length_words (d : Nat → UInt32 → Option Int) (pos : Nat) (l : List Item) :
    4 * (words d pos l).length = width l := by
  induction l generalizing pos with
  | nil => rfl
  | cons i l ih =>
    have ih := ih (pos + i.width)
    rw [words] at ih
    cases i <;> simp only [words, placed, List.filterMap_cons, Item.word?, List.length_cons,
      width_cons, Item.width] at ih ⊢ <;> omega

/-- The known blocks with one more, unless it is known. -/
def learn (known : List UInt32) (b : UInt32) : List UInt32 :=
  if b ∈ known then known else known ++ [b]

theorem mem_learn {known : List UInt32} {b c : UInt32} :
    c ∈ learn known b ↔ c ∈ known ∨ c = b := by
  unfold learn
  split_ifs with h
  · exact ⟨.inl, fun hc => hc.elim id (· ▸ h)⟩
  · simp

/-- The blocks that items mention, in the order of their first mention. -/
def blocks (l : List Item) : List UInt32 := (l.filterMap Item.block?).foldl learn []

theorem blocks_append_of_block?_eq_none {i : Item} (h : i.block? = none) (l : List Item) :
    blocks (l ++ [i]) = blocks l := by
  simp [blocks, h]

theorem blocks_append_of_block?_eq_some {i : Item} {b : UInt32} (h : i.block? = some b)
    (l : List Item) : blocks (l ++ [i]) = learn (blocks l) b := by
  rw [blocks, List.filterMap_append, List.foldl_append, List.filterMap_cons_some h]
  rfl

theorem mem_blocks {l : List Item} {b : UInt32} : b ∈ blocks l ↔ ∃ i ∈ l, i.block? = some b := by
  induction l using List.reverseRecOn with
  | nil => simp [blocks]
  | append_singleton l i ih =>
    cases h : i.block? with
    | none => simp [blocks_append_of_block?_eq_none h, ih, h, or_and_right, exists_or]
    | some c =>
      simp [blocks_append_of_block?_eq_some h, mem_learn, ih, h, or_and_right, exists_or, eq_comm]

theorem mem_marks {pos : Nat} {l : List Item} {m : UInt32 × Nat} :
    m ∈ marks pos l ↔ (m.2, Item.mark m.1) ∈ placed pos l := by
  simp only [marks, List.mem_filterMap]
  constructor
  · rintro ⟨⟨p, i⟩, hi, he⟩
    cases i with
    | mark b =>
      obtain rfl := Option.some.inj he
      exact hi
    | _ => cases he
  · exact fun h => ⟨_, h, rfl⟩

theorem mem_jumps {pos : Nat} {l : List Item} {j : Nat × UInt32} :
    j ∈ jumps pos l ↔ ∃ c, (j.1, Item.jump c j.2) ∈ placed pos l := by
  simp only [jumps, List.mem_filterMap]
  constructor
  · rintro ⟨⟨p, i⟩, hi, he⟩
    cases i with
    | jump c b =>
      obtain rfl := Option.some.inj he
      exact ⟨c, hi⟩
    | _ => cases he
  · exact fun ⟨c, h⟩ => ⟨_, h, rfl⟩

theorem mem_blocks_of_mem_marks {pos : Nat} {l : List Item} {m : UInt32 × Nat}
    (h : m ∈ marks pos l) : m.1 ∈ blocks l :=
  mem_blocks.mpr ⟨_, (mem_placed (mem_marks.mp h)).1, rfl⟩

theorem mem_blocks_of_mem_jumps {pos : Nat} {l : List Item} {j : Nat × UInt32}
    (h : j ∈ jumps pos l) : j.2 ∈ blocks l := by
  obtain ⟨c, hc⟩ := mem_jumps.mp h
  exact mem_blocks.mpr ⟨_, (mem_placed hc).1, rfl⟩

/-- The number of a block: its place among the blocks in the order of their first mention. -/
def number (l : List Item) (b : UInt32) : Nat := (blocks l).idxOf b

theorem lines_congr {f g : UInt32 → Nat} {pos : Nat} {l : List Item}
    (h : ∀ b ∈ blocks l, f b = g b) : lines f pos l = lines g pos l := by
  refine List.filterMap_congr fun x hx => ?_
  have hm := (mem_placed hx).1
  obtain ⟨p, i⟩ := x
  cases i with
  | instr => rfl
  | report => rfl
  | jump c b => simp only [Item.line?, h b (mem_blocks.mpr ⟨_, hm, rfl⟩)]
  | mark b => simp only [Item.line?, h b (mem_blocks.mpr ⟨_, hm, rfl⟩)]

/-- The position of a block among items that start at `pos`. -/
def target? (pos : Nat) (l : List Item) (b : UInt32) : Option Nat := (marks pos l).lookup b

/-- The displacement that a jump needs. -/
def displacement? (pos : Nat) (l : List Item) (jump : Nat) (b : UInt32) : Option Int :=
  (target? pos l b).map (Stream.displacement jump)

/-- Items without an unresolved branch among their instructions. -/
def Plain (l : List Item) : Prop := ∀ i, Item.instr i ∈ l → i.isBranch = false

/-- A displacement that a branch word can hold. -/
def InReach (d : Int) : Prop := -2 ^ 23 ≤ d ∧ d < 2 ^ 23

/-- Items whose jumps can be filled in: no block has two places, and every jump has a place to go
to that is in reach. -/
structure Linkable (pos : Nat) (l : List Item) : Prop where
  nodup : ((marks pos l).map Prod.fst).Nodup
  marked : ∀ j ∈ jumps pos l, ∃ t, target? pos l j.2 = some t ∧ InReach (Stream.displacement j.1 t)

/-! ### Items do not depend on where they stand -/

section Add

variable (k pos : Nat) (l : List Item)

theorem marks_add : marks (k + pos) l = (marks pos l).map fun m => (m.1, k + m.2) := by
  rw [marks, placed_add, List.filterMap_map, marks, List.map_filterMap]
  refine List.filterMap_congr fun x _ => ?_
  obtain ⟨p, i⟩ := x
  cases i <;> rfl

theorem jumps_add : jumps (k + pos) l = (jumps pos l).map fun j => (k + j.1, j.2) := by
  rw [jumps, placed_add, List.filterMap_map, jumps, List.map_filterMap]
  refine List.filterMap_congr fun x _ => ?_
  obtain ⟨p, i⟩ := x
  cases i <;> rfl

theorem reports_add :
    reports (k + pos) l = (reports pos l).map fun r => { r with offset := k + r.offset } := by
  rw [reports, placed_add, List.filterMap_map, reports, List.map_filterMap]
  refine List.filterMap_congr fun x _ => ?_
  obtain ⟨p, i⟩ := x
  cases i <;> rfl

theorem map_text_lines_add (number : UInt32 → Nat) :
    (lines number (k + pos) l).map ListingLine.text =
      (lines number pos l).map ListingLine.text := by
  rw [lines, placed_add, List.filterMap_map, lines, List.map_filterMap, List.map_filterMap]
  refine List.filterMap_congr fun x _ => ?_
  obtain ⟨p, i⟩ := x
  cases i <;> rfl

theorem target?_add (b : UInt32) : target? (k + pos) l b = (target? pos l b).map (k + ·) := by
  rw [target?, marks_add, target?]
  induction marks pos l with
  | nil => rfl
  | cons m ms ih =>
    rw [List.map_cons, List.lookup_cons, List.lookup_cons, ih]
    cases b == m.1 <;> rfl

theorem displacement_add (j t : Nat) :
    Stream.displacement (k + j) (k + t) = Stream.displacement j t := by
  unfold Stream.displacement
  congr 1
  omega

theorem displacement?_add (j : Nat) (b : UInt32) :
    displacement? (k + pos) l (k + j) b = displacement? pos l j b := by
  rw [displacement?, target?_add, displacement?, Option.map_map]
  congr 1
  funext t
  exact displacement_add k j t

theorem words_add : words (displacement? (k + pos) l) (k + pos) l =
    words (displacement? pos l) pos l := by
  rw [words, placed_add, List.filterMap_map, words]
  refine List.filterMap_congr fun x _ => ?_
  obtain ⟨p, i⟩ := x
  cases i with
  | jump c b => simp only [Function.comp_apply, Item.word?, displacement?_add]
  | _ => rfl

theorem linkable_add : Linkable (k + pos) l ↔ Linkable pos l := by
  have hm : ((marks (k + pos) l).map Prod.fst) = (marks pos l).map Prod.fst := by
    rw [marks_add, List.map_map]
    rfl
  have hj : (∀ j ∈ jumps (k + pos) l, ∃ t, target? (k + pos) l j.2 = some t ∧
      InReach (Stream.displacement j.1 t)) ↔ ∀ j ∈ jumps pos l, ∃ t, target? pos l j.2 = some t ∧
      InReach (Stream.displacement j.1 t) := by
    simp only [jumps_add, List.forall_mem_map, target?_add, Option.map_eq_some_iff,
      exists_exists_and_eq_and, displacement_add]
  exact ⟨fun h => ⟨hm ▸ h.nodup, hj.mp h.marked⟩, fun h => ⟨hm ▸ h.nodup, hj.mpr h.marked⟩⟩

end Add

end Items

end A32Lowering
