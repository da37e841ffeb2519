import Mathlib
import A32Lowering.Proofs.Encodable
import A32Lowering.Proofs.Function

/-!
# Running the code of a function

What the words of a function do when they are executed from where they stand. Straight-line code
changes the core as the instructions say and ends behind the last of them; a jump goes to the place
of its block.

## Main definitions

* `Core.run?` : what a list of instructions does to a core.
* `Machine.Reaches` : the machines that a machine comes to.
* `Code.LoadedAt`, `Code.image`, `Items.Loaded` : an image that holds code, or items with their
  displacements.

## Main results

* `Session.loaded_of_lower` : what an image holds that has the code of a lowered function.
* `Core.reaches_run` : straight-line code does what its instructions do.
* `Core.step?_jump` : a jump goes to its block.
-/

namespace A32Lowering

namespace Core

/-- What a list of instructions does to a core. -/
def run? (c : Core) (l : List Instr) : Option Core := l.foldlM effect? c

variable {c c' : Core} {i : Instr} {l m : List Instr}

@[simp] theorem run?_nil : c.run? [] = some c := rfl

theorem run?_cons : c.run? (i :: l) = (c.effect? i).bind (run? · l) := rfl

@[simp] theorem run?_singleton : c.run? [i] = c.effect? i := by
  rw [run?_cons]
  cases c.effect? i <;> rfl

theorem run?_append : c.run? (l ++ m) = (c.run? l).bind (run? · m) := List.foldlM_append

theorem run?_append_of_eq (h : c.run? l = some c') : c.run? (l ++ m) = c'.run? m := by
  rw [run?_append, h, Option.bind_some]

/-- The core with the program counter at a position of code that stands at an address. -/
def machineAt (c : Core) (org : UInt32) (pos : Nat) : Machine :=
  { c with pc := org + UInt32.ofNat pos }

end Core

/-- The machines that a machine comes to by the instructions of an image. -/
def Machine.Reaches (image : UInt32 → Option UInt32) : Machine → Machine → Prop :=
  Relation.ReflTransGen fun m m' => m.step? image = some m'

/-- An image that holds code from an address on. The code fits into the address space. -/
structure Code.LoadedAt (code : Code) (image : UInt32 → Option UInt32) (org : UInt32) : Prop where
  fits : code.size ≤ 2 ^ 32
  words : ∀ pos w, code.word? pos = some w → image (org + UInt32.ofNat pos) = some w

/-- The image of code that stands at an address. -/
def Code.image (code : Code) (org : UInt32) (a : UInt32) : Option UInt32 :=
  code.word? (a - org).toNat

theorem Code.loadedAt_image {code : Code} (h : code.size ≤ 2 ^ 32) (org : UInt32) :
    code.LoadedAt (code.image org) org := by
  refine ⟨h, fun pos w hw => ?_⟩
  have hlt : pos < code.size := by
    by_contra hle
    simp [Code.word?, Array.getElem?_eq_none (not_lt.mp hle)] at hw
  rw [Code.image, add_sub_cancel_left, UInt32.toNat_ofNat_of_lt' (hlt.trans_le h)]
  exact hw

namespace Items

variable {image : UInt32 → Option UInt32} {org : UInt32} {d : Nat → UInt32 → Option Int}
  {pos : Nat} {i : Item} {l r : List Item}

/-- An image that holds the words of items, the first of them at `pos`. -/
def Loaded (image : UInt32 → Option UInt32) (org : UInt32) (d : Nat → UInt32 → Option Int)
    (pos : Nat) (l : List Item) : Prop :=
  ∀ x ∈ placed pos l, ∀ w, Item.word? d x = some w → image (org + UInt32.ofNat x.1) = some w

theorem loaded_append : Loaded image org d pos (l ++ r) ↔
    Loaded image org d pos l ∧ Loaded image org d (pos + width l) r := by
  rw [Loaded, placed_append]
  exact List.forall_mem_append

theorem loaded_cons : Loaded image org d pos (i :: l) ↔
    (∀ w, Item.word? d (pos, i) = some w → image (org + UInt32.ofNat pos) = some w) ∧
      Loaded image org d (pos + i.width) l :=
  List.forall_mem_cons

theorem four_dvd_width (l : List Item) : 4 ∣ width l := by
  induction l with
  | nil => exact dvd_zero 4
  | cons i l ih =>
    rw [width_cons]
    refine dvd_add ?_ ih
    cases i <;> simp [Item.width]

/-- Items stand whole words apart. -/
theorem four_dvd_of_mem_placed {x : Nat × Item} (h : x ∈ placed pos l) : 4 ∣ x.1 - pos := by
  obtain ⟨a, b, -, hp⟩ := exists_split_of_mem_placed h
  rw [hp, Nat.add_sub_cancel_left]
  exact four_dvd_width a

end Items

/-- What a session holds when a function was lowered. -/
theorem Session.eq_extend_of_lower [Helper.Entries] [PendingHeap] {s t : Session} (hs : s.Idle)
    {p : Program} {frame : UInt32} (h : s.lower p frame = (t, .ok ())) :
    ∃ a, p.assemble frame = .ok a ∧ Items.Linkable s.stream.size a.items ∧
      t = s.extend a.items := by
  by_cases hex : ∃ l, p.Links frame l
  · obtain ⟨l, hlinks⟩ := hex
    rw [lower_of_links hs hlinks] at h
    obtain ⟨a, ha, rfl, hlink⟩ := hlinks
    exact ⟨a, ha, (Items.linkable_add _ 0 _).mpr hlink, (Prod.mk.inj h).1.symm⟩
  · obtain ⟨place, f, u, -, hu⟩ := lower_eq_rollback hs (not_exists.mp hex)
    rw [hu] at h
    cases (Prod.mk.inj h).2

/-- An image with the code of a function that was lowered holds the items of the function, with the
displacements of their jumps. -/
theorem Session.loaded_of_lower [Helper.Entries] [PendingHeap] {s t : Session} (hs : s.Idle)
    {p : Program} {frame : UInt32} (h : s.lower p frame = (t, .ok ()))
    {image : UInt32 → Option UInt32} {org : UInt32} (hl : t.stream.code.LoadedAt image org) :
    ∃ a, p.assemble frame = .ok a ∧ Items.Linkable s.stream.size a.items ∧
      s.stream.size + Items.width a.items ≤ 2 ^ 32 ∧
      Items.Loaded image org (Items.displacement? s.stream.size a.items) s.stream.size a.items := by
  obtain ⟨a, ha, hlink, rfl⟩ := eq_extend_of_lower hs h
  have hsize : (s.extend a.items).stream.code.size = s.stream.size + Items.width a.items :=
    size_extend
  refine ⟨a, ha, hlink, hsize ▸ hl.fits, fun x hx w hw => ?_⟩
  exact hl.words _ _ (Items.word?_words hx hw)

namespace Core

open Items

variable {image : UInt32 → Option UInt32} {org : UInt32} {d : Nat → UInt32 → Option Int}
  {pos : Nat} {c c' : Core}

theorem next_machineAt : (c.machineAt org pos).next c' = c'.machineAt org (pos + 4) := by
  rw [Machine.next, machineAt, machineAt, UInt32.ofNat_add, ← add_assoc]
  rfl

/-- An instruction that is fetched does what it does to the core. -/
theorem step?_instr {i : Instr} {l : List Item} (hl : Loaded image org d pos (.instr i :: l))
    (hi : i.General) (he : c.effect? i = some c') :
    (c.machineAt org pos).step? image = some (c'.machineAt org (pos + 4)) := by
  have hw : image (c.machineAt org pos).pc = some i.encode := (loaded_cons.mp hl).1 _ rfl
  have hbx : ∀ rm, i ≠ .bx rm := by
    rintro rm rfl
    cases he
  have hx : (c.machineAt org pos).exec? i = some ((c.machineAt org pos).next c') := by
    unfold Machine.exec?
    rw [if_neg (by simp [hi.usesPc])]
    split
    · exact absurd rfl (hbx _)
    · exact congrArg (Option.map _) he
  rw [Machine.step?, hw]
  simp only [Option.bind_eq_bind, Option.bind_some, hi.decode_encode, Machine.perform?, hx,
    next_machineAt]

section

open scoped UInt32.CommRing

theorem ofInt_natCast (n : Nat) : UInt32.ofInt (n : Int) = UInt32.ofNat n := by
  rw [UInt32.ofInt, ← UInt32.toNat_inj, UInt32.toNat_ofNat', UInt32.toNat_ofNat']
  omega

/-- A displacement leads from a branch to its target when both are whole words apart. -/
theorem add_displacement {a : UInt32} {t : Nat} (h : (4 : Int) ∣ (t : Int) - pos) :
    a + UInt32.ofNat pos + 8 + 4 * UInt32.ofInt (Stream.displacement pos t) =
      a + UInt32.ofNat t := by
  obtain ⟨k, hk⟩ := h
  have hd : Stream.displacement pos t = k - 2 := by
    rw [Stream.displacement, Int.fdiv_eq_ediv_of_nonneg _ (by decide)]
    omega
  have ht : UInt32.ofNat t = UInt32.ofInt ((pos : Int) + 8 + 4 * (k - 2)) := by
    rw [show (pos : Int) + 8 + 4 * (k - 2) = (t : Int) by omega]
    exact (ofInt_natCast t).symm
  rw [hd, ht, UInt32.ofInt_add, UInt32.ofInt_add, UInt32.ofInt_mul, ofInt_natCast]
  have h8 : UInt32.ofInt 8 = 8 := by decide
  have h4 : UInt32.ofInt 4 = 4 := by decide
  rw [h8, h4]
  ring

end

/-- A jump that is fetched goes to the place of its block when its condition holds. -/
theorem step?_jump {cc : CondCode} {b : UInt32} {l : List Item} {t : Nat}
    (hl : Loaded image org d pos (.jump cc b :: l)) (hc : cc.InRange)
    (hd : d pos b = some (Stream.displacement pos t)) (hr : InReach (Stream.displacement pos t))
    (h4 : (4 : Int) ∣ (t : Int) - pos) : (c.machineAt org pos).step? image =
      some (c.machineAt org (if cc.holds c.flags then t else pos + 4)) := by
  have hw : image (c.machineAt org pos).pc =
      some (Stream.branchTo (Instr.branch cc 0).encode (Stream.displacement pos t)) :=
    (loaded_cons.mp hl).1 _ (by simp only [Item.word?, hd])
  rw [Machine.step?, hw]
  simp only [Option.bind_eq_bind, Option.bind_some, decode_branchTo hc hr, Machine.perform?,
    Option.some.injEq]
  have hflags : (c.machineAt org pos).flags = c.flags := rfl
  rw [hflags]
  split_ifs
  · exact congrArg (Machine.mk c) (add_displacement h4)
  · rw [machineAt, machineAt, Machine.goto, UInt32.ofNat_add, ← add_assoc]
    rfl

/-- Straight-line code, one instruction after another, for any steps that do what an instruction
does. -/
theorem steps_run {R : Machine → Machine → Prop}
    (hR : ∀ {pos : Nat} {i : Instr} {l : List Item} {c c' : Core},
      Loaded image org d pos (.instr i :: l) → i.General → c.effect? i = some c' →
        R (c.machineAt org pos) (c'.machineAt org (pos + 4)))
    {l : List Instr} {rest : List Item} (hl : Loaded image org d pos (l.map .instr ++ rest))
    (hg : General l) (hr : c.run? l = some c') :
    Relation.ReflTransGen R (c.machineAt org pos) (c'.machineAt org (pos + 4 * l.length)) := by
  induction l generalizing c pos with
  | nil =>
    obtain rfl := Option.some.inj hr
    exact .refl
  | cons i l ih =>
    rw [general_cons] at hg
    rw [run?_cons] at hr
    obtain ⟨c₁, h₁, hr⟩ := Option.bind_eq_some_iff.mp hr
    have hrest := ih (loaded_cons.mp hl).2 hg.2 hr
    have hlen : pos + 4 * (i :: l).length = pos + 4 + 4 * l.length := by
      rw [List.length_cons]
      omega
    rw [hlen]
    exact .head (hR hl hg.1 h₁) hrest

/-- Straight-line code does what its instructions do, one after another. -/
theorem reaches_run {l : List Instr} {rest : List Item}
    (hl : Loaded image org d pos (l.map .instr ++ rest)) (hg : General l)
    (hr : c.run? l = some c') :
    Machine.Reaches image (c.machineAt org pos) (c'.machineAt org (pos + 4 * l.length)) :=
  steps_run step?_instr hl hg hr

end Core

end A32Lowering
