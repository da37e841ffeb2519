import Mathlib
import A32Lowering.Proofs.DoubleWords

/-!
# Loads and stores of operands

Which words of the frame and of the context block straight-line code loads and stores, and at which
offsets. An offset is a sum of words that wraps around, and only the sum is checked. The first word
of an operand lies at a sum that cannot wrap, and the second one four bytes behind it, so the
offsets are the distances of the words.

## Main definitions

* `Transfer`, `Instr.transfer?` : loads and stores relative to the stack pointer or the context
  pointer.
* `WordAccess`, `Operand.loads`, `Operand.stores` : the words of operands that are accessed.
* `WordAccess.MadeBy` : a transfer that makes an access, up to an excess of the distance.
* `Made` : instructions that make some accesses exactly.

## Main results

* `Access.made_use`, `Access.made_commit` and their relatives : the transfers of one operand.
* `Straight.made_code` : straight-line code loads the sources of its statement and stores to the
  destination.
-/

namespace A32Lowering

/-! ### Transfers -/

/-- A load or a store of a word, relative to the stack pointer or the context pointer. -/
structure Transfer where
  store : Bool
  base : Reg
  offset : LoadOffset
  deriving DecidableEq, Repr

/-- The transfer of an instruction. Addresses from references are in other registers. -/
def Instr.transfer? : Instr → Option Transfer
  | .ldr _ rn off => if rn = .sp ∨ rn = Abi.base then some ⟨false, rn, off⟩ else none
  | .str _ rn off => if rn = .sp ∨ rn = Abi.base then some ⟨true, rn, off⟩ else none
  | _ => none

/-! ### Accesses -/

/-- A load or a store of the word `half` bytes into an operand, when the stack pointer is `level`
bytes below its place. -/
structure WordAccess where
  store : Bool
  operand : Operand
  level : Nat
  half : Nat
  deriving DecidableEq, Repr

namespace WordAccess

/-- The register that an access is relative to. -/
def base (a : WordAccess) : Reg := if a.operand.isRelative then Abi.base else .sp

/-- How far a word is from where the base register points. -/
def distance (a : WordAccess) : Nat :=
  if a.operand.isRelative then a.operand.low.toNat + a.half
  else a.operand.slot.toNat + a.level + a.half

/-- A transfer that makes an access. The word may be further away than the offset, by an excess. -/
structure MadeBy (a : WordAccess) (t : Transfer) (excess : Nat) : Prop where
  store : t.store = a.store
  base : t.base = a.base
  offset : t.offset.val + excess = a.distance

theorem MadeBy.base_cases {a : WordAccess} {t : Transfer} {excess : Nat}
    (h : a.MadeBy t excess) : t.base = .sp ∨ t.base = Abi.base := by
  rw [h.base, WordAccess.base]
  split_ifs
  · exact .inr rfl
  · exact .inl rfl

/-- A word that is accessed is in reach of an offset, up to the excess. -/
theorem MadeBy.distance_lt {a : WordAccess} {t : Transfer} {excess : Nat}
    (h : a.MadeBy t excess) : a.distance < 4096 + excess := by
  have := t.offset.isLt
  have := h.offset
  omega

end WordAccess

namespace Operand

/-- How far the words of an operand are from its beginning. -/
def halves (o : Operand) : List Nat :=
  match o.kind with
  | .temporary | .relative | .tmpReference | .relReference => [0]
  | .temporary64 | .relative64 => [0, 4]
  | _ => []

/-- The loads of all words of an operand. -/
def loads (o : Operand) : List WordAccess := o.halves.map fun h => ⟨false, o, 0, h⟩

/-- The stores to all words of an operand. -/
def stores (o : Operand) : List WordAccess := o.halves.map fun h => ⟨true, o, 0, h⟩

end Operand

namespace Statement

/-- The loads of the sources of a statement. -/
def sourceLoads (x : Statement) : List WordAccess :=
  x.src1.toList.flatMap Operand.loads ++ x.src2.toList.flatMap Operand.loads

end Statement

/-- The transfers of instructions make some accesses, in the same order. -/
def Made (as : List WordAccess) (l : List Instr) : Prop :=
  List.Forall₂ (fun a t => a.MadeBy t 0) as (l.filterMap Instr.transfer?)

namespace Made

variable {as bs : List WordAccess} {l m : List Instr}

theorem append (h : Made as l) (h' : Made bs m) : Made (as ++ bs) (l ++ m) := by
  rw [Made, List.filterMap_append]
  exact List.rel_append h h'

/-- Instructions without a transfer. -/
theorem still (h : ∀ i ∈ l, i.transfer? = none) : Made [] l := by
  rw [Made, List.filterMap_eq_nil_iff.mpr h]
  exact .nil

theorem append_still (h : Made as l) (h' : Made [] m) : Made as (l ++ m) := by
  simpa using h.append h'

theorem still_append (h : Made [] l) (h' : Made as m) : Made as (l ++ m) := by
  simpa using h.append h'

end Made

/-! ### Instructions without a transfer -/

namespace Constant

variable {r rn : Reg} {c : UInt32} {l : List Instr}

theorem made_load (r : Reg) (c : UInt32) : Made [] (load r c) := by
  unfold load loadPair
  split
  · exact .still (by simp [Instr.transfer?])
  · exact .still (by simp [Instr.transfer?])
  · split_ifs <;> exact .still (by simp [Instr.transfer?])

theorem made_add {scratch : Reg} (h : add r rn c scratch = .ok l) : Made [] l := by
  unfold add at h
  split at h
  · obtain rfl := Except.ok.inj h
    exact .still (by simp [Instr.transfer?])
  · obtain rfl := Except.ok.inj h
    exact .still (by simp [Instr.transfer?])
  · split_ifs at h
    obtain rfl := Except.ok.inj h
    exact (made_load scratch c).append_still (.still (by simp [Instr.transfer?]))

theorem made_compare {scratch : Reg} (h : compare rn c scratch = .ok l) : Made [] l := by
  unfold compare at h
  split at h
  · obtain rfl := Except.ok.inj h
    exact .still (by simp [Instr.transfer?])
  · obtain rfl := Except.ok.inj h
    exact .still (by simp [Instr.transfer?])
  · split_ifs at h
    obtain rfl := Except.ok.inj h
    exact (made_load scratch c).append_still (.still (by simp [Instr.transfer?]))

end Constant

theorem Straight.made_flag {r : Reg} {c : Condition} {l : List Instr} (h : flag r c = .ok l) :
    Made [] l := by
  simp only [flag, Except.bind_eq_ok_iff, Except.pure_eq_ok_iff] at h
  obtain ⟨cc, -, rfl⟩ := h
  exact .still (by simp [Instr.transfer?])

/-! ### Words of operands -/

namespace Operand

variable {o : Operand}

theorem halves_of_isMemory (h : o.isMemory = true) : o.halves = [0] := by
  simp only [isMemory, Bool.or_eq_true, decide_eq_true_eq] at h
  rcases h with h | h <;> simp [halves, h]

theorem halves_of_isMemory64 (h : o.isMemory64 = true) : o.halves = [0, 4] := by
  simp only [isMemory64, Bool.or_eq_true, decide_eq_true_eq] at h
  rcases h with h | h <;> simp [halves, h]

/-- Only operands in memory that are no wider than two words are loaded and stored. -/
theorem loads_eq_nil (h : o.halves = []) : o.loads = [] := by
  rw [loads, h, List.map_nil]

theorem stores_eq_nil (h : o.halves = []) : o.stores = [] := by
  rw [stores, h, List.map_nil]

end Operand

namespace Access

open WordAccess (MadeBy)

variable {s : Operand} {r q : Reg} {l m : List Instr} {a b : Reg × LoadOffset} {store : Bool}
  {level half : UInt32}

theorem val_of_bits {o : LoadOffset} {off : UInt32} (h : o.bits = off) : o.val = off.toNat := by
  rw [← h, LoadOffset.toNat_bits]

/-- A word of the context block is accessed at its offset, when the sum does not wrap around. -/
theorem madeBy_relativeAddress (hs : s.isRelative = true) (h : relativeAddress s half = .ok a)
    (hw : s.low.toNat + half.toNat < 2 ^ 32) :
    MadeBy ⟨store, s, 0, half.toNat⟩ ⟨store, a.1, a.2⟩ 0 := by
  obtain ⟨o, ho, rfl⟩ := Except.map_eq_ok_iff.mp h
  unfold relative at ho
  split_ifs at ho
  have hv : o.val = (s.low + half).toNat := val_of_bits (bits_of_offset ho)
  rw [UInt32.toNat_add, Nat.mod_eq_of_lt hw] at hv
  exact ⟨rfl, by rw [WordAccess.base, if_pos hs], by rw [WordAccess.distance, if_pos hs]; exact hv⟩

/-- A word of the frame is accessed at its offset, up to what the sum wraps around. -/
theorem madeBy_temporaryAddress {excess : Nat} (hs : s.isRelative = false)
    (h : temporaryAddress level s half = .ok a)
    (hw : (s.slot + level + half).toNat + excess = s.slot.toNat + level.toNat + half.toNat) :
    MadeBy ⟨store, s, level.toNat, half.toNat⟩ ⟨store, a.1, a.2⟩ excess := by
  obtain ⟨o, ho, rfl⟩ := Except.map_eq_ok_iff.mp h
  have hv : o.val = (s.slot + level + half).toNat := val_of_bits (bits_of_offset ho)
  have hn : ¬ s.isRelative = true := by simp [hs]
  refine ⟨rfl, by rw [WordAccess.base, if_neg hn], ?_⟩
  rw [WordAccess.distance, if_neg hn]
  exact hv ▸ hw

/-- A single load. -/
theorem made_loadFrom {x : WordAccess} (h : x.MadeBy ⟨false, a.1, a.2⟩ 0) :
    Made [x] (loadFrom r a) := by
  have ht : (Instr.ldr r a.1 a.2).transfer? = some ⟨false, a.1, a.2⟩ :=
    if_pos h.base_cases
  rw [Made, loadFrom, List.filterMap_cons_some ht]
  exact .cons h .nil

/-- A single store. -/
theorem made_storeTo {x : WordAccess} (h : x.MadeBy ⟨true, a.1, a.2⟩ 0) :
    Made [x] (storeTo r a) := by
  have ht : (Instr.str r a.1 a.2).transfer? = some ⟨true, a.1, a.2⟩ :=
    if_pos h.base_cases
  rw [Made, storeTo, List.filterMap_cons_some ht]
  exact .cons h .nil

/-- The load of an operand of one word. -/
theorem made_loads_of_word (hs : s.halves = [0])
    (h : MadeBy ⟨false, s, 0, 0⟩ ⟨false, a.1, a.2⟩ 0) : Made s.loads (loadFrom r a) := by
  rw [Operand.loads, hs]
  exact made_loadFrom h

/-- The store to an operand of one word. -/
theorem made_stores_of_word (hs : s.halves = [0])
    (h : MadeBy ⟨true, s, 0, 0⟩ ⟨true, a.1, a.2⟩ 0) : Made s.stores (storeTo r a) := by
  rw [Operand.stores, hs]
  exact made_storeTo h

/-- The first word of an operand is where the operand is. -/
theorem madeBy_first_relative (hs : s.isRelative = true) (h : relativeAddress s 0 = .ok a) :
    MadeBy ⟨store, s, 0, 0⟩ ⟨store, a.1, a.2⟩ 0 :=
  madeBy_relativeAddress hs h s.low.toNat_lt

theorem madeBy_first_temporary (hs : s.isRelative = false) (h : temporaryAddress 0 s 0 = .ok a) :
    MadeBy ⟨store, s, 0, 0⟩ ⟨store, a.1, a.2⟩ 0 :=
  madeBy_temporaryAddress hs h (by simp)

theorem madeBy_address (h : address 0 s = .ok a) :
    s.isMemory = true ∧ MadeBy ⟨store, s, 0, 0⟩ ⟨store, a.1, a.2⟩ 0 := by
  unfold address at h
  split at h
  next hk =>
    exact ⟨by simp [Operand.isMemory, hk],
      madeBy_first_relative (by simp [Operand.isRelative, hk]) h⟩
  next hk =>
    exact ⟨by simp [Operand.isMemory, hk],
      madeBy_first_temporary (by simp [Operand.isRelative, hk]) h⟩
  · cases h

/-- The second word of an operand is four bytes behind the first one: since the first one is below
the limit of offsets, the sum does not wrap around. -/
theorem madeBy_address64 (ha : address64 0 s 0 = .ok a) (hb : address64 0 s 4 = .ok b) :
    s.isMemory64 = true ∧ MadeBy ⟨store, s, 0, 0⟩ ⟨store, a.1, a.2⟩ 0 ∧
      MadeBy ⟨store, s, 0, 4⟩ ⟨store, b.1, b.2⟩ 0 := by
  have hlt := a.2.isLt
  have h4 : (4 : UInt32).toNat = 4 := rfl
  unfold address64 at ha hb
  split at ha
  next hk =>
    rw [hk] at hb
    have hs : s.isRelative = true := by simp [Operand.isRelative, hk]
    have hfirst : MadeBy ⟨store, s, 0, 0⟩ ⟨store, a.1, a.2⟩ 0 := madeBy_first_relative hs ha
    have ho : a.2.val + 0 = s.low.toNat := hfirst.offset.trans (if_pos hs)
    exact ⟨by simp [Operand.isMemory64, hk], hfirst,
      madeBy_relativeAddress hs hb (by omega)⟩
  next hk =>
    rw [hk] at hb
    have hs : s.isRelative = false := by simp [Operand.isRelative, hk]
    have hfirst : MadeBy ⟨store, s, 0, 0⟩ ⟨store, a.1, a.2⟩ 0 := madeBy_first_temporary hs ha
    have ho : a.2.val + 0 = s.slot.toNat := hfirst.offset.trans (if_neg (by simp [hs]))
    refine ⟨by simp [Operand.isMemory64, hk], hfirst, madeBy_temporaryAddress hs hb ?_⟩
    rw [add_zero, add_zero, UInt32.toNat_add, h4, Nat.mod_eq_of_lt (by omega)]
    rfl
  · cases ha

theorem made_load (h : load 0 r s = .ok l) : Made s.loads l := by
  obtain ⟨a, ha, rfl⟩ := Except.map_eq_ok_iff.mp h
  obtain ⟨hs, hm⟩ := madeBy_address ha
  exact made_loads_of_word (Operand.halves_of_isMemory hs) hm

theorem made_store (h : Access.store 0 s r = .ok l) : Made s.stores l := by
  obtain ⟨a, ha, rfl⟩ := Except.map_eq_ok_iff.mp h
  obtain ⟨hs, hm⟩ := madeBy_address ha
  exact made_stores_of_word (Operand.halves_of_isMemory hs) hm

/-- The loads of both words of an operand. -/
theorem made_load64 (h : load64 0 r s 0 = .ok l) (h' : load64 0 q s 4 = .ok m) :
    Made s.loads (l ++ m) := by
  obtain ⟨a, ha, rfl⟩ := Except.map_eq_ok_iff.mp h
  obtain ⟨b, hb, rfl⟩ := Except.map_eq_ok_iff.mp h'
  obtain ⟨hs, hlo, hhi⟩ := madeBy_address64 ha hb
  rw [Operand.loads, Operand.halves_of_isMemory64 hs]
  exact (made_loadFrom hlo).append (made_loadFrom hhi)

theorem made_loadPair (h : Straight.loadPair 0 r q s = .ok l) : Made s.loads l := by
  simp only [Straight.loadPair, Except.bind_eq_ok_iff, Except.pure_eq_ok_iff] at h
  obtain ⟨l₁, h₁, l₂, h₂, rfl⟩ := h
  exact made_load64 h₁ h₂

theorem made_storePair (h : Straight.storePair 0 s r q = .ok l) : Made s.stores l := by
  simp only [Straight.storePair, Except.bind_eq_ok_iff, Except.pure_eq_ok_iff] at h
  obtain ⟨l₁, h₁, l₂, h₂, rfl⟩ := h
  obtain ⟨a, ha, rfl⟩ := Except.map_eq_ok_iff.mp h₁
  obtain ⟨b, hb, rfl⟩ := Except.map_eq_ok_iff.mp h₂
  obtain ⟨hs, hlo, hhi⟩ := madeBy_address64 ha hb
  rw [Operand.stores, Operand.halves_of_isMemory64 hs]
  exact (made_storeTo hlo).append (made_storeTo hhi)

theorem made_loadRelative (h : loadRelative r s = .ok l) : Made s.loads l := by
  simp only [loadRelative, Except.bind_eq_ok_iff, Except.pure_eq_ok_iff] at h
  obtain ⟨_, he, a, ha, rfl⟩ := h
  have hk := expect_eq_ok_iff.mp he
  exact made_loads_of_word (by simp [Operand.halves, hk])
    (madeBy_first_relative (by simp [Operand.isRelative, hk]) ha)

theorem made_loadRelReference (h : loadRelReference r s = .ok l) : Made s.loads l := by
  simp only [loadRelReference, Except.bind_eq_ok_iff, Except.pure_eq_ok_iff] at h
  obtain ⟨_, he, a, ha, rfl⟩ := h
  have hk := expect_eq_ok_iff.mp he
  exact made_loads_of_word (by simp [Operand.halves, hk])
    (madeBy_first_relative (by simp [Operand.isRelative, hk]) ha)

theorem made_loadTmpReference (h : loadTmpReference 0 r s = .ok l) : Made s.loads l := by
  simp only [loadTmpReference, Except.bind_eq_ok_iff, Except.pure_eq_ok_iff] at h
  obtain ⟨_, he, a, ha, rfl⟩ := h
  have hk := expect_eq_ok_iff.mp he
  exact made_loads_of_word (by simp [Operand.halves, hk])
    (madeBy_first_temporary (by simp [Operand.isRelative, hk]) ha)

theorem made_storeTemporary (h : storeTemporary 0 s r = .ok l) : Made s.stores l := by
  simp only [storeTemporary, Except.bind_eq_ok_iff, Except.pure_eq_ok_iff] at h
  obtain ⟨_, he, a, ha, rfl⟩ := h
  have hk := expect_eq_ok_iff.mp he
  exact made_stores_of_word (by simp [Operand.halves, hk])
    (madeBy_first_temporary (by simp [Operand.isRelative, hk]) ha)

theorem made_storeTmpReference (h : storeTmpReference 0 s r = .ok l) : Made s.stores l := by
  simp only [storeTmpReference, Except.bind_eq_ok_iff, Except.pure_eq_ok_iff] at h
  obtain ⟨_, he, a, ha, rfl⟩ := h
  have hk := expect_eq_ok_iff.mp he
  exact made_stores_of_word (by simp [Operand.halves, hk])
    (madeBy_first_temporary (by simp [Operand.isRelative, hk]) ha)

theorem made_address128 (h : address128 0 r s = .ok l) : Made [] l := by
  unfold address128 at h
  split at h
  · split_ifs at h
    exact Constant.made_add h
  · exact Constant.made_add h
  · cases h

/-- The value of a word operand is loaded when the operand is in memory. -/
theorem made_use {pref : Reg} (h : use 0 s pref = .ok (r, l)) : Made s.loads l := by
  rcases use_eq_ok h with ⟨hk, -, rfl⟩ | ⟨-, -, hl⟩ | ⟨hk, -, rfl⟩
  · rw [Operand.loads_eq_nil (by simp [Operand.halves, hk])]
    exact .still (by simp)
  · exact made_load hl
  · rw [Operand.loads_eq_nil (by simp [Operand.halves, hk])]
    exact Constant.made_load _ _

theorem made_commit (h : commit 0 s r = .ok l) : Made s.stores l := by
  unfold commit at h
  split_ifs at h with hk hm
  · simp only [Except.bind_eq_ok_iff] at h
    obtain ⟨own, -, h⟩ := h
    split_ifs at h
    obtain rfl := Except.pure_eq_ok_iff.mp h
    rw [Operand.stores_eq_nil (by simp [Operand.halves, hk])]
    exact .still (by simp)
  · exact made_store h

theorem made_argument (h : argument 0 r s = .ok l) : Made s.loads l := by
  simp only [argument, Except.bind_eq_ok_iff, Except.pure_eq_ok_iff] at h
  obtain ⟨⟨src, code⟩, hu, rfl⟩ := h
  refine (made_use hu).append_still ?_
  split_ifs <;> exact .still (by simp [Instr.transfer?, Instr.mov])

theorem made_shift {kind : ShiftKind} {pref : Reg} {by_ : Shift}
    (h : shift 0 kind s pref = .ok (by_, l)) : Made s.loads l := by
  unfold shift at h
  split_ifs at h with hk hm hc
  · obtain ⟨r', -, h⟩ := Except.map_eq_ok_iff.mp h
    obtain ⟨-, rfl⟩ := Prod.mk.inj h
    rw [Operand.loads_eq_nil (by simp [Operand.halves, hk])]
    exact .still (by simp)
  · obtain ⟨l', hl, h⟩ := Except.map_eq_ok_iff.mp h
    obtain ⟨-, rfl⟩ := Prod.mk.inj h
    exact made_load hl
  · obtain ⟨-, rfl⟩ := Prod.mk.inj (Except.ok.inj h)
    rw [Operand.loads_eq_nil (by simp [Operand.halves, hc])]
    exact .still (by simp)

end Access

/-- Patterns of operands without words that are loaded or stored. -/
def Pattern.isWordless : Pattern → Bool
  | .absent | .register | .constant | .constant64 => true
  | _ => false

namespace Statement

variable {p : Pattern} {o : Option Operand}

theorem halves_eq_nil (hp : p.isWordless = true) (h : p.admits o = true) :
    ∀ s ∈ o.toList, s.halves = [] := by
  intro s hs
  obtain rfl := Option.mem_toList.mp hs
  cases p with
  | absent => cases h
  | register | constant | constant64 =>
    have hk := of_decide_eq_true h
    simp [Operand.halves, hk]
  | _ => cases hp

theorem flatMap_loads_eq_nil (hp : p.isWordless = true) (h : p.admits o = true) :
    o.toList.flatMap Operand.loads = [] :=
  List.flatMap_eq_nil_iff.mpr fun s hs => Operand.loads_eq_nil (halves_eq_nil hp h s hs)

theorem flatMap_stores_eq_nil (hp : p.isWordless = true) (h : p.admits o = true) :
    o.toList.flatMap Operand.stores = [] :=
  List.flatMap_eq_nil_iff.mpr fun s hs => Operand.stores_eq_nil (halves_eq_nil hp h s hs)

end Statement

/-! ### Straight-line code -/

namespace Straight

open Access
open Statement (flatMap_loads_eq_nil flatMap_stores_eq_nil)

variable {d s1 s2 : Operand} {l : List Instr}

theorem made_compareCode (h : compareCode 0 s1 s2 = .ok l) : Made (s1.loads ++ s2.loads) l := by
  simp only [compareCode, Except.bind_eq_ok_iff, Except.pure_eq_ok_iff] at h
  obtain ⟨⟨r1, l1⟩, h1, ⟨r2, l2⟩, h2, rfl⟩ := h
  exact ((made_use h1).append (made_use h2)).append_still (.still (by simp [Instr.transfer?]))

theorem made_compareCstCode (h : compareCstCode 0 s1 s2 = .ok l) : Made s1.loads l := by
  simp only [compareCstCode, Except.bind_eq_ok_iff, Except.pure_eq_ok_iff] at h
  obtain ⟨⟨r1, l1⟩, h1, l2, h2, rfl⟩ := h
  exact (made_use h1).append_still (Constant.made_compare h2)

theorem made_arithCode {a : Arith} (h : arithCode 0 a d s1 s2 = .ok l) :
    Made (s1.loads ++ s2.loads ++ d.stores) l := by
  simp only [arithCode, Except.bind_eq_ok_iff, Except.pure_eq_ok_iff] at h
  obtain ⟨rd, -, ⟨r1, l1⟩, h1, ⟨r2, l2⟩, h2, lc, hc, rfl⟩ := h
  exact (((made_use h1).append (made_use h2)).append_still
    (.still (by simp [Instr.transfer?]))).append (made_commit hc)

theorem made_arithCstCode {a : Arith} (h : arithCstCode 0 a d s1 s2 = .ok l) :
    Made (s1.loads ++ s2.loads ++ d.stores) l := by
  obtain ⟨hk, rd, ra, la, mid, lc, -, ha, -, hc, rfl, hmid⟩ := arithCstCode_eq_ok h
  have hmid : Made [] mid := by
    rcases hmid with ⟨op, i, -, rfl⟩ | rfl
    · exact .still (by simp [Instr.transfer?])
    · exact (Constant.made_load _ _).append_still (.still (by simp [Instr.transfer?]))
  rw [Operand.loads_eq_nil (o := s2) (by simp [Operand.halves, hk]), List.append_nil]
  exact ((made_use ha).append_still hmid).append (made_commit hc)

theorem made_shiftCode {kind : ShiftKind} (h : shiftCode 0 kind d s1 s2 = .ok l) :
    Made (s1.loads ++ s2.loads ++ d.stores) l := by
  simp only [shiftCode, Except.bind_eq_ok_iff, Except.pure_eq_ok_iff] at h
  obtain ⟨rd, -, ⟨r1, l1⟩, h1, ⟨by_, l2⟩, h2, lc, hc, rfl⟩ := h
  exact (((made_use h1).append (made_shift h2)).append_still
    (.still (by simp [Instr.transfer?]))).append (made_commit hc)

theorem made_multiplyCode {signed : Bool} (h : multiplyCode 0 signed d s1 s2 = .ok l) :
    Made (s1.loads ++ s2.loads ++ d.stores) l := by
  obtain ⟨r1, l1, r2, l2, ls, h1, h2, hs, rfl⟩ := multiplyCode_eq_ok h
  exact (((made_use h1).append (made_use h2)).append_still
    (.still (by simp [Instr.transfer?]))).append (made_storePair hs)

theorem made_arith64Code {lo hi : AluOp} {flags : Bool}
    (h : arith64Code 0 lo flags hi d s1 s2 = .ok l) :
    Made (s1.loads ++ s2.loads ++ d.stores) l := by
  obtain ⟨l1, l2, ls, h1, h2, hs, rfl⟩ := arith64Code_eq_ok h
  have h2 : Made s2.loads l2 := by
    rcases h2 with ⟨hk, rfl⟩ | h2
    · rw [Operand.loads_eq_nil (by simp [Operand.halves, hk])]
      exact (Constant.made_load _ _).append (Constant.made_load _ _)
    · exact made_loadPair h2
  exact (((made_loadPair h1).append h2).append_still
    (.still (by simp [Instr.transfer?]))).append (made_storePair hs)

/-- An access through a reference is relative to the register that has the reference. -/
theorem made_ldr (r : Reg) : Made [] [.ldr r .r0 0] := by
  have hr : ¬ (Reg.r0 = .sp ∨ Reg.r0 = Abi.base) := by decide
  exact .still (by simp [Instr.transfer?, hr])

theorem made_str (r : Reg) : Made [] [.str r .r0 0] := by
  have hr : ¬ (Reg.r0 = .sp ∨ Reg.r0 = Abi.base) := by decide
  exact .still (by simp [Instr.transfer?, hr])

/-- The transfers of straight-line code are the loads of the sources, and then the stores to the
destination. -/
theorem made_code {a : Straight} {x : Statement} {sh : Shape}
    (hsh : sh ∈ Action.straightShapes a) (hx : sh.admits x = true) (h : a.code 0 x = .ok l) :
    Made (x.sourceLoads ++ x.dst.toList.flatMap Operand.stores) l := by
  obtain ⟨-, hd, h1, h2⟩ := Shape.admits_iff.mp hx
  -- Operands without words in memory have no accesses.
  have hdst (hp : ∀ sh ∈ Action.straightShapes a, sh.dst.isWordless = true) :
      x.dst.toList.flatMap Operand.stores = [] := flatMap_stores_eq_nil (hp sh hsh) hd
  have hsrc1 (hp : ∀ sh ∈ Action.straightShapes a, sh.src1.isWordless = true) :
      x.src1.toList.flatMap Operand.loads = [] := flatMap_loads_eq_nil (hp sh hsh) h1
  have hsrc2 (hp : ∀ sh ∈ Action.straightShapes a, sh.src2.isWordless = true) :
      x.src2.toList.flatMap Operand.loads = [] := flatMap_loads_eq_nil (hp sh hsh) h2
  unfold Statement.sourceLoads
  cases code_eq_ok_iff.mp h with
  | nothing | movRegReg | notRegReg | resultReg =>
    rw [hsrc1 (by decide), hsrc2 (by decide), hdst (by decide)]
    exact .still (by simp [Instr.transfer?, Instr.mov])
  | movRegCst =>
    rw [hsrc1 (by decide), hsrc2 (by decide), hdst (by decide)]
    exact Constant.made_load _ _
  | movRegMem _ hs _ hl =>
    rw [hsrc2 (by decide), hdst (by decide), hs]
    simpa using made_load hl
  | movMemReg hd _ _ _ hl =>
    rw [hsrc1 (by decide), hsrc2 (by decide), hd]
    simpa using made_store hl
  | movMemMem hd hs ha hb =>
    rw [hsrc2 (by decide), hs, hd]
    simpa using (made_load ha).append (made_store hb)
  | movMemCst hd _ _ hl =>
    rw [hsrc1 (by decide), hsrc2 (by decide), hd]
    simpa using (Constant.made_load _ _).still_append (made_store hl)
  | arithCst hd hs ht hl =>
    rw [hs, ht, hd]
    simpa using made_arithCstCode hl
  | arith hd hs ht hl =>
    rw [hs, ht, hd]
    simpa using made_arithCode hl
  | shift hd hs ht hl =>
    rw [hs, ht, hd]
    simpa using made_shiftCode hl
  | compareCst hd hs _ _ _ ha hf hc =>
    rw [hsrc2 (by decide), hs, hd]
    simpa using ((made_compareCstCode ha).append_still (made_flag hf)).append (made_commit hc)
  | compare hd hs ht _ ha hf hc =>
    rw [hs, ht, hd]
    simpa using ((made_compareCode ha).append_still (made_flag hf)).append (made_commit hc)
  | notMemReg hd _ _ _ hl =>
    have hn {rs : Reg} : Made [] [.move .mvn .al .r1 (.plain rs)] :=
      .still (by simp [Instr.transfer?])
    rw [hsrc1 (by decide), hsrc2 (by decide), hd]
    simpa using hn.still_append (made_store hl)
  | notMemMem hd hs ha hb =>
    have hn : Made [] [.move .mvn .al .r1 (.plain .r0)] := .still (by simp [Instr.transfer?])
    rw [hsrc2 (by decide), hs, hd]
    simpa using ((made_load ha).append_still hn).append (made_store hb)
  | resultTmp hd hl =>
    rw [hsrc1 (by decide), hsrc2 (by decide), hd]
    simpa using made_storeTemporary hl
  | resultMem64 hd hl =>
    rw [hsrc1 (by decide), hsrc2 (by decide), hd]
    simpa using made_storePair hl
  | multiply hd hs ht hl =>
    rw [hs, ht, hd]
    simpa using made_multiplyCode hl
  | @refAddReg _ _ _ rt _ _ hd hs _ _ _ ha hb =>
    have hn : Made [] [.alu .add false .r0 .r0 (.plain rt)] := .still (by simp [Instr.transfer?])
    rw [hsrc2 (by decide), hs, hd]
    simpa using ((made_loadRelReference ha).append_still hn).append (made_storeTmpReference hb)
  | refAddCst hd hs _ _ ha hc hb =>
    rw [hsrc2 (by decide), hs, hd]
    simpa using ((made_loadRelReference ha).append_still (Constant.made_add hc)).append
      (made_storeTmpReference hb)
  | refLoadReg _ hs _ _ hl =>
    rw [hsrc2 (by decide), hdst (by decide), hs]
    simpa using (made_loadTmpReference hl).append_still (made_ldr _)
  | refLoadMem hd hs ha hb =>
    rw [hsrc2 (by decide), hs, hd]
    simpa using ((made_loadTmpReference ha).append_still (made_ldr .r1)).append (made_store hb)
  | refStoreReg hs _ _ _ hl =>
    rw [hsrc2 (by decide), hdst (by decide), hs]
    simpa using (made_loadTmpReference hl).append_still (made_str _)
  | refStoreRel hs ht ha hb =>
    rw [hdst (by decide), hs, ht]
    simpa using ((made_loadTmpReference ha).append (made_loadRelative hb)).append_still
      (made_str .r1)
  | refStoreCst hs _ _ hl =>
    rw [hsrc2 (by decide), hdst (by decide), hs]
    simpa using ((made_loadTmpReference hl).append_still (Constant.made_load _ _)).append_still
      (made_str .r1)
  | mov64Mem hd hs ha hb =>
    rw [hsrc2 (by decide), hs, hd]
    simpa using (made_loadPair ha).append (made_storePair hb)
  | mov64Cst hd _ hl =>
    rw [hsrc1 (by decide), hsrc2 (by decide), hd]
    simpa using ((Constant.made_load _ _).append (Constant.made_load _ _)).append
      (made_storePair hl)
  | arith64 hd hs ht hl =>
    rw [hs, ht, hd]
    simpa using made_arith64Code hl

end Straight

end A32Lowering
