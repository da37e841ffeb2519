import Mathlib
import A32Lowering.Object.File
import A32Lowering.Proofs.Decode
import A32Lowering.Proofs.Growth

/-!
# Patching load pairs

Linking puts a value into a load pair by replacing the immediate fields of its two words. A patched
pair is the pair that loads the new value, and no byte outside of its eight changes, so pairs that
do not overlap can be patched one after another.

## Main definitions

* `Code.HoldsPair` : code that holds the load pair of a register and a value at a position.
* `Code.LoadsAt` : code that loads a value into the register of call addresses at a position.

## Main results

* `LoadPair.patch_of_loadsAt` : patching a load pair.
* `ObjectFile.linkAll_of_holds` : linking load pairs that do not overlap.
* `ObjectFile.linkAll_self` : linking with the values that are there changes nothing.
-/

namespace A32Lowering

/-! ### The words of a load pair -/

theorem or_and_mask (a b m : UInt32) : (a ||| b) &&& m = a &&& m ||| b &&& m :=
  UInt32.toBitVec_inj.1 (BitVec.eq_of_getLsbD_eq fun i _ => by
    simp [Bool.and_or_distrib_right])

namespace Instr

/-- The bits that hold the value of a MOVW or MOVT. -/
def valueBits : UInt32 := 0x000F0FFF

theorem split16_and_valueBits (v : UInt16) : split16 v &&& valueBits = split16 v := by
  have hhigh : (v >>> 12).toUInt32 <<< 16 &&& valueBits = (v >>> 12).toUInt32 <<< 16 := by
    have hlt : (v >>> 12).toUInt32.toNat < 16 := by
      have := v.toNat_lt
      simp [Nat.shiftRight_eq_div_pow]
      omega
    obtain ⟨k, hk⟩ : ∃ k : Fin 16, (v >>> 12).toUInt32 = UInt32.ofNat k.val :=
      ⟨⟨_, hlt⟩, UInt32.ofNat_toNat.symm⟩
    rw [hk]
    clear hk hlt
    decide +revert
  have hlow : (v &&& 0xfff).toUInt32 &&& valueBits = (v &&& 0xfff).toUInt32 := by
    rw [UInt16.toUInt32_and, UInt32.and_assoc]
    rfl
  rw [split16, or_and_mask, hhigh, hlow]

theorem split16_and {m : UInt32} (h : valueBits &&& m = 0) (v : UInt16) : split16 v &&& m = 0 := by
  rw [← split16_and_valueBits, UInt32.and_assoc, h, UInt32.and_zero]

end Instr

/-- Code that loads a value into the register of call addresses at a position. -/
def Code.LoadsAt (code : Code) (pos : Nat) (v : UInt32) : Prop :=
  code.word? pos = some (Instr.movw Abi.callAddress (Constant.lowHalf v)).encode ∧
    code.word? (pos + 4) = some (Instr.movt Abi.callAddress (Constant.highHalf v)).encode

namespace LoadPair

open Instr (split16)

variable {r : Reg}

/-- A patch keeps the register of a load, which has no bit in common with the opcode. -/
theorem field_register (hr : r.InRange) :
    field r.code 12 &&& keep = field r.code 12 ∧ field r.code 12 &&& 0x0FF00000 = 0 := by
  obtain ⟨k, hk⟩ : ∃ k : Fin 16, r.code = UInt8.ofNat k.val :=
    ⟨⟨_, hr⟩, UInt8.ofNat_toNat.symm⟩
  rw [hk]
  clear hk
  decide +revert

theorem encode_movw (r : Reg) (v : UInt16) :
    (Instr.movw r v).encode = 0xE3000000 ||| field r.code 12 ||| split16 v := by
  rw [Instr.encode, UInt32.or_assoc, UInt32.or_comm (split16 v), ← UInt32.or_assoc]

theorem encode_movt (r : Reg) (v : UInt16) :
    (Instr.movt r v).encode = 0xE3400000 ||| field r.code 12 ||| split16 v := by
  rw [Instr.encode, UInt32.or_assoc, UInt32.or_comm (split16 v), ← UInt32.or_assoc]

theorem isMovw_movw (hr : r.InRange) (v : UInt16) : isMovw (Instr.movw r v).encode = true := by
  rw [isMovw, encode_movw, or_and_mask, or_and_mask, Instr.split16_and rfl, (field_register hr).2]
  rfl

theorem isMovt_movt (hr : r.InRange) (v : UInt16) : isMovt (Instr.movt r v).encode = true := by
  rw [isMovt, encode_movt, or_and_mask, or_and_mask, Instr.split16_and rfl, (field_register hr).2]
  rfl

/-- Replacing the value of a load keeps the bits of its opcode and of its register. -/
theorem replace_value (hr : r.InRange) {base opcode : UInt32} (hb : base &&& keep ||| opcode = base)
    (v x : UInt16) : (base ||| field r.code 12 ||| split16 v) &&& keep ||| opcode ||| split16 x =
      base ||| field r.code 12 ||| split16 x := by
  rw [or_and_mask, or_and_mask, Instr.split16_and rfl, (field_register hr).1, UInt32.or_zero,
    UInt32.or_assoc (base &&& keep), UInt32.or_comm (field r.code 12), ← UInt32.or_assoc, hb]

theorem withLow_movw (hr : r.InRange) (v : UInt16) (c : UInt32) :
    withLow (Instr.movw r v).encode c = (Instr.movw r (Constant.lowHalf c)).encode := by
  rw [withLow, encode_movw, encode_movw]
  exact replace_value hr (by decide) v _

theorem withHigh_movt (hr : r.InRange) (v : UInt16) (c : UInt32) :
    withHigh (Instr.movt r v).encode c = (Instr.movt r (Constant.highHalf c)).encode := by
  rw [withHigh, encode_movt, encode_movt]
  exact replace_value hr (by decide) v _

end LoadPair

/-! ### Patching one pair -/

namespace Code

theorem le_size_of_word? {code : Code} {pos : Nat} {w : UInt32} (h : code.word? pos = some w) :
    pos + 4 ≤ code.size := by
  simp only [word?, Option.bind_eq_bind, Option.bind_eq_some_iff] at h
  obtain ⟨-, -, -, -, -, -, d, hd, -⟩ := h
  have := (Array.getElem?_eq_some_iff.mp hd).1
  omega

/-- Writing the word that is there changes nothing. -/
theorem write_eq_self {code : Code} {pos : Nat} {w : UInt32} (h : code.word? pos = some w) :
    code.write pos w = code := by
  simp only [word?, Option.bind_eq_bind, Option.bind_eq_some_iff, Option.pure_def,
    Option.some.injEq] at h
  obtain ⟨a, ha, b, hb, c, hc, d, hd, rfl⟩ := h
  have hw := wordBytes_wordOfBytes a b c d
  simp only [wordBytes, List.cons.injEq, and_true] at hw
  obtain ⟨h0, h1, h2, h3⟩ := hw
  have hset {i : Nat} {x : UInt8} (hx : code[i]? = some x) : code.setIfInBounds i x = code := by
    refine Array.ext_getElem? fun j => ?_
    rw [Array.getElem?_setIfInBounds]
    split
    · next hij =>
      subst hij
      rw [if_pos (Array.getElem?_eq_some_iff.mp hx).1, hx]
    · rfl
  rw [write, h0, h1, h2, h3, hset ha, hset hb, hset hc, hset hd]

/-- Code that holds the two words of a load pair at a position. -/
def HoldsPair (code : Code) (pos : Nat) (r : Reg) (v : UInt32) : Prop :=
  code.word? pos = some (Instr.movw r (Constant.lowHalf v)).encode ∧
    code.word? (pos + 4) = some (Instr.movt r (Constant.highHalf v)).encode

/-- A load pair is seen in its eight bytes. -/
theorem HoldsPair.congr {code other : Code} {pos : Nat} {r : Reg} {v : UInt32}
    (h : code.HoldsPair pos r v) (he : ∀ i, pos ≤ i → i < pos + 8 → other[i]? = code[i]?) :
    other.HoldsPair pos r v :=
  ⟨(word?_congr fun i hi hi' => he i hi (by omega)).trans h.1,
    (word?_congr fun i hi hi' => he i (by omega) (by omega)).trans h.2⟩

theorem LoadsAt.le_size {code : Code} {pos : Nat} {v : UInt32} (h : code.LoadsAt pos v) :
    pos + 8 ≤ code.size := by
  have := le_size_of_word? h.2
  omega

theorem LoadsAt.congr {code other : Code} {pos : Nat} {v : UInt32} (h : code.LoadsAt pos v)
    (he : ∀ i, pos ≤ i → i < pos + 8 → other[i]? = code[i]?) : other.LoadsAt pos v :=
  HoldsPair.congr h he

end Code

namespace LoadPair

/-- The code with a load pair at a position. -/
def put (code : Code) (pos : Nat) (v : UInt32) : Code :=
  (code.write pos (Instr.movw Abi.callAddress (Constant.lowHalf v)).encode).write (pos + 4)
    (Instr.movt Abi.callAddress (Constant.highHalf v)).encode

variable {code : Code} {pos : Nat}

@[simp] theorem size_put (v : UInt32) : (put code pos v).size = code.size := by
  simp [put]

theorem loadsAt_put (h : pos + 8 ≤ code.size) (v : UInt32) : (put code pos v).LoadsAt pos v := by
  constructor
  · rw [put, Code.word?_write_of_apart (.inl le_rfl)]
    exact Code.word?_write_self _ _ (by omega)
  · exact Code.word?_write_self _ _ (by simpa using h)

theorem getElem?_put_of_outside (v : UInt32) {i : Nat} (h : i < pos ∨ pos + 8 ≤ i) :
    (put code pos v)[i]? = code[i]? := by
  rw [put, Code.getElem?_write_of_outside _ _ (by omega),
    Code.getElem?_write_of_outside _ _ (by omega)]

theorem put_eq_self {v : UInt32} (h : code.LoadsAt pos v) : put code pos v = code := by
  rw [put, Code.write_eq_self h.1, Code.write_eq_self h.2]

/-- Patching a load pair replaces its value. -/
theorem patch_of_loadsAt {v : UInt32} (h : code.LoadsAt pos v) (c : UInt32) :
    patch code pos c = .ok (put code pos c) := by
  have hsize := h.le_size
  have hrange : ¬ ((pos : Int) < 0 ∨ (code.size : Int) < Int.bmod (pos + 8) UInt64.size) := by
    have hmod : Int.bmod (pos + 8) UInt64.size ≤ pos + 8 := by
      rw [Int.bmod, UInt64.size]
      split <;> omega
    omega
  have hr : Abi.callAddress.InRange := by decide
  rw [patch, if_neg hrange, Int.toNat_natCast, h.1, h.2]
  simp only [isMovw_movw hr, isMovt_movt hr, withLow_movw hr, withHigh_movt hr, Bool.and_self,
    if_true, put]

end LoadPair

/-! ### Linking many pairs -/

namespace Relocation

/-- A relocation whose load pair is in the code. -/
def Holds (r : Relocation) (code : Code) : Prop :=
  0 ≤ r.offset ∧ code.LoadsAt r.offset.toNat r.value

/-- A byte that belongs to no relocation. -/
def Free (rs : List Relocation) (i : Nat) : Prop :=
  ∀ r ∈ rs, (i : Int) < r.offset ∨ r.offset + 8 ≤ i

end Relocation

namespace ObjectFile

variable {resolver : Resolver} {rs : List Relocation} {code : Code}

/-- Linking with the values that are there changes nothing. -/
theorem linkAll_self (h : ∀ r ∈ rs, r.Holds code) (hv : ∀ r ∈ rs, resolver r = .ok r.value) :
    linkAll resolver rs code = (code, .ok ()) := by
  induction rs with
  | nil => rfl
  | cons r rs ih =>
    rw [List.forall_mem_cons] at h hv
    obtain ⟨⟨h0, hl⟩, h⟩ := h
    have hp := LoadPair.patch_of_loadsAt hl r.value
    rw [Int.toNat_of_nonneg h0, LoadPair.put_eq_self hl] at hp
    simp only [linkAll, hv.1, hp]
    exact ih h hv.2

/-- Linking load pairs that do not overlap puts the values of the resolver there, and changes
nothing else. -/
theorem linkAll_of_holds (hs : rs.Pairwise fun a b => a.offset + 8 ≤ b.offset)
    (h : ∀ r ∈ rs, r.Holds code) (hv : ∀ r ∈ rs, ∃ v, resolver r = .ok v) :
    ∃ linked, linkAll resolver rs code = (linked, .ok ()) ∧ linked.size = code.size ∧
      (∀ i, Relocation.Free rs i → linked[i]? = code[i]?) ∧
      ∀ r ∈ rs, ∀ v, resolver r = .ok v → linked.LoadsAt r.offset.toNat v := by
  induction rs generalizing code with
  | nil => exact ⟨code, rfl, rfl, fun _ _ => rfl, by simp⟩
  | cons r rs ih =>
    rw [List.forall_mem_cons] at h hv
    obtain ⟨⟨h0, hl⟩, h⟩ := h
    obtain ⟨⟨v, hr⟩, hv⟩ := hv
    obtain ⟨hfirst, hs⟩ := List.pairwise_cons.mp hs
    have hp := LoadPair.patch_of_loadsAt hl v
    rw [Int.toNat_of_nonneg h0] at hp
    have hrest : ∀ q ∈ rs, q.Holds (LoadPair.put code r.offset.toNat v) := by
      intro q hq
      have hfar := hfirst q hq
      refine ⟨(h q hq).1, (h q hq).2.congr fun i hi _ => ?_⟩
      exact LoadPair.getElem?_put_of_outside v (by omega)
    obtain ⟨linked, hlink, hsize, hfree, hload⟩ := ih hs hrest hv
    refine ⟨linked, ?_, ?_, ?_, ?_⟩
    · simp only [linkAll, hr, hp]
      exact hlink
    · rw [hsize, LoadPair.size_put]
    · intro i hi
      obtain ⟨hir, hi⟩ := List.forall_mem_cons.mp hi
      rw [hfree i hi]
      exact LoadPair.getElem?_put_of_outside v (by omega)
    · rw [List.forall_mem_cons]
      refine ⟨fun w hw => ?_, hload⟩
      obtain rfl : v = w := Except.ok.inj (hr.symm.trans hw)
      refine (LoadPair.loadsAt_put hl.le_size v).congr fun i hi hi' => hfree i fun q hq => ?_
      have hfar := hfirst q hq
      omega

end ObjectFile

end A32Lowering
