import Mathlib
import A32Lowering.Proofs.Values

/-!
# Which constants are immediates

An immediate is found by rotating a constant to the left until it fits into a byte, and it stands
for its byte rotated to the right. Both rotations undo each other, so with a given rotate field the
immediate of a constant is found exactly when there is one, and the fields are tried in increasing
order. A constant whose bits wrap around the end of the word is found like any other, and of a
constant with several immediates the one with the least rotate field is taken.

## Main definitions

* `Immediate.search` : the search that rotates a constant step by step.

## Main results

* `Immediate.withRotation?_eq_some_iff` : the immediate with a given rotate field.
* `Immediate.ofWord?_eq_some_iff` : the immediate that is found is the one with the least field.
* `Immediate.search_eq_ofWord?` : the search finds it.
* `Immediate.ofWord?_canonical` : which constants are immediates, and what is found for them.
-/

namespace A32Lowering

namespace Immediate

variable {c : UInt32} {rot : Fin 16} {i j : Immediate}

theorem rotateLeft_rotateRight (x : BitVec 32) {n : Nat} (h : n < 32) :
    (x.rotateRight n).rotateLeft n = x := by
  refine BitVec.eq_of_getLsbD_eq fun i hi => ?_
  rw [BitVec.getLsbD_rotateLeft_of_le h, BitVec.getLsbD_rotateRight_of_lt h,
    BitVec.getLsbD_rotateRight_of_lt h]
  by_cases hlt : i < n
  · simp [hlt, show ¬ 32 - n + i < 32 - n by omega, show 32 - n + i < 32 by omega]
  · simp [hlt, hi, show i - n < 32 - n by omega, show n + (i - n) = i by omega]

/-- The word of an immediate rotated back is its byte. -/
theorem rotateLeft_value (i : Immediate) :
    i.value.toBitVec.rotateLeft (2 * i.rot.val) = i.imm.toBitVec.setWidth 32 :=
  rotateLeft_rotateRight _ (by omega)

/-- With a given rotate field, an immediate is found exactly when it stands for the constant. -/
theorem withRotation?_eq_some_iff : withRotation? c rot = some i ↔ i.rot = rot ∧ i.value = c := by
  constructor
  · intro h
    refine ⟨?_, value_of_withRotation? h⟩
    simp only [withRotation?] at h
    split_ifs at h
    exact congrArg Immediate.rot (Option.some.inj h).symm
  · rintro ⟨rfl, rfl⟩
    have hbyte : i.imm.toBitVec.setWidth 32 ≤ (0xff : BitVec 32) := by
      rw [BitVec.le_def, BitVec.toNat_setWidth]
      exact (Nat.mod_le _ _).trans (Nat.le_of_lt_succ i.imm.toBitVec.isLt)
    have himm : (i.imm.toBitVec.setWidth 32).setWidth 8 = i.imm.toBitVec := by
      rw [BitVec.setWidth_setWidth_of_le _ (Nat.le_of_ble_eq_true rfl), BitVec.setWidth_eq]
    simp only [withRotation?, rotateLeft_value, if_pos hbyte, himm]

theorem withRotation?_value (i : Immediate) : withRotation? i.value i.rot = some i :=
  withRotation?_eq_some_iff.mpr ⟨rfl, rfl⟩

/-- A constant has one immediate with a given rotate field. -/
theorem eq_of_value_eq (hv : i.value = j.value) (hr : i.rot = j.rot) : i = j := by
  have hi := withRotation?_value i
  rw [hv, hr, withRotation?_value] at hi
  exact (Option.some.inj hi).symm

/-- An immediate is found for the constants that immediates stand for. -/
theorem isSome_ofWord?_iff : (ofWord? c).isSome = true ↔ ∃ j : Immediate, j.value = c := by
  constructor
  · intro h
    obtain ⟨i, hi⟩ := Option.isSome_iff_exists.mp h
    exact ⟨i, value_of_ofWord? hi⟩
  · rintro ⟨j, rfl⟩
    refine List.findSome?_isSome_iff.mpr ⟨j.rot, List.mem_finRange _, ?_⟩
    rw [withRotation?_value, Option.isSome_some]

/-- No immediate of a constant has a smaller rotate field than the one that is found. -/
theorem rot_le_of_ofWord? (h : ofWord? c = some i) (hj : j.value = c) : i.rot ≤ j.rot := by
  obtain ⟨before, rot, after, hsplit, hrot, hnone⟩ := List.findSome?_eq_some_iff.mp h
  obtain ⟨rfl, -⟩ := withRotation?_eq_some_iff.mp hrot
  have hsorted := List.pairwise_lt_finRange 16
  have hmem := List.mem_finRange j.rot
  rw [hsplit] at hsorted hmem
  rcases List.mem_append.mp hmem with hbefore | hafter
  · -- The search has passed the field of `j`, so the constant has no immediate with it.
    have hno := hnone _ hbefore
    rw [← hj, withRotation?_value] at hno
    cases hno
  · rcases List.mem_cons.mp hafter with he | hafter
    · exact he.ge
    · exact ((List.pairwise_cons.mp (List.pairwise_append.mp hsorted).2.1).1 _ hafter).le

/-- The immediate that is found is the one with the least rotate field among those that stand for
the constant. -/
theorem ofWord?_eq_some_iff :
    ofWord? c = some i ↔ i.value = c ∧ ∀ j : Immediate, j.value = c → i.rot ≤ j.rot := by
  constructor
  · exact fun h => ⟨value_of_ofWord? h, fun j hj => rot_le_of_ofWord? h hj⟩
  · rintro ⟨hval, hleast⟩
    obtain ⟨k, hk⟩ := Option.isSome_iff_exists.mp (isSome_ofWord?_iff.mpr ⟨i, hval⟩)
    have hkval := value_of_ofWord? hk
    have hrot : k.rot = i.rot := le_antisymm (rot_le_of_ofWord? hk hval) (hleast k hkval)
    rw [hk, eq_of_value_eq (hkval.trans hval.symm) hrot]

/-! ### The search step by step -/

/-- The search for an immediate as a loop: a constant that does not fit into a byte is rotated to
the left by two bits, as often as there are rotate fields left. -/
def search : (left rot : Nat) → UInt32 → Option (UInt8 × Nat)
  | 0, _, _ => none
  | left + 1, rot, c =>
    if c &&& 0xFF = c then some (c.toUInt8, rot)
    else search left (rot + 1) ⟨c.toBitVec.rotateLeft 2⟩

theorem rotateLeft_rotateLeft (x : BitVec 32) {m n : Nat} (h : m + n < 32) :
    (x.rotateLeft m).rotateLeft n = x.rotateLeft (m + n) := by
  refine BitVec.eq_of_getLsbD_eq fun i hi => ?_
  rw [BitVec.getLsbD_rotateLeft_of_le (by omega), BitVec.getLsbD_rotateLeft_of_le (by omega),
    BitVec.getLsbD_rotateLeft_of_le (by omega), BitVec.getLsbD_rotateLeft_of_le h]
  by_cases hn : i < n
  · simp [hn, show i < m + n by omega, show ¬ 32 - n + i < m by omega,
      show 32 - n + i < 32 by omega, show 32 - n + i - m = 32 - (m + n) + i by omega]
  · by_cases hm : i < m + n
    · simp [hn, hm, hi, show i - n < m by omega, show 32 - m + (i - n) = 32 - (m + n) + i by omega]
    · simp [hn, hm, hi, show ¬ i - n < m by omega, show i - n < 32 by omega,
        show i - n - m = i - (m + n) by omega]

theorem and_byte_eq_self_iff : c &&& 0xFF = c ↔ c.toBitVec ≤ 0xFF := by
  rw [← UInt32.toNat_inj, UInt32.toNat_and]
  have h : (0xFF : UInt32).toNat = 2 ^ 8 - 1 := rfl
  rw [h, Nat.and_two_pow_sub_one_eq_mod, BitVec.le_def]
  show c.toNat % 256 = c.toNat ↔ c.toNat ≤ 255
  omega

/-- The search at a rotate field finds what stands there, or goes on. -/
theorem search_rotated (c : UInt32) {left rot : Nat} (h : rot + left = 16) :
    search left rot ⟨c.toBitVec.rotateLeft (2 * rot)⟩ =
      (((List.finRange 16).drop rot).findSome? (withRotation? c)).map fun i =>
        (i.imm, i.rot.val) := by
  induction left generalizing rot with
  | zero =>
    obtain rfl : rot = 16 := h
    rfl
  | succ left ih =>
    have hrot : rot < (List.finRange 16).length := by
      rw [List.length_finRange]
      omega
    rw [search, List.drop_eq_getElem_cons hrot, List.findSome?_cons, List.getElem_finRange]
    have hbyte := and_byte_eq_self_iff (c := ⟨c.toBitVec.rotateLeft (2 * rot)⟩)
    by_cases hfit : c.toBitVec.rotateLeft (2 * rot) ≤ 0xFF
    · rw [if_pos (hbyte.mpr hfit)]
      simp only [withRotation?, Fin.val_cast, if_pos hfit]
      rfl
    · rw [if_neg (mt hbyte.mp hfit)]
      simp only [withRotation?, Fin.val_cast, if_neg hfit]
      -- Behind the last field the constant is rotated once more, but not looked at again.
      cases left with
      | zero =>
        obtain rfl : rot = 15 := by omega
        rfl
      | succ left =>
        rw [rotateLeft_rotateLeft _ (show 2 * rot + 2 < 32 by omega)]
        exact ih (by omega)

/-- The search that rotates a constant step by step finds the fields of its immediate. -/
theorem search_eq_ofWord? (c : UInt32) :
    search 16 0 c = (ofWord? c).map fun i => (i.imm, i.rot.val) := by
  have hzero : c.toBitVec.rotateLeft (2 * 0) = c.toBitVec := by
    rw [Nat.mul_zero, BitVec.rotateLeft_def, Nat.zero_mod, BitVec.shiftLeft_zero, Nat.sub_zero,
      BitVec.ushiftRight_eq_zero (Nat.le_refl 32), BitVec.or_zero]
  have h : search 16 0 ⟨c.toBitVec.rotateLeft (2 * 0)⟩ = _ := search_rotated c rfl
  rwa [hzero] at h

/-! ### The immediate that is found -/

/-- The fields of an immediate are accepted. -/
theorem ofFields_self (i : Immediate) : ofFields i.imm (UInt8.ofNat i.rot.val) = .ok i := by
  have hrot : (UInt8.ofNat i.rot.val).toNat = i.rot.val :=
    UInt8.toNat_ofNat_of_lt' (i.rot.isLt.trans (by decide))
  simp only [ofFields, hrot, i.rot.isLt, dif_pos]

/-- An immediate is found for a constant exactly when some byte rotated to the right by an even
amount below thirty-two is the constant. What is found has a byte and a rotate field that are
accepted, it stands for the constant, and no smaller rotate field would do. -/
theorem ofWord?_canonical (c : UInt32) :
    ((ofWord? c).isSome = true ↔ ∃ (imm : UInt8) (rot : Fin 16),
      imm.toUInt32.toBitVec.rotateRight (2 * rot.val) = c.toBitVec) ∧
    ∀ i, ofWord? c = some i →
      ofFields i.imm (UInt8.ofNat i.rot.val) = .ok i ∧ i.value = c ∧
      ∀ (imm : UInt8) (rot : Fin 16),
        imm.toUInt32.toBitVec.rotateRight (2 * rot.val) = c.toBitVec → i.rot ≤ rot := by
  have hvalue (imm : UInt8) (rot : Fin 16) :
      imm.toUInt32.toBitVec.rotateRight (2 * rot.val) = c.toBitVec ↔
        (⟨imm, rot⟩ : Immediate).value = c := UInt32.toBitVec_inj
  simp only [hvalue]
  constructor
  · rw [isSome_ofWord?_iff]
    exact ⟨fun ⟨j, hj⟩ => ⟨j.imm, j.rot, hj⟩, fun ⟨imm, rot, hj⟩ => ⟨⟨imm, rot⟩, hj⟩⟩
  · intro i hi
    obtain ⟨hval, hleast⟩ := ofWord?_eq_some_iff.mp hi
    exact ⟨ofFields_self i, hval, fun imm rot hj => hleast ⟨imm, rot⟩ hj⟩

/-- Two constants with bits on both sides of the end of the word: one that is an immediate, with a
rotation by four, and one that is none, since the rotation would have to be odd. -/
theorem ofWord?_canonical_wrapped :
    (ofWord? 0xF000000F = some ⟨0xFF, 2⟩ ∧ ofFields 0xFF 2 = .ok ⟨0xFF, 2⟩ ∧
      (⟨0xFF, 2⟩ : Immediate).value = 0xF000000F ∧
      ∀ (imm : UInt8) (rot : Fin 16),
        imm.toUInt32.toBitVec.rotateRight (2 * rot.val) = 0xF000000F#32 → 2 ≤ rot) ∧
    ¬ ∃ (imm : UInt8) (rot : Fin 16),
      imm.toUInt32.toBitVec.rotateRight (2 * rot.val) = 0xE000001F#32 := by
  have hfound : ofWord? 0xF000000F = some ⟨0xFF, 2⟩ := by decide +kernel
  have hnone : ¬ (ofWord? 0xE000001F).isSome = true := by decide +kernel
  exact ⟨⟨hfound, (ofWord?_canonical 0xF000000F).2 _ hfound⟩,
    mt (ofWord?_canonical 0xE000001F).1.mpr hnone⟩

end Immediate

end A32Lowering
