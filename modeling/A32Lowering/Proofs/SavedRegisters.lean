import Mathlib
import A32Lowering.Proofs.Action

/-!
# The registers that a function saves

A function saves the registers of the indices that its operands use, the register for call
addresses, the one for the context pointer, and the link register. Collecting them fails exactly
when an operand uses an index that the allocator does not have.

## Main results

* `RegisterSet.mem_toList_iff`, `RegisterSet.mem_toList_union` : members by the bits of the mask.
* `Frame.mem_usage`, `Frame.mem_saved` : the sets that the two passes collect.
* `Frame.exists_saved_iff` : when both passes succeed.
* `Frame.mem_saved_of_operand` : the register of every register operand is saved.
-/

namespace A32Lowering

namespace RegisterSet

theorem getLsbD_bit {j k : Nat} (hj : j < 16) (hk : k < 16) :
    (bit j).toBitVec.getLsbD k = decide (j = k) := by
  have h : ∀ j k : Fin 16, (bit j).toBitVec.getLsbD k = decide (j.val = k.val) := by decide
  exact h ⟨j, hj⟩ ⟨k, hk⟩

/-- The members of a set are the numbers of the bits of its mask. -/
theorem mem_toList_iff {s : RegisterSet} {k : Nat} :
    k ∈ s.toList ↔ s.mask.toBitVec.getLsbD k = true := by
  rw [mem_toList]
  constructor
  · rintro ⟨hk, hb⟩
    by_contra h
    refine hb (UInt16.toBitVec_inj.1 (BitVec.eq_of_getLsbD_eq fun i hi => ?_))
    rw [UInt16.toBitVec_and, BitVec.getLsbD_and, getLsbD_bit hk hi]
    by_cases hki : k = i
    · simpa [← hki] using h
    · simp [hki]
  · intro h
    have hk : k < 16 := BitVec.lt_of_getLsbD h
    refine ⟨hk, fun hb => ?_⟩
    have hz : (s.mask &&& bit k).toBitVec.getLsbD k = false := by simp [hb]
    rw [UInt16.toBitVec_and, BitVec.getLsbD_and, h, getLsbD_bit hk hk] at hz
    simp at hz

theorem mem_toList_union {s t : RegisterSet} {k : Nat} :
    k ∈ (s.union t).toList ↔ k ∈ s.toList ∨ k ∈ t.toList := by
  rw [mem_toList_iff, mem_toList_iff, mem_toList_iff, union]
  simp

theorem mem_toList_bit {j k : Nat} (hj : j < 16) : k ∈ (⟨bit j⟩ : RegisterSet).toList ↔ k = j := by
  rw [mem_toList_iff]
  constructor
  · intro h
    rw [getLsbD_bit hj (BitVec.lt_of_getLsbD h)] at h
    exact (of_decide_eq_true h).symm
  · rintro rfl
    rw [getLsbD_bit hj hj]
    exact decide_eq_true rfl

end RegisterSet

namespace Abi

theorem register_eq_ok_iff {i : UInt32} {r : Reg} :
    register i = .ok r ↔ registers[i.toNat]? = some r := by
  unfold register
  split
  next r' h => rw [h, Except.ok.injEq, Option.some.injEq]
  next h => simp [h]

/-- The allocator has six registers. -/
theorem exists_register_iff {i : UInt32} : (∃ r, register i = .ok r) ↔ i.toNat < 6 := by
  simp only [register_eq_ok_iff]
  rw [← Option.isSome_iff_exists, isSome_getElem?]
  rfl

end Abi

namespace Frame

variable {α : Type} {g : α → Except Fault Nat} {l : List α} {s t : RegisterSet}

/-- Collecting register numbers succeeds when all of them can be found. -/
theorem exists_foldlM_union (h : ∀ a ∈ l, ∃ k, g a = .ok k) (s : RegisterSet) :
    ∃ t, l.foldlM (fun s a => (g a).map fun k => s.union ⟨RegisterSet.bit k⟩) s = .ok t := by
  induction l generalizing s with
  | nil => exact ⟨s, rfl⟩
  | cons a l ih =>
    obtain ⟨⟨k, hk⟩, hl⟩ := List.forall_mem_cons.mp h
    obtain ⟨t, ht⟩ := ih hl (s.union ⟨RegisterSet.bit k⟩)
    exact ⟨t, by rw [List.foldlM_cons, hk]; exact ht⟩

/-- Collecting register numbers finds each of them, and the set holds what was found. -/
theorem foldlM_union_eq_ok (hg : ∀ a k, g a = .ok k → k < 16)
    (h : l.foldlM (fun s a => (g a).map fun k => s.union ⟨RegisterSet.bit k⟩) s = .ok t) :
    (∀ a ∈ l, ∃ k, g a = .ok k) ∧
      ∀ k, k ∈ t.toList ↔ k ∈ s.toList ∨ ∃ a ∈ l, g a = .ok k := by
  induction l generalizing s with
  | nil =>
    obtain rfl := Except.ok.inj h
    simp
  | cons a l ih =>
    simp only [List.foldlM_cons, Except.bind_eq_ok_iff, Except.map_eq_ok_iff] at h
    obtain ⟨_, ⟨j, hj, rfl⟩, h⟩ := h
    obtain ⟨hall, hmem⟩ := ih h
    refine ⟨List.forall_mem_cons.mpr ⟨⟨j, hj⟩, hall⟩, fun k => ?_⟩
    rw [hmem, RegisterSet.mem_toList_union, RegisterSet.mem_toList_bit (hg a j hj),
      List.exists_mem_cons_iff, hj, Except.ok.injEq, or_assoc, eq_comm (a := j)]

/-- The index of a register operand, below sixteen. -/
def index? (o : Operand) : Except Fault Nat :=
  if o.low.toNat < 16 then .ok o.low.toNat else .error (.registerIndex o.low)

theorem usage_eq (p : Program) : usage p = (p.flatMap registerOperands).foldlM
    (fun s o => (index? o).map fun k => s.union ⟨RegisterSet.bit k⟩) .empty := by
  unfold usage
  congr 1
  funext s o
  unfold index?
  split_ifs with h
  · have : (0 : Int) ≤ o.low.toNat ∧ (o.low.toNat : Int) < 16 := by omega
    simp [RegisterSet.insert, RegisterSet.bit?, this, Except.map, Except.mapError,
      RegisterSet.union]
  · have : ¬ (o.low.toNat : Int) < 16 := by omega
    simp [RegisterSet.insert, RegisterSet.bit?, this, Except.map, Except.mapError]

/-- The number of the register with an index. -/
def number? (i : Nat) : Except Fault Nat :=
  (Abi.register (UInt32.ofNat i)).map fun r => r.code.toNat

theorem number?_lt {i k : Nat} (h : number? i = .ok k) : k < 16 := by
  obtain ⟨r, hr, rfl⟩ := Except.map_eq_ok_iff.mp h
  have hall : ∀ r ∈ Abi.registers, r.code.toNat < 16 := by decide
  exact hall r (List.mem_of_getElem? (Abi.register_eq_ok_iff.mp hr))

theorem saved_eq_ok_iff {used : RegisterSet} : saved used = .ok t ↔ ∃ own,
    used.toList.foldlM (fun s i => (number? i).map fun k => s.union ⟨RegisterSet.bit k⟩) .empty =
      .ok own ∧ t = [Abi.callAddress, Abi.base, Reg.lr].foldl withRegister own := by
  have hstep : (fun s i => (Abi.register (UInt32.ofNat i)).map (withRegister s)) =
      fun s i => (number? i).map fun k => s.union ⟨RegisterSet.bit k⟩ := by
    funext s i
    unfold number?
    cases Abi.register (UInt32.ofNat i) <;> rfl
  simp only [saved, Except.bind_eq_ok_iff, Except.pure_eq_ok_iff, hstep]
  exact exists_congr fun own => and_congr_right fun _ => eq_comm

/-- The registers that are saved: those of the used indices, the one for call addresses, the one
for the context pointer, and the link register. -/
theorem mem_saved {used : RegisterSet} (h : saved used = .ok t) (k : Nat) :
    k ∈ t.toList ↔ (∃ i ∈ used.toList, number? i = .ok k) ∨ k = 4 ∨ k = 11 ∨ k = 14 := by
  obtain ⟨own, ho, rfl⟩ := saved_eq_ok_iff.mp h
  have hmem := (foldlM_union_eq_ok (fun _ _ => number?_lt) ho).2 k
  have h4 : k ∈ (⟨RegisterSet.bit Abi.callAddress.code.toNat⟩ : RegisterSet).toList ↔ k = 4 :=
    RegisterSet.mem_toList_bit (by decide)
  have h11 : k ∈ (⟨RegisterSet.bit Abi.base.code.toNat⟩ : RegisterSet).toList ↔ k = 11 :=
    RegisterSet.mem_toList_bit (by decide)
  have h14 : k ∈ (⟨RegisterSet.bit Reg.lr.code.toNat⟩ : RegisterSet).toList ↔ k = 14 :=
    RegisterSet.mem_toList_bit (by decide)
  have he : k ∉ RegisterSet.empty.toList := by
    rw [RegisterSet.mem_toList_iff]
    simp [RegisterSet.empty]
  simp only [List.foldl, withRegister, RegisterSet.mem_toList_union, hmem, h4, h11, h14, he,
    false_or, or_assoc]

theorem index?_lt {o : Operand} {k : Nat} (h : index? o = .ok k) : k < 16 := by
  unfold index? at h
  split_ifs at h with hlt
  obtain rfl := Except.ok.inj h
  exact hlt

/-- The indices that are collected are those of the register operands. -/
theorem mem_usage {p : Program} {used : RegisterSet} (h : usage p = .ok used) (k : Nat) :
    k ∈ used.toList ↔ ∃ o ∈ p.flatMap registerOperands, o.low.toNat = k := by
  rw [usage_eq] at h
  obtain ⟨hall, hmem⟩ := foldlM_union_eq_ok (fun _ _ => index?_lt) h
  have he : k ∉ RegisterSet.empty.toList := by
    rw [RegisterSet.mem_toList_iff]
    simp [RegisterSet.empty]
  rw [hmem, or_iff_right he]
  refine exists_congr fun o => and_congr_right fun ho => ?_
  obtain ⟨j, hj⟩ := hall o ho
  unfold index? at hj ⊢
  split_ifs at hj ⊢
  rw [Except.ok.injEq]

/-- The registers to save can be found exactly when every register operand has an index of the
allocator. -/
theorem exists_saved_iff {p : Program} : (∃ used t, usage p = .ok used ∧ saved used = .ok t) ↔
    ∀ o ∈ p.flatMap registerOperands, o.low.toNat < 6 := by
  constructor
  · rintro ⟨used, t, hu, hs⟩ o ho
    obtain ⟨own, hown, -⟩ := saved_eq_ok_iff.mp hs
    have hi : o.low.toNat ∈ used.toList := (mem_usage hu _).mpr ⟨o, ho, rfl⟩
    obtain ⟨k, hk⟩ := (foldlM_union_eq_ok (fun _ _ => number?_lt) hown).1 _ hi
    obtain ⟨r, hr, -⟩ := Except.map_eq_ok_iff.mp hk
    rw [UInt32.ofNat_toNat] at hr
    exact Abi.exists_register_iff.mp ⟨r, hr⟩
  · intro h
    obtain ⟨used, hu⟩ := exists_foldlM_union (g := index?) (l := p.flatMap registerOperands)
      (fun o ho => ⟨o.low.toNat, if_pos ((h o ho).trans (by decide))⟩) .empty
    rw [← usage_eq] at hu
    obtain ⟨own, hown⟩ := exists_foldlM_union (g := number?) (l := used.toList) (fun i hi => by
      obtain ⟨o, ho, rfl⟩ := (mem_usage hu i).mp hi
      obtain ⟨r, hr⟩ := Abi.exists_register_iff.mpr (h o ho)
      exact ⟨r.code.toNat, by rw [number?, UInt32.ofNat_toNat, hr]; rfl⟩) .empty
    exact ⟨used, _, hu, saved_eq_ok_iff.mpr ⟨own, hown, rfl⟩⟩

/-- The register of every register operand is saved. -/
theorem mem_saved_of_operand {p : Program} {used : RegisterSet} (hu : usage p = .ok used)
    (hs : saved used = .ok t) {o : Operand} (ho : o ∈ p.flatMap registerOperands) {r : Reg}
    (hr : Abi.register o.low = .ok r) : r.code.toNat ∈ t.toList := by
  refine (mem_saved hs _).mpr (.inl ⟨o.low.toNat, (mem_usage hu _).mpr ⟨o, ho, rfl⟩, ?_⟩)
  rw [number?, UInt32.ofNat_toNat, hr]
  rfl

end Frame

end A32Lowering
