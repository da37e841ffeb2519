import A32Lowering.Code.Pending

/-!
# A binary heap of pending branches

A binary heap keeps branches in an array in which no item stands in front of its parent. Branches
are added at the end and move up. So the first item of all is the first of the array, and once it is
taken off, the last one takes its place and moves down.

## Main definitions

* `BinaryHeap.push`, `BinaryHeap.ofItems` : the heap that branches are added to.
* `BinaryHeap.pop?` : takes the first branch off.
* `BinaryHeap.IsHeap` : no item has a smaller position than its parent.
* `BinaryHeap.HeapAbove` : the same but for one item, which may be too far down.

## Main results

* `BinaryHeap.isHeap_ofItems` : branches that are added one by one make a heap.
* `BinaryHeap.ofItems_perm`, `BinaryHeap.pop?_perm` : no branch is lost or added by itself.
* `BinaryHeap.pos_le_of_pop?` : the branch that is taken off has the smallest position.
-/

namespace A32Lowering

namespace BinaryHeap

/-! ### The heap -/

/-- Moves the item at `i` up while its position is smaller than that of its parent, which is the
item at `(i - 1) / 2`. -/
def siftUp (a : Array PendingBranch) (i : Nat) : Array PendingBranch :=
  if h : 0 < i ∧ i < a.size then
    have hi : i < a.size := h.2
    have hp : (i - 1) / 2 < a.size := by omega
    if a[i].pos < a[(i - 1) / 2].pos then siftUp (a.swap i ((i - 1) / 2)) ((i - 1) / 2) else a
  else a
termination_by i
decreasing_by omega

/-- The child of `i` with the smaller position, the left one of two equals. -/
def smallerChild (a : Array PendingBranch) (i : Nat) (h : 2 * i + 1 < a.size) : Fin a.size :=
  if h' : 2 * i + 2 < a.size then
    if a[2 * i + 2].pos < a[2 * i + 1].pos then ⟨2 * i + 2, h'⟩ else ⟨2 * i + 1, h⟩
  else ⟨2 * i + 1, h⟩

theorem lt_smallerChild (a : Array PendingBranch) (i : Nat) (h : 2 * i + 1 < a.size) :
    i < (smallerChild a i h).val := by
  unfold smallerChild
  split
  · split
    · simp only; omega
    · simp only; omega
  · simp only; omega

/-- Moves the item at `i` down while a child has a smaller position. -/
def siftDown (a : Array PendingBranch) (i : Nat) : Array PendingBranch :=
  if h : 2 * i + 1 < a.size then
    let j := smallerChild a i h
    if a[j].pos < a[i].pos then siftDown (a.swap i j) j.val else a
  else a
termination_by a.size - i
decreasing_by
  have := lt_smallerChild a i h
  have := (smallerChild a i h).isLt
  simp only [Array.size_swap]
  omega

/-- The heap with a branch added. -/
def push (a : Array PendingBranch) (b : PendingBranch) : Array PendingBranch :=
  siftUp (a.push b) a.size

/-- The first item and the heap without it. The last item takes its place and moves down. -/
def pop? (a : Array PendingBranch) : Option (PendingBranch × Array PendingBranch) :=
  if h : 0 < a.size then some (a[0], siftDown (a.swap 0 (a.size - 1)).pop 0) else none

/-- The heap that branches are added to one by one. -/
def ofItems (items : Array PendingBranch) : Array PendingBranch :=
  items.toList.foldl push #[]

/-! ### Its items -/

theorem siftUp_perm (a : Array PendingBranch) (i : Nat) : (siftUp a i).Perm a := by
  fun_induction siftUp a i with
  | case1 a i h hi hp hlt ih => exact ih.trans (Array.swap_perm _ _)
  | case2 => exact .refl _
  | case3 => exact .refl _

theorem siftDown_perm (a : Array PendingBranch) (i : Nat) : (siftDown a i).Perm a := by
  fun_induction siftDown a i with
  | case1 a i h j hlt ih => exact ih.trans (Array.swap_perm _ _)
  | case2 => exact .refl _
  | case3 => exact .refl _

/-- A branch that is added joins those that are there. -/
theorem push_perm (a : Array PendingBranch) (b : PendingBranch) : (push a b).Perm (a.push b) :=
  siftUp_perm _ _

theorem pop?_eq_none_iff {a : Array PendingBranch} : pop? a = none ↔ a = #[] := by
  simp [pop?]

/-- A branch that is taken off leaves all others. -/
theorem pop?_perm {a r : Array PendingBranch} {b : PendingBranch} (h : pop? a = some (b, r)) :
    a.Perm (r.push b) := by
  unfold pop? at h
  split at h
  next ha =>
    cases h
    have hl : a.size - 1 < a.size := by omega
    have hs : (a.swap 0 (a.size - 1)).pop.push a[0] = a.swap 0 (a.size - 1) := by
      have hlast : (a.swap 0 (a.size - 1)).back? = some a[0] := by
        rw [Array.back?_eq_getElem?, Array.size_swap, Array.getElem?_eq_getElem (by simpa using hl),
          Array.getElem_swap_right]
      have hne : (a.swap 0 (a.size - 1)).size ≠ 0 := by
        rw [Array.size_swap]
        omega
      obtain ⟨front, c, hs⟩ := Array.eq_push_of_size_ne_zero hne
      rw [hs, Array.back?_push, Option.some_inj] at hlast
      rw [hs, Array.pop_push, hlast]
    exact (Array.swap_perm ha hl).symm.trans
      ((Array.Perm.of_eq hs.symm).trans ((siftDown_perm _ _).symm.push _))
  · cases h

/-- Branches that are added one by one join those that are there. -/
theorem foldl_push_perm (a : Array PendingBranch) (l : List PendingBranch) :
    (l.foldl push a).toList.Perm (a.toList ++ l) := by
  induction l generalizing a with
  | nil => simp
  | cons b l ih =>
    have hpush := Array.perm_iff_toList_perm.mp (push_perm a b)
    rw [Array.toList_push] at hpush
    refine (ih (push a b)).trans ((hpush.append_right l).trans ?_)
    rw [List.append_assoc, List.singleton_append]

/-- A heap holds the branches that were added to it. -/
theorem ofItems_perm (items : Array PendingBranch) : (ofItems items).Perm items :=
  Array.perm_iff_toList_perm.mpr (foldl_push_perm #[] items.toList)

/-! ### Its order -/

/-- The place of the parent of an item. -/
def parent (j : Nat) : Nat := (j - 1) / 2

theorem parent_lt {j : Nat} (h : 0 < j) : parent j < j := by
  unfold parent
  omega

variable {a : Array PendingBranch} {i : Nat}

/-- The position of the branch at a place of the heap, zero behind its end. -/
def posAt (a : Array PendingBranch) (j : Nat) : Nat := (a[j]?.map PendingBranch.pos).getD 0

theorem posAt_eq {j : Nat} (h : j < a.size) : posAt a j = a[j].pos := by
  rw [posAt, Array.getElem?_eq_getElem h, Option.map_some, Option.getD_some]

theorem posAt_swap {j k m : Nat} (hj : j < a.size) (hk : k < a.size) (hm : m < a.size) :
    posAt (a.swap j k) m = if m = j then posAt a k else if m = k then posAt a j else posAt a m := by
  rw [posAt_eq (by simpa using hm), posAt_eq hj, posAt_eq hk, posAt_eq hm, Array.getElem_swap]
  grind

/-- No item has a smaller position than its parent. -/
def IsHeap (a : Array PendingBranch) : Prop :=
  ∀ j, 0 < j → j < a.size → posAt a (parent j) ≤ posAt a j

/-- No item has a smaller position than its parent, except perhaps the one at `i`, whose parent is
in order with its children. -/
structure HeapAbove (a : Array PendingBranch) (i : Nat) : Prop where
  order : ∀ j, 0 < j → j < a.size → j ≠ i → posAt a (parent j) ≤ posAt a j
  skip : 0 < i → ∀ j, 0 < j → j < a.size → parent j = i → posAt a (parent i) ≤ posAt a j

/-- The first item of a heap has the smallest position. -/
theorem IsHeap.posAt_zero_le (h : IsHeap a) {j : Nat} (hj : j < a.size) :
    posAt a 0 ≤ posAt a j := by
  induction j using Nat.strongRecOn with
  | ind j ih =>
    rcases Nat.eq_zero_or_pos j with rfl | h0
    · exact Nat.le_refl _
    · have hp := parent_lt h0
      exact Nat.le_trans (ih (parent j) hp (Nat.lt_trans hp hj)) (h j h0 hj)

/-! ### Adding a branch -/

/-- An item in front of its parent takes the place of the parent. -/
theorem HeapAbove.swap (h : HeapAbove a i) (h0 : 0 < i) (hi : i < a.size) (hp : parent i < a.size)
    (hlt : posAt a i < posAt a (parent i)) : HeapAbove (a.swap i (parent i)) (parent i) := by
  have hpi := parent_lt h0
  constructor
  · intro j hj0 hj hne
    rw [Array.size_swap] at hj
    have hpj := parent_lt hj0
    have ho := h.order j hj0 hj
    have hs := h.skip h0 j hj0 hj
    rw [posAt_swap hi hp hj, posAt_swap hi hp (Nat.lt_trans hpj hj)]
    grind
  · intro hp0 j hj0 hj hpar
    rw [Array.size_swap] at hj
    have hpp := parent_lt hp0
    have ho := h.order j hj0 hj
    have hup := h.order (parent i) hp0 hp (Nat.ne_of_lt hpi)
    rw [posAt_swap hi hp hj, posAt_swap hi hp (Nat.lt_trans hpp hp)]
    grind

/-- Moving an item up makes a heap of items that are in order but for this one. -/
theorem HeapAbove.isHeap_siftUp (h : HeapAbove a i) : IsHeap (siftUp a i) := by
  fun_induction siftUp a i with
  | case1 a i hb hi hp hlt ih =>
    refine ih (h.swap hb.1 hi hp ?_)
    rwa [posAt_eq hi, posAt_eq (show parent i < a.size from hp)]
  | case2 a i hb hi hp hge =>
    intro j hj0 hj
    by_cases hji : j = i
    · subst hji
      rw [posAt_eq hi, posAt_eq (show parent j < a.size from hp)]
      exact Nat.not_lt.mp hge
    · exact h.order j hj0 hj hji
  | case3 a i hb =>
    intro j hj0 hj
    refine h.order j hj0 hj ?_
    rintro rfl
    exact hb ⟨hj0, hj⟩

/-- A heap with an item behind it is in order but for this one. -/
theorem IsHeap.heapAbove_push (h : IsHeap a) (b : PendingBranch) :
    HeapAbove (a.push b) a.size := by
  have hpush {j : Nat} (hj : j < a.size) : posAt (a.push b) j = posAt a j := by
    rw [posAt_eq hj, posAt_eq (by rw [Array.size_push]; omega), Array.getElem_push_lt hj]
  constructor
  · intro j hj0 hj hne
    rw [Array.size_push] at hj
    have hj : j < a.size := by omega
    rw [hpush hj, hpush (Nat.lt_trans (parent_lt hj0) hj)]
    exact h j hj0 hj
  · intro _ j hj0 hj hpar
    rw [Array.size_push] at hj
    have := parent_lt hj0
    omega

/-- The array stays a heap when a branch is added. -/
theorem isHeap_push (h : IsHeap a) (b : PendingBranch) : IsHeap (push a b) :=
  (h.heapAbove_push b).isHeap_siftUp

/-- Branches that are added one by one make a heap. -/
theorem isHeap_ofItems (items : Array PendingBranch) : IsHeap (ofItems items) := by
  have hfoldl (l : List PendingBranch) (a) (h : IsHeap a) : IsHeap (l.foldl push a) := by
    induction l generalizing a with
    | nil => exact h
    | cons b l ih => exact ih _ (isHeap_push h b)
  exact hfoldl _ _ fun _ _ hj => absurd hj (Nat.not_lt_zero _)

/-- The branch that is taken off has the smallest position. -/
theorem pos_le_of_pop? (h : IsHeap a) {r : Array PendingBranch} {b : PendingBranch}
    (ha : pop? a = some (b, r)) {d : PendingBranch} (hd : d ∈ a) : b.pos ≤ d.pos := by
  unfold pop? at ha
  split at ha
  next h0 =>
    cases ha
    obtain ⟨j, hj, rfl⟩ := Array.mem_iff_getElem.mp hd
    rw [← posAt_eq h0, ← posAt_eq hj]
    exact h.posAt_zero_le hj
  next => cases ha

end BinaryHeap

/-- The heap where no other is given: branches are taken off the binary heap of all that wait. -/
instance : PendingHeap where
  pop? q := (BinaryHeap.pop? (BinaryHeap.ofItems q.items)).map fun (b, r) => (b, ⟨r⟩)
  pop?_eq_none_iff {q} := by
    have hperm := BinaryHeap.ofItems_perm q.items
    rw [Option.map_eq_none_iff, BinaryHeap.pop?_eq_none_iff, ← Array.size_eq_zero_iff,
      hperm.size_eq, Array.size_eq_zero_iff]
  pop?_perm {q r b} h := by
    obtain ⟨⟨c, a⟩, hpop, heq⟩ := Option.map_eq_some_iff.mp h
    cases heq
    exact (BinaryHeap.ofItems_perm q.items).symm.trans (BinaryHeap.pop?_perm hpop)
  pos_le_of_pop? {q r b} h d hd := by
    obtain ⟨⟨c, a⟩, hpop, heq⟩ := Option.map_eq_some_iff.mp h
    cases heq
    have hmem : d ∈ BinaryHeap.ofItems q.items :=
      (BinaryHeap.ofItems_perm q.items).mem_iff.mpr hd
    exact BinaryHeap.pos_le_of_pop? (BinaryHeap.isHeap_ofItems q.items) hpop hmem

end A32Lowering
