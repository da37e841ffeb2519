import A32Lowering.Machine.Instr

/-!
# Pending branches

Branches whose label may not be placed yet wait until the labels are resolved. They are taken off a
heap then, the one at the smallest position first. Which of several branches at the same position
comes first is up to the heap.

## Main definitions

* `PendingBranch`, `PendingQueue`, `PendingQueue.push`.
* `PendingHeap` : how a branch is taken off, and what is known of it.

## Main results

* `PendingHeap.pop?_eq_some_of_perm` : a queue with one first branch gives it up.
-/

namespace A32Lowering

/-- A branch instruction at a position of the stream and the label it goes to. -/
structure PendingBranch where
  pos : Nat
  label : Label
  deriving DecidableEq, Repr, Inhabited

/-- Branches that wait, as they were added or as the heap left them. -/
structure PendingQueue where
  items : Array PendingBranch := #[]
  deriving DecidableEq, Repr

/-- The queue with a branch added. -/
def PendingQueue.push (q : PendingQueue) (b : PendingBranch) : PendingQueue :=
  ⟨q.items.push b⟩

/-- A heap for pending branches. -/
class PendingHeap where
  /-- A branch that comes off the queue, and the queue without it. -/
  pop? : PendingQueue → Option (PendingBranch × PendingQueue)
  /-- A branch comes off as long as one waits. -/
  pop?_eq_none_iff {q : PendingQueue} : pop? q = none ↔ q.items = #[]
  /-- A branch that comes off leaves all others in the queue. -/
  pop?_perm {q r : PendingQueue} {b : PendingBranch} :
    pop? q = some (b, r) → q.items.Perm (r.items.push b)
  /-- The branch that comes off has the smallest position. -/
  pos_le_of_pop? {q r : PendingQueue} {b : PendingBranch} :
    pop? q = some (b, r) → ∀ d ∈ q.items, b.pos ≤ d.pos

/-- A queue in which one branch stands in front of all others gives up this one. -/
theorem PendingHeap.pop?_eq_some_of_perm [PendingHeap] {q : PendingQueue} {b : PendingBranch}
    {rest : List PendingBranch} (hq : q.items.toList.Perm (b :: rest))
    (hb : ∀ d ∈ rest, b.pos < d.pos) :
    ∃ r, pop? q = some (b, r) ∧ r.items.toList.Perm rest := by
  cases hp : pop? q with
  | none =>
    rw [pop?_eq_none_iff.mp hp] at hq
    cases hq.symm.eq_nil
  | some p =>
    obtain ⟨d, r⟩ := p
    have hperm := Array.perm_iff_toList_perm.mp (pop?_perm hp)
    rw [Array.toList_push] at hperm
    have hdr : (d :: r.items.toList).Perm (b :: rest) :=
      (List.perm_append_singleton d _).symm.trans (hperm.symm.trans hq)
    obtain rfl : d = b := by
      have hbq : b ∈ q.items := Array.mem_toList_iff.mp (hq.mem_iff.mpr List.mem_cons_self)
      have hle := pos_le_of_pop? hp b hbq
      rcases List.mem_cons.mp (hdr.mem_iff.mp List.mem_cons_self) with he | hd
      · exact he
      · exact absurd (hb d hd) (Nat.not_lt.mpr hle)
    exact ⟨r, rfl, (List.perm_cons d).mp hdr⟩

end A32Lowering
