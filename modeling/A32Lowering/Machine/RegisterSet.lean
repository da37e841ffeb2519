/-!
# Sets of registers

A set of the sixteen registers is a mask of sixteen bits, the form in which block transfers name
their registers.

## Main definitions

* `RegisterSet` with `insert`, `erase`, `contains`, `union`, `size` and `toList`.
* `RegisterSet.insertAll` : inserts keys in order until one is out of range.
-/

namespace A32Lowering

/-- A set of register numbers below sixteen: number `k` is a member when bit `k` is set. -/
structure RegisterSet where
  mask : UInt16
  deriving DecidableEq, Repr

namespace RegisterSet

/-- A key that is no register number. -/
structure OutOfRange where
  key : Int
  deriving DecidableEq, Repr

/-- The wording of the error for a key that is no register number. -/
def OutOfRange.message (_ : OutOfRange) : String := "register out of range"

/-- The set without members. -/
def empty : RegisterSet := ⟨0⟩

/-- The mask of one register number. -/
def bit (k : Nat) : UInt16 := 1 <<< UInt16.ofNat k

/-- The mask of a key, if it is a register number. -/
def bit? (k : Int) : Except OutOfRange UInt16 :=
  if 0 ≤ k ∧ k < 16 then .ok (bit k.toNat) else .error ⟨k⟩

/-- The set with a key added. -/
def insert (s : RegisterSet) (k : Int) : Except OutOfRange RegisterSet :=
  (bit? k).map fun b => ⟨s.mask ||| b⟩

/-- The set with keys added in order; from the first key that is out of range on none is added. -/
def insertAll (s : RegisterSet) : List Int → RegisterSet × Except OutOfRange Unit
  | [] => (s, .ok ())
  | k :: ks =>
    match s.insert k with
    | .ok s => s.insertAll ks
    | .error e => (s, .error e)

/-- The set of some keys. -/
def ofKeys (ks : List Int) : Except OutOfRange RegisterSet :=
  match empty.insertAll ks with
  | (s, .ok ()) => .ok s
  | (_, .error e) => .error e

/-- The set with a key taken out. -/
def erase (s : RegisterSet) (k : Int) : Except OutOfRange RegisterSet :=
  (bit? k).map fun b => ⟨s.mask &&& ~~~b⟩

/-- Whether a key is a member. -/
def contains (s : RegisterSet) (k : Int) : Except OutOfRange Bool :=
  (bit? k).map fun b => s.mask &&& b != 0

/-- The union of two sets. -/
def union (s t : RegisterSet) : RegisterSet := ⟨s.mask ||| t.mask⟩

/-- The members in increasing order. -/
def toList (s : RegisterSet) : List Nat :=
  (List.range 16).filter fun k => s.mask &&& bit k != 0

theorem mem_toList {s : RegisterSet} {k : Nat} :
    k ∈ s.toList ↔ k < 16 ∧ s.mask &&& bit k ≠ 0 := by
  simp [toList]

/-- The number of members. -/
def size (s : RegisterSet) : Nat := s.toList.length

/-- The members visited in increasing order by a visitor that stops once it has seen `n` of them:
it sees at least one if there is one. -/
def visit (s : RegisterSet) (n : Int) : List Nat :=
  s.toList.take (max 1 n.toNat)

end RegisterSet

end A32Lowering
