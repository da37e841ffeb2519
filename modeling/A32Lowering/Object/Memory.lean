import A32Lowering.Code.Word

/-!
# Memory blocks for code

A block can be written until it is sealed, and run from then on. Closing it gives its memory back:
nothing of it can be read afterwards.

## Main definitions

* `MemoryBlock`, with `allocate`, `write`, `freeze`, `close`, `bytes`, `size`, `isPlaced`.
* `MemoryError` : why an operation is refused.
-/

namespace A32Lowering

/-- A block of memory; a closed one has no bytes. -/
structure MemoryBlock where
  bytes : Code
  isSealed : Bool := false
  deriving DecidableEq, Repr

/-- Why an operation on a block is refused. -/
inductive MemoryError where
  | badSize (n : Int)
  | sealed
  | doesNotFit (wanted size : Nat)
  | unmapped
  deriving DecidableEq, Repr

/-- The wording of a memory error. -/
def MemoryError.message : MemoryError → String
  | badSize n => "bad block size: " ++ toString n
  | sealed => "block is sealed"
  | doesNotFit wanted size => "code does not fit: " ++ toString wanted ++ " > " ++ toString size
  | unmapped => "mprotect: invalid argument"

namespace MemoryBlock

/-- A new block of zero bytes. -/
def allocate (n : Int) : Except MemoryError MemoryBlock :=
  if n ≤ 0 then .error (.badSize n) else .ok ⟨Array.replicate n.toNat 0, false⟩

/-- The number of bytes. -/
def size (b : MemoryBlock) : Nat := b.bytes.size

/-- Copies code to the start of a block. -/
def write (b : MemoryBlock) (code : Code) : Except MemoryError MemoryBlock :=
  if b.isSealed then .error .sealed
  else if b.size < code.size then .error (.doesNotFit code.size b.size)
  else .ok { b with bytes := code ++ b.bytes.extract code.size b.size }

/-- Makes a block executable and read-only. -/
def freeze (b : MemoryBlock) : Except MemoryError MemoryBlock :=
  if b.size = 0 then .error .unmapped else .ok { b with isSealed := true }

/-- Gives the memory of a block back. -/
def close (b : MemoryBlock) : MemoryBlock :=
  { b with bytes := #[] }

/-- Whether a block has an address. -/
def isPlaced (b : MemoryBlock) : Bool := b.size ≠ 0

end MemoryBlock

end A32Lowering
