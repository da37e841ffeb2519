/-!
# Words in a byte stream

Code is an array of bytes. An instruction word takes four of them, the least significant first, at
any position.

## Main definitions

* `Code`, `Code.word?` : a byte stream, and the word at a position of it.
* `Code.append` : the stream with a word behind it.
* `Code.write` : the stream with the word at a position replaced.

## Main results

* `wordOfBytes_wordBytes`, `wordBytes_wordOfBytes` : words and their bytes determine each other.
* `Code.word?_append_size`, `Code.word?_write_self`, `Code.getElem?_write_of_outside` : what adding
  and replacing a word do to the stream.
-/

namespace A32Lowering

/-- A stream of code bytes. -/
abbrev Code := Array UInt8

/-- The four bytes of a word, the least significant first. -/
def wordBytes (w : UInt32) : List UInt8 :=
  [w.toUInt8, (w >>> 8).toUInt8, (w >>> 16).toUInt8, (w >>> 24).toUInt8]

/-- The word made of four bytes, the least significant first. -/
def wordOfBytes (a b c d : UInt8) : UInt32 :=
  a.toUInt32 ||| b.toUInt32 <<< 8 ||| c.toUInt32 <<< 16 ||| d.toUInt32 <<< 24

/-- A word is made of its own bytes. -/
theorem wordOfBytes_wordBytes (w : UInt32) :
    wordOfBytes w.toUInt8 (w >>> 8).toUInt8 (w >>> 16).toUInt8 (w >>> 24).toUInt8 = w := by
  refine UInt32.toBitVec_inj.1 (BitVec.eq_of_getLsbD_eq fun i hi => ?_)
  simp only [wordOfBytes, UInt32.toBitVec_or, UInt32.toBitVec_shiftLeft,
    UInt8.toBitVec_toUInt32, UInt32.toBitVec_toUInt8, UInt32.toBitVec_shiftRight]
  simp
  grind

/-- The bytes of a word made of four bytes are those four. -/
theorem wordBytes_wordOfBytes (a b c d : UInt8) :
    wordBytes (wordOfBytes a b c d) = [a, b, c, d] := by
  have h0 : (wordOfBytes a b c d).toUInt8 = a :=
    UInt8.toBitVec_inj.1 (BitVec.eq_of_getLsbD_eq fun i hi => by simp [wordOfBytes])
  have h1 : (wordOfBytes a b c d >>> 8).toUInt8 = b :=
    UInt8.toBitVec_inj.1 (BitVec.eq_of_getLsbD_eq fun i hi => by simp [wordOfBytes]; grind)
  have h2 : (wordOfBytes a b c d >>> 16).toUInt8 = c :=
    UInt8.toBitVec_inj.1 (BitVec.eq_of_getLsbD_eq fun i hi => by simp [wordOfBytes]; grind)
  have h3 : (wordOfBytes a b c d >>> 24).toUInt8 = d :=
    UInt8.toBitVec_inj.1 (BitVec.eq_of_getLsbD_eq fun i hi => by simp [wordOfBytes]; grind)
  simp only [wordBytes, h0, h1, h2, h3]

namespace Code

/-- The word at a position, if all four bytes lie within the stream. -/
def word? (code : Code) (pos : Nat) : Option UInt32 := do
  let a ← code[pos]?
  let b ← code[pos + 1]?
  let c ← code[pos + 2]?
  let d ← code[pos + 3]?
  return wordOfBytes a b c d

/-- The stream with a word behind it. -/
def append (code : Code) (w : UInt32) : Code :=
  code ++ (wordBytes w).toArray

@[simp]
theorem size_append (code : Code) (w : UInt32) : (code.append w).size = code.size + 4 := by
  simp [append, wordBytes]

/-- The word behind a stream is the one that was added. -/
theorem word?_append_size (code : Code) (w : UInt32) :
    (code.append w).word? code.size = some w := by
  simp [append, word?, wordBytes, wordOfBytes_wordBytes]

/-- A word added behind a stream changes no other word. -/
theorem word?_append_of_le (code : Code) (w : UInt32) {pos : Nat} (h : pos + 4 ≤ code.size) :
    (code.append w).word? pos = code.word? pos := by
  have e (i : Nat) (hi : i < code.size) : (code.append w)[i]? = code[i]? := by
    simp [append, Array.getElem?_append, hi]
  unfold word?
  rw [e pos (by omega), e (pos + 1) (by omega), e (pos + 2) (by omega), e (pos + 3) (by omega)]

/-- The stream with the word at a position replaced; bytes beyond the end are dropped. -/
def write (code : Code) (pos : Nat) (w : UInt32) : Code :=
  (((code.setIfInBounds pos w.toUInt8).setIfInBounds (pos + 1) (w >>> 8).toUInt8).setIfInBounds
    (pos + 2) (w >>> 16).toUInt8).setIfInBounds (pos + 3) (w >>> 24).toUInt8

@[simp]
theorem size_write (code : Code) (pos : Nat) (w : UInt32) :
    (code.write pos w).size = code.size := by
  simp [write]

/-- The word at a position that was written. -/
theorem word?_write_self (code : Code) (w : UInt32) {pos : Nat} (h : pos + 4 ≤ code.size) :
    (code.write pos w).word? pos = some w := by
  have h0 : pos < code.size := by omega
  have h1 : pos + 1 < code.size := by omega
  have h2 : pos + 2 < code.size := by omega
  have h3 : pos + 3 < code.size := by omega
  simp [write, word?, h0, h1, h2, h3, wordOfBytes_wordBytes]

/-- A word that is written changes no byte outside of it. -/
theorem getElem?_write_of_outside (code : Code) (w : UInt32) {pos i : Nat}
    (h : i < pos ∨ pos + 4 ≤ i) : (code.write pos w)[i]? = code[i]? := by
  simp only [write, Array.getElem?_setIfInBounds]
  repeat rw [if_neg (by omega)]

end Code

end A32Lowering
