import Mathlib
import A32Lowering.Proofs.Action
import A32Lowering.Proofs.Decode
import A32Lowering.Proofs.Patching

/-!
# Patching at any offset

A patch either replaces the value of the load pair at its offset and nothing else, or it changes
nothing. Code is changed in place, byte by byte, and each access to a byte may fail, so this is a
fact about the order of the accesses: every read that can fail comes before the first write. The
bounds check adds to a signed 64-bit offset. The sum wraps around for the last eight offsets, which
pass the check and are found out by a read.

## Main definitions

* `Code.PairAt` : two words at an offset that are a load pair, whatever they load.
* `LoadPair.Rewrites` : what replacing the value of a word may change.
* `LoadPair.Patched` : code with the value of a load pair replaced, and all else kept.
* `LoadPair.patchInPlace` : patching byte by byte.

## Main results

* `LoadPair.patch_eq_ok_iff` : when patching succeeds.
* `LoadPair.patch_of_apart` : a value that is in place stays there when other pairs are patched.
* `LoadPair.outcome_patchInPlace` : patching in place either succeeds or changes no byte.
* `LoadPair.patch_total` : what patching does at every offset.
-/

namespace A32Lowering

/-! ### Load pairs -/

/-- Two words of the code at an offset and right behind it that have the opcode bits of a MOVW and
of a MOVT. Their conditions, registers and values are arbitrary, and so is the alignment of the
offset. -/
structure Code.PairAt (code : Code) (offset : Int) (lo hi : UInt32) : Prop where
  nonneg : 0 ≤ offset
  inside : offset + 8 ≤ code.size
  low : code.word? offset.toNat = some lo
  high : code.word? (offset.toNat + 4) = some hi
  movw : slice lo 20 8 = 0x30
  movt : slice hi 20 8 = 0x34

theorem toNat_and_opcode (w : UInt32) : (w &&& 0x0FF00000).toNat = slice w 20 8 <<< 20 := by
  refine Nat.eq_of_testBit_eq fun i => ?_
  have hmask : (0x0FF00000 : UInt32).toNat = (2 ^ 8 - 1) <<< 20 := rfl
  rw [UInt32.toNat_and, hmask, slice, Nat.testBit_and, Nat.testBit_shiftLeft,
    Nat.testBit_shiftLeft, Nat.testBit_two_pow_sub_one, Nat.testBit_mod_two_pow,
    Nat.testBit_shiftRight]
  by_cases h : 20 ≤ i
  · simp [h, Bool.and_comm]
  · simp [h]

theorem and_opcode_eq_iff {w c : UInt32} {n : Nat} (hc : c.toNat = n <<< 20) :
    (w &&& 0x0FF00000) = c ↔ slice w 20 8 = n := by
  rw [← UInt32.toNat_inj, toNat_and_opcode, hc, Nat.shiftLeft_eq, Nat.shiftLeft_eq]
  exact Nat.mul_left_inj (by decide)

namespace LoadPair

theorem isMovw_iff {w : UInt32} : isMovw w = true ↔ slice w 20 8 = 0x30 := by
  rw [isMovw, beq_iff_eq]
  exact and_opcode_eq_iff rfl

theorem isMovt_iff {w : UInt32} : isMovt w = true ↔ slice w 20 8 = 0x34 := by
  rw [isMovt, beq_iff_eq]
  exact and_opcode_eq_iff rfl

/-! ### Replacing the value of a word -/

/-- A word `w'` that is `w` with another value, with the opcode bits `opcode`: the condition and the
destination register are kept. -/
structure Rewrites (opcode : Nat) (w : UInt32) (value : UInt16) (w' : UInt32) : Prop where
  opcode : slice w' 20 8 = opcode
  value : half16Of w' = value
  condition : slice w' 28 4 = slice w 28 4
  register : slice w' 12 4 = slice w 12 4

theorem slice_keep (w : UInt32) : slice (w &&& keep) 28 4 = slice w 28 4 ∧
    slice (w &&& keep) 20 8 = 0 ∧ slice (w &&& keep) 16 4 = 0 ∧
    slice (w &&& keep) 12 4 = slice w 12 4 ∧ slice (w &&& keep) 0 12 = 0 := by
  have hlt : slice w 28 4 < 2 ^ 4 ∧ slice w 12 4 < 2 ^ 4 :=
    ⟨Nat.mod_lt _ (Nat.two_pow_pos 4), Nat.mod_lt _ (Nat.two_pow_pos 4)⟩
  have hkeep : slice keep 28 4 = 2 ^ 4 - 1 ∧ slice keep 20 8 = 0 ∧ slice keep 16 4 = 0 ∧
      slice keep 12 4 = 2 ^ 4 - 1 ∧ slice keep 0 12 = 0 := by decide
  simp only [slice_and, hkeep, Nat.and_two_pow_sub_one_eq_mod, Nat.mod_eq_of_lt hlt.1,
    Nat.mod_eq_of_lt hlt.2, Nat.and_zero, and_self]

theorem slice_split16 (v : UInt16) : slice (Instr.split16 v) 28 4 = 0 ∧
    slice (Instr.split16 v) 20 8 = 0 ∧
    slice (Instr.split16 v) 16 4 = (v >>> 12).toUInt32.toNat ∧
    slice (Instr.split16 v) 12 4 = 0 ∧
    slice (Instr.split16 v) 0 12 = (v &&& 0xfff).toUInt32.toNat := by
  have hhi := toNat_high_lt v
  have hlo := toNat_low_lt v
  simp (disch := first | assumption | decide) only [Instr.split16, slice_or, slice_shift_self,
    slice_self, slice_shift_zero hhi, slice_zero hlo]
  simp

theorem rewrites_join {base : UInt32} {opcode : Nat}
    (hb : slice base 28 4 = 0 ∧ slice base 20 8 = opcode ∧ slice base 16 4 = 0 ∧
      slice base 12 4 = 0 ∧ slice base 0 12 = 0) (w : UInt32) (x : UInt16) :
    Rewrites opcode w x (w &&& keep ||| base ||| Instr.split16 x) := by
  obtain ⟨k28, k20, k16, k12, k0⟩ := slice_keep w
  obtain ⟨v28, v20, v16, v12, v0⟩ := slice_split16 x
  constructor
  · simp [slice_or, k20, v20, hb]
  · refine half16Of_eq ?_ ?_
    · simp only [slice_or, k16, v16, hb, Nat.zero_or]
    · simp only [slice_or, k0, v0, hb, Nat.zero_or]
  · simp [slice_or, k28, v28, hb]
  · simp [slice_or, k12, v12, hb]

theorem rewrites_withLow (w v : UInt32) :
    Rewrites 0x30 w (Constant.lowHalf v) (withLow w v) :=
  rewrites_join (by decide) w _

theorem rewrites_withHigh (w v : UInt32) :
    Rewrites 0x34 w (Constant.highHalf v) (withHigh w v) :=
  rewrites_join (by decide) w _

theorem join_and_keep {base : UInt32} (hb : base &&& keep = 0) (w : UInt32) (x : UInt16) :
    (w &&& keep ||| base ||| Instr.split16 x) &&& keep = w &&& keep := by
  rw [or_and_mask, or_and_mask, UInt32.and_assoc, UInt32.and_self, hb, UInt32.or_zero,
    Instr.split16_and (by decide), UInt32.or_zero]

/-- Of two values that replace each other, the later one counts. -/
@[simp] theorem withLow_withLow (w v v' : UInt32) : withLow (withLow w v) v' = withLow w v' := by
  have hbase : (0x03000000 : UInt32) &&& keep = 0 := by decide
  rw [withLow, withLow, withLow, join_and_keep hbase]

@[simp] theorem withHigh_withHigh (w v v' : UInt32) :
    withHigh (withHigh w v) v' = withHigh w v' := by
  have hbase : (0x03400000 : UInt32) &&& keep = 0 := by decide
  rw [withHigh, withHigh, withHigh, join_and_keep hbase]

end LoadPair

/-! ### Words that replace each other -/

namespace Code

/-- The bytes of a word that is written do not depend on what was there. -/
theorem getElem?_write_of_inside {code other : Code} (hs : code.size = other.size) (w : UInt32)
    {pos i : Nat} (hi : pos ≤ i ∧ i < pos + 4) :
    (code.write pos w)[i]? = (other.write pos w)[i]? := by
  obtain rfl | rfl | rfl | rfl : i = pos ∨ i = pos + 1 ∨ i = pos + 2 ∨ i = pos + 3 := by omega
  all_goals simp [write, Array.getElem?_setIfInBounds, hs]

variable (code : Code) (a b : UInt32) {pos at_ : Nat}

/-- Of two words that are written to one position, the later one counts. -/
theorem write_write_self : (code.write pos a).write pos b = code.write pos b := by
  refine Array.ext_getElem? fun i => ?_
  by_cases hi : pos ≤ i ∧ i < pos + 4
  · exact getElem?_write_of_inside (size_write ..) b hi
  · have ho : i < pos ∨ pos + 4 ≤ i := by omega
    rw [getElem?_write_of_outside _ _ ho, getElem?_write_of_outside _ _ ho,
      getElem?_write_of_outside _ _ ho]

/-- Words that have no byte in common can be written in any order. -/
theorem write_comm_of_apart (h : pos + 4 ≤ at_ ∨ at_ + 4 ≤ pos) :
    (code.write pos a).write at_ b = (code.write at_ b).write pos a := by
  refine Array.ext_getElem? fun i => ?_
  by_cases hi : pos ≤ i ∧ i < pos + 4
  · rw [getElem?_write_of_outside _ _ (by omega)]
    exact getElem?_write_of_inside (size_write ..).symm a hi
  · rw [getElem?_write_of_outside (code.write at_ b) a (by omega)]
    by_cases hj : at_ ≤ i ∧ i < at_ + 4
    · exact getElem?_write_of_inside (size_write ..) b hj
    · rw [getElem?_write_of_outside _ _ (by omega), getElem?_write_of_outside _ _ (by omega),
        getElem?_write_of_outside _ _ (by omega)]

end Code

/-! ### Patching at an offset -/

namespace LoadPair

variable {code patched : Code} {offset : Int} {lo hi v : UInt32}

/-- The code with the value of a load pair of two words replaced. -/
def rewrite (code : Code) (offset : Int) (lo hi v : UInt32) : Code :=
  (code.write offset.toNat (withLow lo v)).write (offset.toNat + 4) (withHigh hi v)

/-- The code `patched` is the code with the value of the load pair at an offset replaced. The pair
loads the new value, the low half by its first word and the high half by its second, and nothing
else has changed. -/
structure Patched (code : Code) (offset : Int) (v : UInt32) (patched : Code) : Prop where
  size : patched.size = code.size
  outside : ∀ i : Nat, (i : Int) < offset ∨ offset + 8 ≤ i → patched[i]? = code[i]?
  pair : ∀ lo hi, code.PairAt offset lo hi → ∃ lo' hi', patched.PairAt offset lo' hi' ∧
    Rewrites 0x30 lo (Constant.lowHalf v) lo' ∧ Rewrites 0x34 hi (Constant.highHalf v) hi'

theorem not_outOfRange (h0 : 0 ≤ offset) (hi : offset + 8 ≤ code.size) :
    ¬ (offset < 0 ∨ (code.size : Int) < Int.bmod (offset + 8) UInt64.size) := by
  have hmod : Int.bmod (offset + 8) UInt64.size ≤ offset + 8 := by
    rw [Int.bmod, UInt64.size]
    split <;> omega
  omega

/-- An offset with room for a load pair behind it has two words. -/
theorem exists_words (h0 : 0 ≤ offset) (hin : offset + 8 ≤ code.size) :
    ∃ lo hi, code.word? offset.toNat = some lo ∧ code.word? (offset.toNat + 4) = some hi := by
  obtain ⟨lo, hlo⟩ : ∃ w, code.word? offset.toNat = some w := Code.exists_word? (by omega)
  obtain ⟨hi, hhi⟩ : ∃ w, code.word? (offset.toNat + 4) = some w := Code.exists_word? (by omega)
  exact ⟨lo, hi, hlo, hhi⟩

/-- Patching a load pair rewrites its words. -/
theorem patch_of_pairAt (h : code.PairAt offset lo hi) (v : UInt32) :
    patch code offset v = .ok (rewrite code offset lo hi v) := by
  rw [patch, if_neg (not_outOfRange h.nonneg h.inside), h.low, h.high]
  simp [isMovw_iff.2 h.movw, isMovt_iff.2 h.movt, rewrite]

/-- Patching succeeds exactly where there is a load pair, whose words it rewrites. -/
theorem patch_eq_ok_iff : patch code offset v = .ok patched ↔
    ∃ lo hi, code.PairAt offset lo hi ∧ patched = rewrite code offset lo hi v := by
  constructor
  · intro h
    rw [patch] at h
    split at h
    · cases h
    next hrange =>
    split at h
    next lo hi hlo hhi =>
      split at h
      next hop =>
        rw [Bool.and_eq_true] at hop
        have := Code.le_size_of_word? hhi
        exact ⟨lo, hi, ⟨by omega, by omega, hlo, hhi, isMovw_iff.1 hop.1, isMovt_iff.1 hop.2⟩,
          (Except.ok.inj h).symm⟩
      · cases h
    · cases h
  · rintro ⟨lo, hi, h, hd⟩
    rw [patch_of_pairAt h, hd]

@[simp] theorem size_rewrite : (rewrite code offset lo hi v).size = code.size := by
  simp [rewrite]

theorem getElem?_rewrite_of_outside {i : Nat} (h0 : 0 ≤ offset)
    (hi' : (i : Int) < offset ∨ offset + 8 ≤ i) :
    (rewrite code offset lo hi v)[i]? = code[i]? := by
  rw [rewrite, Code.getElem?_write_of_outside _ _ (by omega),
    Code.getElem?_write_of_outside _ _ (by omega)]

theorem pairAt_rewrite (h : code.PairAt offset lo hi) (v : UInt32) :
    (rewrite code offset lo hi v).PairAt offset (withLow lo v) (withHigh hi v) := by
  have h0 := h.nonneg
  have hin := h.inside
  have hlow : (rewrite code offset lo hi v).word? offset.toNat = some (withLow lo v) := by
    rw [rewrite, Code.word?_write_of_apart (.inl le_rfl)]
    exact Code.word?_write_self _ _ (by omega)
  have hhigh : (rewrite code offset lo hi v).word? (offset.toNat + 4) = some (withHigh hi v) := by
    rw [rewrite]
    exact Code.word?_write_self _ _ (by rw [Code.size_write]; omega)
  refine ⟨h0, ?_, hlow, hhigh, (rewrites_withLow lo v).opcode,
    (rewrites_withHigh hi v).opcode⟩
  rw [size_rewrite]
  exact hin

theorem rewrite_rewrite (v w : UInt32) :
    rewrite (rewrite code offset lo hi v) offset (withLow lo v) (withHigh hi v) w =
      rewrite code offset lo hi w := by
  rw [rewrite, rewrite, withLow_withLow, withHigh_withHigh,
    Code.write_comm_of_apart _ _ _ (.inr le_rfl), Code.write_write_self, Code.write_write_self,
    rewrite]

theorem pairAt_unique {lo' hi' : UInt32} (h : code.PairAt offset lo hi)
    (h' : code.PairAt offset lo' hi') : lo' = lo ∧ hi' = hi :=
  ⟨Option.some.inj (h'.low.symm.trans h.low), Option.some.inj (h'.high.symm.trans h.high)⟩

theorem patched_rewrite (h : code.PairAt offset lo hi) (v : UInt32) :
    Patched code offset v (rewrite code offset lo hi v) where
  size := size_rewrite
  outside i ho := getElem?_rewrite_of_outside h.nonneg ho
  pair lo' hi' h' := by
    obtain ⟨rfl, rfl⟩ := pairAt_unique h h'
    exact ⟨_, _, pairAt_rewrite h v, rewrites_withLow .., rewrites_withHigh ..⟩

/-- Of two values that are put into one load pair, the later one counts. -/
theorem patch_patch (h : patch code offset v = .ok patched) (w : UInt32) :
    patch patched offset w = patch code offset w := by
  obtain ⟨lo, hi, hp, hd⟩ := patch_eq_ok_iff.1 h
  rw [hd, patch_of_pairAt (pairAt_rewrite hp v), patch_of_pairAt hp, rewrite_rewrite]

/-- Where a value is in place, patching changes nothing. -/
theorem patch_self (h : patch code offset v = .ok patched) :
    patch patched offset v = .ok patched := by
  rw [patch_patch h, h]

theorem pairAt_of_apart {site : Int} {lo' hi' : UInt32} (h : code.PairAt offset lo hi)
    (h0 : 0 ≤ site) (ha : site + 8 ≤ offset ∨ offset + 8 ≤ site) :
    (rewrite code site lo' hi' v).PairAt offset lo hi := by
  have hnn := h.nonneg
  have hb {i : Nat} (hi : (i : Int) < site ∨ site + 8 ≤ i) :
      (rewrite code site lo' hi' v)[i]? = code[i]? :=
    getElem?_rewrite_of_outside h0 hi
  refine ⟨hnn, ?_, ?_, ?_, h.movw, h.movt⟩
  · rw [size_rewrite]
    exact h.inside
  · rw [← h.low]
    exact Code.word?_congr fun i _ _ => hb (by omega)
  · rw [← h.high]
    exact Code.word?_congr fun i _ _ => hb (by omega)

/-- A value that is in place stays there when a pair that does not overlap is patched. -/
theorem patch_of_apart {site : Int} {w : UInt32} (h : patch code offset v = .ok code)
    (hw : patch code site w = .ok patched) (ha : site + 8 ≤ offset ∨ offset + 8 ≤ site) :
    patch patched offset v = .ok patched := by
  obtain ⟨lo, hi, hp, hd⟩ := patch_eq_ok_iff.1 h
  obtain ⟨lo', hi', hp', hd'⟩ := patch_eq_ok_iff.1 hw
  have hq : patched.PairAt offset lo hi := by
    rw [hd']
    exact pairAt_of_apart hp hp'.nonneg ha
  -- the words are the new ones already, so writing them changes nothing
  have hfix : withLow lo v = lo ∧ withHigh hi v = hi := by
    have := pairAt_rewrite hp v
    rw [← hd] at this
    exact pairAt_unique hp this
  rw [patch_of_pairAt hq, rewrite, hfix.1, hfix.2, Code.write_eq_self hq.low,
    Code.write_eq_self hq.high]

end LoadPair

/-! ### Patching in place -/

/-- A change of code in place, which may stop with an error anywhere. -/
abbrev InPlace := ExceptT PatchError (StateM Code)

/-- The byte at an index. A negative index, which a sum that wraps around may be, has none. -/
def Code.byteAt? (code : Code) (i : Int64) : Option UInt8 :=
  if i.toInt < 0 then none else code[i.toInt.toNat]?

/-- The word at an index. -/
def Code.wordAt? (code : Code) (i : Int64) : Option UInt32 := do
  let a ← code.byteAt? i
  let b ← code.byteAt? (i + 1)
  let c ← code.byteAt? (i + 2)
  let d ← code.byteAt? (i + 3)
  return wordOfBytes a b c d

section Index

variable {code : Code} {i k : Int64}

/-- An index that can be added to without wrapping around. -/
theorem toInt_add_of_lt (h0 : 0 ≤ i.toInt) (hk : 0 ≤ k.toInt) (h : i.toInt + k.toInt < 2 ^ 63) :
    (i + k).toInt = i.toInt + k.toInt := by
  rw [Int64.toInt_add, Int.bmod_eq_of_le (by omega) (by omega)]

/-- A sum that is too large for an index wraps around to a negative one. -/
theorem toInt_add_of_ge (h : 2 ^ 63 ≤ i.toInt + k.toInt) : (i + k).toInt < 0 := by
  have hi := i.toInt_lt
  have hk := k.toInt_lt
  rw [Int64.toInt_add, Int.bmod]
  split <;> omega

namespace Code

theorem byteAt?_add (h0 : 0 ≤ i.toInt) (hk : 0 ≤ k.toInt) (h : i.toInt + k.toInt < 2 ^ 63) :
    code.byteAt? (i + k) = code[i.toInt.toNat + k.toInt.toNat]? := by
  rw [byteAt?, toInt_add_of_lt h0 hk h, if_neg (by omega), Int.toNat_add h0 hk]

theorem byteAt?_eq_none (h : i.toInt < 0 ∨ code.size ≤ i.toInt) : code.byteAt? i = none := by
  rw [byteAt?]
  split
  · rfl
  · rw [Array.getElem?_eq_none]
    omega

/-- An index that can be added to has the word at its position. -/
theorem wordAt?_eq_word? (h0 : 0 ≤ i.toInt) (h : i.toInt + 3 < 2 ^ 63) :
    code.wordAt? i = code.word? i.toInt.toNat := by
  have hb : code.byteAt? i = code[i.toInt.toNat]? := if_neg (by omega)
  have h1 : code.byteAt? (i + 1) = code[i.toInt.toNat + 1]? :=
    byteAt?_add h0 (by decide) (by simp; omega)
  have h2 : code.byteAt? (i + 2) = code[i.toInt.toNat + 2]? :=
    byteAt?_add h0 (by decide) (by simp; omega)
  have h3 : code.byteAt? (i + 3) = code[i.toInt.toNat + 3]? :=
    byteAt?_add h0 (by decide) (by simp; omega)
  rw [wordAt?, hb, h1, h2, h3, word?]

/-- A word whose last byte is not there is not there. -/
theorem wordAt?_eq_none (h : (i + 3).toInt < 0 ∨ code.size ≤ (i + 3).toInt) :
    code.wordAt? i = none := by
  rw [wordAt?, byteAt?_eq_none h]
  simp

end Code

end Index

namespace LoadPair

/-- Reads the word at an index, for a patch at an offset. -/
def readWord (offset i : Int64) : InPlace UInt32 := do
  match (← get).wordAt? i with
  | some w => return w
  | none => throw (.outside offset.toInt)

/-- Replaces the byte at an index, for a patch at an offset. -/
def writeByte (offset i : Int64) (b : UInt8) : InPlace Unit := do
  if i.toInt < 0 ∨ ((← get).size : Int) ≤ i.toInt then throw (.outside offset.toInt)
  else modify fun code => code.setIfInBounds i.toInt.toNat b

/-- Replaces the word at an index, for a patch at an offset, byte by byte. -/
def writeWord (offset i : Int64) (w : UInt32) : InPlace Unit := do
  writeByte offset i w.toUInt8
  writeByte offset (i + 1) (w >>> 8).toUInt8
  writeByte offset (i + 2) (w >>> 16).toUInt8
  writeByte offset (i + 3) (w >>> 24).toUInt8

/-- Replaces the value of the load pair at an offset in place. All sums wrap around. -/
def patchInPlace (offset : Int64) (v : UInt32) : InPlace Unit := do
  if offset.toInt < 0 ∨ ((← get).size : Int) < (offset + 8).toInt then
    throw (.outOfRange offset.toInt)
  let lo ← readWord offset offset
  let hi ← readWord offset (offset + 4)
  if isMovw lo && isMovt hi then
    writeWord offset offset (withLow lo v)
    writeWord offset (offset + 4) (withHigh hi v)
  else throw (.noPair offset.toInt lo hi)

section InPlace

variable {code : Code} {offset i : Int64}

theorem outcome_readWord : outcome (readWord offset i) code =
    (((code.wordAt? i).elim (.error (.outside offset.toInt)) .ok), code) := by
  rw [readWord, outcome_get_bind]
  cases code.wordAt? i <;> rfl

theorem outcome_writeByte (b : UInt8) (h0 : 0 ≤ i.toInt) (h : i.toInt < code.size) :
    outcome (writeByte offset i b) code = (.ok (), code.setIfInBounds i.toInt.toNat b) := by
  rw [writeByte, outcome_get_bind, if_neg (by omega)]
  rfl

/-- Writing a word in place is writing it, if all of its bytes are there. -/
theorem outcome_writeWord (hlen : code.size < 2 ^ 63) (w : UInt32) (h0 : 0 ≤ i.toInt)
    (h : i.toInt + 4 ≤ code.size) :
    outcome (writeWord offset i w) code = (.ok (), code.write i.toInt.toNat w) := by
  have h1 : (i + 1).toInt = i.toInt + 1 := toInt_add_of_lt h0 (by decide) (by simp; omega)
  have h2 : (i + 2).toInt = i.toInt + 2 := toInt_add_of_lt h0 (by decide) (by simp; omega)
  have h3 : (i + 3).toInt = i.toInt + 3 := toInt_add_of_lt h0 (by decide) (by simp; omega)
  have n1 : (i + 1).toInt.toNat = i.toInt.toNat + 1 := by omega
  have n2 : (i + 2).toInt.toNat = i.toInt.toNat + 2 := by omega
  have n3 : (i + 3).toInt.toNat = i.toInt.toNat + 3 := by omega
  rw [writeWord, outcome_bind_of_eq (outcome_writeByte _ h0 (by omega)),
    outcome_bind_of_eq (outcome_writeByte _ (by omega) (by rw [Array.size_setIfInBounds]; omega)),
    outcome_bind_of_eq
      (outcome_writeByte _ (by omega) (by simp only [Array.size_setIfInBounds]; omega)),
    outcome_writeByte _ (by omega) (by simp only [Array.size_setIfInBounds]; omega), n1, n2, n3,
    Code.write]

/-- A read fails exactly where the bounds check has wrapped around, which it does for the last eight
offsets. -/
theorem patch_eq_outside_iff (hlen : code.size < 2 ^ 63) {v : UInt32} {e : Int} :
    patch code offset.toInt v = .error (.outside e) ↔
      e = offset.toInt ∧ 2 ^ 63 - 8 ≤ offset.toInt := by
  have hmin := offset.le_toInt
  have hmax := offset.toInt_lt
  by_cases hwrap : 2 ^ 63 - 8 ≤ offset.toInt
  · have hrange : ¬ (offset.toInt < 0 ∨
        (code.size : Int) < Int.bmod (offset.toInt + 8) UInt64.size) := by
      rw [Int.bmod, UInt64.size]
      split <;> omega
    have hnone : code.word? (offset.toInt.toNat + 4) = none := by
      by_contra h
      obtain ⟨w, hw⟩ := Option.ne_none_iff_exists'.1 h
      have := Code.le_size_of_word? hw
      omega
    rw [patch, if_neg hrange, hnone]
    simpa [eq_comm] using fun _ => hwrap
  · simp only [hwrap, and_false, iff_false]
    rw [patch, Int.bmod_eq_of_le (by rw [UInt64.size]; omega) (by rw [UInt64.size]; omega)]
    split
    · simp
    next hin =>
    have hinside : offset.toInt + 8 ≤ code.size := by omega
    obtain ⟨lo, hi, hlo, hhi⟩ := exists_words (by omega) hinside
    rw [hlo, hhi]
    dsimp only
    split <;> simp

/-- An offset whose sums wrap around passes the bounds check. The last of its eight bytes is not
there, so that one of the reads fails. -/
theorem outcome_patchInPlace_of_ge (hlen : code.size < 2 ^ 63) (h : 2 ^ 63 - 8 ≤ offset.toInt)
    (v : UInt32) :
    outcome (patchInPlace offset v) code = (.error (.outside offset.toInt), code) := by
  have hsum : (offset + 8).toInt < 0 := toInt_add_of_ge (by simp; omega)
  have hlast : (offset + 4 + 3).toInt < 0 ∨ (code.size : Int) ≤ (offset + 4 + 3).toInt := by
    have h7 : offset + 4 + 3 = offset + 7 := Int64.add_assoc ..
    rw [h7]
    by_cases hw : offset.toInt + 7 < 2 ^ 63
    · have hadd : (offset + 7).toInt = offset.toInt + 7 :=
        toInt_add_of_lt (by omega) (by decide) (by simp; omega)
      omega
    · exact .inl (toInt_add_of_ge (by simp; omega))
  rw [patchInPlace, outcome_get_bind, if_neg (by omega), outcome_bind, outcome_readWord]
  cases code.wordAt? offset with
  | none => rfl
  | some lo => simp [outcome_bind, outcome_readWord, Code.wordAt?_eq_none hlast]

/-- Patching in place does what patching does. If it fails, no byte has changed. -/
theorem outcome_patchInPlace (hlen : code.size < 2 ^ 63) (v : UInt32) :
    outcome (patchInPlace offset v) code =
      match patch code offset.toInt v with
      | .ok patched => (.ok (), patched)
      | .error e => (.error e, code) := by
  by_cases hwrap : 2 ^ 63 - 8 ≤ offset.toInt
  · rw [outcome_patchInPlace_of_ge hlen hwrap, (patch_eq_outside_iff hlen).2 ⟨rfl, hwrap⟩]
  have hsum : (offset + 8).toInt = Int.bmod (offset.toInt + 8) UInt64.size := Int64.toInt_add ..
  rw [patchInPlace, outcome_get_bind, hsum, patch]
  by_cases hrange : offset.toInt < 0 ∨
      (code.size : Int) < Int.bmod (offset.toInt + 8) UInt64.size
  · rw [if_pos hrange, if_pos hrange]
    rfl
  rw [if_neg hrange, if_neg hrange]
  rw [Int.bmod_eq_of_le (by rw [UInt64.size]; omega) (by rw [UInt64.size]; omega)] at hrange
  have h4 : (offset + 4).toInt = offset.toInt + 4 :=
    toInt_add_of_lt (by omega) (by decide) (by simp; omega)
  have n4 : (offset + 4).toInt.toNat = offset.toInt.toNat + 4 := by omega
  have hinside : offset.toInt + 8 ≤ code.size := by omega
  obtain ⟨lo, hi, hlo, hhi⟩ := exists_words (by omega) hinside
  have hreadLow : outcome (readWord offset offset) code = (.ok lo, code) := by
    rw [outcome_readWord, Code.wordAt?_eq_word? (by omega) (by omega), hlo]
    rfl
  have hreadHigh : outcome (readWord offset (offset + 4)) code = (.ok hi, code) := by
    rw [outcome_readWord, Code.wordAt?_eq_word? (by omega) (by omega), n4, hhi]
    rfl
  rw [outcome_bind_of_eq hreadLow, outcome_bind_of_eq hreadHigh, hlo, hhi]
  dsimp only
  split
  · rw [outcome_bind_of_eq (outcome_writeWord hlen _ (by omega) (by omega)),
      outcome_writeWord (by rwa [Code.size_write]) _ (by omega) (by rw [Code.size_write]; omega),
      n4]
  · rfl

end InPlace

/-! ### What patching does -/

/-- Patching is total, precise and atomic, but for one defect of its bounds check: it fails by a
read, and not by an error of its own, exactly at the last eight offsets. It succeeds exactly where
there is a load pair within the code. A success changes only the value of the pair, and stands in
the way of no later one. Done in place, byte by byte, it ends the same way, and a failure leaves
every byte as it was. -/
theorem patch_total (code : Code) (hlen : code.size < 2 ^ 63) (offset : Int64) (v : UInt32) :
    ((∃ e, patch code offset.toInt v = .error (.outside e)) ↔ 2 ^ 63 - 8 ≤ offset.toInt) ∧
    ((∃ patched, patch code offset.toInt v = .ok patched) ↔
      ∃ lo hi, code.PairAt offset.toInt lo hi) ∧
    (∀ patched, patch code offset.toInt v = .ok patched → Patched code offset.toInt v patched ∧
      ∀ w, patch patched offset.toInt w = patch code offset.toInt w) ∧
    outcome (patchInPlace offset v) code =
      match patch code offset.toInt v with
      | .ok patched => (.ok (), patched)
      | .error e => (.error e, code) := by
  refine ⟨?_, ⟨?_, ?_⟩, ?_, outcome_patchInPlace hlen v⟩
  · simp [patch_eq_outside_iff hlen]
  · rintro ⟨patched, h⟩
    obtain ⟨lo, hi, hp, -⟩ := patch_eq_ok_iff.1 h
    exact ⟨lo, hi, hp⟩
  · rintro ⟨lo, hi, hp⟩
    exact ⟨_, patch_of_pairAt hp v⟩
  · intro patched h
    obtain ⟨lo, hi, hp, hd⟩ := patch_eq_ok_iff.1 h
    refine ⟨?_, patch_patch h⟩
    rw [hd]
    exact patched_rewrite hp v

/-- A load pair of zero, `MOVW R4, #0` and `MOVT R4, #0`. -/
def zeroPair : Code := #[0x00, 0x40, 0x00, 0xe3, 0x00, 0x40, 0x40, 0xe3]

theorem patch_total_zeroPair : zeroPair.size < 2 ^ 63 ∧
    ∃ patched, patch zeroPair 0 0x12345678 = .ok patched ∧
      Patched zeroPair 0 0x12345678 patched ∧
      ∀ w, patch patched 0 w = patch zeroPair 0 w := by
  obtain ⟨-, hok, hpatched, -⟩ := patch_total zeroPair (by decide) 0 0x12345678
  have hpair : zeroPair.PairAt (0 : Int64).toInt 0xe3004000 0xe3404000 :=
    ⟨by decide, by decide, by decide, by decide, by decide, by decide⟩
  obtain ⟨patched, h⟩ := hok.2 ⟨_, _, hpair⟩
  exact ⟨by decide, patched, h, hpatched patched h⟩

/-- The last offset is outside of every code, but the bounds check lets it through. -/
theorem patch_lastOffset : patch zeroPair (Int64.ofInt (2 ^ 63 - 1)).toInt 0x12345678 =
    .error (.outside 9223372036854775807) := by
  decide

end LoadPair

end A32Lowering
