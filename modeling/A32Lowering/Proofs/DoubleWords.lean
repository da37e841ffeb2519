import Mathlib
import A32Lowering.Proofs.Emission
import A32Lowering.Proofs.Simulation

/-!
# Operations on two words

A number of sixty-four bits is kept in two words, the low one first. The code of an operation on
such numbers loads all words of its operands before it stores the first word of the result, so it
does not matter how the result and the operands overlap; the carry goes from the low word to the
high one in the flags.

## Main definitions

* `doubleWord` : two words as one number.
* `Core.place`, `Core.value64`, `Core.put64` : where an operand is in memory, its value, and the
  core with a new value.
* `Op.isWide`, `Statement.result64` : the operations, and what they compute.

## Main results

* `doubleWord_add`, `doubleWord_sub`, `doubleWord_product` : words with a carry between them.
* `Memory.word64_setWord64`, `Memory.setWord64_of_outside` : what a new value does to memory.
* `Straight.run?_wide` : the code of an operation puts its result into the destination.
* `Lower.reaches_result64` : the same for the machine, for every statement that is lowered.
-/

namespace A32Lowering

/-! ### Numbers of two words -/

/-- Two words as one number, the low one first. -/
def doubleWord (lo hi : UInt32) : UInt64 := hi.toUInt64 <<< 32 ||| lo.toUInt64

theorem toNat_doubleWord (lo hi : UInt32) :
    (doubleWord lo hi).toNat = 2 ^ 32 * hi.toNat + lo.toNat := by
  have hlo := lo.toNat_lt
  have hhi := hi.toNat_lt
  have h32 : (32 : UInt64).toNat % 64 = 32 := rfl
  have hshift : (hi.toUInt64 <<< 32).toNat = 2 ^ 32 * hi.toNat := by
    rw [UInt64.toNat_shiftLeft, UInt32.toNat_toUInt64, h32, Nat.shiftLeft_eq, Nat.mul_comm]
    exact Nat.mod_eq_of_lt (by omega)
  rw [doubleWord, UInt64.toNat_or, hshift, UInt32.toNat_toUInt64,
    Nat.two_pow_add_eq_or_of_lt hlo]

theorem doubleWord_inj {lo hi lo' hi' : UInt32} (h : doubleWord lo hi = doubleWord lo' hi') :
    lo = lo' ∧ hi = hi' := by
  have h := congrArg UInt64.toNat h
  rw [toNat_doubleWord, toNat_doubleWord] at h
  have hlo := lo.toNat_lt
  have hlo' := lo'.toNat_lt
  exact ⟨UInt32.toNat_inj.mp (by omega), UInt32.toNat_inj.mp (by omega)⟩

/-- A number is made of its two words. -/
theorem doubleWord_words (v : UInt64) : doubleWord v.toUInt32 (v >>> 32).toUInt32 = v := by
  have hv := v.toNat_lt
  have h32 : (32 : UInt64).toNat % 64 = 32 := rfl
  rw [← UInt64.toNat_inj, toNat_doubleWord, UInt64.toNat_toUInt32, UInt64.toNat_toUInt32,
    UInt64.toNat_shiftRight, h32, Nat.shiftRight_eq_div_pow]
  omega

theorem low_doubleWord (lo hi : UInt32) : (doubleWord lo hi).toUInt32 = lo :=
  (doubleWord_inj (doubleWord_words _)).1

theorem high_doubleWord (lo hi : UInt32) : (doubleWord lo hi >>> 32).toUInt32 = hi :=
  (doubleWord_inj (doubleWord_words _)).2

theorem toNat_fst_addWithCarry (x y : UInt32) (carry : Bool) :
    (addWithCarry x y carry).1.toNat = (x.toNat + y.toNat + carry.toNat) % 2 ^ 32 :=
  UInt32.toNat_ofNat'

/-- The carry of a sum is what does not fit into a word. -/
theorem toNat_carry_addWithCarry (x y : UInt32) (carry : Bool) :
    (addWithCarry x y carry).2.carry.toNat = (x.toNat + y.toNat + carry.toNat) / 2 ^ 32 := by
  have hx := x.toNat_lt
  have hy := y.toNat_lt
  have hc := carry.toNat_le
  have he : (addWithCarry x y carry).2.carry =
      decide (2 ^ 32 ≤ x.toNat + y.toNat + carry.toNat) := rfl
  rw [he]
  by_cases h : 2 ^ 32 ≤ x.toNat + y.toNat + carry.toNat
  · rw [decide_eq_true h, Bool.toNat_true]
    omega
  · rw [decide_eq_false h, Bool.toNat_false]
    omega

variable {lo hi lo' hi' : UInt32}

/-- A sum word by word, with the carry of the low words. -/
theorem doubleWord_add : doubleWord (addWithCarry lo lo' false).1
    (addWithCarry hi hi' (addWithCarry lo lo' false).2.carry).1 =
      doubleWord lo hi + doubleWord lo' hi' := by
  have hc := toNat_carry_addWithCarry lo lo' false
  rw [Bool.toNat_false] at hc
  rw [← UInt64.toNat_inj, UInt64.toNat_add]
  simp only [toNat_doubleWord, toNat_fst_addWithCarry, hc, Bool.toNat_false]
  omega

/-- A difference word by word, with the borrow of the low words. -/
theorem doubleWord_sub : doubleWord (addWithCarry lo (~~~lo') true).1
    (addWithCarry hi (~~~hi') (addWithCarry lo (~~~lo') true).2.carry).1 =
      doubleWord lo hi - doubleWord lo' hi' := by
  have hc := toNat_carry_addWithCarry lo (~~~lo') true
  have hlo' := lo'.toNat_lt
  have hhi' := hi'.toNat_lt
  rw [Bool.toNat_true, UInt32.toNat_not] at hc
  rw [← UInt64.toNat_inj, UInt64.toNat_sub]
  simp only [toNat_doubleWord, toNat_fst_addWithCarry, hc, Bool.toNat_true, UInt32.toNat_not,
    UInt32.size]
  omega

theorem doubleWord_and :
    doubleWord (lo &&& lo') (hi &&& hi') = doubleWord lo hi &&& doubleWord lo' hi' := by
  refine UInt64.toBitVec_inj.mp (BitVec.eq_of_getLsbD_eq fun i hi => ?_)
  simp [doubleWord]
  grind

/-- A number is made of its lower and its upper half. -/
theorem doubleWord_halves (p : BitVec 64) :
    doubleWord ⟨p.setWidth 32⟩ ⟨p.extractLsb' 32 32⟩ = ⟨p⟩ := by
  have hp := p.isLt
  have h32 : (2 : Nat) ^ 32 ≠ 0 := by decide
  have hlo : (⟨p.setWidth 32⟩ : UInt32).toNat = p.toNat % 2 ^ 32 := BitVec.toNat_setWidth ..
  have hhi : (⟨p.extractLsb' 32 32⟩ : UInt32).toNat = p.toNat / 2 ^ 32 % 2 ^ 32 := by
    rw [← Nat.shiftRight_eq_div_pow]
    exact BitVec.extractLsb'_toNat ..
  rw [← UInt64.toNat_inj, toNat_doubleWord, hlo, hhi]
  show _ = p.toNat
  omega

/-- The words of a product, put together, are the product of the two numbers. -/
theorem doubleWord_product (signed : Bool) (x y : UInt32) :
    doubleWord (product signed x y).1 (product signed x y).2 =
      if signed then (Int64.ofInt (x.toInt32.toInt * y.toInt32.toInt)).toUInt64
      else UInt64.ofNat (x.toNat * y.toNat) := by
  rw [product, doubleWord_halves]
  refine UInt64.toBitVec_inj.mp ?_
  cases signed with
  | true =>
    show x.toBitVec.signExtend 64 * y.toBitVec.signExtend 64 = (Int64.ofInt _).toBitVec
    rw [Int64.toBitVec_ofInt, BitVec.ofInt_mul]
    rfl
  | false =>
    show x.toBitVec.setWidth 64 * y.toBitVec.setWidth 64 =
      BitVec.ofNat 64 (x.toBitVec.toNat * y.toBitVec.toNat)
    rw [BitVec.ofNat_mul, BitVec.ofNat_toNat, BitVec.ofNat_toNat]

/-! ### Operands of two words -/

namespace Memory

/-- The number at an address. -/
def word64 (mem : Memory) (a : UInt32) : UInt64 := doubleWord (mem.word a) (mem.word (a + 4))

/-- The memory with a number stored at an address. -/
def setWord64 (mem : Memory) (a : UInt32) (v : UInt64) : Memory :=
  mem.setWords a [v.toUInt32, (v >>> 32).toUInt32]

variable {mem : Memory} {a b : UInt32} {v : UInt64}

/-- The number that was stored is there. -/
theorem word64_setWord64 : (mem.setWord64 a v).word64 a = v := by
  have hlen : 4 * [v.toUInt32, (v >>> 32).toUInt32].length ≤ 2 ^ 32 := by simp
  have hword {i : Nat} {w : UInt32} (h : [v.toUInt32, (v >>> 32).toUInt32][i]? = some w) :
      (mem.setWord64 a v).word (a + 4 * UInt32.ofNat i) = w := word_setWords hlen h
  have hlo := hword (i := 0) rfl
  have hhi := hword (i := 1) rfl
  have h0 : a + 4 * UInt32.ofNat 0 = a := by simp
  rw [h0] at hlo
  have h4 : a + 4 * UInt32.ofNat 1 = a + 4 := rfl
  rw [h4] at hhi
  rw [word64, hlo, hhi, doubleWord_words]

/-- Storing a number changes only its eight bytes. -/
theorem setWord64_of_outside (h : 8 ≤ (b - a).toNat) : mem.setWord64 a v b = mem b :=
  setWords_of_outside h

end Memory

namespace Core

/-- The address of an operand in memory. -/
def place (c : Core) (o : Operand) : UInt32 :=
  if o.isRelative then c.regs Abi.base + o.low else c.regs .sp + o.slot

/-- The value of an operand of two words. -/
def value64 (c : Core) (o : Operand) : UInt64 :=
  if o.kind = .constant64 then o.value64 else c.mem.word64 (c.place o)

/-- The core with a new value of an operand of two words in memory. -/
def put64 (c : Core) (d : Operand) (v : UInt64) : Core :=
  { c with mem := c.mem.setWord64 (c.place d) v }

variable {c c' : Core} {s d : Operand} {r lo hi : Reg} {l : List Instr} {v : UInt64}

theorem Same.place_eq (h : Same c c') : c'.place s = c.place s := by
  rw [place, place, h.regs .sp (by decide), h.regs Abi.base (by decide)]

theorem Same.value64_eq (h : Same c c') : c'.value64 s = c.value64 s := by
  rw [value64, value64, h.mem, h.place_eq]

theorem Same.put64 (h : Same c c') : Same (c.put64 d v) (c'.put64 d v) :=
  ⟨h.regs, by rw [Core.put64, Core.put64, h.mem, h.place_eq]⟩

end Core

/-- The address of a word of an operand of two words. -/
theorem Access.address64_eq_ok {level half : UInt32} {s : Operand} {a : Reg × LoadOffset}
    (h : Access.address64 level s half = .ok a) :
    (s.kind = .relative64 ∧ a.1 = Abi.base ∧ a.2.bits = s.low + half) ∨
      (s.kind = .temporary64 ∧ a.1 = .sp ∧ a.2.bits = s.slot + level + half) := by
  unfold Access.address64 at h
  split at h
  next hk => exact .inl ⟨hk, Access.relativeAddress_eq_ok h⟩
  next hk => exact .inr ⟨hk, Access.temporaryAddress_eq_ok h⟩
  next => cases h

namespace Core

variable {c c' : Core} {s d : Operand} {r lo hi : Reg} {l : List Instr} {half : UInt32}

theorem isMemory64_of_address64 {level : UInt32} {a : Reg × LoadOffset}
    (h : Access.address64 level s half = .ok a) : s.isMemory64 = true := by
  rcases Access.address64_eq_ok h with ⟨hk, -⟩ | ⟨hk, -⟩ <;> simp [Operand.isMemory64, hk]

theorem regs_add_bits_of_relativeAddress {a : Reg × LoadOffset} (hs : s.isRelative = true)
    (h : Access.relativeAddress s half = .ok a) : c.regs a.1 + a.2.bits = c.place s + half := by
  obtain ⟨hr, ho⟩ := Access.relativeAddress_eq_ok h
  rw [place, if_pos hs, hr, ho, add_assoc]

theorem regs_add_bits_of_temporaryAddress {a : Reg × LoadOffset} (hs : s.isRelative = false)
    (h : Access.temporaryAddress 0 s half = .ok a) : c.regs a.1 + a.2.bits = c.place s + half := by
  obtain ⟨hr, ho⟩ := Access.temporaryAddress_eq_ok h
  rw [place, if_neg (by simp [hs]), hr, ho, add_zero, add_assoc]

theorem regs_add_bits_of_address64 {a : Reg × LoadOffset}
    (h : Access.address64 0 s half = .ok a) : c.regs a.1 + a.2.bits = c.place s + half := by
  unfold Access.address64 at h
  split at h
  next hk => exact regs_add_bits_of_relativeAddress (by simp [Operand.isRelative, hk]) h
  next hk => exact regs_add_bits_of_temporaryAddress (by simp [Operand.isRelative, hk]) h
  next => cases h

/-- Loading a word of an operand writes one register. -/
theorem run?_load64 (h : Access.load64 0 r s half = .ok l) :
    c.run? l = some (c.set r (c.mem.word (c.place s + half))) := by
  obtain ⟨a, ha, rfl⟩ := Except.map_eq_ok_iff.mp h
  rw [Access.loadFrom, run?_singleton, effect?, regs_add_bits_of_address64 ha]

/-- Storing to a word of an operand writes the word. -/
theorem run?_store64 (h : Access.store64 0 d r half = .ok l) :
    c.run? l = some (c.store (c.place d + half) (c.regs r)) := by
  obtain ⟨a, ha, rfl⟩ := Except.map_eq_ok_iff.mp h
  rw [Access.storeTo, run?_singleton, effect?, regs_add_bits_of_address64 ha]

/-- Loading both words of an operand. -/
theorem run?_loadPair64 (hlo : lo ∈ Abi.scratch) (hhi : hi ∈ Abi.scratch) (hne : lo ≠ hi)
    (h : Straight.loadPair 0 lo hi s = .ok l) : ∃ c', c.run? l = some c' ∧ Same c c' ∧
      doubleWord (c'.regs lo) (c'.regs hi) = c.value64 s ∧
      ∀ r, r ≠ lo → r ≠ hi → c'.regs r = c.regs r := by
  simp only [Straight.loadPair, Except.bind_eq_ok_iff, Except.pure_eq_ok_iff] at h
  obtain ⟨l₁, h₁, l₂, h₂, rfl⟩ := h
  have hs : Same c (c.set lo (c.mem.word (c.place s + 0))) := (Same.refl c).set hlo
  refine ⟨_, by rw [run?_append_of_eq (run?_load64 h₁), run?_load64 h₂], hs.set hhi, ?_,
    fun r hrlo hrhi => by rw [regs_set_of_ne hrhi, regs_set_of_ne hrlo]⟩
  have hk : s.kind ≠ .constant64 := by
    obtain ⟨a, ha, -⟩ := Except.map_eq_ok_iff.mp h₁
    intro hk
    simpa [Operand.isMemory64, hk] using isMemory64_of_address64 ha
  rw [regs_set_of_ne hne, regs_set_self, regs_set_self, hs.place_eq, add_zero, value64, if_neg hk]
  rfl

/-- Storing both words of an operand. -/
theorem run?_storePair64 (h : Straight.storePair 0 d lo hi = .ok l) :
    d.isMemory64 = true ∧ c.run? l = some (c.put64 d (doubleWord (c.regs lo) (c.regs hi))) := by
  simp only [Straight.storePair, Except.bind_eq_ok_iff, Except.pure_eq_ok_iff] at h
  obtain ⟨l₁, h₁, l₂, h₂, rfl⟩ := h
  obtain ⟨a, ha, -⟩ := Except.map_eq_ok_iff.mp h₁
  refine ⟨isMemory64_of_address64 ha, ?_⟩
  rw [run?_append_of_eq (run?_store64 h₁), run?_store64 h₂, add_zero, put64, Memory.setWord64,
    low_doubleWord, high_doubleWord]
  rfl

end Core

/-! ### The code of the operations -/

/-- The operations whose result has two words. -/
def Op.isWide : Op → Bool
  | .mov64 | .add64 | .sub64 | .and64 | .mul | .muls => true
  | _ => false

/-- What an operation with a result of two words computes. A product has all its bits, with or
without sign. -/
def Statement.result64 (c : Core) (x : Statement) : UInt64 :=
  match x.op, x.src1, x.src2 with
  | .mov64, some a, _ => c.value64 a
  | .add64, some a, some b => c.value64 a + c.value64 b
  | .sub64, some a, some b => c.value64 a - c.value64 b
  | .and64, some a, some b => c.value64 a &&& c.value64 b
  | .mul, some a, some b =>
    UInt64.ofNat ((c.storage.value a).toNat * (c.storage.value b).toNat)
  | .muls, some a, some b =>
    (Int64.ofInt ((c.storage.value a).toInt32.toInt * (c.storage.value b).toInt32.toInt)).toUInt64
  | _, _, _ => 0

namespace Straight

open A32Lowering.Core

variable {c : Core} {d s s1 s2 : Operand} {l : List Instr} {lo hi : Reg}

/-- Building a constant of two words. -/
theorem run?_loadConstants (hs : s.kind = .constant64) (hlo : lo ∈ Abi.scratch)
    (hhi : hi ∈ Abi.scratch) (hne : lo ≠ hi) :
    ∃ c', c.run? (Constant.load lo s.low ++ Constant.load hi s.high) = some c' ∧ Same c c' ∧
      doubleWord (c'.regs lo) (c'.regs hi) = c.value64 s ∧
      ∀ r, r ≠ lo → r ≠ hi → c'.regs r = c.regs r := by
  refine ⟨_, by rw [run?_append_of_eq run?_load, run?_load], ((Same.refl c).set hlo).set hhi, ?_,
    fun r hrlo hrhi => by rw [regs_set_of_ne hrhi, regs_set_of_ne hrlo]⟩
  rw [regs_set_of_ne hne, regs_set_self, regs_set_self, value64, if_pos hs]
  rfl

/-- Storing the two words of a result that scratch registers hold. -/
theorem run?_storeResult {c' : Core} {v : UInt64} (hs : Same c c')
    (hv : doubleWord (c'.regs lo) (c'.regs hi) = v) (h : storePair 0 d lo hi = .ok l) :
    d.isMemory64 = true ∧ ∃ c'', c'.run? l = some c'' ∧ Same (c.put64 d v) c'' := by
  obtain ⟨hd, hr⟩ := run?_storePair64 (c := c') h
  exact ⟨hd, _, hr, by rw [hv]; exact hs.put64⟩

/-- An operation word by word, the low words first. -/
theorem run?_arith64Code {op₁ op₂ : AluOp} {flags : Bool} {f : UInt64 → UInt64 → UInt64}
    (hf : ∀ (fl : Flags) (x x' : UInt32) (y y' : UInt32 × Bool),
      doubleWord (op₁.eval fl x y).1
        (op₂.eval (if flags then (op₁.eval fl x y).2 else fl) x' y').1 =
      f (doubleWord x x') (doubleWord y.1 y'.1))
    (h : arith64Code 0 op₁ flags op₂ d s1 s2 = .ok l) : d.isMemory64 = true ∧
    ∃ c', c.run? l = some c' ∧ Same (c.put64 d (f (c.value64 s1) (c.value64 s2))) c' := by
  obtain ⟨l₁, l₂, l₃, h₁, h₂, h₃, rfl⟩ := arith64Code_eq_ok h
  obtain ⟨c₁, hr₁, hs₁, hv₁, -⟩ :=
    run?_loadPair64 (c := c) (by decide) (by decide) (by decide) h₁
  obtain ⟨c₂, hr₂, hs₂, hv₂, hk₂⟩ : ∃ c₂, c₁.run? l₂ = some c₂ ∧ Same c₁ c₂ ∧
      doubleWord (c₂.regs .r2) (c₂.regs .r3) = c₁.value64 s2 ∧
      ∀ r, r ≠ .r2 → r ≠ .r3 → c₂.regs r = c₁.regs r := by
    rcases h₂ with ⟨hk, rfl⟩ | h₂
    · exact run?_loadConstants hk (by decide) (by decide) (by decide)
    · exact run?_loadPair64 (by decide) (by decide) (by decide) h₂
  -- All sources are in registers now.
  let low := op₁.eval c₂.flags (c₂.regs .r0) ((Operand2.plain .r2).eval c₂)
  let c₃ : Core := { c₂.set .r0 low.1 with flags := if flags then low.2 else c₂.flags }
  let high := op₂.eval c₃.flags (c₃.regs .r1) ((Operand2.plain .r3).eval c₃)
  have hs₃ : Same c (c₃.set .r1 high.1) := by
    have hs : Same c (c₂.set .r0 low.1) := (hs₁.trans hs₂).set (by decide)
    have hs : Same c c₃ := ⟨hs.regs, hs.mem⟩
    exact hs.set (by decide)
  have hr₃ : c₂.run? [.alu op₁ flags .r0 .r0 (.plain .r2), .alu op₂ false .r1 .r1 (.plain .r3)] =
      some (c₃.set .r1 high.1) := by
    rw [run?_cons, effect?, Option.bind_some, run?_singleton]
    rfl
  have hkeep {r : Reg} (hr : r ≠ .r0) : c₃.regs r = c₂.regs r := regs_set_of_ne hr
  have hv₃ : doubleWord ((c₃.set .r1 high.1).regs .r0) ((c₃.set .r1 high.1).regs .r1) =
      f (c.value64 s1) (c.value64 s2) := by
    have hlow : (c₃.set .r1 high.1).regs .r0 = low.1 := by
      rw [regs_set_of_ne (by decide)]
      exact regs_set_self (c := c₂) (r := .r0)
    rw [hlow, regs_set_self]
    refine (hf c₂.flags _ _ _ _).trans ?_
    rw [fst_eval_plain, fst_eval_plain, hkeep (by decide), hkeep (by decide),
      hk₂ .r0 (by decide) (by decide), hk₂ .r1 (by decide) (by decide), hv₁, hv₂, hs₁.value64_eq]
  obtain ⟨hd, c', hr', hs'⟩ := run?_storeResult hs₃ hv₃ h₃
  refine ⟨hd, c', ?_, hs'⟩
  rw [List.append_assoc, List.append_assoc, run?_append_of_eq hr₁, run?_append_of_eq hr₂,
    run?_append_of_eq hr₃, hr']

/-- A product. -/
theorem run?_multiplyCode {signed : Bool} (h : multiplyCode 0 signed d s1 s2 = .ok l) :
    d.isMemory64 = true ∧ ∃ c', c.run? l = some c' ∧ Same (c.put64 d (doubleWord
      (product signed (c.storage.value s1) (c.storage.value s2)).1
      (product signed (c.storage.value s1) (c.storage.value s2)).2)) c' := by
  obtain ⟨ra, la, rb, lb, ls, ha, hb, hls, rfl⟩ := multiplyCode_eq_ok h
  obtain ⟨c₁, hr₁, hv₁, hm₁, hk₁⟩ := run?_use (c := c) ha
  obtain ⟨c₂, hr₂, hv₂, hm₂, hk₂⟩ := run?_use (c := c₁) hb
  have hs₁ : Same c c₁ := .of_eq_off (by decide) hm₁ hk₁
  have hs₂ : Same c₁ c₂ := .of_eq_off (by decide) hm₂ hk₂
  have hne : ra ≠ .r3 := Access.ne_of_use ha (by decide) (by decide)
  rw [hs₁.storage_eq] at hv₂
  have hva : c₂.regs ra = c.storage.value s1 := (hk₂ ra hne).trans hv₁
  let p := product signed (c.storage.value s1) (c.storage.value s2)
  have hr₃ : c₂.run? [.mull signed .r0 .r1 ra rb] = some ((c₂.set .r0 p.1).set .r1 p.2) := by
    rw [run?_singleton, effect?, if_neg (by decide), hva, hv₂]
  have hs₃ : Same c ((c₂.set .r0 p.1).set .r1 p.2) :=
    ((hs₁.trans hs₂).set (by decide)).set (by decide)
  have hv₃ : doubleWord (((c₂.set .r0 p.1).set .r1 p.2).regs .r0)
      (((c₂.set .r0 p.1).set .r1 p.2).regs .r1) = doubleWord p.1 p.2 := by
    rw [regs_set_of_ne (by decide), regs_set_self, regs_set_self]
  obtain ⟨hd, c', hr', hs'⟩ := run?_storeResult hs₃ hv₃ hls
  refine ⟨hd, c', ?_, hs'⟩
  rw [List.append_assoc, List.append_assoc, run?_append_of_eq hr₁, run?_append_of_eq hr₂,
    run?_append_of_eq hr₃, hr']

end Straight

/-- The rules for operations with a result of two words. -/
theorem Rules.of_isWide {r : Rule Action} (hr : r ∈ general ++ wide)
    (hw : r.shape.op.isWide = true) :
    (r.shape.op = .mov64 ∧ r.action = .straight .mov64Mem) ∨
    (r.shape.op = .mov64 ∧ r.shape.src1 = .constant64 ∧ r.action = .straight .mov64Cst) ∨
    (r.shape.op = .add64 ∧ r.action = .straight (.arith64 .add true .adc)) ∨
    (r.shape.op = .sub64 ∧ r.action = .straight (.arith64 .sub true .sbc)) ∨
    (r.shape.op = .and64 ∧ r.action = .straight (.arith64 .and false .and)) ∨
    (r.shape.op = .mul ∧ r.action = .straight (.multiply false)) ∨
    (r.shape.op = .muls ∧ r.action = .straight (.multiply true)) := by
  have hall : ∀ r ∈ general ++ wide, r.shape.op.isWide = true →
      (r.shape.op = .mov64 ∧ r.action = .straight .mov64Mem) ∨
      (r.shape.op = .mov64 ∧ r.shape.src1 = .constant64 ∧ r.action = .straight .mov64Cst) ∨
      (r.shape.op = .add64 ∧ r.action = .straight (.arith64 .add true .adc)) ∨
      (r.shape.op = .sub64 ∧ r.action = .straight (.arith64 .sub true .sbc)) ∨
      (r.shape.op = .and64 ∧ r.action = .straight (.arith64 .and false .and)) ∨
      (r.shape.op = .mul ∧ r.action = .straight (.multiply false)) ∨
      (r.shape.op = .muls ∧ r.action = .straight (.multiply true)) := by decide
  exact hall r hr hw

namespace Straight

open A32Lowering.Core

variable {x : Statement} {r : Rule Action} {a : Straight} {l : List Instr}

/-- The code of an operation with a result of two words puts the result into the destination and
writes nothing else but scratch registers and flags. -/
theorem run?_wide (hsel : Rules.select x = .ok r) (hw : x.op.isWide = true)
    (ha : r.action = .straight a) (h : a.code 0 x = .ok l) (c : Core) :
    ∃ d, x.dst = some d ∧ d.isMemory64 = true ∧
      ∃ c', c.run? l = some c' ∧ Same (c.put64 d (x.result64 c)) c' := by
  obtain ⟨hr, hadm⟩ := Rules.select_eq_ok hsel
  obtain ⟨hop, -, hsrc, -⟩ := Shape.admits_iff.mp hadm
  rcases Rules.of_isWide hr (hop ▸ hw) with ⟨ho, hr⟩ | ⟨ho, hk, hr⟩ | ⟨ho, hr⟩ | ⟨ho, hr⟩ |
      ⟨ho, hr⟩ | ⟨ho, hr⟩ | ⟨ho, hr⟩ <;>
    obtain rfl := Action.straight.inj (ha.symm.trans hr) <;> rw [ho] at hop
  · cases code_eq_ok_iff.mp h with | mov64Mem hd hs h₁ h₂
    obtain ⟨c₁, hr₁, hs₁, hv₁, -⟩ := run?_loadPair64 (c := c) (by decide) (by decide) (by decide) h₁
    obtain ⟨hm, c', hr', hs'⟩ := run?_storeResult hs₁ hv₁ h₂
    refine ⟨_, hd, hm, c', by rw [run?_append_of_eq hr₁, hr'], ?_⟩
    simpa only [Statement.result64, hop, hs] using hs'
  · cases code_eq_ok_iff.mp h with | mov64Cst hd hs h₂
    rw [hk, hs] at hsrc
    have hk := of_decide_eq_true hsrc
    obtain ⟨c₁, hr₁, hs₁, hv₁, -⟩ :=
      run?_loadConstants (c := c) hk (by decide : Reg.r0 ∈ Abi.scratch)
        (by decide : Reg.r1 ∈ Abi.scratch) (by decide)
    obtain ⟨hm, c', hr', hs'⟩ := run?_storeResult hs₁ hv₁ h₂
    refine ⟨_, hd, hm, c', by rw [run?_append_of_eq hr₁, hr'], ?_⟩
    simpa only [Statement.result64, hop, hs] using hs'
  · cases code_eq_ok_iff.mp h with | arith64 hd hs1 hs2 h
    obtain ⟨hm, c', hr', hs'⟩ := run?_arith64Code (c := c) (f := (· + ·)) (fun _ _ _ _ _ => by
      simp only [AluOp.eval, if_true, doubleWord_add]) h
    refine ⟨_, hd, hm, c', hr', ?_⟩
    simpa only [Statement.result64, hop, hs1, hs2] using hs'
  · cases code_eq_ok_iff.mp h with | arith64 hd hs1 hs2 h
    obtain ⟨hm, c', hr', hs'⟩ := run?_arith64Code (c := c) (f := (· - ·)) (fun _ _ _ _ _ => by
      simp only [AluOp.eval, if_true, doubleWord_sub]) h
    refine ⟨_, hd, hm, c', hr', ?_⟩
    simpa only [Statement.result64, hop, hs1, hs2] using hs'
  · cases code_eq_ok_iff.mp h with | arith64 hd hs1 hs2 h
    obtain ⟨hm, c', hr', hs'⟩ := run?_arith64Code (c := c) (f := (· &&& ·)) (fun _ _ _ _ _ => by
      simp only [AluOp.eval, doubleWord_and]) h
    refine ⟨_, hd, hm, c', hr', ?_⟩
    simpa only [Statement.result64, hop, hs1, hs2] using hs'
  · cases code_eq_ok_iff.mp h with | multiply hd hs1 hs2 h
    obtain ⟨hm, c', hr', hs'⟩ := run?_multiplyCode (c := c) h
    refine ⟨_, hd, hm, c', hr', ?_⟩
    simpa only [Statement.result64, hop, hs1, hs2, doubleWord_product, Bool.false_eq_true,
      if_false] using hs'
  · cases code_eq_ok_iff.mp h with | multiply hd hs1 hs2 h
    obtain ⟨hm, c', hr', hs'⟩ := run?_multiplyCode (c := c) h
    refine ⟨_, hd, hm, c', hr', ?_⟩
    simpa only [Statement.result64, hop, hs1, hs2, doubleWord_product, if_true] using hs'

end Straight

namespace Lower

variable {u t : Session} {x : Statement}

/-- An operation with a result of two words. When its statement is lowered and the code is executed,
the machine comes to the end of the code; the destination has the result, computed from the values
that the operands had before, and nothing else has changed but scratch registers and flags. -/
theorem reaches_result64 [Helper.Entries] (hl : u.level = 0) (hx : x.op.isWide = true)
    (h : outcome (statement x) u = (.ok (), t)) {image : UInt32 → Option UInt32} {org : UInt32}
    (himage : t.stream.code.LoadedFrom u.stream.size image org) (c : Core) :
    ∃ d, x.dst = some d ∧ d.isMemory64 = true ∧ ∃ c' : Core,
      Machine.Reaches image (c.machineAt org u.stream.size) (c'.machineAt org t.stream.size) ∧
      c'.mem.word64 (c.place d) = x.result64 c ∧
      (∀ b, 8 ≤ (b - c.place d).toNat → c'.mem b = c.mem b) ∧
      ∀ r ∉ Abi.scratch, c'.regs r = c.regs r := by
  obtain ⟨r, hsel, -⟩ := outcome_check_bind_eq_ok_iff.mp h
  have hmem := (Rules.select_eq_ok hsel).1
  have hop := Rules.op_of_select hsel
  obtain ⟨a, ha⟩ : ∃ a, r.action = .straight a := by
    rcases Rules.of_isWide hmem (hop ▸ hx) with ⟨-, h⟩ | ⟨-, -, h⟩ | ⟨-, h⟩ | ⟨-, h⟩ | ⟨-, h⟩ |
      ⟨-, h⟩ | ⟨-, h⟩ <;> exact ⟨_, h⟩
  rw [outcome_statement_eq_action hsel, ha] at h
  obtain ⟨l, hcode, hp⟩ := outcome_straight.mp h
  rw [hl] at hcode
  obtain ⟨d, hd, hm, c', hrun, hsame⟩ := Straight.run?_wide hsel hx ha hcode c
  have hmemory : c'.mem = c.mem.setWord64 (c.place d) (x.result64 c) := hsame.mem
  refine ⟨d, hd, hm, c', ?_, ?_, fun b hb => ?_, hsame.regs⟩
  · exact Session.reaches_placeAll hp himage
      (Straight.general (Rules.kindInRange hmem ha) hcode) hrun
  · rw [hmemory, Memory.word64_setWord64]
  · rw [hmemory, Memory.setWord64_of_outside hb]

/-- A sum of overlapping numbers: the high word of the second operand is the low word of the
result. -/
def overlappingSum : Statement :=
  { op := .add64, dst := some (.temporary64 4), src1 := some (.temporary64 0),
    src2 := some (.constant64 0x1FFFFFFFF) }

theorem reaches_result64_overlappingSum :
    ∃ t, outcome (statement overlappingSum) (.fresh false .absent) = (.ok (), t) ∧
    ∃ d, overlappingSum.dst = some d ∧ d.isMemory64 = true ∧ ∃ c' : Core,
      Machine.Reaches (t.stream.code.image 0x8000) (Session.caller.machineAt 0x8000 0)
        (c'.machineAt 0x8000 t.stream.size) ∧
      c'.mem.word64 (Session.caller.place d) = overlappingSum.result64 Session.caller ∧
      (∀ b, 8 ≤ (b - Session.caller.place d).toNat → c'.mem b = Session.caller.mem b) ∧
      ∀ r ∉ Abi.scratch, c'.regs r = Session.caller.regs r := by
  have hok : (outcome (statement overlappingSum) (.fresh false .absent)).1 = .ok () := by
    decide +kernel
  have hsize : (outcome (statement overlappingSum)
      (.fresh false .absent)).2.stream.code.size ≤ 2 ^ 32 := by decide +kernel
  exact ⟨_, Prod.ext hok rfl, reaches_result64 rfl rfl (Prod.ext hok rfl)
    ((Code.loadedAt_image hsize 0x8000).loadedFrom 0) Session.caller⟩

end Lower

end A32Lowering
