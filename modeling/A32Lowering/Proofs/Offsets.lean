import Mathlib
import A32Lowering.Proofs.Arguments
import A32Lowering.Proofs.Division
import A32Lowering.Proofs.Transfers

/-!
# Offsets of loads and stores

The loads and stores in the code of a function, statement by statement. They are those of the words
that the statement reads and writes, each at the exact distance of its word. A division is the one
exception: it stores its quotient while two words are on the stack, eight bytes further up and
before it stores anything lower, and at the end of the address space the sum wraps around.

## Main definitions

* `Code.transfers` : the loads and stores of code.
* `Statement.accesses` : the words that a statement loads and stores.
* `Statement.excess` : by how much an offset falls short of a distance.

## Main results

* `Parameter.made_codeAll` : a call loads the parameters that it takes.
* `Statement.madeBy_items` : the items of a statement make its accesses.
* `Code.transfers_of_placed` : the transfers of code are those of the items it was made from.
* `Session.transfers_of_lower` : the offsets in the code of a function.
-/

namespace A32Lowering

/-- The transfer of a word of code. -/
def Decoded.transfer? : Decoded → Option Transfer
  | .plain i => i.transfer?
  | .branch _ _ => none

/-- The transfers of code between two positions, in order. -/
def Code.transfers (code : Code) (start stop : Nat) : List Transfer :=
  (List.range' start ((stop - start) / 4) 4).filterMap fun pos =>
    ((code.word? pos).bind decode).bind Decoded.transfer?

namespace Statement

/-- The accesses of a statement. A parameter is loaded by the call that takes it, and a division
stores its quotient while two words are on the stack. -/
def accesses (waiting : List Operand) (x : Statement) : List WordAccess :=
  match x.op with
  | .param | .paramRet => []
  | .call => (waiting.take x.count).flatMap Operand.loads
  | .div | .divs =>
    x.sourceLoads ++ x.dst.toList.flatMap fun d => [⟨true, d, 8, 0⟩, ⟨true, d, 0, 4⟩]
  | _ => x.sourceLoads ++ x.dst.toList.flatMap Operand.stores

/-- By how much the offset of an access falls short of its distance. Only a division stores so far
up that a sum can wrap around. -/
def excess (x : Statement) (a : WordAccess) : Nat :=
  if x.op.divides = true ∧ a.store = true ∧ 2 ^ 32 ≤ a.distance then 2 ^ 32 else 0

end Statement

/-! ### Parameters -/

namespace Parameter

variable {q : Parameter} {o : Operand} {slot next : Nat} {l : List Instr}

/-- A parameter that a call takes is loaded when its operand is in memory and no wider than two
words. -/
theorem made_code (hd : q.DeclaredBy o) (h : q.code 0 slot = .ok (l, next)) : Made o.loads l := by
  obtain ⟨cl, sh, hsh, hadm, hd⟩ := hd
  cases cl with
  | context =>
    cases List.mem_singleton.mp hsh
    have hk : o.kind = .context := of_decide_eq_true hadm
    simp only [declare, Except.bind_eq_ok_iff, Except.pure_eq_ok_iff] at hd
    obtain ⟨_, -, rfl⟩ := hd
    simp only [code, Except.bind_eq_ok_iff, Except.pure_eq_ok_iff, Prod.mk.injEq] at h
    obtain ⟨r, -, rfl, -⟩ := h
    rw [Operand.loads_eq_nil (by simp [Operand.halves, hk])]
    exact .still (by simp [Instr.transfer?, Instr.mov])
  | register =>
    cases List.mem_singleton.mp hsh
    have hk : o.kind = .register := of_decide_eq_true hadm
    simp only [declare, Except.bind_eq_ok_iff, Except.pure_eq_ok_iff] at hd
    obtain ⟨own, -, rfl⟩ := hd
    simp only [code, Except.bind_eq_ok_iff, Except.pure_eq_ok_iff, Prod.mk.injEq] at h
    obtain ⟨r, -, rfl, -⟩ := h
    rw [Operand.loads_eq_nil (by simp [Operand.halves, hk])]
    exact .still (by simp [Instr.transfer?, Instr.mov])
  | memory =>
    obtain rfl := Except.pure_eq_ok_iff.mp hd
    simp only [code, Except.bind_eq_ok_iff, Except.pure_eq_ok_iff, Prod.mk.injEq] at h
    obtain ⟨r, -, l', hl, rfl, -⟩ := h
    exact Access.made_load hl
  | constant =>
    cases List.mem_singleton.mp hsh
    have hk : o.kind = .constant := of_decide_eq_true hadm
    simp only [declare, Except.bind_eq_ok_iff, Except.pure_eq_ok_iff] at hd
    obtain ⟨_, -, rfl⟩ := hd
    simp only [code, Except.bind_eq_ok_iff, Except.pure_eq_ok_iff, Prod.mk.injEq] at h
    obtain ⟨r, -, rfl, -⟩ := h
    rw [Operand.loads_eq_nil (by simp [Operand.halves, hk])]
    exact Constant.made_load _ _
  | memory64 =>
    obtain rfl := Except.pure_eq_ok_iff.mp hd
    simp only [code, Except.bind_eq_ok_iff, Except.pure_eq_ok_iff, Prod.mk.injEq] at h
    obtain ⟨r, -, lo, hlo, r', -, hi, hhi, rfl, -⟩ := h
    exact Access.made_load64 hlo hhi
  | constant64 =>
    cases List.mem_singleton.mp hsh
    have hk : o.kind = .constant64 := of_decide_eq_true hadm
    obtain rfl := Except.pure_eq_ok_iff.mp hd
    simp only [code, Except.bind_eq_ok_iff, Except.pure_eq_ok_iff, Prod.mk.injEq] at h
    obtain ⟨r, -, r', -, rfl, -⟩ := h
    rw [Operand.loads_eq_nil (by simp [Operand.halves, hk])]
    exact (Constant.made_load _ _).append (Constant.made_load _ _)
  | memory128 =>
    have hk : o.kind = .temporary128 ∨ o.kind = .relative128 := by
      rcases List.mem_pair.mp hsh with rfl | rfl
      · simpa [Pattern.admitsOperand, Operand.isMemory128] using hadm
      · exact .inl (of_decide_eq_true hadm)
    obtain rfl := Except.pure_eq_ok_iff.mp hd
    simp only [code, Except.bind_eq_ok_iff, Except.pure_eq_ok_iff, Prod.mk.injEq] at h
    obtain ⟨r, -, l', hl, rfl, -⟩ := h
    rw [Operand.loads_eq_nil (by rcases hk with hk | hk <;> simp [Operand.halves, hk])]
    exact Access.made_address128 hl

theorem made_codeAll {ps : List Parameter} {os : List Operand} (hd : List.Forall₂ DeclaredBy ps os)
    (h : codeAll 0 slot ps = .ok l) : Made (os.flatMap Operand.loads) l := by
  induction hd generalizing slot l with
  | nil =>
    obtain rfl := Except.pure_eq_ok_iff.mp h
    exact .still (by simp)
  | cons hq hd ih =>
    simp only [codeAll, Except.bind_eq_ok_iff, Except.pure_eq_ok_iff] at h
    obtain ⟨⟨l₁, next⟩, h₁, l₂, h₂, rfl⟩ := h
    exact (made_code hq h₁).append (ih h₂)

end Parameter

/-! ### Statements -/

/-- The transfer of an item. -/
def Item.transfer? : Item → Option Transfer
  | instr i => i.transfer?
  | _ => none

/-- Items make the accesses of a statement, in the same order. -/
def Statement.MadeBy (x : Statement) (as : List WordAccess) (l : List Item) : Prop :=
  List.Forall₂ (fun a t => a.MadeBy t (x.excess a)) as (l.filterMap Item.transfer?)

namespace Statement

variable {x : Statement} {as bs : List WordAccess} {l m : List Item} {ps qs : List Parameter}
  {os : List Operand}

theorem MadeBy.append (h : x.MadeBy as l) (h' : x.MadeBy bs m) : x.MadeBy (as ++ bs) (l ++ m) := by
  rw [MadeBy, List.filterMap_append]
  exact List.rel_append h h'

theorem MadeBy.distance_lt (h : x.MadeBy as l) : ∀ a ∈ as, a.distance < 4096 + x.excess a := by
  rw [MadeBy] at h
  generalize l.filterMap Item.transfer? = ts at h
  induction h with
  | nil => simp
  | cons hm _ ih => exact List.forall_mem_cons.mpr ⟨hm.distance_lt, ih⟩

/-- Accesses that cannot fall short. -/
theorem MadeBy.of_made {m : List Instr} (h : Made as m)
    (hx : x.op.divides = false ∨ ∀ a ∈ as, a.store = false) : x.MadeBy as (m.map .instr) := by
  have he : ∀ a ∈ as, x.excess a = 0 := fun a ha =>
    if_neg fun ⟨hd, hs, _⟩ => by
      rcases hx with hx | hx
      · simp [hx] at hd
      · simp [hx a ha] at hs
  have ht : (m.map Item.instr).filterMap Item.transfer? = m.filterMap Instr.transfer? := by
    rw [List.filterMap_map]
    rfl
  rw [MadeBy, ht]
  refine (List.forall₂_iff_zip.mpr ⟨h.length_eq, fun {a t} hat => ?_⟩)
  rw [he a (List.of_mem_zip hat).1]
  exact (List.forall₂_iff_zip.mp h).2 hat

/-- A call has no transfers behind its parameters. -/
theorem madeBy_call (addr : UInt32) : x.MadeBy [] (Item.call addr) := .nil

/-- The stores of a division: the sums of their offsets wrap around when the destination is at the
end of the address space. -/
theorem madeBy_store64 {d : Operand} {level half : UInt32} {l : List Instr}
    (hx : x.op.divides = true) (hd : d.kind = .temporary64)
    (hl : level.toNat + half.toNat ≤ 8)
    (h : Access.store64 level d .r0 half = .ok l) :
    x.MadeBy [⟨true, d, level.toNat, half.toNat⟩] (l.map .instr) := by
  obtain ⟨a, ha, rfl⟩ := Except.map_eq_ok_iff.mp h
  rw [Access.address64, hd] at ha
  have hs : d.isRelative = false := by simp [Operand.isRelative, hd]
  have hdist : (⟨true, d, level.toNat, half.toNat⟩ : WordAccess).distance =
      d.slot.toNat + level.toNat + half.toNat := if_neg (by simp [hs])
  have hsum : (d.slot + level + half).toNat + x.excess ⟨true, d, level.toNat, half.toNat⟩ =
      d.slot.toNat + level.toNat + half.toNat := by
    have hlt := d.slot.toNat_lt
    simp only [excess, hx, hdist, true_and, UInt32.toNat_add]
    split_ifs <;> omega
  have hm : WordAccess.MadeBy ⟨true, d, level.toNat, half.toNat⟩ ⟨true, a.1, a.2⟩
      (x.excess ⟨true, d, level.toNat, half.toNat⟩) :=
    Access.madeBy_temporaryAddress hs ha hsum
  have ht : (Item.instr (.str .r0 a.1 a.2)).transfer? = some ⟨true, a.1, a.2⟩ :=
    if_pos hm.base_cases
  rw [MadeBy, Access.storeTo, List.map_singleton, List.filterMap_cons_some ht]
  exact .cons hm .nil

theorem made_divideItems [Helper.Entries] {signed : Bool} {d s1 s2 : Operand}
    (hx : x.op.divides = true) (h : Action.divideItems signed d s1 s2 = .ok l) :
    x.MadeBy (s1.loads ++ s2.loads ++ [⟨true, d, 8, 0⟩, ⟨true, d, 0, 4⟩]) l := by
  obtain ⟨hd, la, lb, lq, lr, ha, hb, hq, hr, rfl⟩ := Action.divideItems_eq_ok h
  have hloads : ∀ a ∈ s1.loads ++ s2.loads, a.store = false := by
    simp [Operand.loads, or_imp, forall_and]
  have hsources : x.MadeBy (s1.loads ++ s2.loads)
      ((la ++ lb ++ [Instr.stmdb .sp Lower.divideArguments]).map .instr) :=
    .of_made (((Access.made_argument ha).append (Access.made_argument hb)).append_still
      (.still (by simp [Instr.transfer?]))) (.inr hloads)
  have hpop : x.MadeBy [] ([Instr.ldmia .sp Lower.divideArguments].map .instr) :=
    .of_made (.still (by simp [Instr.transfer?])) (.inr (by simp))
  have hquotient : x.MadeBy [⟨true, d, 8, 0⟩] (lq.map .instr) :=
    madeBy_store64 hx hd (by decide) hq
  have hremainder : x.MadeBy [⟨true, d, 0, 4⟩] (lr.map .instr ++ []) := by
    rw [List.append_nil]
    exact madeBy_store64 hx hd (by decide) hr
  exact hsources.append ((madeBy_call _).append (hquotient.append (hpop.append
    ((madeBy_call _).append hremainder))))

/-- A statement whose accesses are the loads of its sources and the stores to its destination. -/
theorem accesses_of_op {r : Rule Action} (hr : r ∈ Rules.general ++ Rules.wide)
    (hop : x.op = r.shape.op) (hq : r.action.isQuiet = true) (hd : x.op.divides = false) :
    x.accesses os = x.sourceLoads ++ x.dst.toList.flatMap Operand.stores := by
  obtain ⟨h1, h2, h3⟩ := (Rules.isQuiet_iff hr).mp hq
  rw [← hop] at h1 h2 h3
  unfold accesses
  split
  next h => exact absurd h h1
  next h => exact absurd h h2
  next h => exact absurd h h3
  next h => simp [h, Op.divides] at hd
  next h => simp [h, Op.divides] at hd
  · rfl

/-- A conditional jump makes the accesses of its comparison. -/
theorem madeBy_jumpItems {c : Except Fault (List Instr)} (hx : x.op.divides = false)
    (hc : ∀ {m}, c = .ok m → Made as m) (h : Action.jumpItems x c = .ok l) : x.MadeBy as l := by
  obtain ⟨m, cc, hm, -, rfl⟩ := Action.jumpItems_eq_ok h
  rw [← List.append_nil as]
  exact (MadeBy.of_made (hc hm) (.inl hx)).append .nil

/-- The items of a statement make its accesses, exactly but for what the sums of a division wrap
around. -/
theorem madeBy_items [Helper.Entries] (h : x.items ps = .ok (l, qs))
    (hd : List.Forall₂ Parameter.DeclaredBy ps os) : x.MadeBy (x.accesses os) l := by
  obtain ⟨r, a, hr, ha, h⟩ := items_eq_ok h
  obtain ⟨hmem, hadm⟩ := Rules.select_eq_ok hr
  have hsh := Rules.shape_mem_shapes hmem
  obtain ⟨hop, hdst, h1, h2⟩ : x.op = r.shape.op ∧ r.shape.dst.admits x.dst = true ∧
    r.shape.src1.admits x.src1 = true ∧ r.shape.src2.admits x.src2 = true :=
    Shape.admits_iff.mp hadm
  have hx (hn : ∀ signed, r.action ≠ .divide signed) : x.op.divides = false := by
    obtain ⟨-, hdiv, hdivs⟩ := Rules.op_of_calls hmem
    rw [← hop] at hdiv hdivs
    unfold Op.divides
    split
    next h => exact absurd (hdiv.mpr h) (hn false)
    next h => exact absurd (hdivs.mpr h) (hn true)
    · rfl
  cases h with
  | straight hm =>
    have hx := hx (by simp [ha])
    rw [accesses_of_op hmem hop (by rw [ha]; rfl) hx]
    rw [ha] at hsh
    exact .of_made (Straight.made_code hsh hadm hm) (.inl hx)
  | mark | jump =>
    rw [accesses_of_op hmem hop (by rw [ha]; rfl) (hx (by simp [ha]))]
    rw [ha] at hsh
    rw [List.mem_singleton.mp hsh] at hdst h1 h2
    rw [sourceLoads, flatMap_loads_eq_nil rfl h1, flatMap_loads_eq_nil rfl h2,
      flatMap_stores_eq_nil rfl hdst]
    exact .nil
  | jumpIf ha₁ ha₂ _ hl =>
    have hx := hx (by simp [ha])
    rw [accesses_of_op hmem hop (by rw [ha]; rfl) hx]
    rw [ha] at hsh
    rw [List.mem_singleton.mp hsh] at hdst
    rw [sourceLoads, flatMap_stores_eq_nil rfl hdst, ha₁, ha₂]
    simpa using madeBy_jumpItems hx Straight.made_compareCode hl
  | jumpIfCst ha₁ _ _ hl =>
    have hx := hx (by simp [ha])
    rw [accesses_of_op hmem hop (by rw [ha]; rfl) hx]
    rw [ha] at hsh
    rw [List.mem_singleton.mp hsh] at hdst h2
    rw [sourceLoads, flatMap_loads_eq_nil rfl h2, flatMap_stores_eq_nil rfl hdst, ha₁]
    simpa using madeBy_jumpItems hx Straight.made_compareCstCode hl
  | param =>
    rw [ha] at hsh
    have hparam := (Action.op_of_parameterShapes hsh).1
    rw [← hop] at hparam
    have hn : x.accesses os = [] := by rcases hparam with h | h <;> rw [accesses, h]
    rw [hn]
    exact .nil
  | @call _ count _ _ _ hc hl =>
    have hx := hx (by simp [ha])
    rw [ha] at hsh
    have hcall : x.op = .call := hop.trans (congrArg Shape.op (List.mem_singleton.mp hsh))
    obtain ⟨-, -, m, hm, rfl⟩ := Action.callItems_eq_ok hl
    have hn : x.accesses os = (os.take count.low.toNat).flatMap Operand.loads := by
      simp [accesses, hcall, Statement.count, hc]
    have hmade := Parameter.made_codeAll (List.forall₂_take _ hd) hm
    rw [hn, ← List.append_nil (List.flatMap _ _)]
    exact (MadeBy.of_made hmade (.inl hx)).append (madeBy_call _)
  | @divide signed d s1 s2 _ hd hs1 hs2 hl =>
    have hdiv : x.op = .div ∨ x.op = .divs := by
      obtain ⟨-, hdiv, hdivs⟩ := Rules.op_of_calls hmem
      rw [← hop] at hdiv hdivs
      cases signed
      · exact .inl (hdiv.mp ha)
      · exact .inr (hdivs.mp ha)
    have hn : x.accesses os =
        s1.loads ++ s2.loads ++ [⟨true, d, 8, 0⟩, ⟨true, d, 0, 4⟩] := by
      rcases hdiv with h | h <;> simp [accesses, h, sourceLoads, hd, hs1, hs2]
    rw [hn]
    exact made_divideItems (by rcases hdiv with h | h <;> rw [h] <;> rfl) hl

end Statement

/-! ### Functions -/

/-- The transfer of a word is that of its item. -/
theorem Item.transfer?_of_word? {i : Item} {d : Nat → UInt32 → Option Int} {pos : Nat} {w : UInt32}
    (he : i.Encodable) (hj : ∀ j, Item.jump? (pos, i) = some j →
      ∃ n, d j.1 j.2 = some n ∧ Items.InReach n)
    (hw : Item.word? d (pos, i) = some w) : (decode w).bind Decoded.transfer? = i.transfer? := by
  cases i with
  | mark | report => cases hw
  | instr i =>
    obtain rfl := Option.some.inj hw
    rcases he with hg | rfl | rfl
    · rw [hg.decode_encode]
      rfl
    · have hd : decode (Instr.mov .lr .pc).encode = some (.plain (.mov .lr .pc)) := by
        decide +kernel
      rw [hd]
      rfl
    · have hd : decode (Instr.mov .pc Abi.callAddress).encode =
          some (.plain (.mov .pc Abi.callAddress)) := by decide +kernel
      rw [hd]
      rfl
  | jump c b =>
    obtain ⟨n, hn, hr⟩ := hj _ rfl
    obtain rfl := Option.some.inj hw
    simp only [hn]
    rw [decode_branchTo he hr]
    rfl

namespace Code

variable {code : Code} {pos n : Nat} {w : UInt32}

theorem transfers_self : code.transfers pos pos = [] := by simp [transfers]

/-- The transfers of code that begins with a word. -/
theorem transfers_cons (h : code.word? pos = some w) : code.transfers pos (pos + (4 + n)) =
    ((decode w).bind Decoded.transfer?).toList ++ code.transfers (pos + 4) (pos + 4 + n) := by
  rw [transfers, transfers, Nat.add_sub_cancel_left, Nat.add_sub_cancel_left,
    Nat.add_div_left n (by decide), List.range'_succ, List.filterMap_cons, h, Option.bind_some]
  cases (decode w).bind Decoded.transfer? <;> rfl

/-- The transfers of code are those of the items that it holds. -/
theorem transfers_of_placed {d : Nat → UInt32 → Option Int} {l : List Item}
    (he : Items.Encodable l)
    (hj : ∀ x ∈ Items.placed pos l, ∀ j, Item.jump? x = some j →
      ∃ n, d j.1 j.2 = some n ∧ Items.InReach n)
    (hw : ∀ x ∈ Items.placed pos l, ∀ w, Item.word? d x = some w → code.word? x.1 = some w) :
    code.transfers pos (pos + Items.width l) = l.filterMap Item.transfer? := by
  induction l generalizing pos with
  | nil => exact transfers_self
  | cons i l ih =>
    obtain ⟨hi, he⟩ := Items.encodable_cons.mp he
    have ih : code.transfers (pos + i.width) (pos + i.width + Items.width l) =
        l.filterMap Item.transfer? :=
      ih he (fun x hx => hj x (List.mem_cons_of_mem _ hx))
        fun x hx => hw x (List.mem_cons_of_mem _ hx)
    have hj := hj (pos, i) List.mem_cons_self
    have hw := hw (pos, i) List.mem_cons_self
    rw [Items.width_cons]
    cases i with
    | mark | report =>
      -- Nothing stands for these items.
      rw [Item.width, Nat.zero_add]
      exact ih
    | instr | jump =>
      rw [Item.width, transfers_cons (hw _ rfl), Item.transfer?_of_word? hi hj rfl]
      rw [Item.width] at ih
      rw [ih, List.filterMap_cons]
      cases Item.transfer? _ <;> rfl

end Code

namespace Session

variable {s t : Session} {p : Program} {frame : UInt32} {k : Nat} {x : Statement}

/-- A function that was lowered. The loads and stores of each statement in its code are those of the
words that the statement reads and writes, in order, and each has the exact distance of its word as
the offset; except for the stores of a division, whose distance can be beyond the end of the address
space, and then counts from the beginning again. -/
theorem transfers_of_lower [Helper.Entries] [PendingHeap] (hs : s.Idle)
    (h : s.lower p frame = (t, .ok ())) (hk : p[k]? = some x) :
    List.Forall₂ (fun a tr => a.MadeBy tr (x.excess a)) (x.accesses (p.waiting k))
      (t.stream.code.transfers (s.offset p frame k) (s.offset p frame (k + 1))) ∧
    ∀ a ∈ x.accesses (p.waiting k), a.distance < 4096 + x.excess a := by
  obtain ⟨a, ha, hlink, rfl⟩ := eq_extend_of_lower hs h
  rw [offset_eq hs ha hlink, offset_eq hs ha hlink]
  have hencodable := Program.encodable_assemble ha
  obtain ⟨used, saved, prolog, body, -, -, -, hbody, hitems⟩ := Program.assemble_eq_ok_iff.mp ha
  obtain ⟨l, ps, qs, hl, hi, hd⟩ := Program.declared_at hbody .nil hk
  have hl : a.body[k]? = some l := by rw [hitems]; exact hl
  have hplaced {y : Nat × Item} (hy : y ∈ Items.placed (s.stream.size + a.start k) l) :
      y ∈ Items.placed s.stream.size a.items := Assembly.mem_placed_items hl hy
  have hcode : (s.extend a.items).stream.code.transfers (s.stream.size + a.start k)
      (s.stream.size + a.start k + Items.width l) = l.filterMap Item.transfer? := by
    refine Code.transfers_of_placed (d := Items.displacement? s.stream.size a.items) ?_ ?_ ?_
    · rw [Assembly.items_eq hl] at hencodable
      exact (Items.encodable_append.mp (Items.encodable_append.mp hencodable).2).1
    · intro y hy j hj
      obtain ⟨target, ht, hr⟩ :=
        hlink.marked j (List.mem_filterMap.mpr ⟨y, hplaced hy, hj⟩)
      exact ⟨_, by rw [Items.displacement?, ht, Option.map_some], hr⟩
    · exact fun y hy w hw => Items.word?_words (hplaced hy) hw
  have hmade : x.MadeBy (x.accesses (p.waiting k)) l := Statement.madeBy_items hi hd
  rw [Assembly.start_succ hl, ← Nat.add_assoc, hcode]
  exact ⟨hmade, hmade.distance_lt⟩

/-- A call that takes parameters of two words and of one, from the frame and from the context
block. -/
def passing : Program :=
  [{ op := .param, src1 := some (.relative 4088) },
    { op := .param, src1 := some (.temporary64 4088) },
    { op := .call, src1 := some (.constant 0x80001000), src2 := some (.constant 2) }]

theorem transfers_of_lower_passing : ∃ t x,
    (fresh false .recording).lower passing 4096 = (t, .ok ()) ∧ passing[2]? = some x ∧
    List.Forall₂ (fun a tr => a.MadeBy tr (x.excess a)) (x.accesses (passing.waiting 2))
      (t.stream.code.transfers ((fresh false .recording).offset passing 4096 2)
        ((fresh false .recording).offset passing 4096 3)) ∧
    ∀ a ∈ x.accesses (passing.waiting 2), a.distance < 4096 + x.excess a := by
  have hok : ((fresh false .recording).lower passing 4096).2 = .ok () := by decide +kernel
  exact ⟨_, _, Prod.ext rfl hok, rfl, transfers_of_lower (ready_fresh false (by decide)).toIdle
    (Prod.ext rfl hok) rfl⟩

/-- A division whose destination is at the end of the address space. -/
def lastWords : Statement :=
  { op := .div, dst := some (.temporary64 4294967292), src1 := some (.register 0),
    src2 := some (.register 1) }

/-- Such a division is lowered, with stores to the beginning of the stack instead. The quotient even
takes the place of the divisor that is kept there for the second call. -/
theorem transfers_lastWords : ∃ t, (fresh false .recording).lower [lastWords] 0 = (t, .ok ()) ∧
    t.stream.code.transfers ((fresh false .recording).offset [lastWords] 0 0)
      ((fresh false .recording).offset [lastWords] 0 1) = [⟨true, .sp, 4⟩, ⟨true, .sp, 0⟩] ∧
    ¬ List.Forall₂ (fun a tr => a.MadeBy tr 0) (lastWords.accesses (Program.waiting [lastWords] 0))
      (t.stream.code.transfers ((fresh false .recording).offset [lastWords] 0 0)
        ((fresh false .recording).offset [lastWords] 0 1)) := by
  have hok : ((fresh false .recording).lower [lastWords] 0).2 = .ok () := by decide +kernel
  have ht : ((fresh false .recording).lower [lastWords] 0).1.stream.code.transfers
      ((fresh false .recording).offset [lastWords] 0 0)
      ((fresh false .recording).offset [lastWords] 0 1) = [⟨true, .sp, 4⟩, ⟨true, .sp, 0⟩] := by
    decide +kernel
  have ha : lastWords.accesses (Program.waiting [lastWords] 0) =
      [⟨true, .temporary64 4294967292, 8, 0⟩, ⟨true, .temporary64 4294967292, 0, 4⟩] := by decide
  refine ⟨((fresh false .recording).lower [lastWords] 0).1, Prod.ext rfl hok, ht, ?_⟩
  rw [ht, ha]
  intro h
  have ho := (List.forall₂_cons.mp h).1.offset
  exact absurd ho (by decide)

end Session

end A32Lowering
