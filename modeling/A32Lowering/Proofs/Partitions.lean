import Mathlib
import A32Lowering.Proofs.Success

/-!
# Tables built from partitions

A table is built from its partitions rule by rule. Every shape is owned by the partition that
declared it last, and a rule is refused when another partition owns its shape; a partition may
repeat its own shapes. So partitions are refused exactly when two of them declare one shape.
Otherwise the table has all rules of the partitions in their order, and the rule that is picked for
a statement is the first one among all of them that is for it.

## Main definitions

* `Table.numbered` : the rules of some partitions, with the numbers of the partitions.
* `Table.Scan`, `Table.scan` : building a table rule by rule, with the owners of the shapes.
* `Rule.test`, `Table.pick` : picking a rule for a statement, where a number that is no pattern may
  be met.

## Main results

* `Table.Scan.Behind.step`, `Table.Scan.Behind.run` : what one rule does, and what all of them do.
* `Table.scan_eq_build` : the rule by rule construction is the one by partitions.
* `Table.build_exact` : which partitions are refused, and what is in the table otherwise.
* `Rules.build_eq_table`, `Rules.select_eq_pick` : the table of lowering and its selection.
-/

namespace A32Lowering

namespace Table

variable {α : Type} {n : Nat} {r : Rule α} {part : List (Rule α)} {parts : List (List (Rule α))}

/-! ### Rules and their partitions -/

/-- Whether a partition declares a shape. -/
def Declares (part : List (Rule α)) (h : Shape) : Prop := ∃ r ∈ part, r.shape = h

/-- The rules of some partitions in their order, each with the number of its partition. The first
partition has the number `n`. -/
def numbered (n : Nat) (parts : List (List (Rule α))) : List (Nat × Rule α) :=
  (parts.zipIdx n).flatMap fun p => p.1.map (p.2, ·)

theorem numbered_cons :
    numbered n (part :: parts) = part.map (n, ·) ++ numbered (n + 1) parts := rfl

theorem mem_numbered : (n, r) ∈ numbered 0 parts ↔ ∃ part, parts[n]? = some part ∧ r ∈ part := by
  simp only [numbered, List.mem_flatMap, List.mem_map, Prod.mk.injEq, Prod.exists,
    List.mk_mem_zipIdx_iff_getElem?]
  exact ⟨fun ⟨p, _, hp, _, hr, hn, rfl⟩ => ⟨p, hn ▸ hp, hr⟩,
    fun ⟨p, hp, hr⟩ => ⟨p, n, hp, r, hr, rfl, rfl⟩⟩

theorem map_snd_numbered : (numbered n parts).map Prod.snd = parts.flatten := by
  induction parts generalizing n with
  | nil => rfl
  | cons part parts ih =>
    rw [numbered_cons, List.map_append, ih, List.map_map, List.flatten_cons]
    exact congrArg (· ++ parts.flatten) (List.map_id part)

/-! ### Building rule by rule -/

/-- The owners of the shapes, and the table, while a table is built rule by rule. -/
structure Scan (α : Type) where
  owner : Shape → Option Nat
  table : Table α

namespace Scan

/-- Nothing is owned at the start. -/
def start : Scan α := ⟨fun _ => none, empty⟩

/-- A rule is added, and its partition owns its shape from now on. -/
def claim (s : Scan α) (e : Nat × Rule α) : Scan α :=
  ⟨Function.update s.owner e.2.shape (some e.1), s.table.insert e.2⟩

/-- A rule is added unless another partition owns its shape. -/
def step (s : Scan α) (e : Nat × Rule α) : Except Overlap (Scan α) :=
  match s.owner e.2.shape with
  | none => .ok (s.claim e)
  | some p => if p = e.1 then .ok (s.claim e) else .error ⟨e.2.name, p, e.1⟩

/-- A scan behind some rules: each shape is owned by the partition that declares it, and the table
has the rules in their order. -/
structure Behind (s : Scan α) (done : List (Nat × Rule α)) : Prop where
  owner (h : Shape) (n : Nat) : s.owner h = some n ↔ ∃ r, (n, r) ∈ done ∧ r.shape = h
  table : s.table = ofRules (done.map Prod.snd)

namespace Behind

variable {s : Scan α} {done l : List (Nat × Rule α)} {d e : Nat × Rule α}

theorem start : (start : Scan α).Behind [] where
  owner h n := by simp [Scan.start]
  table := rfl

/-- One partition declares a shape. -/
theorem partition_eq (hs : s.Behind done) (hd : d ∈ done) (he : e ∈ done)
    (h : d.2.shape = e.2.shape) : d.1 = e.1 := by
  have hown := (hs.owner e.2.shape d.1).mpr ⟨d.2, hd, h⟩
  have hown' := (hs.owner e.2.shape e.1).mpr ⟨e.2, he, rfl⟩
  exact Option.some.inj (hown.symm.trans hown')

/-- A rule is added behind rules whose shapes are others or its own partition's. -/
theorem claim (hs : s.Behind done) (hown : ∀ d ∈ done, d.2.shape = e.2.shape → d.1 = e.1) :
    (s.claim e).Behind (done ++ [e]) where
  owner h n := by
    show Function.update s.owner e.2.shape (some e.1) h = some n ↔ _
    by_cases he : h = e.2.shape
    · subst he
      rw [Function.update_self, Option.some.injEq]
      constructor
      · rintro rfl
        exact ⟨e.2, List.mem_append_right _ (List.mem_singleton_self e), rfl⟩
      · rintro ⟨r, hr, hshape⟩
        rcases List.mem_append.mp hr with hr | hr
        · exact (hown _ hr hshape).symm
        · exact congrArg Prod.fst (List.mem_singleton.mp hr).symm
    · rw [Function.update_of_ne he, hs.owner]
      refine exists_congr fun r => and_congr_left fun hshape => ?_
      rw [List.mem_append, List.mem_singleton, or_iff_left]
      rintro rfl
      exact he hshape.symm
  table := by
    rw [Scan.claim, hs.table, List.map_append, ofRules, ofRules, List.foldl_append]
    rfl

/-- What one rule does: it is refused when another partition has declared its shape, and added
otherwise. -/
theorem step (hs : s.Behind done) (e : Nat × Rule α) :
    (∃ d ∈ done, d.2.shape = e.2.shape ∧ d.1 ≠ e.1 ∧
      s.step e = .error ⟨e.2.name, d.1, e.1⟩) ∨
    (∀ d ∈ done, d.2.shape = e.2.shape → d.1 = e.1) ∧ s.step e = .ok (s.claim e) := by
  unfold Scan.step
  cases ho : s.owner e.2.shape with
  | none =>
    refine .inr ⟨fun d hd hshape => ?_, rfl⟩
    rw [(hs.owner _ d.1).mpr ⟨d.2, hd, hshape⟩] at ho
    cases ho
  | some p =>
    obtain ⟨r, hr, hshape⟩ := (hs.owner _ p).mp ho
    by_cases hp : p = e.1
    · refine .inr ⟨fun d hd hd' => ?_, if_pos hp⟩
      exact (hs.partition_eq hd hr (hd'.trans hshape.symm)).trans hp
    · exact .inl ⟨(p, r), hr, hshape, hp, if_neg hp⟩

/-- What some rules do, one after the other: either they are all added, or one of them is refused
since a rule in front of it has its shape and stands in another partition. -/
theorem run (hs : s.Behind done) (l : List (Nat × Rule α)) :
    (∃ before e after, l = before ++ e :: after ∧ ∃ d ∈ done ++ before,
      d.2.shape = e.2.shape ∧ d.1 ≠ e.1 ∧ l.foldlM Scan.step s = .error ⟨e.2.name, d.1, e.1⟩) ∨
    ∃ s', l.foldlM Scan.step s = .ok s' ∧ s'.Behind (done ++ l) := by
  induction l generalizing s done with
  | nil => exact .inr ⟨s, rfl, by rwa [List.append_nil]⟩
  | cons e l ih =>
    rcases hs.step e with ⟨d, hd, hshape, hne, hstep⟩ | ⟨hown, hstep⟩
    · refine .inl ⟨[], e, l, rfl, d, List.mem_append_left _ hd, hshape, hne, ?_⟩
      rw [List.foldlM_cons, hstep]
      rfl
    · have hfold : (e :: l).foldlM Scan.step s = l.foldlM Scan.step (s.claim e) := by
        rw [List.foldlM_cons, hstep]
        rfl
      rw [hfold]
      rcases ih (hs.claim hown) with ⟨before, e', after, hl, d, hd, hshape, hne, hr⟩ | ⟨s', hr, hs'⟩
      · refine .inl ⟨e :: before, e', after, congrArg (e :: ·) hl, d, ?_, hshape, hne, hr⟩
        rwa [List.append_assoc] at hd
      · refine .inr ⟨s', hr, ?_⟩
        rwa [List.append_assoc] at hs'

end Behind

end Scan

/-- The table of some partitions, built rule by rule. -/
def scan (parts : List (List (Rule α))) : Except Overlap (Table α) :=
  ((numbered 0 parts).foldlM Scan.step Scan.start).map Scan.table

/-! ### Building by partitions -/

/-- The shape of a rule, with the number of its partition. -/
def Scan.key (e : Nat × Rule α) : Shape × Nat := (e.2.shape, e.1)

/-- The owner of a shape that is looked up among the rules of earlier partitions. -/
theorem find?_key {done : List (Nat × Rule α)} {h : Shape} {o : Shape × Nat}
    (ho : (done.map Scan.key).find? (fun o => o.1 = h) = some o) :
    ∃ d ∈ done, d.2.shape = h ∧ o = (h, d.1) := by
  obtain ⟨d, hd, rfl⟩ := List.mem_map.mp (List.mem_of_find?_eq_some ho)
  have hfound := List.find?_some ho
  have hshape : d.2.shape = h := of_decide_eq_true hfound
  exact ⟨d, hd, hshape, by rw [Scan.key, hshape]⟩

theorem overlapIn_cons {owners : List (Shape × Nat)} : overlapIn owners n (r :: part) =
    ((owners.find? fun o => o.1 = r.shape).map fun o => ⟨r.name, o.2, n⟩).or
      (overlapIn owners n part) := by
  rw [overlapIn, List.findSome?_cons]
  cases owners.find? fun o => o.1 = r.shape <;> rfl

namespace Scan.Behind

variable {s : Scan α} {done : List (Nat × Rule α)}

/-- A rule whose shape an earlier partition has declared is refused. -/
theorem step_of_find?_eq_some {own : List (Rule α)} (hs : s.Behind (done ++ own.map (n, ·)))
    (hlt : ∀ d ∈ done, d.1 < n) {o : Shape × Nat}
    (ho : (done.map key).find? (fun o => o.1 = r.shape) = some o) :
    s.step (n, r) = .error ⟨r.name, o.2, n⟩ := by
  obtain ⟨d, hd, hshape, rfl⟩ := find?_key ho
  have hd' := List.mem_append_left (own.map (n, ·)) hd
  rcases hs.step (n, r) with ⟨d₁, hd₁, hshape₁, -, hstep⟩ | ⟨hown, -⟩
  · rw [hstep, hs.partition_eq hd₁ hd' (hshape₁.trans hshape.symm)]
  · exact absurd (hown d hd' hshape) (hlt d hd).ne

/-- A rule whose shape no earlier partition has declared is added. -/
theorem step_of_find?_eq_none {own : List (Rule α)} (hs : s.Behind (done ++ own.map (n, ·)))
    (ho : (done.map key).find? (fun o => o.1 = r.shape) = none) :
    s.step (n, r) = .ok (s.claim (n, r)) ∧
      (s.claim (n, r)).Behind (done ++ (own ++ [r]).map (n, ·)) := by
  rcases hs.step (n, r) with ⟨d, hd, hshape, hne, -⟩ | ⟨hown, hstep⟩
  · rcases List.mem_append.mp hd with hd | hd
    · have hno := List.find?_eq_none.mp ho _ (List.mem_map_of_mem hd)
      exact (hno (decide_eq_true hshape)).elim
    · obtain ⟨r', -, rfl⟩ := List.mem_map.mp hd
      exact absurd rfl hne
  · have hclaim := hs.claim hown
    rw [List.append_assoc, ← List.map_singleton (f := (n, ·)), ← List.map_append] at hclaim
    exact ⟨hstep, hclaim⟩

/-- The rules of one partition, behind the rules of earlier partitions and some of its own: the
first one whose shape an earlier partition has declared is refused. -/
theorem run_partition {own : List (Rule α)} (hs : s.Behind (done ++ own.map (n, ·)))
    (hlt : ∀ d ∈ done, d.1 < n) (part : List (Rule α)) :
    (∃ o, overlapIn (done.map key) n part = some o ∧
      (part.map (n, ·)).foldlM Scan.step s = .error o) ∨
    overlapIn (done.map key) n part = none ∧ ∃ s',
      (part.map (n, ·)).foldlM Scan.step s = .ok s' ∧
      s'.Behind (done ++ (own ++ part).map (n, ·)) := by
  -- The shapes that the partition has declared itself are in `own`, where no rule is refused.
  induction part generalizing s own with
  | nil => exact .inr ⟨rfl, s, rfl, by rwa [List.append_nil]⟩
  | cons r part ih =>
    rw [overlapIn_cons, List.map_cons, List.foldlM_cons]
    cases ho : (done.map key).find? fun o => o.1 = r.shape with
    | some o =>
      rw [hs.step_of_find?_eq_some hlt ho]
      exact .inl ⟨⟨r.name, o.2, n⟩, rfl, rfl⟩
    | none =>
      obtain ⟨hstep, hclaim⟩ := hs.step_of_find?_eq_none ho
      have hrest := ih hclaim
      rw [List.append_assoc, List.singleton_append] at hrest
      rw [hstep]
      exact hrest

/-- The rules of some partitions behind the rules of earlier ones. -/
theorem run_partitions (hs : s.Behind done) (hlt : ∀ d ∈ done, d.1 < n)
    (parts : List (List (Rule α))) :
    (∃ o, overlapFrom (done.map key) n parts = some o ∧
      (numbered n parts).foldlM Scan.step s = .error o) ∨
    overlapFrom (done.map key) n parts = none ∧ ∃ s',
      (numbered n parts).foldlM Scan.step s = .ok s' ∧ s'.Behind (done ++ numbered n parts) := by
  induction parts generalizing s done n with
  | nil => exact .inr ⟨rfl, s, rfl, by rwa [numbered, List.zipIdx_nil, List.flatMap_nil,
      List.append_nil]⟩
  | cons part parts ih =>
    rw [overlapFrom, numbered_cons, List.foldlM_append]
    have hs₀ : s.Behind (done ++ ([] : List (Rule α)).map (n, ·)) := by
      rwa [List.map_nil, List.append_nil]
    rcases hs₀.run_partition hlt part with ⟨o, ho, hr⟩ | ⟨ho, s', hr, hs'⟩
    · refine .inl ⟨o, ?_, ?_⟩
      · rw [ho]
        rfl
      · rw [hr]
        rfl
    · rw [List.nil_append] at hs'
      have hlt' : ∀ d ∈ done ++ part.map (n, ·), d.1 < n + 1 := by
        intro d hd
        rcases List.mem_append.mp hd with hd | hd
        · exact (hlt d hd).trans (Nat.lt_succ_self n)
        · obtain ⟨r, -, rfl⟩ := List.mem_map.mp hd
          exact Nat.lt_succ_self n
      have hkeys : (done ++ part.map (n, ·)).map key =
          done.map key ++ part.map fun r => (r.shape, n) := by
        rw [List.map_append, List.map_map]
        rfl
      have hrest := ih hs' hlt'
      rw [hkeys, List.append_assoc] at hrest
      rw [ho, hr]
      exact hrest

end Scan.Behind

/-- A table that is built rule by rule, with the owners of the shapes overwritten on the way, is the
one that is built by partitions. -/
theorem scan_eq_build (parts : List (List (Rule α))) : scan parts = build parts := by
  unfold scan build
  rcases Scan.Behind.start.run_partitions (n := 0) (by simp) parts with
    ⟨o, ho, hr⟩ | ⟨ho, s, hr, hs⟩
  · rw [List.map_nil] at ho
    rw [hr, ho]
    rfl
  · rw [List.map_nil] at ho
    rw [hr, ho]
    have htable : s.table = ofRules parts.flatten := by
      rw [hs.table, List.nil_append, map_snd_numbered]
    exact congrArg Except.ok htable

/-- What is wrong with partitions that are refused: one of them has a rule with the name, and
another one declares the shape of that rule. -/
structure Overlap.Of (o : Overlap) (parts : List (List (Rule α))) : Prop where
  apart : o.first ≠ o.second
  shared : ∃ p q r, parts[o.first]? = some p ∧ parts[o.second]? = some q ∧ r ∈ q ∧
    r.name = o.name ∧ Declares p r.shape

/-- Partitions that are refused have the overlap that is reported. -/
theorem overlap_of_scan {o : Overlap} (h : scan parts = .error o) : o.Of parts := by
  unfold scan at h
  rcases Scan.Behind.start.run (numbered 0 parts) with
    ⟨before, e, after, hl, d, hd, hshape, hne, hr⟩ | ⟨s, hr, -⟩
  · have hd : d ∈ numbered 0 parts := hl ▸ List.mem_append_left _ hd
    have he : e ∈ numbered 0 parts := hl ▸ List.mem_append_right _ List.mem_cons_self
    obtain ⟨p, hp, hdp⟩ := mem_numbered.mp hd
    obtain ⟨q, hq, heq⟩ := mem_numbered.mp he
    rw [hr] at h
    obtain rfl := Except.error.inj h
    exact ⟨hne, p, q, e.2, hp, hq, heq, rfl, d.2, hdp, hshape⟩
  · rw [hr] at h
    cases h

/-- Partitions are refused exactly when two of them declare one shape. -/
theorem exists_scan_eq_error : (∃ o, scan parts = .error o) ↔
    ∃ (i j : Nat) (p q : List (Rule α)) (h : Shape), i ≠ j ∧ parts[i]? = some p ∧
      parts[j]? = some q ∧ Declares p h ∧ Declares q h := by
  constructor
  · rintro ⟨o, ho⟩
    obtain ⟨hne, p, q, r, hp, hq, hr, -, hdecl⟩ := overlap_of_scan ho
    exact ⟨o.first, o.second, p, q, r.shape, hne, hp, hq, hdecl, r, hr, rfl⟩
  · rintro ⟨i, j, p, q, h, hne, hp, hq, ⟨r, hr, hrh⟩, ⟨r', hr', hrh'⟩⟩
    unfold scan
    rcases Scan.Behind.start.run (numbered 0 parts) with
      ⟨_, e, _, _, d, _, _, _, hrun⟩ | ⟨s, _, hs⟩
    · exact ⟨_, congrArg (Except.map Scan.table) hrun⟩
    · have hi := mem_numbered.mpr ⟨p, hp, hr⟩
      have hj := mem_numbered.mpr ⟨q, hq, hr'⟩
      exact absurd (hs.partition_eq hi hj (hrh.trans hrh'.symm)) hne

end Table

/-! ### Picking a rule -/

namespace Pattern

variable {p : Pattern} {s : Option Operand}

/-- A pattern is found to describe an operand exactly when it does. -/
theorem test_eq_true : p.test s = .ok true ↔ p.admits s = true := by
  cases p <;> cases s <;> simp [test, admits, admitsOperand]

theorem test_of_named (h : p ∈ named) : p.test s = .ok (p.admits s) := by
  cases p with
  | unknown code => simp [named] at h
  | _ => rfl

end Pattern

/-- Whether the patterns of a shape describe the operands of a statement, tried in turn until one
does not. -/
def Shape.test (h : Shape) (x : Statement) : Except Pattern.Unknown Bool := do
  if ← h.dst.test x.dst then
    if ← h.src1.test x.src1 then h.src2.test x.src2 else return false
  else return false

/-- Whether a rule is for a statement: for its operation, and with patterns for its operands. -/
def Rule.test {α : Type} (x : Statement) (r : Rule α) : Except Pattern.Unknown Bool :=
  if r.shape.op = x.op then r.shape.test x else .ok false

theorem Shape.test_eq_true {h : Shape} {x : Statement} : h.test x = .ok true ↔
    h.dst.admits x.dst = true ∧ h.src1.admits x.src1 = true ∧ h.src2.admits x.src2 = true := by
  simp only [← Pattern.test_eq_true, Shape.test]
  cases h.dst.test x.dst with
  | error e => simp [bind, Except.bind]
  | ok b =>
    cases b with
    | false => simp
    | true =>
      cases h.src1.test x.src1 with
      | error e => simp [bind, Except.bind]
      | ok b => cases b <;> simp

/-- A rule is found to be for a statement exactly when its shape admits the statement. -/
theorem Rule.test_eq_true {α : Type} {x : Statement} {r : Rule α} :
    r.test x = .ok true ↔ r.shape.admits x = true := by
  rw [Rule.test, Shape.admits_iff]
  by_cases hop : r.shape.op = x.op
  · rw [if_pos hop, Shape.test_eq_true, eq_true hop.symm, true_and]
  · simp [if_neg hop, Ne.symm hop]

/-- The patterns of a shape have names. -/
def Shape.Named (h : Shape) : Prop :=
  h.dst ∈ Pattern.named ∧ h.src1 ∈ Pattern.named ∧ h.src2 ∈ Pattern.named

instance (h : Shape) : Decidable h.Named :=
  inferInstanceAs (Decidable (_ ∧ _ ∧ _))

/-- Without numbers that are no patterns, the outcome of the test is whether the shape admits the
statement. -/
theorem Rule.test_of_named {α : Type} {r : Rule α} (hn : r.shape.Named) (x : Statement) :
    r.test x = .ok (r.shape.admits x) := by
  rw [Rule.test, Shape.test, Pattern.test_of_named hn.1, Pattern.test_of_named hn.2.1,
    Pattern.test_of_named hn.2.2, Shape.admits]
  by_cases hop : r.shape.op = x.op <;> cases r.shape.dst.admits x.dst <;>
    cases r.shape.src1.admits x.src1 <;> simp [hop]

namespace Table

variable {α : Type} {test : Rule α → Except Pattern.Unknown Bool} {r : Rule α}
  {l before after : List (Rule α)}

/-- Why no rule is picked: there is none, or a number that is no pattern was met. -/
inductive Refusal where
  | noRule
  | unknown (e : Pattern.Unknown)
  deriving DecidableEq, Repr

/-- The first of some rules that passes a test. A test that is refused ends the search. -/
def firstOf (test : Rule α → Except Pattern.Unknown Bool) : List (Rule α) → Except Refusal (Rule α)
  | [] => .error .noRule
  | r :: rest =>
    match test r with
    | .ok true => .ok r
    | .ok false => firstOf test rest
    | .error e => .error (.unknown e)

/-- The rule that is picked for a statement: among those of its operation, the first one whose
patterns describe its operands. -/
def pick (t : Table α) (x : Statement) : Except Refusal (Rule α) :=
  firstOf (fun r => r.shape.test x) (t.rulesOf x.op)

theorem table_of_build {parts : List (List (Rule α))} {t : Table α} (h : build parts = .ok t) :
    t = ofRules parts.flatten := by
  unfold build at h
  split at h
  · cases h
  · exact (Except.ok.inj h).symm

/-- Rules that fail the test are passed over. -/
theorem firstOf_append (h : ∀ s ∈ before, test s = .ok false) (l : List (Rule α)) :
    firstOf test (before ++ l) = firstOf test l := by
  induction before with
  | nil => rfl
  | cons s before ih =>
    obtain ⟨hs, hrest⟩ := List.forall_mem_cons.mp h
    rw [List.cons_append, firstOf, hs]
    exact ih hrest

/-- Either all rules fail the test, or the first one that does not decides. -/
theorem firstOf_cases (test : Rule α → Except Pattern.Unknown Bool) (l : List (Rule α)) :
    (∀ s ∈ l, test s = .ok false) ∨ ∃ before r after, l = before ++ r :: after ∧
      (∀ s ∈ before, test s = .ok false) ∧ test r ≠ .ok false := by
  induction l with
  | nil => exact .inl (by simp)
  | cons r l ih =>
    by_cases hr : test r = .ok false
    · rcases ih with hall | ⟨before, r', after, rfl, hbefore, hr'⟩
      · exact .inl (List.forall_mem_cons.mpr ⟨hr, hall⟩)
      · exact .inr ⟨r :: before, r', after, rfl, List.forall_mem_cons.mpr ⟨hr, hbefore⟩, hr'⟩
    · exact .inr ⟨[], r, l, rfl, by simp, hr⟩

/-- What becomes of a search: it depends on the first rule that does not fail the test. -/
theorem firstOf_eq_iff {a : Except Refusal (Rule α)} : firstOf test l = a ↔
    (∀ s ∈ l, test s = .ok false) ∧ a = .error .noRule ∨
    ∃ before r after, l = before ++ r :: after ∧ (∀ s ∈ before, test s = .ok false) ∧
      (test r = .ok true ∧ a = .ok r ∨ ∃ e, test r = .error e ∧ a = .error (.unknown e)) := by
  have hnone (h : ∀ s ∈ l, test s = .ok false) : firstOf test l = .error .noRule := by
    rw [← List.append_nil l, firstOf_append h, firstOf]
  constructor
  · rintro rfl
    rcases firstOf_cases test l with hall | ⟨before, r, after, rfl, hbefore, hr⟩
    · exact .inl ⟨hall, hnone hall⟩
    · refine .inr ⟨before, r, after, rfl, hbefore, ?_⟩
      rw [firstOf_append hbefore, firstOf]
      cases ht : test r with
      | error e => exact .inr ⟨e, rfl, rfl⟩
      | ok b =>
        cases b with
        | true => exact .inl ⟨rfl, rfl⟩
        | false => exact absurd ht hr
  · rintro (⟨hall, rfl⟩ | ⟨before, r, after, rfl, hbefore, ⟨hr, rfl⟩ | ⟨e, hr, rfl⟩⟩)
    · exact hnone hall
    · rw [firstOf_append hbefore, firstOf, hr]
    · rw [firstOf_append hbefore, firstOf, hr]

/-- Looking through the rules of an operation is looking through all rules for one that is of the
operation and passes the test. -/
theorem firstOf_filter (l : List (Rule α)) (x : Statement) :
    firstOf (fun r => r.shape.test x) (l.filter fun r => r.shape.op = x.op) =
      firstOf (Rule.test x) l := by
  induction l with
  | nil => rfl
  | cons r l ih =>
    rw [List.filter_cons]
    by_cases hop : r.shape.op = x.op
    · rw [if_pos (decide_eq_true hop), firstOf, firstOf, ih, Rule.test, if_pos hop]
    · rw [if_neg (by simpa using hop), ih, firstOf, Rule.test, if_neg hop]

theorem pick_ofRules (l : List (Rule α)) (x : Statement) :
    (ofRules l).pick x = firstOf (Rule.test x) l := by
  rw [pick, rulesOf_ofRules, firstOf_filter]

theorem select?_ofRules (l : List (Rule α)) (x : Statement) :
    (ofRules l).select? x = l.find? fun r => r.shape.admits x := by
  rw [select?, rulesOf_ofRules, List.find?_filter]
  refine congrArg (List.find? · l) (funext fun r => ?_)
  cases ha : r.shape.admits x with
  | false => simp
  | true => simp [(Shape.admits_iff.mp ha).1]

/-- When all patterns have names, the rule that is picked is the one that is selected. -/
theorem pick_of_named (h : ∀ r ∈ l, r.shape.Named) (x : Statement) : (ofRules l).pick x =
    ((ofRules l).select? x).elim (.error .noRule) .ok := by
  rw [pick_ofRules, select?_ofRules]
  induction l with
  | nil => rfl
  | cons r l ih =>
    obtain ⟨hr, hl⟩ := List.forall_mem_cons.mp h
    rw [firstOf, Rule.test_of_named hr, List.find?_cons]
    cases r.shape.admits x with
    | true => rfl
    | false => exact ih hl

/-- Which partitions are refused, and what is in the table otherwise. Partitions are refused exactly
when two different ones declare one shape; the error names such a pair and a rule. Otherwise the
table has, for each operation, all rules that the partitions declare for it, in the order of the
partitions and in their own order. The rule that is picked for a statement is the first one in all
partitions together that is of the operation of the statement and whose patterns describe its
operands; no rule is picked exactly when there is none. Only a number that is no pattern ends the
search early. Without such numbers the rule that is picked is the one that is selected. -/
theorem build_exact (parts : List (List (Rule α))) :
    ((∃ o, build parts = .error o) ↔
      ∃ (i j : Nat) (p q : List (Rule α)) (h : Shape), i ≠ j ∧ parts[i]? = some p ∧
        parts[j]? = some q ∧ Declares p h ∧ Declares q h) ∧
    (∀ o, build parts = .error o → o.Of parts) ∧
    ∀ t, build parts = .ok t →
      (∀ op, t.rulesOf op = parts.flatten.filter fun r => r.shape.op = op) ∧
      ∀ x,
        (∀ r, t.pick x = .ok r ↔ ∃ before after, parts.flatten = before ++ r :: after ∧
          (∀ s ∈ before, s.test x = .ok false) ∧ r.shape.admits x = true) ∧
        (t.pick x = .error .noRule ↔ ∀ r ∈ parts.flatten, r.test x = .ok false) ∧
        (∀ e, t.pick x = .error (.unknown e) ↔ ∃ before r after,
          parts.flatten = before ++ r :: after ∧ (∀ s ∈ before, s.test x = .ok false) ∧
            r.test x = .error e) ∧
        ((∀ r ∈ parts.flatten, r.shape.Named) →
          t.pick x = (t.select? x).elim (.error .noRule) .ok ∧
          ∀ r ∈ parts.flatten, r.test x = .ok (r.shape.admits x)) := by
  rw [← scan_eq_build]
  refine ⟨exists_scan_eq_error, fun o => overlap_of_scan, fun t ht => ?_⟩
  rw [scan_eq_build] at ht
  obtain rfl := table_of_build ht
  refine ⟨rulesOf_ofRules _, fun x => ⟨fun r => ?_, ?_, fun e => ?_, fun hn => ?_⟩⟩
  · simp [pick_ofRules, firstOf_eq_iff, Rule.test_eq_true]
  · simp [pick_ofRules, firstOf_eq_iff]
  · simp [pick_ofRules, firstOf_eq_iff]
  · exact ⟨pick_of_named hn x, fun r hr => Rule.test_of_named (hn r hr) x⟩

/-- A partition in which one rule takes what a later one takes as well, and that repeats a shape. -/
def sums : List (Rule Unit) :=
  [⟨⟨.add, .any, .any, .constant⟩, "constant", ()⟩, ⟨⟨.add, .any, .any, .any⟩, "any", ()⟩,
    ⟨⟨.add, .any, .any, .any⟩, "again", ()⟩]

/-- A partition for another operation. -/
def moves : List (Rule Unit) := [⟨⟨.mov, .register, .any, .absent⟩, "move", ()⟩]

/-- A sum with a constant. -/
def increment : Statement :=
  { op := .add, dst := some (.register 0), src1 := some (.register 1), src2 := some (.constant 1) }

/-- The two partitions make a table that keeps the repeated shape and prefers the rule for
constants. With the sums once more behind them they are refused. -/
theorem build_exact_sums :
    (∃ t, build [moves, sums] = .ok t ∧ t.rulesOf .add = sums ∧
      t.pick increment = .ok ⟨⟨.add, .any, .any, .constant⟩, "constant", ()⟩ ∧
      t.pick { increment with dst := none } = .error .noRule) ∧
    ∃ o, build [sums, moves, sums] = .error o ∧ o.Of [sums, moves, sums] := by
  have hok : build [moves, sums] = .ok (ofRules [moves, sums].flatten) := rfl
  obtain ⟨-, -, htable⟩ := build_exact [moves, sums]
  obtain ⟨hrules, hpick⟩ := htable _ hok
  obtain ⟨hoverlap, hof, -⟩ := build_exact [sums, moves, sums]
  obtain ⟨o, ho⟩ := hoverlap.mpr ⟨0, 2, sums, sums, ⟨.add, .any, .any, .any⟩, by decide, rfl, rfl,
    ⟨⟨⟨.add, .any, .any, .any⟩, "any", ()⟩, by simp [sums], rfl⟩,
    ⟨⟨⟨.add, .any, .any, .any⟩, "any", ()⟩, by simp [sums], rfl⟩⟩
  refine ⟨⟨_, hok, hrules .add, ?_, ?_⟩, o, ho, hof o ho⟩
  · exact ((hpick increment).1 _).mpr ⟨moves, sums.tail, rfl, by decide, by decide⟩
  · exact (hpick { increment with dst := none }).2.1.mpr (by decide)

end Table

namespace Rules

/-- The table of lowering is built from the rules for words and those for two words, which share no
shape. -/
theorem build_eq_table : Table.build [general, wide] = .ok table := by
  have hnone : Table.overlapFrom [] 0 [general, wide] = none := by decide +kernel
  rw [Table.build, hnone, table, List.flatten_cons, List.flatten_cons, List.flatten_nil,
    List.append_nil]

/-- Selecting a rule for lowering is picking it; no number is met that is no pattern. -/
theorem select_eq_pick (x : Statement) :
    select x = (table.pick x).mapError fun _ => .noRule x := by
  have hn : ∀ r ∈ general ++ wide, r.shape.Named := by decide +kernel
  rw [table, Table.pick_of_named hn, select, table]
  cases (Table.ofRules (general ++ wide)).select? x <;> rfl

end Rules

end A32Lowering
