import Mathlib
import A32Lowering.Proofs.Execution
import A32Lowering.Proofs.Semantics
import A32Lowering.Proofs.Success

/-!
# Where statements stand

The code of a statement begins where the stream ends when the statement is lowered. In the items of
a function this is behind the prolog and the items of the statements before it, and a jump to a
block goes to the code of the label statement of the block.

## Main definitions

* `LowerAt.upTo`, `Session.offset` : lowering up to a statement, and where the stream ends then.
* `Assembly.start` : the same place counted in items.
* `Items.LeadsTo` : displacements that lead to a position.

## Main results

* `Session.offset_eq` : both are the same.
* `Assembly.loaded_body` : what an image holds at a statement.
* `Program.target?_eq_start`, `Program.leadsTo_items` : a jump goes to the label statement of its
  block.
-/

namespace A32Lowering

/-- Lowering a function up to a statement: the prolog and the statements in front of it. -/
def LowerAt.upTo [Helper.Entries] (p : Program) (frame : UInt32) (k : Nat) : LowerAt Unit := do
  let saved ← located none (Lower.check (do Frame.saved (← Frame.usage p)))
  located none (Lower.emitChecked (Frame.prolog frame saved))
  modify fun s => { s with level := 0 }
  statements 0 (p.take k)

/-- The position in the stream at which the code of a statement begins. Behind the last statement it
is the position of the epilog. -/
def Session.offset [Helper.Entries] (s : Session) (p : Program) (frame : UInt32) (k : Nat) : Nat :=
  (outcome (LowerAt.upTo p frame k) s).2.stream.size

namespace Assembly

/-- The items in front of a statement. -/
def front (a : Assembly) (k : Nat) : List Item := a.prolog.map .instr ++ (a.body.take k).flatten

/-- The position of the items of a statement in a function. -/
def start (a : Assembly) (k : Nat) : Nat := Items.width (a.front k)

variable {a : Assembly} {k : Nat} {l : List Item}

theorem start_zero : a.start 0 = 4 * a.prolog.length := by
  rw [start, front, List.take_zero, List.flatten_nil, List.append_nil, Items.width_instrs]

theorem start_succ (h : a.body[k]? = some l) : a.start (k + 1) = a.start k + Items.width l := by
  rw [start, front, List.take_add_one, h, List.flatten_append, Option.toList_some,
    List.flatten_singleton, ← List.append_assoc, Items.width_append]
  rfl

theorem items_eq_front (a : Assembly) (k : Nat) :
    a.items = a.front k ++ ((a.body.drop k).flatten ++ a.epilog.map .instr) := by
  conv_lhs => rw [items, ← List.take_append_drop k a.body, List.flatten_append]
  simp only [front, List.append_assoc]

/-- The items of a statement among those of its function. -/
theorem items_eq (h : a.body[k]? = some l) :
    a.items = a.front k ++ (l ++ ((a.body.drop (k + 1)).flatten ++ a.epilog.map .instr)) := by
  obtain ⟨hk, rfl⟩ := List.getElem?_eq_some_iff.mp h
  rw [items_eq_front a k, List.drop_eq_getElem_cons hk, List.flatten_cons, List.append_assoc]

/-- The items of a statement stand where the statement starts. -/
theorem mem_placed_items {pos : Nat} (h : a.body[k]? = some l) {x : Nat × Item}
    (hx : x ∈ Items.placed (pos + a.start k) l) : x ∈ Items.placed pos a.items := by
  rw [items_eq h, Items.placed_append, ← start, Items.placed_append (pos + a.start k) l]
  exact List.mem_append_right _ (List.mem_append_left _ hx)

variable {image : UInt32 → Option UInt32} {org : UInt32} {d : Nat → UInt32 → Option Int} {pos : Nat}

/-- An image with the items of a function holds those of a statement where it starts. -/
theorem loaded_body (h : Items.Loaded image org d pos a.items) (hk : a.body[k]? = some l) :
    ∃ rest, Items.Loaded image org d (pos + a.start k) (l ++ rest) := by
  rw [items_eq hk, Items.loaded_append] at h
  exact ⟨_, h.2⟩

end Assembly

namespace Items

/-- A displacement leads from every jump to a block among items to a position. -/
def LeadsTo (d : Nat → UInt32 → Option Int) (pos : Nat) (l : List Item) (b : UInt32)
    (t : Nat) : Prop :=
  ∀ j cc, (j, Item.jump cc b) ∈ placed pos l →
    d j b = some (Stream.displacement j t) ∧ InReach (Stream.displacement j t) ∧
      (4 : Int) ∣ (t : Int) - j

/-- The place of a block that is placed once. -/
theorem target?_of_mem_placed {pos t : Nat} {l : List Item} {b : UInt32}
    (hn : ((marks pos l).map Prod.fst).Nodup) (h : (t, Item.mark b) ∈ placed pos l) :
    target? pos l b = some t := by
  have hm : (b, t) ∈ marks pos l := mem_marks.mpr h
  rw [target?]
  generalize marks pos l = ms at hn hm ⊢
  induction ms with
  | nil => cases hm
  | cons m ms ih =>
    obtain ⟨hnot, hn⟩ := List.nodup_cons.mp hn
    rcases List.mem_cons.mp hm with rfl | hm
    · exact List.lookup_cons_self
    · have hne : b ≠ m.1 := by
        rintro rfl
        exact hnot (List.mem_map.mpr ⟨_, hm, rfl⟩)
      rw [List.lookup_cons, beq_eq_false_iff_ne.mpr hne]
      exact ih hn hm

end Items

namespace Program

variable {p : Program} {frame : UInt32} {a : Assembly}

/-- The items of the statement with an index. -/
theorem exists_items_of_bodies [Helper.Entries] {params rest : List Parameter}
    {ls : List (List Item)} (h : Program.bodies params p = .ok (ls, rest)) {k : Nat} {x : Statement}
    (hk : p[k]? = some x) : ∃ l ps qs, ls[k]? = some l ∧ x.items ps = .ok (l, qs) := by
  induction p generalizing params ls k with
  | nil => simp at hk
  | cons y p ih =>
    simp only [bodies, Except.bind_eq_ok_iff, Except.pure_eq_ok_iff] at h
    obtain ⟨⟨l, ps⟩, hl, ⟨ls', ps'⟩, hr, h⟩ := h
    obtain ⟨rfl, rfl⟩ := Prod.mk.inj h
    cases k with
    | zero =>
      obtain rfl := Option.some.inj hk
      exact ⟨l, params, ps, rfl, hl⟩
    | succ k => exact ih hr hk

theorem bodies_take [Helper.Entries] {params rest : List Parameter} {ls : List (List Item)}
    (h : Program.bodies params p = .ok (ls, rest)) (k : Nat) :
    ∃ ps, Program.bodies params (p.take k) = .ok (ls.take k, ps) := by
  induction p generalizing params ls k with
  | nil =>
    obtain ⟨rfl, rfl⟩ := Prod.mk.inj (Except.pure_eq_ok_iff.mp h)
    exact ⟨params, by rw [List.take_nil, List.take_nil]; rfl⟩
  | cons y p ih =>
    simp only [bodies, Except.bind_eq_ok_iff, Except.pure_eq_ok_iff] at h
    obtain ⟨⟨l, ps⟩, hl, ⟨ls', ps'⟩, hr, h⟩ := h
    obtain ⟨rfl, rfl⟩ := Prod.mk.inj h
    cases k with
    | zero => exact ⟨params, rfl⟩
    | succ k =>
      obtain ⟨qs, hq⟩ := ih hr k
      refine ⟨qs, ?_⟩
      simp only [List.take_succ_cons, bodies, Except.bind_eq_ok_iff, Except.pure_eq_ok_iff]
      exact ⟨(l, ps), hl, (ls'.take k, qs), hq, rfl⟩

/-- The label statement of a block that is jumped to. -/
theorem labelIndex_spec {b : UInt32} (h : b ∈ p.labels) :
    ∃ x, p[p.labelIndex b]? = some x ∧ x.op = .label ∧ x.block = b := by
  obtain ⟨x, hx, rfl⟩ := List.mem_map.mp h
  obtain ⟨hx, ho⟩ := List.mem_filter.mp hx
  have hlt : p.labelIndex x.block < p.length :=
    List.findIdx_lt_length_of_exists ⟨x, hx, by simpa using ho⟩
  refine ⟨p[p.labelIndex x.block], List.getElem?_eq_getElem hlt, ?_⟩
  exact of_decide_eq_true (List.findIdx_getElem (w := hlt))

/-- A label statement places its block. -/
theorem items_of_label [Helper.Entries] {x : Statement} {ps qs : List Parameter} {l : List Item}
    (ho : x.op = .label) (h : x.items ps = .ok (l, qs)) : l = [.mark x.block] := by
  obtain ⟨r, a, hr, ha, h⟩ := Statement.items_eq_ok h
  have hall : ∀ r ∈ Rules.general ++ Rules.wide, r.shape.op = .label → r.action = .mark := by
    decide
  have hop : r.shape.op = .label := (Rules.op_of_select hr).symm.trans ho
  obtain rfl : a = .mark := ha.symm.trans (hall r (Rules.select_eq_ok hr).1 hop)
  cases h
  rfl

/-- A jump goes to the label statement of its block. -/
theorem target?_eq_start [Helper.Entries] (ha : p.assemble frame = .ok a) {pos : Nat}
    (hl : Items.Linkable pos a.items) {b : UInt32} (hb : b ∈ p.labels) :
    Items.target? pos a.items b = some (pos + a.start (p.labelIndex b)) := by
  obtain ⟨x, hx, ho, rfl⟩ := labelIndex_spec hb
  obtain ⟨used, saved, prolog, body, -, -, -, hbody, rfl⟩ := Program.assemble_eq_ok_iff.mp ha
  obtain ⟨l, ps, qs, hk, hitems⟩ := exists_items_of_bodies hbody hx
  obtain rfl := items_of_label ho hitems
  refine Items.target?_of_mem_placed hl.nodup (Assembly.mem_placed_items hk ?_)
  exact List.mem_cons_self

/-- The jumps of a function lead to the label statements of their blocks. -/
theorem leadsTo_items [Helper.Entries] (ha : p.assemble frame = .ok a) {pos : Nat}
    (hl : Items.Linkable pos a.items) (b : UInt32) :
    Items.LeadsTo (Items.displacement? pos a.items) pos a.items b
      (pos + a.start (p.labelIndex b)) := by
  intro j cc hj
  obtain ⟨t, ht, hr⟩ := hl.marked (j, b) (Items.mem_jumps.mpr ⟨cc, hj⟩)
  have hb : b ∈ p.labels := (blocks_of_assemble ha).1 ▸ Items.exists_target?_iff.mp ⟨t, ht⟩
  obtain rfl := Option.some.inj (ht.symm.trans (target?_eq_start ha hl hb))
  refine ⟨by rw [Items.displacement?, ht, Option.map_some], hr, ?_⟩
  have hstart : 4 ∣ a.start (p.labelIndex b) := Items.four_dvd_width _
  have hjump : 4 ∣ j - pos := Items.four_dvd_of_mem_placed hj
  have hle : pos ≤ j := (Items.mem_placed hj).2.1
  omega

end Program

/-- The position of a statement in the stream is that of its items. -/
theorem Session.offset_eq [Helper.Entries] {s : Session} (hs : s.Idle) {p : Program}
    {frame : UInt32} {a : Assembly} (ha : p.assemble frame = .ok a)
    (hl : Items.Linkable s.stream.size a.items) (k : Nat) :
    s.offset p frame k = s.stream.size + a.start k := by
  have hplain := Program.plain_assemble ha
  obtain ⟨used, saved, prolog, body, hu, hsv, hp, hbody, rfl⟩ := Program.assemble_eq_ok_iff.mp ha
  obtain ⟨hparams, -, hlevel⟩ := Session.isClean_iff.mp hs.clean
  obtain ⟨ps, hps⟩ := Program.bodies_take hbody k
  -- The items in front of the statement can be placed, since all items can.
  rw [Assembly.items_eq_front _ k] at hplain hl
  obtain ⟨u, hu', hplaced, -⟩ | ⟨-, hn⟩ := placeAll_eq_some hs (Items.plain_append.mp hplain).1
  · rw [Assembly.front, placeAll_append, placeAll_instrs, Option.bind_some] at hu'
    have hup : outcome (LowerAt.upTo p frame k) s = (.ok (), { u with params := ps }) := by
      simp only [LowerAt.upTo, outcome_bind_eq_ok_iff, LowerAt.outcome_located_eq_ok_iff,
        Lower.outcome_check_eq_ok_iff, outcome_modify, Except.bind_eq_ok_iff, Prod.mk.injEq]
      refine ⟨saved, s, ⟨⟨used, hu, hsv⟩, rfl⟩, (), _,
        Lower.outcome_emitChecked_eq_ok_iff.mpr ⟨prolog, hp, rfl⟩, (), _, ⟨trivial, rfl⟩, ?_⟩
      refine (LowerAt.outcome_statements_eq_ok_iff
        (s := { s with stream := s.stream.emitAll prolog, level := 0 }) rfl hs.observer).mpr
        ⟨body.take k, ps, ?_, ?_⟩
      · rw [← hparams] at hps
        exact hps
      · rw [← hlevel]
        exact placeAll_params hu' ps
    rw [offset, hup]
    exact hplaced.size
  · refine absurd ?_ hn
    have hn := hl.nodup
    rw [Items.marks_append, List.map_append] at hn
    exact (List.nodup_append.mp hn).1

end A32Lowering
