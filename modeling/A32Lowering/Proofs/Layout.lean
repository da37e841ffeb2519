import Mathlib
import A32Lowering.Proofs.Placement

/-!
# The layout of placed items

What a session holds after items were placed in it is a function of the items and of the position
at which they begin: the words of the items with no displacement filled in, their lines, the labels
of their blocks with the positions of the blocks, the pending jumps in some order, and the reports.

## Main definitions

* `Code.ofWords` : the bytes of some words.
* `Placed` : what a session holds after some items, when it has given labels to some blocks.

## Main results

* `Placed.step` : one more item keeps the description.
* `Session.placeAll_eq_some` : items can be placed exactly when no block has two places, and the
  session then is as described.
-/

namespace A32Lowering

/-- The bytes of some words. -/
def Code.ofWords (l : List UInt32) : Code := (l.flatMap wordBytes).toArray

namespace Code

@[simp] theorem ofWords_nil : ofWords [] = #[] := rfl

theorem ofWords_append (l r : List UInt32) : ofWords (l ++ r) = ofWords l ++ ofWords r := by
  simp [ofWords]

theorem append_eq (code : Code) (w : UInt32) : code.append w = code ++ ofWords [w] := by
  simp [append, ofWords]

@[simp] theorem size_ofWords (l : List UInt32) : (ofWords l).size = 4 * l.length := by
  induction l with
  | nil => rfl
  | cons w l ih =>
    rw [← List.singleton_append, ofWords_append, Array.size_append, ih, List.length_append,
      List.length_singleton]
    simp [ofWords, wordBytes, mul_add]

end Code

namespace Stream

variable (s : Stream) (i : Instr)

@[simp] theorem code_emit : (s.emit i).code = s.code.append i.encode := by
  cases i <;> simp only [emit, note, await] <;> split_ifs <;> rfl

@[simp] theorem listing_emit : (s.emit i).listing = s.listing := by
  cases i <;> simp only [emit, note, await] <;> split_ifs <;> rfl

@[simp] theorem labels_emit : (s.emit i).labels = s.labels := by
  cases i <;> simp only [emit, note, await] <;> split_ifs <;> rfl

@[simp] theorem lines_emit :
    (s.emit i).lines = if s.listing then s.lines.push ⟨s.size, i.text⟩ else s.lines := by
  cases i <;> simp only [emit, note, await] <;> split_ifs <;> rfl

theorem pending_emit (h : i.isBranch = false) : (s.emit i).pending = s.pending := by
  cases i with
  | branch => cases h
  | _ => simp only [emit, note]; split_ifs <;> rfl

theorem pending_emit_branch (c : CondCode) (l : Label) :
    (s.emit (.branch c l)).pending = s.pending.push ⟨s.size, l⟩ := by
  simp only [emit, note, await]
  split_ifs <;> rfl

end Stream

/-- What a session `t` holds when items were placed in a session `s` in which a function can begin,
and labels were given to the known blocks in their order. -/
structure Placed (s : Session) (known : List UInt32) (l : List Item) (t : Session) : Prop where
  code : t.stream.code =
    s.stream.code ++ Code.ofWords (Items.words (fun _ _ => none) s.stream.size l)
  listing : t.stream.listing = s.stream.listing
  lines : t.stream.lines = s.stream.lines ++ if s.stream.listing then
    (Items.lines known.idxOf s.stream.size l).toArray else #[]
  nodup : known.Nodup
  subset : Items.blocks l ⊆ known
  blocks : t.blocks = known.mapIdx fun i b => (b, (i : Label))
  labels : t.stream.labels = (known.map (Items.target? s.stream.size l)).toArray
  pending : t.stream.pending.items.toList.Perm
    ((Items.jumps s.stream.size l).map fun j => ⟨j.1, (known.idxOf j.2 : Label)⟩)
  reports : t.reports = s.reports ++ if s.observer = .recording then
    (Items.reports s.stream.size l).toArray else #[]
  params : t.params = s.params
  level : t.level = s.level
  observer : t.observer = s.observer

namespace Placed

variable {s t u : Session} {known : List UInt32} {l : List Item}

theorem size (h : Placed s known l t) : t.stream.size = s.stream.size + Items.width l := by
  rw [Stream.size, h.code, Array.size_append, Code.size_ofWords, Items.four_mul_length_words]
  rfl

/-- A session in which a function can begin holds no items. -/
theorem nil (h : s.Idle) : Placed s [] [] s where
  code := by simp [Items.words, Items.placed]
  listing := rfl
  lines := by simp [Items.lines, Items.placed]
  nodup := List.nodup_nil
  subset := List.Subset.refl _
  blocks := (Session.isClean_iff.mp h.clean).2.1
  labels := h.labels
  pending := by simp [h.pending, Items.jumps, Items.placed]
  reports := by simp [Items.reports, Items.placed]
  params := rfl
  level := rfl
  observer := rfl

/-- The block with a label, found among the blocks in the order of their labels. -/
theorem find?_mapIdx_label (known : List UInt32) (b : UInt32) :
    (known.mapIdx fun i c => (c, (i : Label))).find? (fun c => c.1 = b) =
      if b ∈ known then some (b, (known.idxOf b : Label)) else none := by
  induction known using List.reverseRecOn with
  | nil => rfl
  | append_singleton known c ih =>
    rw [List.mapIdx_concat, List.find?_append, ih]
    by_cases hb : b ∈ known
    · simp [hb, List.idxOf_append_of_mem hb]
    · by_cases hc : c = b
      · simp [hb, hc, List.idxOf_append_of_notMem]
      · simp [hb, hc, Ne.symm hc]

theorem target?_eq_none {pos : Nat} {b : UInt32} (h : b ∉ Items.blocks l) :
    Items.target? pos l b = none := by
  rw [Items.target?, List.lookup_eq_none_iff]
  intro m hm
  simpa using fun hb : b = m.1 => h (hb ▸ Items.mem_blocks_of_mem_marks hm)

/-- A block that is mentioned has a label, the one it had or a new one. -/
theorem labelOf (h : Placed s known l t) (b : UInt32) :
    (t.labelOf b).1 = ((Items.learn known b).idxOf b : Label) ∧
      Placed s (Items.learn known b) l (t.labelOf b).2 := by
  have hf := find?_mapIdx_label known b
  rw [← h.blocks] at hf
  unfold Session.labelOf Items.learn
  by_cases hb : b ∈ known
  · rw [if_pos hb] at hf ⊢
    rw [hf]
    exact ⟨rfl, h⟩
  · rw [if_neg hb] at hf ⊢
    rw [hf]
    have hl : t.stream.labels.size = known.length := by simp [h.labels]
    have hi {c : UInt32} (hc : c ∈ Items.blocks l) : (known ++ [b]).idxOf c = known.idxOf c :=
      List.idxOf_append_of_mem (h.subset hc)
    have hn : Items.target? s.stream.size l b = none :=
      target?_eq_none fun hc => hb (h.subset hc)
    refine ⟨by simp [Stream.createLabel, hl, List.idxOf_append_of_notMem hb], ?_⟩
    exact {
      code := h.code
      listing := h.listing
      lines := h.lines.trans (by rw [Items.lines_congr fun c hc => (hi hc).symm])
      nodup := List.nodup_append.mpr ⟨h.nodup, List.nodup_singleton b, by
        rintro a ha c hc rfl
        exact hb (List.mem_singleton.mp hc ▸ ha)⟩
      subset := fun c hc => List.mem_append_left _ (h.subset hc)
      blocks := by simp [h.blocks, Stream.createLabel, hl, List.mapIdx_concat]
      labels := by simp [h.labels, Stream.createLabel, hn]
      pending := by
        refine h.pending.trans (.of_eq (List.map_congr_left fun j hj => ?_))
        rw [hi (Items.mem_blocks_of_mem_jumps hj)]
      reports := h.reports
      params := h.params
      level := h.level
      observer := h.observer }

theorem target?_append_of_mark?_eq_none {pos : Nat} {i : Item}
    (hi : ∀ p, Item.mark? (p, i) = none) :
    Items.target? pos (l ++ [i]) = Items.target? pos l := by
  funext b
  rw [Items.target?, Items.marks_append, Items.target?]
  simp [hi]

theorem instr (h : Placed s known l t) {i : Instr} (hi : i.isBranch = false) :
    Placed s known (l ++ [.instr i]) { t with stream := t.stream.emit i } where
  code := by
    rw [Stream.code_emit, Code.append_eq, h.code, Items.words_append, Code.ofWords_append,
      Array.append_assoc]
    rfl
  listing := by rw [Stream.listing_emit, h.listing]
  lines := by
    rw [Stream.lines_emit, h.listing, h.lines, h.size, Items.lines_append]
    split_ifs <;> simp [Item.line?]
  nodup := h.nodup
  subset := by
    rw [Items.blocks_append_of_block?_eq_none rfl]
    exact h.subset
  blocks := h.blocks
  labels := by
    rw [Stream.labels_emit, h.labels, target?_append_of_mark?_eq_none fun _ => rfl]
  pending := by
    rw [Stream.pending_emit _ _ hi, Items.jumps_append]
    simpa [Item.jump?] using h.pending
  reports := by
    rw [h.reports, Items.reports_append]
    simp [Item.report?]
  params := h.params
  level := h.level
  observer := h.observer

theorem report (h : Placed s known l t) (v : UInt32) :
    Placed s known (l ++ [.report v]) (if t.observer = .recording then
      { t with reports := t.reports.push ⟨v, t.stream.size⟩ } else t) where
  code := by
    rw [Items.words_append, Code.ofWords_append, ← Array.append_assoc, ← h.code]
    split_ifs <;> simp [Item.word?]
  listing := by split_ifs <;> exact h.listing
  lines := by
    rw [Items.lines_append]
    split_ifs <;> simp_all [h.lines, Item.line?]
  nodup := h.nodup
  subset := by
    rw [Items.blocks_append_of_block?_eq_none rfl]
    exact h.subset
  blocks := by split_ifs <;> exact h.blocks
  labels := by
    rw [target?_append_of_mark?_eq_none fun _ => rfl]
    split_ifs <;> exact h.labels
  pending := by
    rw [Items.jumps_append]
    split_ifs <;> simpa [Item.jump?] using h.pending
  reports := by
    rw [Items.reports_append, h.observer]
    split_ifs with ho
    · simp [h.reports, ho, h.size, Item.report?]
    · simp [h.reports, ho]
  params := by split_ifs <;> exact h.params
  level := by split_ifs <;> exact h.level
  observer := by split_ifs <;> exact h.observer

theorem jump (h : Placed s known l t) {b : UInt32} (hb : b ∈ known) (c : CondCode) :
    Placed s known (l ++ [.jump c b])
      { t with stream := t.stream.emit (.branch c (known.idxOf b : Label)) } where
  code := by
    rw [Stream.code_emit, Code.append_eq, h.code, Items.words_append, Code.ofWords_append,
      Array.append_assoc]
    rfl
  listing := by rw [Stream.listing_emit, h.listing]
  lines := by
    rw [Stream.lines_emit, h.listing, h.lines, h.size, Items.lines_append]
    split_ifs <;> simp [Item.line?]
  nodup := h.nodup
  subset := by
    rw [Items.blocks_append_of_block?_eq_some rfl]
    exact fun d hd => (Items.mem_learn.mp hd).elim (h.subset ·) (· ▸ hb)
  blocks := h.blocks
  labels := by
    rw [Stream.labels_emit, h.labels, target?_append_of_mark?_eq_none fun _ => rfl]
  pending := by
    rw [Stream.pending_emit_branch, h.size, Items.jumps_append]
    simpa [Item.jump?, PendingQueue.push] using h.pending.append_right _
  reports := by
    rw [h.reports, Items.reports_append]
    simp [Item.report?]
  params := h.params
  level := h.level
  observer := h.observer

theorem label? (h : Placed s known l t) {b : UInt32} (hb : b ∈ known) :
    t.stream.label? (known.idxOf b : Label) = some (Items.target? s.stream.size l b) := by
  have hi : known.idxOf b < known.length := List.idxOf_lt_length_of_mem hb
  have hn : ¬ (known.idxOf b : Label) < 0 := Int.not_lt.mpr (Int.natCast_nonneg _)
  rw [Stream.label?, if_neg hn, Int.toNat_natCast, h.labels]
  simp [List.getElem?_eq_getElem hi]

theorem target?_append_mark {pos : Nat} {b : UInt32} (hb : Items.target? pos l b = none) :
    Items.target? pos (l ++ [.mark b]) =
      Function.update (Items.target? pos l) b (some (pos + Items.width l)) := by
  funext c
  rw [Items.target?, Items.marks_append, List.lookup_append, Items.marks_singleton]
  by_cases hc : c = b
  · subst hc
    rw [← Items.target?, hb, Function.update_self]
    simp [Item.mark?]
  · rw [Function.update_of_ne hc]
    simp [Item.mark?, Items.target?, List.lookup_cons, beq_eq_false_iff_ne.mpr hc]

/-- A block can be placed when it has no place. -/
theorem mark (h : Placed s known l t) {b : UInt32} (hb : b ∈ known)
    (hn : Items.target? s.stream.size l b = none) :
    ∃ stream, t.stream.mark (known.idxOf b : Label) = .ok stream ∧
      Placed s known (l ++ [.mark b]) { t with stream } := by
  have hl := h.label? hb
  rw [hn] at hl
  refine ⟨_, by rw [Stream.mark, hl], ?_⟩
  have hi : known.idxOf b < known.length := List.idxOf_lt_length_of_mem hb
  exact {
    code := by
      rw [Items.words_append, Code.ofWords_append, ← Array.append_assoc, ← h.code]
      unfold Stream.note
      split_ifs <;> simp [Item.word?]
    listing := by
      rw [← h.listing]
      unfold Stream.note
      split_ifs <;> rfl
    lines := by
      rw [Items.lines_append, ← h.listing]
      have hlines := h.lines
      rw [← h.listing] at hlines
      unfold Stream.note
      split_ifs with ht
      · simp [hlines, ht, h.size, Item.line?]
      · simp [hlines, ht]
    nodup := h.nodup
    subset := by
      rw [Items.blocks_append_of_block?_eq_some rfl]
      exact fun d hd => (Items.mem_learn.mp hd).elim (h.subset ·) (· ▸ hb)
    blocks := h.blocks
    labels := by
      rw [target?_append_mark hn, List.Nodup.map_update h.nodup, if_pos hb, Stream.size_note,
        h.size]
      simp only [Int.toNat_natCast]
      unfold Stream.note
      split_ifs <;> simp [h.labels]
    pending := by
      rw [Items.jumps_append]
      unfold Stream.note
      split_ifs <;> simpa [Item.jump?] using h.pending
    reports := by
      rw [Items.reports_append, h.reports]
      simp [Item.report?]
    params := h.params
    level := h.level
    observer := h.observer }

theorem target?_eq_none_iff {pos : Nat} {b : UInt32} :
    Items.target? pos l b = none ↔ b ∉ (Items.marks pos l).map Prod.fst := by
  simp only [Items.target?, List.lookup_eq_none_iff, List.mem_map, not_exists, not_and,
    bne_iff_ne]
  exact ⟨fun h m hm he => h m hm he.symm, fun h m hm he => h m hm he.symm⟩

/-- One more item keeps the description. It can be placed unless it is the second place of a
block. -/
theorem step (h : Placed s (Items.blocks l) l t) {i : Item} (hi : Items.Plain [i]) :
    (∃ u, t.place i = some u ∧ Placed s (Items.blocks (l ++ [i])) (l ++ [i]) u ∧
      ∀ b, i = .mark b → b ∉ (Items.marks s.stream.size l).map Prod.fst) ∨
    ∃ b, i = .mark b ∧ b ∈ (Items.marks s.stream.size l).map Prod.fst ∧ t.place i = none := by
  have hmem {b : UInt32} : b ∈ Items.learn (Items.blocks l) b := Items.mem_learn.mpr (.inr rfl)
  cases i with
  | instr i =>
    rw [Items.blocks_append_of_block?_eq_none rfl]
    exact .inl ⟨_, rfl, h.instr (hi i (List.mem_singleton_self _)), fun _ h => by cases h⟩
  | report v =>
    rw [Items.blocks_append_of_block?_eq_none rfl]
    exact .inl ⟨_, rfl, h.report v, fun _ h => by cases h⟩
  | jump c b =>
    obtain ⟨he, hp⟩ := h.labelOf b
    rw [Items.blocks_append_of_block?_eq_some rfl, Session.place, he]
    exact .inl ⟨_, rfl, hp.jump hmem c, fun _ h => by cases h⟩
  | mark b =>
    obtain ⟨he, hp⟩ := h.labelOf b
    rw [Items.blocks_append_of_block?_eq_some rfl, Session.place, he]
    cases ht : Items.target? s.stream.size l b with
    | none =>
      obtain ⟨stream, hm, hq⟩ := hp.mark hmem ht
      rw [hm]
      refine .inl ⟨_, rfl, hq, fun b' h => ?_⟩
      obtain rfl := Item.mark.inj h
      exact target?_eq_none_iff.mp ht
    | some p =>
      have hl := hp.label? hmem
      rw [ht] at hl
      refine .inr ⟨b, rfl, not_not.mp fun hb => ?_, by rw [Stream.mark, hl]⟩
      rw [target?_eq_none_iff.mpr hb] at ht
      cases ht

end Placed

namespace Session

variable {s t : Session} {l : List Item}

theorem nodup_marks_append_singleton {pos : Nat} {i : Item} :
    ((Items.marks pos (l ++ [i])).map Prod.fst).Nodup ↔
      ((Items.marks pos l).map Prod.fst).Nodup ∧
        ∀ b, i = .mark b → b ∉ (Items.marks pos l).map Prod.fst := by
  rw [Items.marks_append, Items.marks_singleton, List.map_append]
  cases i with
  | mark b =>
    simp only [Item.mark?, Option.toList_some, List.map_cons, List.map_nil,
      ← List.concat_eq_append, List.nodup_concat, Item.mark.injEq, forall_eq', and_comm]
  | _ => simp [Item.mark?]

/-- Items without an unresolved branch can be placed exactly when no block has two places, and the
session then is as described. -/
theorem placeAll_eq_some (hs : s.Idle) (hl : Items.Plain l) :
    (∃ t, s.placeAll l = some t ∧ Placed s (Items.blocks l) l t ∧
      ((Items.marks s.stream.size l).map Prod.fst).Nodup) ∨
    s.placeAll l = none ∧ ¬ ((Items.marks s.stream.size l).map Prod.fst).Nodup := by
  induction l using List.reverseRecOn with
  | nil => exact .inl ⟨s, rfl, .nil hs, List.nodup_nil⟩
  | append_singleton l i ih =>
    obtain ⟨hl, hi⟩ := Items.plain_append.mp hl
    rw [placeAll_append, nodup_marks_append_singleton]
    rcases ih hl with ⟨t, ht, hp, hn⟩ | ⟨ht, hn⟩
    · rw [ht, Option.bind_some, placeAll_cons]
      rcases hp.step hi with ⟨u, hu, hq, hb⟩ | ⟨b, rfl, hb, hu⟩
      · exact .inl ⟨u, by rw [hu]; rfl, hq, hn, hb⟩
      · exact .inr ⟨by rw [hu]; rfl, fun h => h.2 b rfl hb⟩
    · exact .inr ⟨by rw [ht]; rfl, fun h => hn h.1⟩

end Session

end A32Lowering
