import Mathlib
import A32Lowering.Proofs.Layout

/-!
# Resolving placed items

Resolving takes the pending jumps one by one and fills in their displacements. At every moment the
code is that of the items with the displacements of exactly those jumps that were taken, so the
order in which the queue gives them up does not matter.

## Main definitions

* `Items.without` : the displacements of the jumps that do not wait any more.

## Main results

* `Code.word?_ofWords`, `Code.write_ofWords` : one word among others.
* `Items.write_words` : filling in the displacement of one jump.
* `Stream.resolve_eq_ok_iff` : resolving succeeds exactly when every jump has a place to go to that
  is in reach, and then every displacement is filled in.
-/

namespace A32Lowering

namespace Code

theorem word?_append_wordBytes (c : Code) (w : UInt32) (r : List UInt8) :
    (c ++ (wordBytes w ++ r).toArray).word? c.size = some w := by
  simp [word?, wordBytes, wordOfBytes_wordBytes]

theorem write_append_wordBytes (c : Code) (w w' : UInt32) (r : List UInt8) :
    (c ++ (wordBytes w ++ r).toArray).write c.size w' = c ++ (wordBytes w' ++ r).toArray := by
  simp [write, wordBytes, Array.setIfInBounds_append_right]

variable (c : Code) (u v : List UInt32) (w w' : UInt32)

theorem append_ofWords_cons : c ++ ofWords (u ++ w :: v) =
    (c ++ ofWords u) ++ (wordBytes w ++ v.flatMap wordBytes).toArray := by
  simp [ofWords]

theorem word?_ofWords : (c ++ ofWords (u ++ w :: v)).word? (c.size + 4 * u.length) = some w := by
  have hs : (c ++ ofWords u).size = c.size + 4 * u.length := by simp
  rw [append_ofWords_cons, ← hs]
  exact word?_append_wordBytes _ _ _

theorem write_ofWords : (c ++ ofWords (u ++ w :: v)).write (c.size + 4 * u.length) w' =
    c ++ ofWords (u ++ w' :: v) := by
  have hs : (c ++ ofWords u).size = c.size + 4 * u.length := by simp
  rw [append_ofWords_cons, append_ofWords_cons, ← hs]
  exact write_append_wordBytes _ _ _ _

end Code

namespace Items

variable {l : List Item} {pos : Nat}

theorem words_congr {d e : Nat → UInt32 → Option Int}
    (h : ∀ j ∈ jumps pos l, d j.1 j.2 = e j.1 j.2) : words d pos l = words e pos l := by
  refine List.filterMap_congr fun x hx => ?_
  obtain ⟨p, i⟩ := x
  cases i with
  | jump c b => simp only [Item.word?, h (p, b) (mem_jumps.mpr ⟨c, hx⟩)]
  | _ => rfl

/-- The positions of jumps increase. -/
theorem pairwise_jumps (pos : Nat) (l : List Item) :
    (jumps pos l).Pairwise fun a b => a.1 + 4 ≤ b.1 := by
  induction l generalizing pos with
  | nil => exact List.Pairwise.nil
  | cons i l ih =>
    rw [← List.singleton_append, jumps_append, jumps_singleton]
    refine List.pairwise_append.mpr ⟨?_, ih _, ?_⟩
    · cases Item.jump? (pos, i) with
      | none => exact List.Pairwise.nil
      | some j => exact List.pairwise_singleton _ j
    · intro a ha b hb
      obtain ⟨c, hc⟩ := mem_jumps.mp hb
      have hb := (mem_placed hc).2.1
      cases i with
      | jump c' b' =>
        obtain rfl := List.mem_singleton.mp ha
        simpa [Item.width] using hb
      | _ => cases ha

theorem nodup_jumps (pos : Nat) (l : List Item) : ((jumps pos l).map Prod.fst).Nodup := by
  rw [List.Nodup, List.pairwise_map]
  exact (pairwise_jumps pos l).imp fun h => by omega

theorem words_append_cons {d : Nat → UInt32 → Option Int} {a b : List Item} {i : Item}
    {w : UInt32} (h : Item.word? d (pos + width a, i) = some w) : words d pos (a ++ i :: b) =
      words d pos a ++ w :: words d (pos + width a + i.width) b := by
  rw [words_append, ← List.singleton_append, words_append, words_singleton, h]
  simp

/-- The word of an item in the code of all items. -/
theorem word?_words {d : Nat → UInt32 → Option Int} {x : Nat × Item} {w : UInt32} {c : Code}
    (hx : x ∈ placed c.size l) (hw : Item.word? d x = some w) :
    (c ++ Code.ofWords (words d c.size l)).word? x.1 = some w := by
  obtain ⟨a, b, rfl, hp⟩ := exists_split_of_mem_placed hx
  obtain ⟨p, i⟩ := x
  obtain rfl : p = c.size + width a := hp
  rw [words_append_cons hw, ← four_mul_length_words d c.size a]
  exact Code.word?_ofWords _ _ _ _

/-- The word of an item in code that consists of items. -/
theorem word?_ofWords {d : Nat → UInt32 → Option Int} {x : Nat × Item} {w : UInt32}
    (hx : x ∈ placed 0 l) (hw : Item.word? d x = some w) :
    (Code.ofWords (words d 0 l)).word? x.1 = some w := by
  have h := word?_words (c := #[]) hx hw
  rwa [Array.empty_append] at h

/-- Filling in the displacement of one jump. -/
theorem write_words {d e : Nat → UInt32 → Option Int} {p : Nat} {cond : CondCode} {b : UInt32}
    {w : UInt32} {c : Code} (hx : (p, Item.jump cond b) ∈ placed c.size l)
    (hw : Item.word? e (p, .jump cond b) = some w)
    (h : ∀ j ∈ jumps c.size l, j.1 ≠ p → d j.1 j.2 = e j.1 j.2) :
    (c ++ Code.ofWords (words d c.size l)).write p w = c ++ Code.ofWords (words e c.size l) := by
  obtain ⟨l₁, l₂, hl, hp⟩ := exists_split_of_mem_placed hx
  simp only at hl hp
  subst hl hp
  have hd : Item.word? d (c.size + width l₁, .jump cond b) = some _ := rfl
  have h₁ : words d c.size l₁ = words e c.size l₁ := by
    refine words_congr fun j hj => h j ?_ ?_
    · rw [jumps_append]
      exact List.mem_append_left _ hj
    · obtain ⟨k, hk⟩ := mem_jumps.mp hj
      have := (mem_placed hk).2.2
      simp only [Item.width] at this
      omega
  have h₂ : words d (c.size + width l₁ + 4) l₂ = words e (c.size + width l₁ + 4) l₂ := by
    refine words_congr fun j hj => h j ?_ ?_
    · rw [jumps_append, ← List.singleton_append, jumps_append]
      exact List.mem_append_right _ (List.mem_append_right _ hj)
    · obtain ⟨k, hk⟩ := mem_jumps.mp hj
      have := (mem_placed hk).2.1
      omega
  rw [words_append_cons hd, words_append_cons hw]
  simp only [Item.width]
  rw [h₁, h₂, ← four_mul_length_words e c.size l₁]
  exact Code.write_ofWords _ _ _ _ _

/-- The displacements of the jumps that are not among those that wait. -/
def without (waiting : List (Nat × UInt32)) (d : Nat → UInt32 → Option Int) (p : Nat)
    (b : UInt32) : Option Int :=
  if p ∈ waiting.map Prod.fst then none else d p b

theorem without_nil (d : Nat → UInt32 → Option Int) : without [] d = d := rfl

theorem without_eq_of_perm {d : Nat → UInt32 → Option Int} {j : Nat × UInt32}
    {js ks : List (Nat × UInt32)} (h : js.Perm (j :: ks)) {p : Nat} (hp : p ≠ j.1) (b : UInt32) :
    without js d p b = without ks d p b := by
  have : p ∈ js.map Prod.fst ↔ p ∈ ks.map Prod.fst := by
    rw [(h.map _).mem_iff, List.map_cons, List.mem_cons]
    exact or_iff_right hp
  simp only [without, this]

end Items

namespace Stream

variable {s t : Stream} {c : Code} {l : List Item} {label : UInt32 → Label}

/-- The pending branch of a jump. -/
def pendingOf (label : UInt32 → Label) (j : Nat × UInt32) : PendingBranch := ⟨j.1, label j.2⟩

/-- A stream that holds items behind some code, with the displacements of all jumps but those that
wait, and in which the labels of blocks are where the blocks are. -/
structure Holds (s : Stream) (c : Code) (l : List Item) (label : UInt32 → Label)
    (waiting : List (Nat × UInt32)) : Prop where
  code : s.code = c ++ Code.ofWords (Items.words
    (Items.without waiting (Items.displacement? c.size l)) c.size l)
  labels : ∀ b ∈ Items.blocks l, s.label? (label b) = some (Items.target? c.size l b)
  pending : s.pending.items.toList.Perm (waiting.map (pendingOf label))
  nodup : (waiting.map Prod.fst).Nodup
  subset : waiting ⊆ Items.jumps c.size l

/-- Filling in one jump that waits. -/
theorem Holds.resolveBranch {waiting : List (Nat × UInt32)} (h : s.Holds c l label waiting)
    {j : Nat × UInt32} {rest : List (Nat × UInt32)} (hj : waiting.Perm (j :: rest))
    (code : Code) :
    s.resolveBranch (pendingOf label j) = .ok code ↔
      (∃ t, Items.target? c.size l j.2 = some t ∧ Items.InReach (displacement j.1 t)) ∧
      code = c ++ Code.ofWords (Items.words
        (Items.without rest (Items.displacement? c.size l)) c.size l) := by
  have hm : j ∈ Items.jumps c.size l := h.subset (hj.mem_iff.mpr List.mem_cons_self)
  have hr : j.1 ∉ rest.map Prod.fst :=
    (List.nodup_cons.mp (((hj.map _).nodup_iff).mp h.nodup)).1
  have hw : j.1 ∈ waiting.map Prod.fst := (hj.map _).mem_iff.mpr List.mem_cons_self
  obtain ⟨cond, hx⟩ := Items.mem_jumps.mp hm
  rw [Stream.resolveBranch, pendingOf, h.labels j.2 (Items.mem_blocks_of_mem_jumps hm)]
  cases ht : Items.target? c.size l j.2 with
  | none => simp
  | some t =>
    have hword : Item.word? (Items.without waiting (Items.displacement? c.size l))
        (j.1, .jump cond j.2) = some (Instr.branch cond 0).encode := by
      simp [Item.word?, Items.without, hw]
    have hword' : Item.word? (Items.without rest (Items.displacement? c.size l))
        (j.1, .jump cond j.2) =
          some (branchTo (Instr.branch cond 0).encode (displacement j.1 t)) := by
      simp [Item.word?, Items.without, hr, Items.displacement?, ht]
    simp only [h.code, Items.word?_words hx hword]
    split_ifs with hd
    · simp only [false_iff, not_and]
      rintro ⟨t', ht', hreach⟩
      obtain rfl := Option.some.inj ht'
      unfold Items.InReach at hreach
      omega
    · rw [Items.write_words hx hword' fun k hk hne => Items.without_eq_of_perm hj hne k.2]
      have hreach : Items.InReach (displacement j.1 t) := by
        unfold Items.InReach
        omega
      simp [hreach, eq_comm]

theorem Holds.resolveSteps [PendingHeap] {waiting : List (Nat × UInt32)}
    (h : s.Holds c l label waiting) :
    Stream.resolveSteps waiting.length s = (t, .ok ()) ↔
      (∀ j ∈ waiting, ∃ p, Items.target? c.size l j.2 = some p ∧
        Items.InReach (displacement j.1 p)) ∧
      t = { s with
        code := c ++ Code.ofWords (Items.words (Items.displacement? c.size l) c.size l)
        pending := {} } := by
  induction hn : waiting.length generalizing s waiting with
  | zero =>
    obtain rfl := List.eq_nil_of_length_eq_zero hn
    have hp : s.pending = {} := by
      have := h.pending.eq_nil
      cases hq : s.pending
      simp_all
    have hs : s = { s with
        code := c ++ Code.ofWords (Items.words (Items.displacement? c.size l) c.size l)
        pending := {} } := by
      rw [← hp, ← Items.without_nil (Items.displacement? c.size l), ← h.code]
    rw [Stream.resolveSteps, ← hs]
    simp [eq_comm]
  | succ n ih =>
    rw [Stream.resolveSteps]
    have hlen : s.pending.items.toList.length = n + 1 := by
      rw [h.pending.length_eq, List.length_map, hn]
    cases hq : PendingHeap.pop? s.pending with
    | none =>
      rw [PendingHeap.pop?_eq_none_iff.mp hq] at hlen
      simp at hlen
    | some r =>
      obtain ⟨b, queue⟩ := r
      have hperm := (Array.perm_iff_toList_perm.mp (PendingHeap.pop?_perm hq)).symm.trans h.pending
      rw [Array.toList_push] at hperm
      obtain ⟨j, hj, rfl⟩ := List.mem_map.mp
        (hperm.mem_iff.mp (List.mem_append_right _ (List.mem_singleton_self b)))
      obtain ⟨rest, hrest⟩ : ∃ rest, waiting.Perm (j :: rest) := ⟨_, List.perm_cons_erase hj⟩
      have hqueue : queue.items.toList.Perm (rest.map (pendingOf label)) := by
        have := (List.perm_append_singleton (pendingOf label j) _).symm.trans
          (hperm.trans (hrest.map _))
        exact List.perm_cons _ |>.mp this
      have hstep (code : Code) := h.resolveBranch hrest code
      simp only
      cases hb : s.resolveBranch (pendingOf label j) with
      | error e =>
        simp only [Prod.mk.injEq, reduceCtorEq, and_false, false_iff, not_and]
        intro hall
        have := (hstep _).mpr ⟨hall j hj, rfl⟩
        rw [hb] at this
        cases this
      | ok code =>
        obtain ⟨hreach, rfl⟩ := (hstep code).mp hb
        have hlr : rest.length = n := by
          have := hrest.length_eq
          rw [hn, List.length_cons] at this
          omega
        have hnext : Stream.Holds { s with
            code := c ++ Code.ofWords (Items.words
              (Items.without rest (Items.displacement? c.size l)) c.size l)
            pending := queue } c l label rest :=
          ⟨rfl, h.labels, hqueue, (List.nodup_cons.mp (((hrest.map _).nodup_iff).mp h.nodup)).2,
            fun k hk => h.subset (hrest.mem_iff.mpr (List.mem_cons_of_mem _ hk))⟩
        rw [ih hnext hlr]
        have hall : (∀ k ∈ waiting, ∃ p, Items.target? c.size l k.2 = some p ∧
            Items.InReach (displacement k.1 p)) ↔
            ∀ k ∈ rest, ∃ p, Items.target? c.size l k.2 = some p ∧
              Items.InReach (displacement k.1 p) := by
          simp only [hrest.mem_iff, List.mem_cons, forall_eq_or_imp]
          exact and_iff_right hreach
        rw [hall]

/-- Resolving succeeds exactly when every jump has a place to go to that is in reach, and then every
displacement is filled in. -/
theorem resolve_eq_ok_iff [PendingHeap] (label : UInt32 → Label)
    (hc : s.code = c ++ Code.ofWords (Items.words (fun _ _ => none) c.size l))
    (hl : ∀ b ∈ Items.blocks l, s.label? (label b) = some (Items.target? c.size l b))
    (hp : s.pending.items.toList.Perm ((Items.jumps c.size l).map (pendingOf label))) :
    s.resolve = (t, .ok ()) ↔
      (∀ j ∈ Items.jumps c.size l, ∃ p, Items.target? c.size l j.2 = some p ∧
        Items.InReach (displacement j.1 p)) ∧
      t = { s with
        code := c ++ Code.ofWords (Items.words (Items.displacement? c.size l) c.size l)
        pending := {} } := by
  have hw : Items.words (fun _ _ => none) c.size l = Items.words
      (Items.without (Items.jumps c.size l) (Items.displacement? c.size l)) c.size l := by
    refine Items.words_congr fun j hj => ?_
    rw [Items.without, if_pos (List.mem_map_of_mem hj)]
  have h : s.Holds c l label (Items.jumps c.size l) :=
    ⟨by rw [hc, hw], hl, hp, Items.nodup_jumps _ _, List.Subset.refl _⟩
  have hn : s.pending.items.size = (Items.jumps c.size l).length := by
    rw [← Array.length_toList, hp.length_eq, List.length_map]
  rw [resolve, hn]
  exact h.resolveSteps

end Stream

end A32Lowering
