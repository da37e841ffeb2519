import Mathlib
import A32Lowering.Proofs.PatchSites

/-!
# The history of an object file

Symbols are registered again with new addresses, references are recorded and forgotten, in any
order. What a file holds is told here from the history alone, without its tables: the names and
their latest addresses, the references that nothing has forgotten since, and the name that each of
them got when it was recorded.

## Main definitions

* `ObjectFile.Event`, `ObjectFile.after` : what happens to a file, and a new file after a history.
* `ObjectFile.names`, `ObjectFile.latest` : the names and addresses of a history.
* `ObjectFile.recordedAt`, `ObjectFile.survivorAt` : the reference at a place of a history, and
  whether it is still there in the end.
* `ObjectFile.Consistent` : a file that is as its history says.

## Main results

* `ObjectFile.linkAll_of_pairAt` : linking load pairs that do not overlap, in any order.
* `ObjectFile.consistent_after` : every file is as its history says.
-/

namespace A32Lowering

/-- Offsets whose windows of eight bytes do not overlap. -/
def Relocation.Apart (a b : Int) : Prop := a + 8 ≤ b ∨ b + 8 ≤ a

theorem Relocation.Apart.symm {a b : Int} (h : Apart a b) : Apart b a := Or.symm h

namespace ObjectFile

/-! ### Histories -/

/-- What can happen to an object file. -/
inductive Event where
  /-- A symbol is registered. -/
  | symbol (name : String) (addr : UInt64)
  /-- A reference to a value is recorded. -/
  | reference (value : UInt32) (offset : Int)
  /-- The references at or behind an offset are forgotten. -/
  | truncate (n : Int)
  /-- All references are forgotten. -/
  | reset
  deriving DecidableEq, Repr

/-- The file after an event. -/
def apply (f : ObjectFile) : Event → ObjectFile
  | .symbol name addr => f.addSymbol name addr
  | .reference value offset => f.record value offset
  | .truncate n => f.truncate n
  | .reset => f.reset

/-- A new file after a history. -/
def after (h : List Event) : ObjectFile := h.foldl apply {}

theorem after_concat (h : List Event) (e : Event) : after (h ++ [e]) = (after h).apply e :=
  List.foldl_concat ..

/-! ### What a history says -/

/-- The symbol that an event registers. -/
def Event.symbol? : Event → Option Symbol
  | .symbol name addr => some ⟨name, addr⟩
  | _ => none

/-- The symbols that were registered, in order and with repetitions. -/
def registered (h : List Event) : List Symbol := h.filterMap Event.symbol?

/-- The names that were registered, in the order of their first registration. -/
def names (h : List Event) : List String := ((registered h).map Symbol.name).eraseDups

/-- The address that a name was registered with last. -/
def latest (h : List Event) (name : String) : Option UInt64 :=
  (((registered h).filter fun s => s.name = name).map Symbol.addr).getLast?

/-- The name that was registered first, of those whose latest address has some low 32 bits. -/
def nameAt (h : List Event) (value : UInt32) : String :=
  ((names h).find? fun name => (latest h name).map UInt64.toUInt32 = some value).getD ""

/-- The reference at a place of a history, as it is recorded. -/
def recordedAt (h : List Event) (i : Nat) : Option Relocation :=
  match h[i]? with
  | some (.reference value offset) => some ⟨offset, value, nameAt (h.take i) value⟩
  | _ => none

/-- Whether an event makes a file forget the references at an offset. -/
def Event.forgets (offset : Int) : Event → Bool
  | .truncate n => n ≤ offset
  | .reset => true
  | _ => false

/-- The reference at a place of a history, if nothing behind that place has forgotten it. -/
def survivorAt (h : List Event) (i : Nat) : Option Relocation :=
  (recordedAt h i).filter fun r => (h.drop (i + 1)).all fun e => !e.forgets r.offset

section History

variable {h : List Event} {e : Event}

theorem registered_concat : registered (h ++ [e]) = registered h ++ e.symbol?.toList := by
  rw [registered, List.filterMap_append, registered]
  cases e <;> rfl

theorem Event.eq_symbol {s : Symbol} (he : e.symbol? = some s) : e = .symbol s.name s.addr := by
  cases e <;> cases he
  rfl

/-- Events other than registrations leave the names and addresses. -/
theorem registered_concat_of_none (he : e.symbol? = none) :
    registered (h ++ [e]) = registered h := by
  rw [registered_concat, he, Option.toList_none, List.append_nil]

theorem names_concat_of_none (he : e.symbol? = none) : names (h ++ [e]) = names h := by
  rw [names, registered_concat_of_none he, names]

theorem latest_concat_of_none (he : e.symbol? = none) : latest (h ++ [e]) = latest h := by
  funext name
  rw [latest, registered_concat_of_none he, latest]

theorem symbols_apply_of_none (f : ObjectFile) (he : e.symbol? = none) :
    (f.apply e).symbols = f.symbols := by
  cases e <;> first | rfl | cases he

theorem mem_names {name : String} : name ∈ names h ↔ name ∈ (registered h).map Symbol.name := by
  rw [names, List.mem_eraseDups]

theorem mem_names_iff {name : String} : name ∈ names h ↔ ∃ addr, .symbol name addr ∈ h := by
  rw [mem_names, List.mem_map]
  constructor
  · rintro ⟨s, hs, rfl⟩
    obtain ⟨e, he, hes⟩ := List.mem_filterMap.1 hs
    exact ⟨s.addr, Event.eq_symbol hes ▸ he⟩
  · rintro ⟨addr, he⟩
    exact ⟨⟨name, addr⟩, List.mem_filterMap.2 ⟨_, he, rfl⟩, rfl⟩

theorem names_concat_symbol (name : String) (addr : UInt64) :
    names (h ++ [.symbol name addr]) =
      if name ∈ names h then names h else names h ++ [name] := by
  have hsplit : names (h ++ [.symbol name addr]) =
      names h ++ ([name].removeAll ((registered h).map Symbol.name)).eraseDups := by
    rw [names, registered_concat, List.map_append, List.eraseDups_append]
    rfl
  have hmem : ((registered h).map Symbol.name).elem name = decide (name ∈ names h) := by
    simp only [List.elem_eq_mem, mem_names]
  rw [hsplit, List.removeAll, List.filter_singleton, hmem]
  by_cases hn : name ∈ names h <;> simp [hn, List.eraseDups_cons]

theorem nodup_names (h : List Event) : (names h).Nodup := by
  induction h using List.reverseRecOn with
  | nil => exact List.nodup_nil
  | append_singleton h e ih =>
    cases he : e.symbol? with
    | none => rwa [names_concat_of_none he]
    | some s =>
      rw [Event.eq_symbol he, names_concat_symbol]
      split
      · exact ih
      next hn => exact List.nodup_append'.2 ⟨ih, List.nodup_singleton _, by simpa using hn⟩

theorem latest_concat_symbol (name : String) (addr : UInt64) (other : String) :
    latest (h ++ [.symbol name addr]) other =
      if other = name then some addr else latest h other := by
  rw [latest, registered_concat, Event.symbol?, Option.toList_some, List.filter_append,
    List.map_append]
  by_cases ho : other = name
  · simp [ho]
  · simp [ho, Ne.symm ho, latest]

/-- The names that were registered are those that have an address. -/
theorem isSome_latest_iff {name : String} : (latest h name).isSome ↔ name ∈ names h := by
  rw [latest, List.getLast?_isSome, mem_names]
  simp

end History

/-! ### Symbols -/

/-- Registering changes the address of a name that is there, or adds the name behind the others. -/
theorem setSymbol_map {l : List String} (hl : l.Nodup) (f : String → UInt64) (name : String)
    (addr : UInt64) : setSymbol ⟨name, addr⟩ (l.map fun m => ⟨m, f m⟩) =
      (if name ∈ l then l else l ++ [name]).map fun m => ⟨m, if m = name then addr else f m⟩ := by
  induction l with
  | nil => simp [setSymbol]
  | cons m l ih =>
    rw [List.nodup_cons] at hl
    rw [List.map_cons, setSymbol]
    by_cases hm : m = name
    · subst hm
      have hrest : ∀ n ∈ l, (⟨n, f n⟩ : Symbol) = ⟨n, if n = m then addr else f n⟩ := by
        intro n hn
        rw [if_neg (by rintro rfl; exact hl.1 hn)]
      simpa using List.map_congr_left hrest
    · rw [if_neg hm, ih hl.2]
      have hmem : name ∈ m :: l ↔ name ∈ l := by simp [Ne.symm hm]
      by_cases hn : name ∈ l <;> simp [hn, hm, hmem]

/-- The table of symbols has each name once, in the order of first registration, with its latest
address. -/
theorem symbols_after (h : List Event) :
    (after h).symbols = (names h).map fun name => ⟨name, (latest h name).getD 0⟩ := by
  induction h using List.reverseRecOn with
  | nil => rfl
  | append_singleton h e ih =>
    rw [after_concat]
    cases he : e.symbol? with
    | none => rw [symbols_apply_of_none _ he, names_concat_of_none he, latest_concat_of_none he, ih]
    | some s =>
      rw [Event.eq_symbol he, apply, addSymbol, ih, setSymbol_map (nodup_names h),
        names_concat_symbol]
      refine List.map_congr_left fun m _ => ?_
      rw [latest_concat_symbol]
      split <;> rfl

theorem lookup_after (h : List Event) (name : String) :
    (after h).lookup name = (latest h name).map (Symbol.mk name) := by
  induction h using List.reverseRecOn with
  | nil => rfl
  | append_singleton h e ih =>
    rw [after_concat]
    cases he : e.symbol? with
    | none => rw [lookup, symbols_apply_of_none _ he, latest_concat_of_none he, ← ih, lookup]
    | some s =>
      rw [Event.eq_symbol he, apply, lookup_addSymbol, latest_concat_symbol]
      split
      next hn => rw [hn, Option.map_some]
      · exact ih

/-- The name that a reference to a value gets. -/
theorem symbolAt_after (h : List Event) (value : UInt32) :
    (((after h).symbolAt value).map Symbol.name).getD "" = nameAt h value := by
  have hfind : ∀ name ∈ names h,
      decide (((latest h name).getD 0).toUInt32 = value) =
        decide ((latest h name).map UInt64.toUInt32 = some value) := by
    intro name hn
    obtain ⟨addr, ha⟩ := Option.isSome_iff_exists.1 (isSome_latest_iff.2 hn)
    simp [ha]
  rw [symbolAt, symbols_after, List.find?_map, Option.map_map, nameAt, ← List.find?_congr hfind]
  simp [Function.comp_def]

/-! ### References -/

section References

variable {h : List Event} {e : Event} {i : Nat}

theorem recordedAt_concat_of_lt (hi : i < h.length) :
    recordedAt (h ++ [e]) i = recordedAt h i := by
  rw [recordedAt, List.getElem?_append_left hi, List.take_append_of_le_length hi.le, recordedAt]

/-- What a later event leaves of a reference. -/
theorem survivorAt_concat_of_lt (hi : i < h.length) :
    survivorAt (h ++ [e]) i = (survivorAt h i).filter fun r => !e.forgets r.offset := by
  rw [survivorAt, recordedAt_concat_of_lt hi, List.drop_append_of_le_length (by omega), survivorAt]
  cases recordedAt h i with
  | none => rfl
  | some r =>
    cases hall : (h.drop (i + 1)).all fun e => !e.forgets r.offset <;>
      simp [-List.all_eq_true, List.all_append, hall, Option.filter_some]

/-- A reference is there when it has just been recorded. -/
theorem survivorAt_concat_length :
    survivorAt (h ++ [e]) h.length = recordedAt (h ++ [e]) h.length := by
  rw [survivorAt, List.drop_eq_nil_of_le (by simp)]
  cases recordedAt (h ++ [e]) h.length <;> rfl

/-- An event forgets some relocations, and adds the reference that it is. -/
theorem relocs_apply (h : List Event) (e : Event) :
    ((after h).apply e).relocs = ((after h).relocs.filter fun r => !e.forgets r.offset) ++
      (recordedAt (h ++ [e]) h.length).toList := by
  have hat : (h ++ [e])[h.length]? = some e := by simp
  rw [recordedAt, hat, List.take_append_of_le_length le_rfl, List.take_length]
  cases e with
  | symbol name addr => simp [apply, addSymbol, Event.forgets]
  | reference value offset => simp [apply, record, Event.forgets, symbolAt_after]
  | truncate n => simp [apply, truncate, Event.forgets, ← decide_not]
  | reset => simp [apply, reset, Event.forgets]

/-- The relocations are the references that nothing has forgotten, in the order of recording. -/
theorem relocs_after (h : List Event) :
    (after h).relocs = (List.range h.length).filterMap (survivorAt h) := by
  induction h using List.reverseRecOn with
  | nil => rfl
  | append_singleton h e ih =>
    have hold : (List.range h.length).filterMap (survivorAt (h ++ [e])) =
        ((List.range h.length).filterMap (survivorAt h)).filter fun r => !e.forgets r.offset := by
      rw [List.filter_filterMap]
      exact List.filterMap_congr fun i hi => survivorAt_concat_of_lt (List.mem_range.1 hi)
    rw [after_concat, relocs_apply, ih, ← hold, List.length_append, List.length_singleton,
      List.range_succ, List.filterMap_append, ← survivorAt_concat_length]
    cases hs : survivorAt (h ++ [e]) h.length <;> simp [hs]

/-- A name stays registered. -/
theorem names_take_subset (h : List Event) (i : Nat) : names (h.take i) ⊆ names h := by
  intro name hn
  rw [mem_names] at hn ⊢
  exact List.map_subset _ ((List.take_sublist i h).filterMap _).subset hn

theorem nameAt_mem_names {value : UInt32} (hn : nameAt h value ≠ "") :
    nameAt h value ∈ names h := by
  rw [nameAt] at hn ⊢
  cases hf : (names h).find? fun name => (latest h name).map UInt64.toUInt32 = some value with
  | none => exact absurd (by rw [hf]; rfl) hn
  | some name => exact List.mem_of_find?_eq_some hf

/-- A reference that was given a name finds the latest address of the name. -/
theorem resolve_recordedAt {r : Relocation} (hr : recordedAt h i = some r) (hn : r.symbol ≠ "") :
    ∃ addr, latest h r.symbol = some addr ∧ (after h).resolve r = .ok addr.toUInt32 := by
  have hmem : r.symbol ∈ names h := by
    rw [recordedAt] at hr
    split at hr
    · cases hr
      exact names_take_subset h i (nameAt_mem_names hn)
    · cases hr
  obtain ⟨addr, ha⟩ := Option.isSome_iff_exists.1 (isSome_latest_iff.2 hmem)
  refine ⟨addr, ha, ?_⟩
  rw [resolve, if_neg (by simpa using hn), lookup_after, ha]
  rfl

end References

/-! ### Linking twice -/

section Linking

variable {resolver : Resolver} {rs : List Relocation} {code linked : Code}

/-- Linking leaves a value that is in place where no relocation overlaps it. -/
theorem linkAll_keeps {offset : Int} {v : UInt32} (h : LoadPair.patch code offset v = .ok code)
    (ha : ∀ r ∈ rs, Relocation.Apart r.offset offset)
    (hl : linkAll resolver rs code = (linked, .ok ())) :
    LoadPair.patch linked offset v = .ok linked := by
  induction rs generalizing code with
  | nil =>
    cases hl
    exact h
  | cons r rs ih =>
    rw [List.forall_mem_cons] at ha
    rw [linkAll] at hl
    split at hl
    · cases hl
    next w hw =>
    split at hl
    · cases hl
    next patched hp => exact ih (LoadPair.patch_of_apart h hp ha.1) ha.2 hl

/-- Linking load pairs that do not overlap succeeds, and then every value is in place. -/
theorem linkAll_of_pairAt (hv : ∀ r ∈ rs, ∃ v, resolver r = .ok v)
    (hs : rs.Pairwise fun a b => Relocation.Apart b.offset a.offset)
    (hp : ∀ r ∈ rs, ∃ lo hi, code.PairAt r.offset lo hi) :
    ∃ linked, linkAll resolver rs code = (linked, .ok ()) ∧
      ∀ r ∈ rs, ∀ v, resolver r = .ok v → LoadPair.patch linked r.offset v = .ok linked := by
  induction rs generalizing code with
  | nil => exact ⟨code, rfl, by simp⟩
  | cons r rs ih =>
    rw [List.forall_mem_cons] at hv hp
    obtain ⟨⟨v, hr⟩, hv⟩ := hv
    obtain ⟨⟨lo, hi, hpair⟩, hp⟩ := hp
    obtain ⟨hfirst, hs⟩ := List.pairwise_cons.1 hs
    have hpatch := LoadPair.patch_of_pairAt hpair v
    have hrest : ∀ q ∈ rs, ∃ lo' hi',
        (LoadPair.rewrite code r.offset lo hi v).PairAt q.offset lo' hi' := by
      intro q hq
      obtain ⟨lo', hi', hq'⟩ := hp q hq
      exact ⟨lo', hi', LoadPair.pairAt_of_apart hq' hpair.nonneg (hfirst q hq).symm⟩
    obtain ⟨linked, hl, hin⟩ := ih hv hs hrest
    refine ⟨linked, ?_, List.forall_mem_cons.2 ⟨fun w hw => ?_, hin⟩⟩
    · rw [linkAll, hr]
      dsimp only
      rw [hpatch]
      exact hl
    · obtain rfl : v = w := Except.ok.inj (hr.symm.trans hw)
      exact linkAll_keeps (LoadPair.patch_self hpatch) hfirst hl

/-- Linking changes nothing where every value is in place. -/
theorem linkAll_of_patch_self (hv : ∀ r ∈ rs, ∃ v, resolver r = .ok v)
    (h : ∀ r ∈ rs, ∀ v, resolver r = .ok v → LoadPair.patch code r.offset v = .ok code) :
    linkAll resolver rs code = (code, .ok ()) := by
  induction rs with
  | nil => rfl
  | cons r rs ih =>
    rw [List.forall_mem_cons] at hv h
    obtain ⟨v, hr⟩ := hv.1
    rw [linkAll, hr]
    dsimp only
    rw [h.1 v hr]
    exact ih hv.2 h.2

end Linking

/-! ### Consistency -/

/-- A file whose tables are as a history says. -/
structure Consistent (h : List Event) (f : ObjectFile) : Prop where
  /-- The names are pairwise different and in the order of their first registration. -/
  nodup : (f.symbols.map Symbol.name).Nodup
  names_eq : f.symbols.map Symbol.name = names h
  /-- A name is found if it was ever registered, with its latest address. -/
  found : ∀ name, (f.lookup name).isSome ↔ ∃ addr, .symbol name addr ∈ h
  lookup_eq : ∀ name, f.lookup name = (latest h name).map (Symbol.mk name)
  /-- The relocations are the references that nothing has forgotten, in the order of recording. -/
  relocs_eq : f.relocs = (List.range h.length).filterMap (survivorAt h)
  /-- A reference without a name has the value that was recorded. -/
  unnamed : ∀ i r, recordedAt h i = some r → r.symbol = "" → f.resolve r = .ok r.value
  /-- A reference with a name has the latest address of the name. -/
  named : ∀ i r, recordedAt h i = some r → r.symbol ≠ "" →
    ∃ addr, latest h r.symbol = some addr ∧ f.resolve r = .ok addr.toUInt32
  /-- Linking load pairs that do not overlap succeeds, and linking again changes nothing. -/
  link_twice : ∀ code resolver, (∀ r ∈ f.relocs, ∃ v, resolver.getD f.resolve r = .ok v) →
    (f.relocs.Pairwise fun a b => Relocation.Apart b.offset a.offset) →
    (∀ r ∈ f.relocs, ∃ lo hi, code.PairAt r.offset lo hi) →
    ∃ linked, f.link code resolver = (linked, .ok ()) ∧ f.link linked resolver = (linked, .ok ())

/-- Every file is as its history says. -/
theorem consistent_after (h : List Event) : Consistent h (after h) where
  nodup := by
    rw [symbols_after, List.map_map]
    simpa [Function.comp_def] using nodup_names h
  names_eq := by
    rw [symbols_after, List.map_map]
    simp [Function.comp_def]
  found name := by
    rw [lookup_after, Option.isSome_map, isSome_latest_iff, mem_names_iff]
  lookup_eq := lookup_after h
  relocs_eq := relocs_after h
  unnamed i r _ hn := by simp [resolve, hn]
  named i r hr hn := resolve_recordedAt hr hn
  link_twice code resolver hv hs hp := by
    obtain ⟨linked, hl, hin⟩ := linkAll_of_pairAt hv hs hp
    exact ⟨linked, hl, linkAll_of_patch_self hv hin⟩

/-- A routine is called, its code moves, and what lies behind the call is cut off. -/
def movedRoutine : List Event :=
  [.symbol "sum" 0x100001234, .reference 0x1234 0, .reference 7 8, .truncate 8,
    .symbol "sum" 0x5678]

theorem consistent_after_movedRoutine :
    (after movedRoutine).relocs = [⟨0, 0x1234, "sum"⟩] ∧
    ∃ linked, (after movedRoutine).link LoadPair.zeroPair none = (linked, .ok ()) ∧
      (after movedRoutine).link linked none = (linked, .ok ()) := by
  have hr : (after movedRoutine).relocs = [⟨0, 0x1234, "sum"⟩] := by decide
  have hv : (after movedRoutine).resolve ⟨0, 0x1234, "sum"⟩ = .ok 0x5678 := by rfl
  have hp : LoadPair.zeroPair.PairAt 0 0xe3004000 0xe3404000 :=
    ⟨by decide, by decide, by decide, by decide, by decide, by decide⟩
  refine ⟨hr, (consistent_after movedRoutine).link_twice LoadPair.zeroPair none ?_ ?_ ?_⟩
  · rw [hr]
    exact List.forall_mem_singleton.2 ⟨_, hv⟩
  · rw [hr]
    exact List.pairwise_singleton ..
  · rw [hr]
    exact List.forall_mem_singleton.2 ⟨_, _, hp⟩

end ObjectFile

end A32Lowering
