import Mathlib
import A32Lowering.Object.Compile
import A32Lowering.Proofs.Composition
import A32Lowering.Proofs.Patching

/-!
# Relocations of a compiled function

Every call is a load pair for the address of the routine, and a division makes two calls. The
positions of these pairs are reported while a function is lowered, and compiling keeps a relocation
for each of them, with the name of the helper at the address if there is one. Linking then changes
the values of these pairs and no other byte.

## Main definitions

* `Program.callees` : the addresses that a program calls.
* `Items.Calls` : items whose reports are those of their calls.
* `CodeObject.Relocatable` : a compiled function with the relocations of its program.

## Main results

* `Program.calls_of_assemble` : the items of a function call what its statements call.
* `compile_relocatable` : every compiled function has the relocations of its program.
-/

namespace A32Lowering

/-- The addresses that a statement calls, in order: the routine of a call, and the two helpers of a
division. -/
def Statement.callees [Helper.Entries] (x : Statement) : List UInt32 :=
  match x.op with
  | .call => (x.src1.map Operand.low).toList
  | .div => [(Helper.quotient false).address, (Helper.remainder false).address]
  | .divs => [(Helper.quotient true).address, (Helper.remainder true).address]
  | _ => []

/-- The addresses that a program calls, in order. -/
def Program.callees [Helper.Entries] (p : Program) : List UInt32 := p.flatMap Statement.callees

namespace Items

theorem le_offset_of_mem_reports {pos : Nat} {l : List Item} {r : Report} (h : r ∈ reports pos l) :
    pos ≤ r.offset := by
  obtain ⟨⟨q, i⟩, hx, he⟩ := List.mem_filterMap.mp h
  cases i <;> cases he
  exact (mem_placed hx).2.1

/-- Items whose reports are exactly those of the calls to some addresses, in order. -/
inductive Calls : List Item → List UInt32 → Prop
  | nil : Calls [] []
  | other {i : Item} {l : List Item} {vs : List UInt32} (hi : ∀ v, i ≠ .report v) (h : Calls l vs) :
    Calls (i :: l) vs
  | call {l : List Item} {vs : List UInt32} (addr : UInt32) (h : Calls l vs) :
    Calls (Item.call addr ++ l) (addr :: vs)

namespace Calls

variable {l m : List Item} {vs ws : List UInt32}

theorem append (hl : Calls l vs) (hm : Calls m ws) : Calls (l ++ m) (vs ++ ws) := by
  induction hl with
  | nil => exact hm
  | other hi _ ih => exact .other hi ih
  | call addr _ ih =>
    rw [List.append_assoc]
    exact .call addr ih

theorem instrs (l : List Instr) : Calls (l.map .instr) [] := by
  induction l with
  | nil => exact .nil
  | cons i l ih => exact .other (by simp) ih

theorem single (addr : UInt32) : Calls (Item.call addr) [addr] := by
  simpa using Calls.call addr .nil

theorem reports_call (pos : Nat) (addr : UInt32) :
    reports pos (Item.call addr) = [⟨addr, pos⟩] := rfl

theorem width_call (addr : UInt32) : width (Item.call addr) = 16 := rfl

/-- The reports have the addresses of the calls. -/
theorem map_value_reports (h : Calls l vs) (pos : Nat) :
    (reports pos l).map Report.value = vs := by
  induction h generalizing pos with
  | nil => rfl
  | @other i l vs hi _ ih =>
    rw [← List.singleton_append, reports_append, reports_singleton, List.map_append, ih]
    cases i with
    | report v => exact (hi v rfl).elim
    | _ => rfl
  | call addr _ ih => rw [reports_append, reports_call, List.map_append, ih]; rfl

/-- The load pairs of the calls do not overlap. -/
theorem pairwise_reports (h : Calls l vs) (pos : Nat) :
    (reports pos l).Pairwise fun a b => a.offset + 8 ≤ b.offset := by
  induction h generalizing pos with
  | nil => exact .nil
  | @other i l vs hi _ ih =>
    rw [← List.singleton_append, reports_append, reports_singleton]
    cases i with
    | report v => exact (hi v rfl).elim
    | _ => exact ih _
  | call addr _ ih =>
    rw [reports_append, reports_call, List.singleton_append, List.pairwise_cons]
    refine ⟨fun r hr => ?_, ih _⟩
    have := le_offset_of_mem_reports hr
    rw [width_call] at this
    simp only
    omega

/-- At every report there is a load pair. -/
theorem placed_pair (h : Calls l vs) {pos : Nat} {r : Report} (hr : r ∈ reports pos l) :
    (r.offset, .instr (.movw Abi.callAddress (Constant.lowHalf r.value))) ∈ placed pos l ∧
      (r.offset + 4, .instr (.movt Abi.callAddress (Constant.highHalf r.value))) ∈
        placed pos l := by
  induction h generalizing pos with
  | nil => cases hr
  | @other i l vs hi _ ih =>
    rw [← List.singleton_append, reports_append, reports_singleton] at hr
    have hr : r ∈ reports (pos + width [i]) l := by
      cases i with
      | report v => exact (hi v rfl).elim
      | _ => exact hr
    rw [← List.singleton_append, placed_append]
    exact (ih hr).imp (List.mem_append_right _) (List.mem_append_right _)
  | call addr _ ih =>
    rw [reports_append, reports_call, List.singleton_append] at hr
    rw [placed_append]
    rcases List.mem_cons.mp hr with rfl | hr
    · exact ⟨List.mem_append_left _ (.tail _ (.head _)),
        List.mem_append_left _ (.tail _ (.tail _ (.head _)))⟩
    · exact (ih hr).imp (List.mem_append_right _) (List.mem_append_right _)

end Calls

end Items

/-- The rules that call are those of the operations that do. -/
theorem Rules.op_of_calls {r : Rule Action} (h : r ∈ general ++ wide) :
    (r.action = .call ↔ r.shape.op = .call) ∧
      (r.action = .divide false ↔ r.shape.op = .div) ∧
      (r.action = .divide true ↔ r.shape.op = .divs) := by
  have hall : ∀ r ∈ general ++ wide, (r.action = .call ↔ r.shape.op = .call) ∧
      (r.action = .divide false ↔ r.shape.op = .div) ∧
      (r.action = .divide true ↔ r.shape.op = .divs) := by decide
  exact hall r h

theorem Items.calls_jumpItems {x : Statement} {c : Except Fault (List Instr)} {l : List Item}
    (h : Action.jumpItems x c = .ok l) : Calls l [] := by
  obtain ⟨m, cc, -, -, rfl⟩ := Action.jumpItems_eq_ok h
  exact (Calls.instrs m).append (.other (by simp) .nil)

theorem Items.calls_divideItems [Helper.Entries] {signed : Bool} {d s1 s2 : Operand}
    {l : List Item} (h : Action.divideItems signed d s1 s2 = .ok l) :
    Calls l [(Helper.quotient signed).address, (Helper.remainder signed).address] := by
  obtain ⟨-, a, b, q, r, -, -, -, -, rfl⟩ := Action.divideItems_eq_ok h
  exact (Calls.instrs _).append <| (Calls.single _).append <| (Calls.instrs q).append <|
    (Calls.instrs _).append <| (Calls.single _).append <| (Calls.instrs r).append .nil

/-- The items of a statement call what the statement calls. -/
theorem Statement.calls_of_items [Helper.Entries] {x : Statement} {params rest : List Parameter}
    {l : List Item} (h : x.items params = .ok (l, rest)) : Items.Calls l x.callees := by
  obtain ⟨r, a, hr, ha, h⟩ := items_eq_ok h
  have hall := Rules.op_of_calls (Rules.select_eq_ok hr).1
  rw [← Rules.op_of_select hr] at hall
  obtain ⟨hcall, hdiv, hdivs⟩ := hall
  have hquiet (h1 : r.action ≠ .call) (h2 : ∀ b, r.action ≠ .divide b) : x.callees = [] := by
    have hc := mt hcall.mpr h1
    have hd := mt hdiv.mpr (h2 false)
    have hs := mt hdivs.mpr (h2 true)
    unfold callees
    cases hx : x.op <;> first | rfl | contradiction
  cases h with
  | straight =>
    rw [hquiet (by simp [ha]) (by simp [ha])]
    exact .instrs _
  | mark | jump =>
    rw [hquiet (by simp [ha]) (by simp [ha])]
    exact .other (by simp) .nil
  | jumpIf _ _ _ hl | jumpIfCst _ _ _ hl =>
    rw [hquiet (by simp [ha]) (by simp [ha])]
    exact Items.calls_jumpItems hl
  | param =>
    rw [hquiet (by simp [ha]) (by simp [ha])]
    exact .nil
  | @call target count l rest ht _ hl =>
    obtain ⟨-, -, m, -, rfl⟩ := Action.callItems_eq_ok hl
    have hc : x.callees = [target.low] := by simp [callees, hcall.mp ha, ht]
    rw [hc]
    exact (Items.Calls.instrs m).append (.single _)
  | @divide signed _ _ _ _ _ _ _ hl =>
    have hc : x.callees =
        [(Helper.quotient signed).address, (Helper.remainder signed).address] := by
      cases signed
      · simp [callees, hdiv.mp ha]
      · simp [callees, hdivs.mp ha]
    rw [hc]
    exact Items.calls_divideItems hl

theorem Program.calls_of_bodies [Helper.Entries] {params rest : List Parameter} {p : Program}
    {ls : List (List Item)} (h : Program.bodies params p = .ok (ls, rest)) :
    Items.Calls ls.flatten p.callees := by
  induction p generalizing params ls with
  | nil =>
    obtain ⟨rfl, -⟩ := Prod.mk.inj (Except.pure_eq_ok_iff.mp h)
    exact .nil
  | cons x p ih =>
    simp only [bodies, Except.bind_eq_ok_iff, Except.pure_eq_ok_iff] at h
    obtain ⟨⟨l, ps⟩, hl, ⟨ls', ps'⟩, hr, h⟩ := h
    obtain ⟨rfl, rfl⟩ := Prod.mk.inj h
    exact (Statement.calls_of_items hl).append (ih hr)

/-- The items of a function call what its statements call. -/
theorem Program.calls_of_assemble [Helper.Entries] {p : Program} {frame : UInt32} {a : Assembly}
    (h : p.assemble frame = .ok a) : Items.Calls a.items p.callees := by
  obtain ⟨used, saved, prolog, body, -, -, -, hb, rfl⟩ := Program.assemble_eq_ok_iff.mp h
  have hbody := (Items.Calls.instrs prolog).append (Program.calls_of_bodies hb)
  simpa [Assembly.items] using hbody.append (.instrs (Frame.epilog frame saved))

/-- A function has at least the code that returns from it. -/
theorem Program.width_pos_of_assemble [Helper.Entries] {p : Program} {frame : UInt32}
    {a : Assembly} (h : p.assemble frame = .ok a) : 0 < Items.width a.items := by
  obtain ⟨used, saved, prolog, body, -, -, -, -, rfl⟩ := Program.assemble_eq_ok_iff.mp h
  simp [Assembly.items, Frame.epilog, Item.width]

/-- At every report the code loads the address of the call. -/
theorem Items.Calls.loadsAt {l : List Item} {vs : List UInt32} (h : Calls l vs)
    (d : Nat → UInt32 → Option Int) {r : Report} (hr : r ∈ reports 0 l) :
    (Code.ofWords (words d 0 l)).LoadsAt r.offset r.value := by
  obtain ⟨hw, ht⟩ := h.placed_pair hr
  exact ⟨word?_ofWords hw rfl, word?_ofWords ht rfl⟩

/-! ### Symbols -/

namespace ObjectFile

/-- The relocation of a report. -/
def relocation (f : ObjectFile) (r : Report) : Relocation :=
  { offset := r.offset, value := r.value, symbol := ((f.symbolAt r.value).map Symbol.name).getD "" }

theorem foldl_record (rs : List Report) (f : ObjectFile) :
    rs.foldl (fun f r => f.record r.value r.offset) f =
      { f with relocs := f.relocs ++ rs.map f.relocation } := by
  induction rs generalizing f with
  | nil => simp
  | cons r rs ih =>
    rw [List.foldl_cons, ih]
    have hr : (f.record r.value r.offset).relocation = f.relocation := rfl
    simp [record, relocation, symbolAt]

end ObjectFile

namespace helperSymbols

variable [Helper.Entries]

/-- The helpers are registered in order. -/
theorem symbols_eq :
    helperSymbols.symbols = Helper.all.map fun h => ⟨h.name, Helper.Entries.entry h⟩ := by
  simp [helperSymbols, Helper.all, ObjectFile.addSymbol, ObjectFile.setSymbol, Helper.name]

theorem symbolAt_address (hinj : Function.Injective Helper.address) (h : Helper) :
    helperSymbols.symbolAt h.address = some ⟨h.name, Helper.Entries.entry h⟩ := by
  rw [ObjectFile.symbolAt, symbols_eq, List.find?_map]
  exact congrArg (Option.map _) (Helper.find?_of_injective hinj h)

theorem symbolAt_eq_none {v : UInt32} (h : ∀ h : Helper, h.address ≠ v) :
    helperSymbols.symbolAt v = none := by
  rw [ObjectFile.symbolAt, symbols_eq, List.find?_eq_none]
  intro s hs he
  obtain ⟨g, -, rfl⟩ := List.mem_map.mp hs
  exact h g (of_decide_eq_true he)

theorem lookup_name (h : Helper) :
    helperSymbols.lookup h.name = some ⟨h.name, Helper.Entries.entry h⟩ := by
  rw [ObjectFile.lookup, symbols_eq, List.find?_map]
  exact congrArg (Option.map _) (Helper.find?_of_injective Helper.name_injective h)

theorem symbol_relocation_address (hinj : Function.Injective Helper.address) {h : Helper}
    {r : Report} (hr : h.address = r.value) : (helperSymbols.relocation r).symbol = h.name := by
  rw [ObjectFile.relocation, ← hr, symbolAt_address hinj]
  rfl

theorem symbol_relocation_eq_empty {r : Report} (hr : ∀ h : Helper, h.address ≠ r.value) :
    (helperSymbols.relocation r).symbol = "" := by
  rw [ObjectFile.relocation, symbolAt_eq_none hr]
  rfl

/-- The helpers are where they were registered. -/
theorem resolve_relocation (hinj : Function.Injective Helper.address) (rs : List Relocation)
    (r : Report) :
    ObjectFile.resolve { helperSymbols with relocs := rs } (helperSymbols.relocation r) =
      .ok r.value := by
  unfold ObjectFile.resolve
  by_cases hv : ∃ h : Helper, h.address = r.value
  · obtain ⟨h, hr⟩ := hv
    have hname : h.name.isEmpty = false := by cases h <;> rfl
    have hlook : ObjectFile.lookup { helperSymbols with relocs := rs } h.name = _ := lookup_name h
    have haddr : (Helper.Entries.entry h).toUInt32 = r.value := hr
    simp [symbol_relocation_address hinj hr, hname, hlook, haddr]
  · have hempty := symbol_relocation_eq_empty (not_exists.mp hv)
    rw [hempty]
    rfl

end helperSymbols

/-! ### Compiled functions -/

/-- A compiled function whose relocations are those of the calls of its program, in order, and do
not overlap; linking replaces their values and nothing else. -/
structure CodeObject.Relocatable [Helper.Entries] (o : CodeObject) (p : Program) : Prop where
  spaced : o.file.relocs.Pairwise fun a b => a.offset + 8 ≤ b.offset
  inside : ∀ r ∈ o.file.relocs, 0 ≤ r.offset ∧ r.offset + 8 ≤ o.code.size
  values : o.file.relocs.map Relocation.value = p.callees
  loads : ∀ r ∈ o.file.relocs, o.code.LoadsAt r.offset.toNat r.value
  named : ∀ r ∈ o.file.relocs, ∀ h : Helper, h.address = r.value → r.symbol = h.name
  unnamed : ∀ r ∈ o.file.relocs, (∀ h : Helper, h.address ≠ r.value) → r.symbol = ""
  relinked : ∀ resolver : Resolver, (∀ r ∈ o.file.relocs, ∃ v, resolver r = .ok v) →
    ∃ linked, o.link (some resolver) = .ok linked ∧ linked.size = o.code.size ∧
      (∀ i, Relocation.Free o.file.relocs i → linked[i]? = o.code[i]?) ∧
      ∀ r ∈ o.file.relocs, ∀ v, resolver r = .ok v → linked.LoadsAt r.offset.toNat v
  linked : o.link none = .ok o.code
  placed : o.place = .ok { bytes := o.code, isSealed := true }

/-- What a compiled function is made of. -/
theorem compile_eq_ok [Helper.Entries] [PendingHeap] {p : Program} {o : CompileOptions}
    {obj : CodeObject} (h : compile p o = .ok obj) : ∃ l, p.Links o.frame l ∧
      obj.code = Code.ofWords (Items.words (Items.displacement? 0 l) 0 l) ∧
      obj.file = { helperSymbols with
        relocs := (Items.reports 0 l).map helperSymbols.relocation } := by
  have hidle : (Session.fresh o.listing .recording).Idle :=
    (Session.ready_fresh o.listing (by decide)).toIdle
  have hfresh : ({ stream := { listing := o.listing } } : Session) =
      Session.fresh o.listing .recording := rfl
  rw [compile, hfresh] at h
  split at h
  · cases h
  by_cases hl : ∃ l, p.Links o.frame l
  · obtain ⟨l, hl⟩ := hl
    rw [Session.lower_of_links hidle hl, Session.extend_fresh] at h
    obtain rfl := Except.ok.inj h
    refine ⟨l, hl, rfl, ?_⟩
    simp only [if_true, List.foldl_toArray', ObjectFile.foldl_record]
    rfl
  · obtain ⟨place, f, t, -, ht⟩ := Session.lower_eq_rollback hidle (not_exists.mp hl)
    rw [ht] at h
    cases h

namespace CodeObject

variable {obj : CodeObject}

/-- Nonempty code is placed as it is. -/
theorem place_eq_ok (hl : obj.link none = .ok obj.code) (hn : 0 < obj.code.size) :
    obj.place = .ok { bytes := obj.code, isSealed := true } := by
  have hextract : (Array.replicate obj.code.size (0 : UInt8)).extract obj.code.size
      obj.code.size = #[] := by simp
  simp [place, hl, MemoryBlock.allocate, MemoryBlock.write, MemoryBlock.freeze, MemoryBlock.size,
    Except.mapError, bind, Except.bind, hn.ne']

end CodeObject

/-- A compiled function can be linked, wherever the helpers are, as long as no two of them have one
address in code. -/
theorem compile_relocatable [Helper.Entries] [PendingHeap]
    (hinj : Function.Injective Helper.address) {p : Program} {o : CompileOptions} {obj : CodeObject}
    (h : compile p o = .ok obj) : obj.Relocatable p := by
  obtain ⟨l, ⟨a, ha, rfl, -⟩, hcode, hfile⟩ := compile_eq_ok h
  have hcalls := Program.calls_of_assemble ha
  have hrelocs : obj.file.relocs = (Items.reports 0 a.items).map helperSymbols.relocation := by
    rw [hfile]
  have hspaced : obj.file.relocs.Pairwise fun a b => a.offset + 8 ≤ b.offset := by
    rw [hrelocs, List.pairwise_map]
    exact (hcalls.pairwise_reports 0).imp fun hab => by
      simp only [ObjectFile.relocation]
      omega
  have hmem {P : Relocation → Prop} (hP : ∀ r ∈ Items.reports 0 a.items,
      P (helperSymbols.relocation r)) : ∀ r ∈ obj.file.relocs, P r := by
    rw [hrelocs]
    exact List.forall_mem_map.mpr hP
  have hholds : ∀ r ∈ obj.file.relocs, r.Holds obj.code := by
    refine hmem fun r hr => ⟨Int.natCast_nonneg _, ?_⟩
    rw [hcode]
    exact hcalls.loadsAt _ hr
  have hlinked : obj.link none = .ok obj.code := by
    have hresolve : ∀ r ∈ obj.file.relocs, obj.file.resolve r = .ok r.value := by
      refine hmem fun r _ => ?_
      rw [hfile, helperSymbols.resolve_relocation hinj]
      rfl
    simp [CodeObject.link, ObjectFile.link, ObjectFile.linkAll_self hholds hresolve]
  have hnonempty : 0 < obj.code.size := by
    rw [hcode, Code.size_ofWords, Items.four_mul_length_words]
    exact Program.width_pos_of_assemble ha
  exact {
    spaced := hspaced
    inside := by
      intro r hr
      obtain ⟨h0, hl⟩ := hholds r hr
      exact ⟨h0, by have := hl.le_size; omega⟩
    values := by
      rw [hrelocs, List.map_map]
      exact hcalls.map_value_reports 0
    loads := fun r hr => (hholds r hr).2
    named := hmem fun r _ h hv => helperSymbols.symbol_relocation_address hinj hv
    unnamed := hmem fun r _ hv => helperSymbols.symbol_relocation_eq_empty hv
    relinked := by
      intro resolver hr
      obtain ⟨linked, hl, hsize, hfree, hloads⟩ := ObjectFile.linkAll_of_holds hspaced hholds hr
      refine ⟨linked, ?_, hsize, hfree, hloads⟩
      simp [CodeObject.link, ObjectFile.link, hl]
    linked := hlinked
    placed := CodeObject.place_eq_ok hlinked hnonempty }

/-- A loop that divides a slot by seven and calls a routine with the quotient. -/
def divideAndCall : Program :=
  [{ op := .label, block := 1 },
    { op := .divs, dst := some (.temporary64 0), src1 := some (.temporary 8),
      src2 := some (.constant 7) },
    { op := .param, src1 := some (.temporary 0) },
    { op := .call, src1 := some (.constant 0x9000), src2 := some (.constant 1) },
    { op := .condjmp, cond := .ne, src1 := some (.register 0), src2 := some (.constant 0),
      block := 1 }]

theorem compile_relocatable_divideAndCall : Function.Injective Helper.address ∧
    ∃ obj, compile divideAndCall { target := ⟨"linux", "arm", .aapcs⟩, frame := 16 } = .ok obj ∧
      obj.Relocatable divideAndCall := by
  have hok : (compile divideAndCall
      { target := ⟨"linux", "arm", .aapcs⟩, frame := 16 }).isOk = true := by decide +kernel
  obtain ⟨obj, h⟩ : ∃ obj, compile divideAndCall
      { target := ⟨"linux", "arm", .aapcs⟩, frame := 16 } = .ok obj := by
    revert hok
    cases compile divideAndCall { target := ⟨"linux", "arm", .aapcs⟩, frame := 16 } with
    | error e => exact fun h => nomatch h
    | ok obj => exact fun _ => ⟨obj, rfl⟩
  have hinj : Function.Injective Helper.address := by
    intro g h
    cases g <;> cases h <;> decide
  exact ⟨hinj, obj, h, compile_relocatable hinj h⟩

end A32Lowering
