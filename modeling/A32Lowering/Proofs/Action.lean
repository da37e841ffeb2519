import Mathlib
import A32Lowering.Lowering.Function

/-!
# Running the actions of lowering

An action of lowering changes the session and ends with a value or a failure. This file says when a
sequence of checks succeeds, what a sequence of actions does, and when an action keeps an invariant
and fails with nothing worse than a fault.

## Main definitions

* `outcome` : how an action ends and the session it leaves.
* `Guarded` : an action that keeps an invariant, also when it fails, and fails only in certain
  ways.

## Main results

* `Except.bind_eq_ok_iff` and its relatives : the checks in front of an emission.
* `outcome_bind_eq_ok_iff` : a sequence of actions succeeds exactly when its parts do in turn.
* `Guarded.bind` : invariants are kept along a sequence of actions.
-/

namespace A32Lowering

section Except

variable {ε ε' α β : Type}

@[simp] theorem Except.bind_eq_ok_iff {m : Except ε α} {f : α → Except ε β} {b : β} :
    (m >>= f) = .ok b ↔ ∃ a, m = .ok a ∧ f a = .ok b := by
  cases m <;> simp [bind, Except.bind]

@[simp] theorem Except.pure_eq_ok_iff {a b : α} : (pure a : Except ε α) = .ok b ↔ a = b := by
  simp [pure, Except.pure]

@[simp] theorem Except.throw_eq_ok_iff {e : ε} {a : α} :
    (throw e : Except ε α) = .ok a ↔ False := by
  simp [throw, throwThe, MonadExceptOf.throw]

@[simp] theorem Except.map_eq_ok_iff {m : Except ε α} {f : α → β} {b : β} :
    m.map f = .ok b ↔ ∃ a, m = .ok a ∧ f a = b := by
  cases m <;> simp [Except.map]

@[simp] theorem Except.functor_map_eq_ok_iff {m : Except ε α} {f : α → β} {b : β} :
    f <$> m = .ok b ↔ ∃ a, m = .ok a ∧ f a = b :=
  Except.map_eq_ok_iff

@[simp] theorem Except.mapError_eq_ok_iff {m : Except ε α} {f : ε → ε'} {a : α} :
    m.mapError f = .ok a ↔ m = .ok a := by
  cases m <;> simp [Except.mapError]

end Except

section Outcome

variable {ε σ α β : Type}

/-- How an action that starts in a state ends, and the state it leaves. -/
def outcome (m : ExceptT ε (StateM σ) α) (s : σ) : Except ε α × σ := m.run s

theorem outcome_bind (m : ExceptT ε (StateM σ) α) (f : α → ExceptT ε (StateM σ) β) (s : σ) :
    outcome (m >>= f) s = match outcome m s with
      | (.ok a, t) => outcome (f a) t
      | (.error e, t) => (.error e, t) := by
  change (match outcome m s with | (r, t) => ExceptT.bindCont f r t) = _
  rcases outcome m s with ⟨e | a, t⟩ <;> rfl

theorem outcome_bind_of_eq {m : ExceptT ε (StateM σ) α} {f : α → ExceptT ε (StateM σ) β} {s t : σ}
    {a : α} (h : outcome m s = (.ok a, t)) : outcome (m >>= f) s = outcome (f a) t := by
  rw [outcome_bind, h]

/-- A sequence of actions succeeds exactly when its parts succeed in turn. -/
theorem outcome_bind_eq_ok_iff {m : ExceptT ε (StateM σ) α}
    {f : α → ExceptT ε (StateM σ) β} {s u : σ} {b : β} :
    outcome (m >>= f) s = (.ok b, u) ↔
      ∃ a t, outcome m s = (.ok a, t) ∧ outcome (f a) t = (.ok b, u) := by
  rw [outcome_bind]
  rcases outcome m s with ⟨e | a, t⟩
  · simp
  · refine ⟨fun h => ⟨a, t, rfl, h⟩, ?_⟩
    rintro ⟨a', t', h, h'⟩
    obtain ⟨ha, rfl⟩ := Prod.mk.inj h
    obtain rfl := Except.ok.inj ha
    exact h'

@[simp] theorem outcome_pure (a : α) (s : σ) :
    outcome (pure a : ExceptT ε (StateM σ) α) s = (.ok a, s) := rfl

@[simp] theorem outcome_throw (e : ε) (s : σ) :
    outcome (throw e : ExceptT ε (StateM σ) α) s = (.error e, s) := rfl

@[simp] theorem outcome_get (s : σ) : outcome (get : ExceptT ε (StateM σ) σ) s = (.ok s, s) := rfl

@[simp] theorem outcome_set (s t : σ) :
    outcome (set t : ExceptT ε (StateM σ) PUnit) s = (.ok ⟨⟩, t) := rfl

@[simp] theorem outcome_modify (f : σ → σ) (s : σ) :
    outcome (modify f : ExceptT ε (StateM σ) PUnit) s = (.ok ⟨⟩, f s) := rfl

@[simp] theorem outcome_get_bind (f : σ → ExceptT ε (StateM σ) β) (s : σ) :
    outcome (get >>= f) s = outcome (f s) s :=
  outcome_bind_of_eq rfl

@[simp] theorem outcome_set_bind (f : PUnit → ExceptT ε (StateM σ) β) (s t : σ) :
    outcome (set t >>= f) s = outcome (f ⟨⟩) t :=
  outcome_bind_of_eq rfl

@[simp] theorem outcome_modify_bind (g : σ → σ) (f : PUnit → ExceptT ε (StateM σ) β) (s : σ) :
    outcome (modify g >>= f) s = outcome (f ⟨⟩) (g s) :=
  outcome_bind_of_eq rfl

end Outcome

namespace Lower

variable {α β : Type} {s t : Session}

@[simp] theorem outcome_check_eq_ok_iff {r : Except Fault α} {a : α} :
    outcome (check r) s = (.ok a, t) ↔ r = .ok a ∧ s = t := by
  cases r <;> simp [check]

@[simp] theorem outcome_check_bind_eq_ok_iff {r : Except Fault α} {f : α → Lower β} {b : β} :
    outcome (check r >>= f) s = (.ok b, t) ↔ ∃ a, r = .ok a ∧ outcome (f a) s = (.ok b, t) := by
  cases r <;> simp [check]

@[simp] theorem outcome_emit (l : List Instr) :
    outcome (emit l) s = (.ok (), { s with stream := s.stream.emitAll l }) := rfl

@[simp] theorem outcome_emit_bind (l : List Instr) (f : Unit → Lower β) :
    outcome (emit l >>= f) s = outcome (f ()) { s with stream := s.stream.emitAll l } :=
  outcome_bind_of_eq rfl

@[simp] theorem outcome_level_bind (f : UInt32 → Lower β) :
    outcome (level >>= f) s = outcome (f s.level) s :=
  outcome_bind_of_eq rfl

@[simp] theorem outcome_moveLevel_bind (d : UInt32) (f : Unit → Lower β) :
    outcome (moveLevel d >>= f) s = outcome (f ()) { s with level := s.level + d } :=
  outcome_bind_of_eq rfl

@[simp] theorem outcome_emitChecked_eq_ok_iff {r : Except Fault (List Instr)} :
    outcome (emitChecked r) s = (.ok (), t) ↔
      ∃ l, r = .ok l ∧ { s with stream := s.stream.emitAll l } = t := by
  simp [emitChecked]

@[simp] theorem outcome_emitChecked_bind_eq_ok_iff {r : Except Fault (List Instr)}
    {f : Unit → Lower β} {b : β} :
    outcome (emitChecked r >>= f) s = (.ok b, t) ↔
      ∃ l, r = .ok l ∧ outcome (f ()) { s with stream := s.stream.emitAll l } = (.ok b, t) := by
  simp [emitChecked, bind_assoc]

end Lower

/-! ### Invariants that survive failures -/

section Guarded

variable {ε σ α β : Type} {P : ε → Prop} {I : σ → Prop}

/-- An action that keeps an invariant of the state, also when it fails, and that fails only in
certain ways. -/
def Guarded (P : ε → Prop) (I : σ → Prop) (m : ExceptT ε (StateM σ) α) : Prop :=
  ∀ s, I s → I (outcome m s).2 ∧ ∀ e, (outcome m s).1 = .error e → P e

namespace Guarded

theorem bind {m : ExceptT ε (StateM σ) α} {f : α → ExceptT ε (StateM σ) β} (hm : Guarded P I m)
    (hf : ∀ a, Guarded P I (f a)) : Guarded P I (m >>= f) := by
  intro s hs
  obtain ⟨ht, he⟩ := hm s hs
  rw [outcome_bind]
  rcases h : outcome m s with ⟨e | a, t⟩
  · rw [h] at ht he
    refine ⟨ht, fun e' h' => he e' ?_⟩
    rw [Except.error.inj h']
  · rw [h] at ht
    exact hf a t ht

theorem pure (a : α) : Guarded P I (Pure.pure a) :=
  fun _ hs => ⟨hs, fun _ h => by cases h⟩

theorem throw {e : ε} (he : P e) : Guarded P I (MonadExcept.throw e : ExceptT ε (StateM σ) α) :=
  fun _ hs => ⟨hs, fun _ h => Except.error.inj h ▸ he⟩

theorem get : Guarded P I MonadState.get :=
  fun _ hs => ⟨hs, fun _ h => by cases h⟩

theorem modify {f : σ → σ} (hf : ∀ s, I s → I (f s)) : Guarded P I (modify f) :=
  fun s hs => ⟨hf s hs, fun _ h => by cases h⟩

theorem of_outcome {m : ExceptT ε (StateM σ) α}
    (h : ∀ s, I s → ∃ a t, outcome m s = (.ok a, t) ∧ I t) : Guarded P I m := by
  intro s hs
  obtain ⟨a, t, hm, ht⟩ := h s hs
  rw [hm]
  exact ⟨ht, fun _ h => by cases h⟩

end Guarded

end Guarded

/-- Whether a failure is a fault. -/
def Failure.IsFault (e : Failure) : Prop := ∃ f, e = .fault f

namespace Lower

variable {α : Type} {I : Session → Prop}

theorem guarded_check (r : Except Fault α) : Guarded Failure.IsFault I (check r) := by
  cases r with
  | error f => exact .throw ⟨f, rfl⟩
  | ok a => exact .pure a

theorem guarded_check_bind {β : Type} {r : Except Fault α} {f : α → Lower β}
    (h : ∀ a, r = .ok a → Guarded Failure.IsFault I (f a)) :
    Guarded Failure.IsFault I (check r >>= f) := by
  cases r with
  | error f => exact .throw ⟨f, rfl⟩
  | ok a => exact h a rfl

theorem guarded_emitChecked {r : Except Fault (List Instr)}
    (h : ∀ l, r = .ok l → Guarded Failure.IsFault I (emit l)) :
    Guarded Failure.IsFault I (emitChecked r) := by
  cases r with
  | error f => exact .throw ⟨f, rfl⟩
  | ok l => exact h l rfl

end Lower

end A32Lowering
