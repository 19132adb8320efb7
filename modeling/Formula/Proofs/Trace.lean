import Formula.Trace

/-!
# Laws of traces

Sequences of traced parts form a lawful monad. Two ways to look at a trace are
used: its actions alone, without the bookkeeping of the operator stack, and a
postcondition for its result together with a condition on its errors.
-/

namespace Formula

/-- Applying an operator and calling a function; shifts and reductions only prepare them. -/
def Event.isAction : Event → Bool
  | apply _ _ _ | call _ _ _ => true
  | evaluating _ | shift _ _ | reduce _ _ | failed _ _ => false

/-- The faults that no token sequence of a source can have. -/
def EvalFault.isInternal : EvalFault → Bool
  | unknownIdentifier _ | missingOperands _ | noValue | leftoverValues _ => true
  | _ => false

@[simp] theorem EvalError.inWord_fault (e : EvalError) : e.inWord.fault = e.fault := by
  obtain ⟨fault, o⟩ := e
  cases fault <;> rfl

theorem EvalError.inWord_eq {e : EvalError} (h : ∀ n, e.fault ≠ .missingCall n) : e.inWord = e := by
  obtain ⟨fault, o⟩ := e
  cases fault with
  | missingCall n => exact absurd rfl (h n)
  | _ => rfl

theorem EvalError.inWord_of_lt {e : EvalError} (h : e.offset < UInt64.size) : e.inWord = e := by
  obtain ⟨fault, o⟩ := e
  cases fault with
  | missingCall n => exact congrArg (EvalError.mk _) (Nat.mod_eq_of_lt h)
  | _ => rfl

namespace Traced

variable {α β γ : Type}

theorem ext {s t : Traced α} (he : s.events = t.events) (hr : s.result = t.result) : s = t := by
  cases s
  cases t
  simp_all

theorem outcome_congr {s t : Traced α} (h : s.result = t.result) : s.outcome = t.outcome :=
  congrArg (Except.mapError EvalError.inWord) h

theorem bind_outcome_ok {t : Traced α} {f : α → Traced β} {a : α} (h : t.outcome = .ok a) :
    (t >>= f).outcome = (f a).outcome := by
  rw [bind_outcome, h]
  rfl

theorem bind_outcome_error {t : Traced α} {f : α → Traced β} {e : EvalError}
    (h : t.outcome = .error e) : (t >>= f).outcome = .error e := by
  rw [bind_outcome, h]
  rfl

theorem bind_events (t : Traced α) (f : α → Traced β) :
    (t >>= f).events = t.events ++ match t.result with
      | .error _ => []
      | .ok a => (f a).events := by
  change (andThen t f).events = _
  unfold andThen
  cases t.result <;> simp

theorem bind_ok_events {t : Traced α} {f : α → Traced β} {b : β} (h : (t >>= f).result = .ok b) :
    ∃ a, t.result = .ok a ∧ (f a).result = .ok b ∧
      (t >>= f).events = t.events ++ (f a).events := by
  obtain ⟨a, ha, hb⟩ := bind_result_eq_ok_iff.mp h
  exact ⟨a, ha, hb, by rw [bind_events, ha]⟩

instance : LawfulMonad Traced := by
  refine LawfulMonad.mk' Traced ?_ ?_ ?_
  · intro α t
    apply ext
    · change (t >>= fun a => pure a).events = _
      rw [bind_events]
      cases t.result <;> simp
    · change (t >>= fun a => pure a).result = _
      rw [bind_result]
      cases t.result <;> rfl
  · intro α β a f
    exact ext (by rw [bind_events]; rfl) (by rw [bind_result]; rfl)
  · intro α β γ t f g
    apply ext
    · simp only [bind_events, bind_result]
      cases t.result <;> simp [Except.bind]
    · simp only [bind_result]
      cases t.result <;> rfl

def actions (t : Traced α) : Traced α := ⟨t.events.filter Event.isAction, t.result⟩

@[simp] theorem actions_result (t : Traced α) : t.actions.result = t.result := rfl

@[simp] theorem actions_pure (a : α) : (pure a : Traced α).actions = pure a := rfl

@[simp] theorem actions_lift (r : Except EvalError α) : (lift r).actions = lift r := rfl

@[simp] theorem actions_bind (t : Traced α) (f : α → Traced β) :
    (t >>= f).actions = t.actions >>= fun a => (f a).actions := by
  apply ext
  · rw [bind_events]
    change (List.filter _ (t >>= f).events) = _
    rw [bind_events, List.filter_append]
    cases h : t.result <;> simp [actions, h]
  · rw [actions_result, bind_result, bind_result]
    rfl

structure Ends (t : Traced α) (cause : EvalError → Prop) (post : α → Prop) : Prop where
  fault : ∀ e, t.result = .error e → cause e
  result : ∀ a, t.result = .ok a → post a

variable {cause : EvalError → Prop}

theorem ends_pure {post : α → Prop} {a : α} (h : post a) : (pure a : Traced α).Ends cause post := by
  refine ⟨fun e he => ?_, fun b hb => ?_⟩
  · cases he
  · cases hb
    exact h

theorem ends_fail {post : α → Prop} {f : EvalFault} {offset : Nat} (h : cause ⟨f, offset⟩) :
    (fail f offset : Traced α).Ends cause post := by
  refine ⟨fun e he => ?_, fun b hb => ?_⟩
  · cases he
    exact h
  · cases hb

theorem Ends.bind {t : Traced α} {f : α → Traced β} {mid : α → Prop} {post : β → Prop}
    (ht : t.Ends cause mid) (hf : ∀ a, mid a → (f a).Ends cause post) :
    (t >>= f).Ends cause post := by
  refine ⟨fun e he => ?_, fun b hb => ?_⟩
  · rw [bind_result] at he
    cases hr : t.result with
    | error e' =>
      rw [hr] at he
      cases he
      exact ht.fault e hr
    | ok a =>
      rw [hr] at he
      exact (hf a (ht.result a hr)).fault e he
  · obtain ⟨a, ha, hb⟩ := bind_result_eq_ok_iff.mp hb
    exact (hf a (ht.result a ha)).result b hb

structure Yields (t : Traced α) (post : α → Prop) : Prop where
  fault : ∀ e, t.result = .error e → e.fault.isInternal = false
  result : ∀ a, t.result = .ok a → post a

theorem yields_iff_ends {t : Traced α} {post : α → Prop} :
    t.Yields post ↔ t.Ends (fun e => e.fault.isInternal = false) post :=
  ⟨fun h => ⟨h.fault, h.result⟩, fun h => ⟨h.fault, h.result⟩⟩

theorem yields_pure {post : α → Prop} {a : α} (h : post a) : (pure a : Traced α).Yields post :=
  yields_iff_ends.mpr (ends_pure h)

theorem yields_fail {post : α → Prop} {fault : EvalFault} (h : fault.isInternal = false)
    (offset : Nat) : (fail fault offset : Traced α).Yields post :=
  yields_iff_ends.mpr (ends_fail h)

theorem Yields.bind {t : Traced α} {f : α → Traced β} {mid : α → Prop} {post : β → Prop}
    (ht : t.Yields mid) (hf : ∀ a, mid a → (f a).Yields post) : (t >>= f).Yields post :=
  yields_iff_ends.mpr ((yields_iff_ends.mp ht).bind fun a ha => yields_iff_ends.mp (hf a ha))

end Traced

theorem flatVector_scalars (p : Nat) (xs : List Float) :
    flatVector p (xs.map .scalar) = pure (.vector xs) := by
  have hn : (xs.map Value.scalar).any Value.isVector = false := by
    simp [Value.isVector]
  have he : (xs.map Value.scalar).flatMap Value.elements = xs := by
    rw [List.flatMap_map]
    exact List.flatMap_singleton' xs
  simp only [flatVector, hn, he]
  rfl

end Formula
