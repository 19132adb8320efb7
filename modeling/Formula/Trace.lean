import Formula.Text.Quoted
import Formula.Value

/-!
# Traces

An evaluation records what it does, and the events before an error are kept beside the
error. An operator is recorded with its result, a call before it is known whether it has
one. Offsets are counted without bound on the way, and the caller sees words.
-/

namespace Formula

inductive Event where
  | evaluating (source : String)
  | shift (op : Operator) (offset : Nat)
  | reduce (pending incoming : Operator)
  | apply (op : Operator) (offset : Nat) (result : Value)
  | call (name : String) (offset count : Nat)
  | failed (source : String) (e : Error)
deriving DecidableEq

namespace Event

def level : Event → String
  | evaluating _ | failed _ _ => "debug"
  | shift _ _ | reduce _ _ | apply _ _ _ | call _ _ _ => "trace"

def text : Event → String
  | evaluating source => s!"evaluating {Text.quote source}"
  | shift op _ => s!"shift {op.symbol}"
  | reduce pending incoming => s!"reduce {pending.symbol} before {incoming.symbol}"
  | apply op _ result => s!"apply {op.symbol} -> {result.text}"
  | call name _ count => s!"call {name} with {count} argument(s)"
  | failed source e => s!"evaluation of {Text.quote source} failed: {e.message}"

def line (e : Event) : String := e.level ++ ": " ++ e.text

end Event

structure Traced (α : Type) where
  events : List Event
  result : Except EvalError α

namespace Traced

variable {α β : Type}

def fail (fault : EvalFault) (offset : Nat) : Traced α := ⟨[], .error ⟨fault, offset⟩⟩

def record (e : Event) : Traced Unit := ⟨[e], .ok ()⟩

def lift (r : Except EvalError α) : Traced α := ⟨[], r⟩

def andThen (t : Traced α) (f : α → Traced β) : Traced β :=
  match t.result with
  | .error e => ⟨t.events, .error e⟩
  | .ok a => ⟨t.events ++ (f a).events, (f a).result⟩

instance : Monad Traced where
  pure a := ⟨[], .ok a⟩
  bind := andThen

@[simp] theorem pure_events (a : α) : (pure a : Traced α).events = [] := rfl

@[simp] theorem pure_result (a : α) : (pure a : Traced α).result = .ok a := rfl

@[simp] theorem fail_result (fault : EvalFault) (offset : Nat) :
    (fail fault offset : Traced α).result = .error ⟨fault, offset⟩ := rfl

theorem bind_result (t : Traced α) (f : α → Traced β) :
    (t >>= f).result = t.result.bind fun a => (f a).result := by
  change (andThen t f).result = _
  unfold andThen
  cases t.result <;> rfl

theorem bind_result_eq_ok_iff {t : Traced α} {f : α → Traced β} {b : β} :
    (t >>= f).result = .ok b ↔ ∃ a, t.result = .ok a ∧ (f a).result = .ok b := by
  rw [bind_result]
  cases t.result <;> simp [Except.bind]

def outcome (t : Traced α) : Except EvalError α := t.result.mapError EvalError.inWord

@[simp] theorem outcome_eq_ok_iff {t : Traced α} {a : α} :
    t.outcome = .ok a ↔ t.result = .ok a := by
  unfold outcome
  cases t.result with
  | error e => exact ⟨nofun, nofun⟩
  | ok b => exact Iff.rfl

theorem outcome_eq_error_iff {t : Traced α} {e : EvalError} :
    t.outcome = .error e ↔ ∃ e', t.result = .error e' ∧ e'.inWord = e := by
  unfold outcome
  cases t.result with
  | error e' =>
    constructor
    · intro h
      exact ⟨e', rfl, Except.error.inj h⟩
    · rintro ⟨e'', h, rfl⟩
      cases h
      rfl
  | ok b => exact ⟨nofun, nofun⟩

theorem bind_outcome (t : Traced α) (f : α → Traced β) :
    (t >>= f).outcome = t.outcome.bind fun a => (f a).outcome := by
  unfold outcome
  rw [bind_result]
  cases t.result <;> rfl

end Traced

def Sign.act (s : Sign) (offset : Nat) (v : Value) : Traced Value := do
  Traced.record (.apply (.sign s) offset (s.apply v))
  return s.apply v

def BinaryOp.act (tolerance : Float) (b : BinaryOp) (offset : Nat) (left right : Value) :
    Traced Value := do
  let v ← Traced.lift (b.apply tolerance offset left right)
  Traced.record (.apply (.binary b) offset v)
  return v

def Function.act (f : Function) (name : String) (offset : Nat) (args : List Value) :
    Traced Value := do
  Traced.record (.call name offset args.length)
  Traced.lift (f.call name args offset)

def flatVector (opening : Nat) (items : List Value) : Traced Value :=
  if items.any Value.isVector then .fail .nestedVector opening
  else return .vector (items.flatMap Value.elements)

end Formula
