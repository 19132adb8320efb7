import Formula.Environment
import Formula.Trace

/-!
# Two stacks

An expression is evaluated with a stack of values and a stack of what is pending, both
with their top in front: operators that wait for their last operand, and frames, one for
each delimiter that is open. A frame separates what belongs to its delimiter from what
lies below, on both stacks. Applying the topmost operator takes its operands from the
values of the innermost frame; a comma, a closing delimiter and the end of the tokens
apply all operators down to that frame. One token that has been read can be held back.
-/

namespace Formula

inductive Purpose where
  | group
  | call (name : String) (function : Function)
  | vector

/-- An open delimiter. The values above `base` belong to it. -/
structure Frame where
  purpose : Purpose
  /-- Where the delimiter stands, or the name of the function that is called. -/
  offset : Nat
  base : Nat

inductive Pending where
  | operator (op : Operator) (offset : Nat)
  | frame (f : Frame)

def Purpose.delimiter : Purpose → Delimiter
  | group | call _ _ => .paren
  | vector => .bracket

def Purpose.takesCommas : Purpose → Bool
  | group => false
  | call _ _ | vector => true

structure Input where
  held : Option Token
  rest : List Token

namespace Input

def next? (i : Input) : Option (Token × Input) :=
  match i.held, i.rest with
  | some t, rest => some (t, ⟨none, rest⟩)
  | none, t :: rest => some (t, ⟨none, rest⟩)
  | none, [] => none

def peek? (i : Input) : Option Token := i.next?.map Prod.fst

def holdBack (i : Input) (t : Token) : Input := { i with held := some t }

def size (i : Input) : Nat := i.held.toList.length + i.rest.length

theorem size_of_next? {i j : Input} {t : Token} (h : i.next? = some (t, j)) :
    j.held = none ∧ i.size = j.size + 1 := by
  obtain ⟨held, rest⟩ := i
  rcases held with _ | held
  · cases rest with
    | nil => simp [next?] at h
    | cons u rest =>
      simp only [next?, Option.some.injEq, Prod.mk.injEq] at h
      obtain ⟨rfl, rfl⟩ := h
      simp [size]
  · simp only [next?, Option.some.injEq, Prod.mk.injEq] at h
    obtain ⟨rfl, rfl⟩ := h
    simp [size, Nat.add_comm]

end Input

structure State where
  input : Input
  pending : List Pending
  values : List Value

namespace Pending

def base : List Pending → Nat
  | [] => 0
  | operator _ _ :: below => base below
  | frame f :: _ => f.base

def operatorCount : List Pending → Nat
  | [] => 0
  | operator _ _ :: below => operatorCount below + 1
  | frame _ :: below => operatorCount below

end Pending

namespace State

def start (tokens : List Token) : State := ⟨⟨none, tokens⟩, [], []⟩

def push (s : State) (v : Value) : State := { s with values := v :: s.values }

def openFrame (s : State) (purpose : Purpose) (offset : Nat) : State :=
  { s with pending := .frame ⟨purpose, offset, s.values.length⟩ :: s.pending }

end State

def applyOperator (tolerance : Float) (op : Operator) (offset : Nat) (below : List Pending)
    (values : List Value) : Traced (List Value) :=
  if values.length - Pending.base below < op.arity then .fail (.missingOperands op) offset
  else
    match op, values with
    | .sign s, x :: rest => do return (← s.act offset x) :: rest
    | .binary b, y :: x :: rest => do return (← b.act tolerance offset x y) :: rest
    | op, _ => .fail (.missingOperands op) offset

structure Reduced where
  frame : Option (Frame × List Pending)
  values : List Value

def reduceToFrame (tolerance : Float) : List Pending → List Value → Traced Reduced
  | [], values => return ⟨none, values⟩
  | .frame f :: below, values => return ⟨some (f, below), values⟩
  | .operator op offset :: below, values => do
    let values ← applyOperator tolerance op offset below values
    reduceToFrame tolerance below values

theorem reduceToFrame_operatorCount {tolerance : Float} {pending : List Pending}
    {values : List Value} {r : Reduced} {f : Frame} {below : List Pending}
    (h : (reduceToFrame tolerance pending values).result = .ok r)
    (hf : r.frame = some (f, below)) :
    Pending.operatorCount below ≤ Pending.operatorCount pending := by
  induction pending generalizing values with
  | nil =>
    simp only [reduceToFrame, Traced.pure_result, Except.ok.injEq] at h
    subst h
    simp at hf
  | cons p rest ih =>
    cases p with
    | frame g =>
      simp only [reduceToFrame, Traced.pure_result, Except.ok.injEq] at h
      subst h
      simp only [Option.some.injEq, Prod.mk.injEq] at hf
      simp [Pending.operatorCount, hf.2]
    | operator op offset =>
      simp only [reduceToFrame, Traced.bind_result_eq_ok_iff] at h
      obtain ⟨vs, _, h⟩ := h
      exact Nat.le_succ_of_le (ih h)

end Formula
