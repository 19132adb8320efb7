import Formula.Environment
import Formula.Proofs.Elementwise
import Formula.Proofs.Trace

/-!
# Checked computations

A computation whose operations are checked is stopped by the first one that cannot be
done: a difference that would be negative, an element that a list does not have, and, if
sums are checked as well, a sum that no word holds. One that no check stops ends with a
result or an error.

Elementwise application reads one element of each vector for every row, and the body of a
function may read its arguments one by one. A body need not be defined on every list of
arguments; if it is defined wherever the arity of its function admits the count, then no
call is stopped. The builtin functions read their arguments by position and have such
bodies.
-/

namespace Formula

abbrev Checked (α : Type) := ExceptT EvalError Option α

namespace Checked

variable {α β : Type}

def ends (r : Except EvalError α) : Checked α := ExceptT.mk (some r)

def stopped : Checked α := ExceptT.mk none

def fail (fault : EvalFault) (offset : Nat) : Checked α := ends (.error ⟨fault, offset⟩)

def demand (o : Option α) : Checked α := ExceptT.mk (o.map .ok)

def minus (a b : Nat) : Checked Nat := demand (if b ≤ a then some (a - b) else none)

def pop (xs : List α) : Checked (α × List α) := demand (xs.head?.map fun x => (x, xs.tail))

/-- The elements of a stack above its lowest `base` ones, from the bottom to the top, and the lowest
ones, all of which the stack must have. -/
def splitOff (base : Nat) (xs : List α) : Checked (List α × List α) := do
  let count ← minus xs.length base
  return ((xs.take count).reverse, xs.drop count)

theorem demand_some (a : α) : demand (some a) = pure a := rfl

theorem minus_eq {a b : Nat} (h : b ≤ a) : minus a b = pure (a - b) := by
  rw [minus, if_pos h, demand_some]

theorem splitOff_eq {base : Nat} {xs : List α} (h : base ≤ xs.length) :
    splitOff base xs =
      pure ((xs.take (xs.length - base)).reverse, xs.drop (xs.length - base)) := by
  rw [splitOff, minus_eq h, pure_bind]

example (x : α) : splitOff 2 [x] = stopped := rfl

theorem mapM_eq_some {f : α → Option β} {g : α → β} {xs : List α}
    (h : ∀ x ∈ xs, f x = some (g x)) : xs.mapM f = some (xs.map g) := by
  induction xs with
  | nil => rfl
  | cons x xs ih =>
    obtain ⟨hx, hxs⟩ := List.forall_mem_cons.mp h
    rw [List.mapM_cons, hx, ih hxs]
    rfl

end Checked

/-- What becomes of a sum beyond the greatest word. -/
inductive Overflow where
  | wraps
  | stops

namespace Overflow

open Checked

variable {α : Type}

def word : Overflow → Nat → Checked Nat
  | wraps, n => return n % UInt64.size
  | stops, n => demand (if n < UInt64.size then some n else none)

def plus (overflow : Overflow) (a b : Nat) : Checked Nat := overflow.word (a + b)

/-- What is observed of a computation that counts offsets without bound. Only a missing call is
reported at a sum. -/
def observe (overflow : Overflow) : Except EvalError α → Checked α
  | .ok a => pure a
  | .error ⟨.missingCall n, o⟩ => do Checked.fail (.missingCall n) (← overflow.word o)
  | .error e => ends (.error e)

theorem ends_eq_observe (overflow : Overflow) {r : Except EvalError α}
    (h : ∀ n o, r ≠ .error ⟨.missingCall n, o⟩) : ends r = overflow.observe r := by
  rcases r with ⟨fault, o⟩ | a
  · cases fault with
    | missingCall n => exact absurd rfl (h n o)
    | _ => rfl
  · rfl

theorem bind_eq_observe (overflow : Overflow) {β : Type} {c : Checked α} {k : α → Checked β}
    {t : Traced α} {f : α → Traced β} (hc : c = overflow.observe t.result)
    (hk : ∀ a, t.result = .ok a → k a = overflow.observe (f a).result) :
    c >>= k = overflow.observe (t >>= f).result := by
  rw [hc, Traced.bind_result]
  cases h : t.result with
  | ok a => exact hk a h
  | error e =>
    obtain ⟨fault, o⟩ := e
    cases fault with
    | missingCall n =>
      change (overflow.word o >>= _) >>= k = overflow.word o >>= _
      rw [bind_assoc]
      rfl
    | _ => rfl

end Overflow

def Value.entry? (i : Nat) : Value → Option Float
  | .scalar x => some x
  | .vector xs => xs[i]?

theorem Value.entry?_eq {n i : Nat} (hi : i < n) {v : Value} (h : v.HasLength n) :
    v.entry? i = some (v.entry i) := by
  cases v with
  | scalar x => rfl
  | vector xs =>
    obtain rfl : xs.length = n := h
    simp [Value.entry?, Value.entry, hi]

inductive PartialBody where
  | scalar (f : List Float → Option Float)
  | native (f : List Value → Option (Except String Value))

/-- The body is defined on every number of arguments that the function takes, and does there what
the function does. -/
inductive PartialBody.Covers : PartialBody → Function → Prop
  | scalar {a : Arity} {g : List Float → Option Float} {h : List Float → Float} :
      (∀ xs, a.admits xs.length = true → g xs = some (h xs)) → Covers (.scalar g) ⟨a, .scalar h⟩
  | native {a : Arity} {g : List Value → Option (Except String Value)}
      {h : List Value → Except String Value} :
      (∀ args, a.admits args.length = true → g args = some (h args)) →
      Covers (.native g) ⟨a, .native h⟩

namespace Checked

def row (operands : List Value) (i : Nat) : Option (List Float) :=
  operands.mapM (Value.entry? i)

def broadcast (name : String) (operands : List Value) (offset : Nat)
    (f : List Float → Option Float) : Checked Value :=
  match commonLength none operands with
  | .error (left, right) => fail (.shapeMismatch name left right) offset
  | .ok none => do return .scalar (← demand (row operands 0 >>= f))
  | .ok (some n) => do return .vector (← demand ((List.range n).mapM fun i => row operands i >>= f))

theorem row_eq {operands : List Value} {i : Nat}
    (h : ∀ v ∈ operands, v.entry? i = some (v.entry i)) :
    row operands i = some (Formula.row operands i) := mapM_eq_some h

theorem broadcast_eq {operands : List Value} {f : List Float → Option Float}
    {g : List Float → Float} (hf : ∀ xs, xs.length = operands.length → f xs = some (g xs))
    (name : String) (offset : Nat) :
    broadcast name operands offset f = ends (Formula.broadcast name operands offset g) := by
  have hrow {i : Nat} (h : ∀ v ∈ operands, v.entry? i = some (v.entry i)) :
      (row operands i >>= f) = some (g (Formula.row operands i)) := by
    rw [row_eq h]
    exact hf _ (List.length_map _)
  unfold broadcast Formula.broadcast
  cases hc : commonLength none operands with
  | error lengths => rfl
  | ok r =>
    rcases commonLength_none hc with ⟨rfl, hv⟩ | ⟨n, rfl, hv⟩
    · have h : ∀ v ∈ operands, v.entry? 0 = some (v.entry 0) := by
        intro v hm
        cases v with
        | scalar x => rfl
        | vector xs => cases hv _ hm
      simp only [hrow h]
      rfl
    · have h : (List.range n).mapM (fun i => row operands i >>= f) =
          some ((List.range n).map fun i => g (Formula.row operands i)) := by
        refine mapM_eq_some fun i hi => hrow fun v hm => ?_
        exact Value.entry?_eq (List.mem_range.mp hi) (hv v hm)
      simp only [h]
      rfl

def binary (tolerance : Float) (offset : Nat) (b : BinaryOp) : Value → Value → Checked Value
  | .scalar x, .scalar y => return .scalar (b.eval tolerance x y)
  | left, right => broadcast b.symbol [left, right] offset fun xs => do
    return b.eval tolerance (← xs[0]?) (← xs[1]?)

theorem binary_eq (tolerance : Float) (offset : Nat) (b : BinaryOp) (left right : Value) :
    binary tolerance offset b left right = ends (b.apply tolerance offset left right) := by
  have hf : ∀ xs : List Float, xs.length = [left, right].length →
      (do return b.eval tolerance (← xs[0]?) (← xs[1]?) : Option Float) =
        some (b.evalRow tolerance xs) := by
    intro xs hx
    match xs, hx with
    | [x, y], _ => rfl
  have h := broadcast_eq hf b.symbol offset
  cases left with
  | scalar x =>
    cases right with
    | scalar y => rfl
    | vector ys => exact h
  | vector xs => cases right <;> exact h

def call (f : Function) (body : PartialBody) (name : String) (args : List Value) (offset : Nat) :
    Checked Value :=
  if f.arity.admits args.length then
    match body with
    | .scalar g => broadcast name args offset g
    | .native g => do
      match ← demand (g args) with
      | .ok v => return v
      | .error details => fail (.invalidArgument name details) offset
  else fail (.wrongCount name f.arity args.length) offset

theorem call_eq {f : Function} {body : PartialBody} (h : body.Covers f) (name : String)
    (args : List Value) (offset : Nat) :
    call f body name args offset = ends (f.call name args offset) := by
  unfold call Function.call
  split
  · rename_i ha
    cases h with
    | scalar hg => exact broadcast_eq (fun xs hx => hg xs (hx ▸ ha)) name offset
    | @native a g h hg =>
      simp only [hg args ha, demand_some, pure_bind]
      cases h args <;> rfl
  · rfl

end Checked

section Builtins

namespace PartialBody

def unary (f : Float → Float) : PartialBody := .scalar fun xs => do return f (← xs[0]?)

def binary (f : Float → Float → Float) : PartialBody :=
  .scalar fun xs => do return f (← xs[0]?) (← xs[1]?)

def len : PartialBody := .native fun args => do return elementCount [← args[0]?]

end PartialBody

def Environment.CoveredBy (env : Environment) (bodies : String → PartialBody) : Prop :=
  ∀ name f, env.functionOf? name = some f → (bodies name).Covers f

theorem Bindings.find?_insertAll {α : Type} {b : Bindings α} {entries : List (String × α)}
    {name : String} {a : α} (h : (b.insertAll entries).find? name = some a) :
    (name, a) ∈ entries ∨ b.find? name = some a := by
  induction entries generalizing b with
  | nil => exact .inr h
  | cons e rest ih =>
    rcases ih h with h | h
    · exact .inl (List.mem_cons_of_mem e h)
    · rw [find?_insert] at h
      split at h
      · rename_i hn
        cases h
        rw [hn]
        exact .inl List.mem_cons_self
      · exact .inr h

theorem Environment.CoveredBy.withBuiltins {env : Environment} {bodies : String → PartialBody}
    (h : env.CoveredBy bodies) (hb : ∀ e ∈ builtins, (bodies e.1).Covers e.2) :
    env.withBuiltins.CoveredBy bodies := by
  intro name f hf
  rcases Bindings.find?_insertAll hf with hm | hf
  · exact hb _ hm
  · exact h name f hf

end Builtins

end Formula
