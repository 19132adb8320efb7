import Mathlib.Data.List.Basic
import Formula.Proofs.Faults
import Formula.Proofs.Stacks.Absorb

/-!
# Matching delimiters

A matcher looks at delimiters, commas and names only and keeps the delimiters that are
open. It applies no operator and knows no environment. Yet the frames of a run are its
open delimiters, so an evaluation that fails because of a delimiter or a comma fails
with the first fault of the matcher, and tokens in which the matcher finds a fault have
no value.
-/

namespace Formula

open State Traced

inductive Enclosure where
  | group
  | call
  | vector
deriving DecidableEq, Repr

def Enclosure.delimiter : Enclosure → Delimiter
  | group | call => .paren
  | vector => .bracket

/-- An open delimiter. That of a call has the offset of the name. -/
structure Opener where
  enclosure : Enclosure
  offset : Nat
deriving DecidableEq, Repr

namespace Opener

def read (t : Token) (stack : List Opener) : Except EvalError (List Opener) :=
  match t.kind, stack with
  | .opening .paren, stack => .ok (⟨.group, t.offset⟩ :: stack)
  | .opening .bracket, stack => .ok (⟨.vector, t.offset⟩ :: stack)
  | .closing d, [] => .error ⟨.unmatched d, t.offset⟩
  | .closing d, top :: below =>
    if top.enclosure.delimiter = d then .ok below
    else .error ⟨.mismatched top.enclosure.delimiter d, t.offset⟩
  | .comma, [] | .comma, ⟨.group, _⟩ :: _ => .error ⟨.misplacedComma, t.offset⟩
  | _, stack => .ok stack

/-- The first fault of some tokens behind those that have opened the delimiters. A parenthesis
directly behind a name belongs to a call; what is still open at the end is at fault too. -/
def fault? : List Token → List Opener → Option EvalError
  | [], [] => none
  | [], top :: _ => some ⟨.unmatched top.enclosure.delimiter, top.offset⟩
  | ⟨.identifier _, o⟩ :: ⟨.opening .paren, _⟩ :: ts, stack => fault? ts (⟨.call, o⟩ :: stack)
  | t :: ts, stack =>
    match read t stack with
    | .error e => some e
    | .ok stack => fault? ts stack

end Opener

def EvalFault.isStructural : EvalFault → Bool
  | unmatched _ | mismatched _ _ | misplacedComma => true
  | _ => false

def Purpose.enclosure : Purpose → Enclosure
  | group => .group
  | call _ _ => .call
  | vector => .vector

def Pending.openers : List Pending → List Opener
  | [] => []
  | operator _ _ :: below => openers below
  | frame f :: below => ⟨f.purpose.enclosure, f.offset⟩ :: openers below

open Pending

theorem Purpose.enclosure_delimiter (p : Purpose) : p.enclosure.delimiter = p.delimiter := by
  cases p <;> rfl

theorem Operator.Refuses.not_structural {op : Operator} {fault : EvalFault}
    (h : op.Refuses fault) : fault.isStructural = false := by
  cases h <;> rfl

theorem Frame.Refuses.not_structural {f : Frame} {fault : EvalFault} (h : f.Refuses fault) :
    fault.isStructural = false := by
  cases h with
  | call name function count fault hp hr => cases hr <;> rfl
  | nested hp => rfl

def EvalError.Found (fault : Option EvalError) (e : EvalError) : Prop :=
  e.fault.isStructural = true → fault = some e

theorem EvalError.found_of_not_structural {fault : Option EvalError} {e : EvalError}
    (h : e.fault.isStructural = false) : e.Found fault := by
  intro hs
  rw [h] at hs
  cases hs

variable {env : Environment} {fault : Option EvalError}

theorem applyOperator_structural (tolerance : Float) (op : Operator) (o : Nat)
    (below : List Pending) (values : List Value) :
    (applyOperator tolerance op o below values).Ends (EvalError.Found fault) fun _ => True :=
  ⟨fun _ he => EvalError.found_of_not_structural (applyOperator_error he).1.not_structural,
    fun _ _ => trivial⟩

theorem collect_structural (f : Frame) (values : List Value) :
    (collect f values).Ends (EvalError.Found fault) fun _ => True :=
  ⟨fun _ he => EvalError.found_of_not_structural (collect_error he).1.not_structural,
    fun _ _ => trivial⟩

theorem Environment.valueAt_structural (n : String) (o : Nat) :
    (env.valueAt n o).Ends (EvalError.Found fault) fun _ => True := by
  unfold Environment.valueAt
  split
  · exact ends_pure trivial
  · exact ends_fail (EvalError.found_of_not_structural rfl)
  · exact ends_fail (EvalError.found_of_not_structural rfl)

theorem Environment.functionAt_structural (n : String) (o : Nat) :
    (env.functionAt n o).Ends (EvalError.Found fault) fun _ => True := by
  unfold Environment.functionAt
  split
  · exact ends_fail (EvalError.found_of_not_structural rfl)
  · exact ends_pure trivial
  · exact ends_fail (EvalError.found_of_not_structural rfl)

namespace Opener

theorem fault?_cons {t : Token} {ts : List Token} (h : ¬ t.Calls ts) (stack : List Opener) :
    fault? (t :: ts) stack =
      match read t stack with
      | .error e => some e
      | .ok stack => fault? ts stack := by
  rw [fault?]
  · rintro n o p ts' rfl rfl
    exact h ⟨⟨n, rfl⟩, _, rfl, rfl⟩

theorem fault?_of_error {t : Token} {ts : List Token} (h : ¬ t.Calls ts) {stack : List Opener}
    {e : EvalError} (hr : read t stack = .error e) : fault? (t :: ts) stack = some e := by
  rw [fault?_cons h, hr]

theorem fault?_of_ok {t : Token} {ts : List Token} (h : ¬ t.Calls ts) {stack rest : List Opener}
    (hr : read t stack = .ok rest) : fault? (t :: ts) stack = fault? ts rest := by
  rw [fault?_cons h, hr]

end Opener

open Opener (fault? fault?_of_error fault?_of_ok)

theorem place_structural {t : Token} {ts : List Token} (hc : ¬ t.Calls ts)
    {pending : List Pending} (hp : ∀ top ∈ top? pending, t.completes top = false)
    (values : List Value) :
    (place env t pending values).Ends (EvalError.Found (fault? (t :: ts) (openers pending)))
      fun s => fault? (t :: ts) (openers pending) = fault? ts (openers s.1) := by
  have reads {rest : List Opener} (h : Opener.read t (openers pending) = .ok rest) :
      fault? (t :: ts) (openers pending) = fault? ts rest := fault?_of_ok hc h
  have fails {f : EvalFault} (h : Opener.read t (openers pending) = .error ⟨f, t.offset⟩) :
      EvalError.Found (fault? (t :: ts) (openers pending)) ⟨f, t.offset⟩ :=
    fun _ => fault?_of_error hc h
  obtain ⟨k, o⟩ := t
  cases k with
  | number x => exact ends_pure (reads rfl)
  | identifier n =>
    exact (Environment.valueAt_structural n o).bind fun v _ => ends_pure (reads rfl)
  | sign s => exact ends_pure (reads rfl)
  | binary b => exact ends_pure (reads rfl)
  | opening d => cases d <;> exact ends_pure (reads rfl)
  | closing d =>
    rcases pending with _ | ⟨⟨top, p⟩ | f, below⟩
    · exact ends_fail (fails rfl)
    · cases hp top rfl
    · have hd := f.purpose.enclosure_delimiter
      simp only [place]
      split
      · rename_i h
        exact (collect_structural f values).bind fun w _ =>
          ends_pure (reads (if_pos (hd.trans h)))
      · rename_i h
        refine ends_fail (fails ?_)
        simp only [Opener.read, openers, hd, if_neg h]
  | comma =>
    rcases pending with _ | ⟨⟨top, p⟩ | ⟨purpose, p, base⟩, below⟩
    · exact ends_fail (fails rfl)
    · cases hp top rfl
    · cases purpose with
      | group => exact ends_fail (fails rfl)
      | call name function => exact ends_pure (reads rfl)
      | vector => exact ends_pure (reads rfl)

theorem absorb_structural {t : Token} {ts : List Token} (hc : ¬ t.Calls ts)
    (pending : List Pending) (values : List Value) :
    (absorb env t pending values).Ends (EvalError.Found (fault? (t :: ts) (openers pending)))
      fun s => fault? (t :: ts) (openers pending) = fault? ts (openers s.1) := by
  induction pending generalizing values with
  | nil => exact place_structural hc (fun _ h => by cases h) values
  | cons p below ih =>
    cases p with
    | frame f => exact place_structural hc (fun _ h => by cases h) values
    | operator top o =>
      rw [absorb]
      split
      · exact (applyOperator_structural env.tolerance top o below values).bind fun w _ => ih w
      · rename_i h
        refine place_structural hc (fun top' ht => ?_) values
        cases ht
        exact Bool.eq_false_iff.mpr h

theorem absorbAll_structural (ts : List Token) (s : Stacks) :
    (absorbAll env ts s).Ends (EvalError.Found (fault? ts (openers s.1)))
      fun s' => fault? ts (openers s.1) = fault? [] (openers s'.1) := by
  rcases tokens_cases ts with rfl | ⟨n, o, p, ts, rfl⟩ | ⟨t, ts, rfl, hc⟩
  · exact ends_pure rfl
  · have hcall : fault? (⟨.identifier n, o⟩ :: ⟨.opening .paren, p⟩ :: ts) (openers s.1) =
        fault? ts (⟨.call, o⟩ :: openers s.1) := by
      rw [fault?]
    rw [absorbAll, hcall]
    refine (Environment.functionAt_structural n o).bind fun f _ => ?_
    exact absorbAll_structural ts (.frame ⟨.call n f, o, s.2.length⟩ :: s.1, s.2)
  · rw [absorbAll_cons hc]
    refine (absorb_structural hc s.1 s.2).bind fun s' hs' => ?_
    rw [hs']
    exact absorbAll_structural ts s'
termination_by ts.length

theorem acts_nil_structural (last : Nat) (pending : List Pending) (values : List Value) :
    (acts env last (reading [] pending values)).Ends
      (EvalError.Found (fault? [] (openers pending)))
      fun _ => fault? [] (openers pending) = none := by
  induction pending generalizing values with
  | nil =>
    rw [acts_nil]
    match values with
    | [] => exact ends_fail (EvalError.found_of_not_structural rfl)
    | [v] => exact ends_pure rfl
    | v :: w :: vs => exact ends_fail (EvalError.found_of_not_structural rfl)
  | cons p below ih =>
    cases p with
    | frame f =>
      rw [acts_nil_frame]
      refine ends_fail fun _ => ?_
      rw [openers, fault?, f.purpose.enclosure_delimiter]
    | operator top o =>
      have hc : Completes top [] := trivial
      rw [acts_apply hc]
      exact (applyOperator_structural env.tolerance top o below values).bind fun w _ => ih w

theorem evaluateTokens_ends (env : Environment) (ts : List Token) :
    (traceTokens ts env).actions.Ends (EvalError.Found (fault? ts []))
      fun _ => fault? ts [] = none := by
  rw [traceTokens_absorbAll]
  have h : (absorbAll env ts ([], [])).Ends (EvalError.Found (fault? ts []))
      fun s => fault? ts [] = fault? [] (openers s.1) := absorbAll_structural ts ([], [])
  refine h.bind fun s hs => ?_
  rw [hs]
  exact acts_nil_structural (lastOffset ts) s.1 s.2

/-- An error about delimiters and commas is the first fault of the matcher, and where the matcher
finds a fault there is no value. -/
theorem evaluateTokens_fault (ts : List Token) (env : Environment) :
    (∀ e, evaluateTokens ts env = .error e → e.fault.isStructural = true → fault? ts [] = some e) ∧
    (∀ e, fault? ts [] = some e → ∀ v, evaluateTokens ts env ≠ .ok v) := by
  have h := evaluateTokens_ends env ts
  refine ⟨fun e he hs => ?_, fun e he v hv => ?_⟩
  · obtain ⟨e', he', rfl⟩ := outcome_eq_error_iff.mp he
    have hw : e'.inWord = e' := EvalError.inWord_eq fun n hn => by
      rw [EvalError.inWord_fault, hn] at hs
      cases hs
    rw [hw] at hs ⊢
    exact h.fault e' he' hs
  · rw [h.result v (outcome_eq_ok_iff.mp hv)] at he
    cases he

theorem evaluateTokens_fault_call :
    let ts : List Token := [⟨.identifier "f", 0⟩, ⟨.opening .paren, 1⟩, ⟨.number 1, 2⟩, ⟨.comma, 3⟩,
      ⟨.opening .bracket, 4⟩, ⟨.number 2, 5⟩, ⟨.closing .paren, 6⟩]
    let env := Environment.empty.withFunction "f" (.unary (· / 2))
    let e : EvalError := ⟨.mismatched .bracket .paren, 6⟩
    evaluateTokens ts env = .error e ∧ fault? ts [] = some e ∧
      ∀ v, evaluateTokens ts env ≠ .ok v := by
  intro ts env e
  have h : evaluateTokens ts env = .error e := by decide +kernel
  have hf := (evaluateTokens_fault ts env).1 e h rfl
  exact ⟨h, hf, (evaluateTokens_fault ts env).2 e hf⟩

end Formula
