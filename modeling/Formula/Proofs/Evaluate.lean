import Mathlib.Data.List.Basic
import Formula.Proofs.Stacks.Drafts

/-!
# Sources that evaluate

The tokens of a source may stand where they do, so their evaluation has no internal
error, and if it gives a value then they are written as exactly one tree, which has
that value. Local rules and balanced frames leave nothing but the grammar.
-/

namespace Formula

open State Traced

theorem binds_of_tokenize {source : String} {env : Environment} {ts : List Token}
    (h : tokenize source env.identifiers = .ok ts) : env.Binds ts := by
  intro n o hn
  exact (env.mem_identifiers_iff n).mp (tokenize_names h hn)

theorem traceTokens_yields {source : String} {env : Environment} {ts : List Token}
    (h : tokenize source env.identifiers = .ok ts) :
    (traceTokens ts env).actions.Yields fun _ => (Expr.parse? ts).isSome = true :=
  Draft.runs ts .empty .nil rfl (tokenize_accepts h) (binds_of_tokenize h)

theorem evaluate_eq_parse_error {source : String} {env : Environment} {e : ParseError}
    (h : evaluate source env = .error (.parse e)) :
    tokenize source env.identifiers = .error e := by
  unfold evaluate at h
  split at h
  · rename_i e' he
    cases h
    exact he
  · rename_i ts hts
    cases hr : (traceTokens ts env).result <;> rw [hr] at h <;> cases h

theorem evaluate_eq_eval_error {source : String} {env : Environment} {e : EvalError}
    (h : evaluate source env = .error (.eval e)) :
    ∃ ts, tokenize source env.identifiers = .ok ts ∧ (traceTokens ts env).result = .error e := by
  unfold evaluate at h
  split at h
  · cases h
  · rename_i ts hts
    refine ⟨ts, hts, ?_⟩
    cases hr : (traceTokens ts env).result with
    | ok v =>
      rw [hr] at h
      cases h
    | error e' =>
      rw [hr] at h
      cases h
      rfl

theorem evaluate_eval_error {source : String} {env : Environment} {e : EvalError}
    (h : evaluate source env = .error (.eval e)) : e.fault.isInternal = false := by
  obtain ⟨ts, hts, he⟩ := evaluate_eq_eval_error h
  exact (traceTokens_yields hts).fault e he

theorem evaluate_eq_ok {source : String} {env : Environment} {v : Value}
    (h : evaluate source env = .ok v) :
    ∃ ts, tokenize source env.identifiers = .ok ts ∧
      (traceTokens ts env).actions.result = .ok v := by
  unfold evaluate at h
  split at h
  · cases h
  · rename_i ts hts
    refine ⟨ts, hts, ?_⟩
    cases hr : (traceTokens ts env).result with
    | ok w =>
      rw [hr] at h
      cases h
      exact hr
    | error e =>
      rw [hr] at h
      cases h

/-- No source makes the evaluator run short of operands, leave values over or meet a name that is
not bound. -/
theorem evaluate_ne_internal (source : String) (env : Environment) :
    (∀ op o, evaluate source env ≠ .error (.eval ⟨.missingOperands op, o⟩)) ∧
    (∀ o, evaluate source env ≠ .error (.eval ⟨.noValue, o⟩)) ∧
    (∀ count o, evaluate source env ≠ .error (.eval ⟨.leftoverValues count, o⟩)) ∧
    (∀ name o, evaluate source env ≠ .error (.eval ⟨.unknownIdentifier name, o⟩)) := by
  refine ⟨?_, ?_, ?_, ?_⟩
  · intro op o h
    cases evaluate_eval_error h
  · intro o h
    cases evaluate_eval_error h
  · intro count o h
    cases evaluate_eval_error h
  · intro name o h
    cases evaluate_eval_error h

/-- A source that has a value is written as one tree of the grammar, and has the value of the
tree. -/
theorem evaluate_derived {source : String} {env : Environment} {v : Value}
    (h : evaluate source env = .ok v) :
    ∃ ts, tokenize source env.identifiers = .ok ts ∧
      ∃ t, Expr.Derived .equality t ∧ t.tokens = ts ∧ (t.evaluate env).result = .ok v ∧
        ∀ u, Expr.Derived .equality u → u.tokens = ts → u = t := by
  obtain ⟨ts, hts, hv⟩ := evaluate_eq_ok h
  obtain ⟨t, ht⟩ := Option.isSome_iff_exists.mp ((traceTokens_yields hts).result v hv)
  obtain ⟨hs, rfl⟩ := Expr.parse?_eq_some_iff.mp ht
  rw [traceTokens_actions hs] at hv
  refine ⟨t.tokens, hts, t, derived_iff.mpr hs, rfl, hv, ?_⟩
  intro u hu hut
  exact Expr.tokens_injective (derived_iff.mp hu) hs hut

theorem evaluate_derived_vector :
    evaluate "-1+2*[3,4]" .empty = .ok (.vector [5, 7]) ∧
      ∃ ts, tokenize "-1+2*[3,4]" Environment.empty.identifiers = .ok ts ∧
        ∃ t, Expr.Derived .equality t ∧ t.tokens = ts ∧
          (t.evaluate .empty).result = .ok (.vector [5, 7]) ∧
          ∀ u, Expr.Derived .equality u → u.tokens = ts → u = t := by
  have h : evaluate "-1+2*[3,4]" .empty = .ok (.vector [5, 7]) := by decide +kernel
  exact ⟨h, evaluate_derived h⟩

end Formula
