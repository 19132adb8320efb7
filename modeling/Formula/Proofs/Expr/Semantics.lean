import Formula.Proofs.Faults
import Formula.Proofs.Stacks.Trees

/-!
# The meaning of trees

Rules for the value or the error of a tree, one for each way in which a node can end: what
a name stands for, what comes before a call, in which order items are evaluated and which
error of a node is met first. The rules know no stacks, no traces and no rows of operands.
They give every tree exactly one outcome, which is that of its evaluation, and so the
outcome of the two stacks on its tokens. The end of a name is a sum of words and wraps
around.
-/

namespace Formula

open Traced

inductive Sign.Gives : Sign → Value → Value → Prop
  | plus (v : Value) : Gives .plus v v
  | minus (x : Float) : Gives .minus (.scalar x) (.scalar (-x))
  | negated (xs : List Float) : Gives .minus (.vector xs) (.vector (xs.map (- ·)))

inductive BinaryOp.Gives (tolerance : Float) (b : BinaryOp) (o : Nat) :
    Value → Value → Except EvalError Value → Prop
  | scalars (x y : Float) :
      Gives tolerance b o (.scalar x) (.scalar y) (.ok (.scalar (b.eval tolerance x y)))
  | scalarLeft (x : Float) (ys : List Float) :
      Gives tolerance b o (.scalar x) (.vector ys) (.ok (.vector (ys.map (b.eval tolerance x))))
  | scalarRight (xs : List Float) (y : Float) :
      Gives tolerance b o (.vector xs) (.scalar y)
        (.ok (.vector (xs.map fun x => b.eval tolerance x y)))
  | vectors (xs ys : List Float) : xs.length = ys.length →
      Gives tolerance b o (.vector xs) (.vector ys)
        (.ok (.vector (List.zipWith (b.eval tolerance) xs ys)))
  | lengths (xs ys : List Float) : xs.length ≠ ys.length →
      Gives tolerance b o (.vector xs) (.vector ys)
        (.error ⟨.shapeMismatch b.symbol xs.length ys.length, o⟩)

/-- What stands behind the name of a call, or why it cannot be called. -/
inductive Environment.Calls (env : Environment) (n : String) : Except EvalFault Function → Prop
  | value {v : Value} : env.valueOf? n = some v → Calls env n (.error (.notAFunction n))
  | function {f : Function} : env.valueOf? n = none → env.functionOf? n = some f →
      Calls env n (.ok f)
  | unbound : env.valueOf? n = none → env.functionOf? n = none →
      Calls env n (.error (.unknownIdentifier n))

mutual

inductive Expr.Evaluates (env : Environment) : Expr → Except EvalError Value → Prop
  | number (x : Float) (o : Nat) : Expr.Evaluates env (.number x o) (.ok (.scalar x))
  | bound {n : String} {v : Value} (o : Nat) : env.valueOf? n = some v →
      Expr.Evaluates env (.name n o) (.ok v)
  | uncalled {n : String} {f : Function} (o : Nat) :
      env.valueOf? n = none → env.functionOf? n = some f →
      Expr.Evaluates env (.name n o)
        (.error ⟨.missingCall n, (o + Text.byteLength n.toList) % UInt64.size⟩)
  | unbound {n : String} (o : Nat) : env.valueOf? n = none → env.functionOf? n = none →
      Expr.Evaluates env (.name n o) (.error ⟨.unknownIdentifier n, o⟩)
  | nullary {n : String} {f : Function} (o p c : Nat) : env.Calls n (.ok f) →
      Expr.Evaluates env (.nullary n o p c) (f.call n [] o)
  | nullaryName {n : String} {fault : EvalFault} (o p c : Nat) : env.Calls n (.error fault) →
      Expr.Evaluates env (.nullary n o p c) (.error ⟨fault, o⟩)
  | call {n : String} {f : Function} {args : Items} {vs : List Value} (o p c : Nat) :
      env.Calls n (.ok f) → Items.Evaluates env args (.ok vs) →
      Expr.Evaluates env (.call n o p args c) (f.call n vs o)
  | callName {n : String} {fault : EvalFault} (o p : Nat) (args : Items) (c : Nat) :
      env.Calls n (.error fault) → Expr.Evaluates env (.call n o p args c) (.error ⟨fault, o⟩)
  | callArgument {n : String} {f : Function} {args : Items} {e : EvalError} (o p c : Nat) :
      env.Calls n (.ok f) → Items.Evaluates env args (.error e) →
      Expr.Evaluates env (.call n o p args c) (.error e)
  | group {e : Expr} {r : Except EvalError Value} (p c : Nat) : Expr.Evaluates env e r →
      Expr.Evaluates env (.group p e c) r
  | vector {items : Items} {xs : List Float} (p c : Nat) :
      Items.Evaluates env items (.ok (xs.map .scalar)) →
      Expr.Evaluates env (.vector p items c) (.ok (.vector xs))
  | nested {items : Items} {vs : List Value} {xs : List Float} (p c : Nat) :
      Items.Evaluates env items (.ok vs) → .vector xs ∈ vs →
      Expr.Evaluates env (.vector p items c) (.error ⟨.nestedVector, p⟩)
  | vectorItem {items : Items} {e : EvalError} (p c : Nat) :
      Items.Evaluates env items (.error e) → Expr.Evaluates env (.vector p items c) (.error e)
  | sign {s : Sign} {e : Expr} {v w : Value} (o : Nat) :
      Expr.Evaluates env e (.ok v) → s.Gives v w → Expr.Evaluates env (.sign s o e) (.ok w)
  | signOperand {e : Expr} {err : EvalError} (s : Sign) (o : Nat) :
      Expr.Evaluates env e (.error err) → Expr.Evaluates env (.sign s o e) (.error err)
  | binary {b : BinaryOp} {l r : Expr} {x y : Value} {w : Except EvalError Value} (o : Nat) :
      Expr.Evaluates env l (.ok x) → Expr.Evaluates env r (.ok y) →
      b.Gives env.tolerance o x y w → Expr.Evaluates env (.binary b o l r) w
  | binaryLeft {l : Expr} {e : EvalError} (b : BinaryOp) (o : Nat) (r : Expr) :
      Expr.Evaluates env l (.error e) → Expr.Evaluates env (.binary b o l r) (.error e)
  | binaryRight {l r : Expr} {x : Value} {e : EvalError} (b : BinaryOp) (o : Nat) :
      Expr.Evaluates env l (.ok x) → Expr.Evaluates env r (.error e) →
      Expr.Evaluates env (.binary b o l r) (.error e)

inductive Items.Evaluates (env : Environment) : Items → Except EvalError (List Value) → Prop
  | one {e : Expr} {v : Value} : Expr.Evaluates env e (.ok v) →
      Items.Evaluates env (.one e) (.ok [v])
  | oneError {e : Expr} {err : EvalError} : Expr.Evaluates env e (.error err) →
      Items.Evaluates env (.one e) (.error err)
  | more {e : Expr} {rest : Items} {v : Value} {vs : List Value} (comma : Nat) :
      Expr.Evaluates env e (.ok v) → Items.Evaluates env rest (.ok vs) →
      Items.Evaluates env (.more e comma rest) (.ok (v :: vs))
  | moreFirst {e : Expr} {err : EvalError} (comma : Nat) (rest : Items) :
      Expr.Evaluates env e (.error err) → Items.Evaluates env (.more e comma rest) (.error err)
  | moreRest {e : Expr} {rest : Items} {v : Value} {err : EvalError} (comma : Nat) :
      Expr.Evaluates env e (.ok v) → Items.Evaluates env rest (.error err) →
      Items.Evaluates env (.more e comma rest) (.error err)

end

section Nodes

theorem Sign.gives_iff {s : Sign} {v w : Value} : s.Gives v w ↔ s.apply v = w := by
  constructor
  · intro h
    cases h <;> rfl
  · rintro rfl
    cases s with
    | plus => exact .plus v
    | minus =>
      cases v with
      | scalar x => exact .minus x
      | vector xs => exact .negated xs

theorem map_range_getD (f : Float → Float) (xs : List Float) :
    (List.range xs.length).map (fun i => f (xs.getD i 0)) = xs.map f := by
  refine List.ext_getElem (by simp) fun i hi _ => ?_
  simp at hi
  simp [hi]

theorem map_range_zipWith (f : Float → Float → Float) {xs ys : List Float}
    (h : xs.length = ys.length) :
    (List.range xs.length).map (fun i => f (xs.getD i 0) (ys.getD i 0)) =
      List.zipWith f xs ys := by
  refine List.ext_getElem (by simp [h]) fun i hi _ => ?_
  simp only [List.length_map, List.length_range] at hi
  have hj : i < ys.length := h ▸ hi
  simp [hi, hj]

theorem BinaryOp.apply_vectors (tolerance : Float) (b : BinaryOp) (o : Nat) (xs ys : List Float) :
    b.apply tolerance o (.vector xs) (.vector ys) =
      if xs.length = ys.length then .ok (.vector (List.zipWith (b.eval tolerance) xs ys))
      else .error ⟨.shapeMismatch b.symbol xs.length ys.length, o⟩ := by
  simp only [apply, broadcast, commonLength]
  by_cases h : xs.length = ys.length
  · rw [if_pos h, if_pos h]
    exact congrArg (fun zs => Except.ok (Value.vector zs)) (map_range_zipWith (b.eval tolerance) h)
  · rw [if_neg h, if_neg h]

theorem BinaryOp.gives_iff {tolerance : Float} {b : BinaryOp} {o : Nat} {x y : Value}
    {w : Except EvalError Value} : b.Gives tolerance o x y w ↔ b.apply tolerance o x y = w := by
  have hl (x : Float) (ys : List Float) : b.apply tolerance o (.scalar x) (.vector ys) =
      .ok (.vector (ys.map (b.eval tolerance x))) :=
    congrArg (fun zs => Except.ok (Value.vector zs)) (map_range_getD (b.eval tolerance x) ys)
  have hr (xs : List Float) (y : Float) : b.apply tolerance o (.vector xs) (.scalar y) =
      .ok (.vector (xs.map fun x => b.eval tolerance x y)) :=
    congrArg (fun zs => Except.ok (Value.vector zs))
      (map_range_getD (fun x => b.eval tolerance x y) xs)
  constructor
  · intro h
    cases h with
    | scalars x y => rfl
    | scalarLeft x ys => exact hl x ys
    | scalarRight xs y => exact hr xs y
    | vectors xs ys h => rw [apply_vectors, if_pos h]
    | lengths xs ys h => rw [apply_vectors, if_neg h]
  · rintro rfl
    cases x with
    | scalar x =>
      cases y with
      | scalar y => exact .scalars x y
      | vector ys => exact hl x ys ▸ .scalarLeft x ys
    | vector xs =>
      cases y with
      | scalar y => exact hr xs y ▸ .scalarRight xs y
      | vector ys =>
        rw [apply_vectors]
        split
        · exact .vectors xs ys ‹_›
        · exact .lengths xs ys ‹_›

theorem BinaryOp.act_outcome (tolerance : Float) (b : BinaryOp) (o : Nat) (x y : Value) :
    (b.act tolerance o x y).outcome = b.apply tolerance o x y := by
  rw [outcome, BinaryOp.act_result]
  cases h : b.apply tolerance o x y with
  | ok v => rfl
  | error e =>
    rw [BinaryOp.apply_eq_broadcast] at h
    obtain ⟨left, right, rfl⟩ := broadcast_error h
    rfl

theorem Function.act_outcome (f : Function) (n : String) (o : Nat) (args : List Value) :
    (f.act n o args).outcome = f.call n args o := by
  change (f.call n args o).mapError EvalError.inWord = f.call n args o
  cases h : f.call n args o with
  | ok v => rfl
  | error e =>
    obtain ⟨fault, p⟩ := e
    cases (Function.call_error h).1 <;> rfl

variable {env : Environment}

theorem Environment.Calls.functionAt {n : String} {r : Except EvalFault Function}
    (h : env.Calls n r) (o : Nat) :
    (env.functionAt n o).outcome = r.mapError fun fault => ⟨fault, o⟩ := by
  unfold Environment.functionAt
  cases h with
  | value h => rw [h]; rfl
  | function hv hf => rw [hv, hf]; rfl
  | unbound hv hf => rw [hv, hf]; rfl

theorem Environment.exists_calls (env : Environment) (n : String) : ∃ r, env.Calls n r := by
  cases hv : env.valueOf? n with
  | some v => exact ⟨_, .value hv⟩
  | none =>
    cases hf : env.functionOf? n with
    | some f => exact ⟨_, .function hv hf⟩
    | none => exact ⟨_, .unbound hv hf⟩

theorem flatVector_nested {p : Nat} {xs : List Float} {vs : List Value} (h : .vector xs ∈ vs) :
    flatVector p vs = .fail .nestedVector p :=
  if_pos (List.any_eq_true.mpr ⟨_, h, rfl⟩)

theorem exists_scalars {vs : List Value} (h : ∀ xs, .vector xs ∉ vs) :
    ∃ xs : List Float, vs = xs.map .scalar := by
  induction vs with
  | nil => exact ⟨[], rfl⟩
  | cons v vs ih =>
    cases v with
    | vector xs => exact absurd List.mem_cons_self (h xs)
    | scalar x =>
      obtain ⟨xs, rfl⟩ := ih fun ys hy => h ys (List.mem_cons_of_mem _ hy)
      exact ⟨x :: xs, rfl⟩

end Nodes

section Trees

variable {env : Environment}

mutual

theorem Expr.Evaluates.outcome {e : Expr} {r : Except EvalError Value} (h : e.Evaluates env r) :
    (e.evaluate env).outcome = r := by
  match h with
  | .number x o => rfl
  | .bound o hv => rw [Expr.evaluate, Environment.valueAt, hv]; rfl
  | .uncalled o hv hf => rw [Expr.evaluate, Environment.valueAt, hv, hf]; rfl
  | .unbound o hv hf => rw [Expr.evaluate, Environment.valueAt, hv, hf]; rfl
  | .nullary o p c hc =>
    rw [Expr.evaluate]
    exact (bind_outcome_ok (hc.functionAt o)).trans (Function.act_outcome _ _ o [])
  | .nullaryName o p c hc =>
    rw [Expr.evaluate]
    exact bind_outcome_error (hc.functionAt o)
  | .call o p c hc ha =>
    rw [Expr.evaluate]
    exact (bind_outcome_ok (hc.functionAt o)).trans
      ((bind_outcome_ok ha.outcome).trans (Function.act_outcome _ _ o _))
  | .callName o p args c hc =>
    rw [Expr.evaluate]
    exact bind_outcome_error (hc.functionAt o)
  | .callArgument o p c hc ha =>
    rw [Expr.evaluate]
    exact (bind_outcome_ok (hc.functionAt o)).trans (bind_outcome_error ha.outcome)
  | .group p c he => exact he.outcome
  | .vector p c hi =>
    rw [Expr.evaluate, bind_outcome_ok hi.outcome, flatVector_scalars]
    rfl
  | .nested p c hi hm =>
    rw [Expr.evaluate, bind_outcome_ok hi.outcome, flatVector_nested hm]
    rfl
  | .vectorItem p c hi => rw [Expr.evaluate, bind_outcome_error hi.outcome]
  | .sign o he hs =>
    rw [Expr.evaluate, bind_outcome_ok he.outcome]
    exact congrArg Except.ok (Sign.gives_iff.mp hs)
  | .signOperand s o he => rw [Expr.evaluate, bind_outcome_error he.outcome]
  | .binary o hl hr hb =>
    rw [Expr.evaluate, bind_outcome_ok hl.outcome, bind_outcome_ok hr.outcome,
      BinaryOp.act_outcome]
    exact BinaryOp.gives_iff.mp hb
  | .binaryLeft b o r hl => rw [Expr.evaluate, bind_outcome_error hl.outcome]
  | .binaryRight b o hl hr =>
    rw [Expr.evaluate, bind_outcome_ok hl.outcome, bind_outcome_error hr.outcome]

theorem Items.Evaluates.outcome {items : Items} {r : Except EvalError (List Value)}
    (h : items.Evaluates env r) : (items.evaluate env).outcome = r := by
  match h with
  | .one he =>
    rw [Items.evaluate, bind_outcome_ok he.outcome]
    rfl
  | .oneError he => rw [Items.evaluate, bind_outcome_error he.outcome]
  | .more comma he hs =>
    rw [Items.evaluate, bind_outcome_ok he.outcome, bind_outcome_ok hs.outcome]
    rfl
  | .moreFirst comma rest he => rw [Items.evaluate, bind_outcome_error he.outcome]
  | .moreRest comma he hs =>
    rw [Items.evaluate, bind_outcome_ok he.outcome, bind_outcome_error hs.outcome]

end

mutual

theorem Expr.exists_evaluates (env : Environment) (e : Expr) : ∃ r, e.Evaluates env r := by
  match e with
  | .number x o => exact ⟨_, .number x o⟩
  | .name n o =>
    cases hv : env.valueOf? n with
    | some v => exact ⟨_, .bound o hv⟩
    | none =>
      cases hf : env.functionOf? n with
      | some f => exact ⟨_, .uncalled o hv hf⟩
      | none => exact ⟨_, .unbound o hv hf⟩
  | .nullary n o p c =>
    obtain ⟨fault | f, hc⟩ := env.exists_calls n
    · exact ⟨_, .nullaryName o p c hc⟩
    · exact ⟨_, .nullary o p c hc⟩
  | .call n o p args c =>
    obtain ⟨fault | f, hc⟩ := env.exists_calls n
    · exact ⟨_, .callName o p args c hc⟩
    · obtain ⟨err | vs, ha⟩ := args.exists_evaluates env
      · exact ⟨_, .callArgument o p c hc ha⟩
      · exact ⟨_, .call o p c hc ha⟩
  | .group p e c =>
    obtain ⟨r, he⟩ := e.exists_evaluates env
    exact ⟨_, .group p c he⟩
  | .vector p items c =>
    obtain ⟨err | vs, hi⟩ := items.exists_evaluates env
    · exact ⟨_, .vectorItem p c hi⟩
    · by_cases hn : ∃ xs, .vector xs ∈ vs
      · obtain ⟨xs, hm⟩ := hn
        exact ⟨_, .nested p c hi hm⟩
      · obtain ⟨xs, rfl⟩ := exists_scalars fun xs hm => hn ⟨xs, hm⟩
        exact ⟨_, .vector p c hi⟩
  | .sign s o e =>
    obtain ⟨err | v, he⟩ := e.exists_evaluates env
    · exact ⟨_, .signOperand s o he⟩
    · exact ⟨_, .sign o he (Sign.gives_iff.mpr rfl)⟩
  | .binary b o l r =>
    obtain ⟨err | x, hl⟩ := l.exists_evaluates env
    · exact ⟨_, .binaryLeft b o r hl⟩
    · obtain ⟨err | y, hr⟩ := r.exists_evaluates env
      · exact ⟨_, .binaryRight b o hl hr⟩
      · exact ⟨_, .binary o hl hr (BinaryOp.gives_iff.mpr rfl)⟩

theorem Items.exists_evaluates (env : Environment) (items : Items) :
    ∃ r, items.Evaluates env r := by
  match items with
  | .one e =>
    obtain ⟨err | v, he⟩ := e.exists_evaluates env
    · exact ⟨_, .oneError he⟩
    · exact ⟨_, .one he⟩
  | .more e comma rest =>
    obtain ⟨err | v, he⟩ := e.exists_evaluates env
    · exact ⟨_, .moreFirst comma rest he⟩
    · obtain ⟨err | vs, hs⟩ := rest.exists_evaluates env
      · exact ⟨_, .moreRest comma he hs⟩
      · exact ⟨_, .more comma he hs⟩

end

theorem Expr.evaluates_iff {e : Expr} {r : Except EvalError Value} :
    e.Evaluates env r ↔ (e.evaluate env).outcome = r := by
  refine ⟨fun h => h.outcome, ?_⟩
  rintro rfl
  obtain ⟨r, hr⟩ := e.exists_evaluates env
  exact hr.outcome ▸ hr

end Trees

end Formula
