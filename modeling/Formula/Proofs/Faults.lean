import Formula.Proofs.Elementwise
import Formula.Proofs.Stacks.Trees

/-!
# Faults of the parts

The errors that applying an operator, calling a function and closing a frame can end
with, and where. The offset is always that of the operator, of the name that is called
or of the opening bracket, and no such error is about a delimiter. Where the operands
are there and the names are bound, the errors are those that a source can have, and an
operator and a frame leave one value where their operands have been.
-/

namespace Formula

open State Traced

theorem broadcast_error {name : String} {operands : List Value} {o : Nat}
    {f : List Float → Float} {e : EvalError} (h : broadcast name operands o f = .error e) :
    ∃ left right, e = ⟨.shapeMismatch name left right, o⟩ := by
  unfold broadcast at h
  split at h <;> cases h
  exact ⟨_, _, rfl⟩

theorem BinaryOp.act_error {tolerance : Float} {b : BinaryOp} {o : Nat} {x y : Value}
    {e : EvalError} (h : (b.act tolerance o x y).result = .error e) :
    ∃ left right, e = ⟨.shapeMismatch b.symbol left right, o⟩ := by
  rw [BinaryOp.act_result, BinaryOp.apply_eq_broadcast] at h
  exact broadcast_error h

inductive Function.Refuses (f : Function) (name : String) (count : Nat) : EvalFault → Prop
  | count : f.arity.admits count = false → Refuses f name count (.wrongCount name f.arity count)
  | shape (left right : Nat) : Refuses f name count (.shapeMismatch name left right)
  | argument (details : String) : Refuses f name count (.invalidArgument name details)

theorem Function.call_error {f : Function} {name : String} {args : List Value} {o : Nat}
    {e : EvalError} (h : f.call name args o = .error e) :
    f.Refuses name args.length e.fault ∧ e.offset = o := by
  unfold Function.call at h
  split at h
  · split at h
    · obtain ⟨left, right, rfl⟩ := broadcast_error h
      exact ⟨.shape left right, rfl⟩
    · rename_i g hg
      cases hr : g args with
      | ok v =>
        rw [hr] at h
        cases h
      | error details =>
        rw [hr] at h
        cases h
        exact ⟨.argument details, rfl⟩
  · rename_i ha
    cases h
    exact ⟨.count (Bool.eq_false_iff.mpr ha), rfl⟩

inductive Operator.Refuses (op : Operator) : EvalFault → Prop
  | operands : Refuses op (.missingOperands op)
  | shape (b : BinaryOp) (left right : Nat) : op = .binary b →
      Refuses op (.shapeMismatch b.symbol left right)

theorem applyOperator_error {tolerance : Float} {op : Operator} {o : Nat} {below : List Pending}
    {values : List Value} {e : EvalError}
    (h : (applyOperator tolerance op o below values).result = .error e) :
    op.Refuses e.fault ∧ e.offset = o := by
  rcases operands_cases op below values with hc | ⟨s, x, rest, rfl, rfl, hb⟩ |
    ⟨b, y, x, rest, rfl, rfl, hb⟩
  · rw [applyOperator_lacking tolerance o hc] at h
    cases h
    exact ⟨.operands, rfl⟩
  · rw [applyOperator_sign _ _ _ _ hb] at h
    cases h
  · rw [applyOperator_binary _ _ _ _ _ hb, bind_result] at h
    cases hr : (b.act tolerance o x y).result with
    | ok v =>
      rw [hr] at h
      cases h
    | error e' =>
      rw [hr] at h
      cases h
      obtain ⟨left, right, rfl⟩ := BinaryOp.act_error hr
      exact ⟨.shape b left right rfl, rfl⟩

inductive Frame.Refuses (f : Frame) : EvalFault → Prop
  | call (name : String) (function : Function) (count : Nat) (fault : EvalFault) :
      f.purpose = .call name function → function.Refuses name count fault → Refuses f fault
  | nested : f.purpose = .vector → Refuses f .nestedVector

theorem collect_error {f : Frame} {values : List Value} {e : EvalError}
    (h : (State.collect f values).result = .error e) : f.Refuses e.fault ∧ e.offset = f.offset := by
  obtain ⟨purpose, o, base⟩ := f
  cases purpose with
  | group => cases h
  | call name function =>
    simp only [State.collect, bind_result] at h
    change Except.bind (function.call name _ o) _ = _ at h
    cases hc : function.call name (values.take (values.length - base)).reverse o with
    | ok v =>
      rw [hc] at h
      cases h
    | error e' =>
      rw [hc] at h
      cases h
      obtain ⟨hr, ho⟩ := Function.call_error hc
      exact ⟨.call name function _ _ rfl hr, ho⟩
  | vector =>
    simp only [State.collect, flatVector] at h
    split at h
    · cases h
      exact ⟨.nested rfl, rfl⟩
    · cases h

theorem Sign.act_yields (s : Sign) (o : Nat) (v : Value) : (s.act o v).Yields fun _ => True := by
  refine ⟨fun e he => ?_, fun _ _ => trivial⟩
  cases he

theorem BinaryOp.act_yields (tolerance : Float) (b : BinaryOp) (o : Nat) (x y : Value) :
    (b.act tolerance o x y).Yields fun _ => True := by
  refine ⟨fun e he => ?_, fun _ _ => trivial⟩
  obtain ⟨left, right, rfl⟩ := BinaryOp.act_error he
  rfl

theorem Function.act_yields (f : Function) (name : String) (o : Nat) (args : List Value) :
    (f.act name o args).Yields fun _ => True := by
  refine ⟨fun e he => ?_, fun _ _ => trivial⟩
  change f.call name args o = .error e at he
  obtain ⟨fault, p⟩ := e
  cases (Function.call_error he).1 <;> rfl

theorem flatVector_yields (o : Nat) (items : List Value) :
    (flatVector o items).Yields fun _ => True := by
  unfold flatVector
  split
  · exact yields_fail rfl o
  · exact yields_pure trivial

theorem applyOperator_yields (tolerance : Float) (op : Operator) (o : Nat) {below : List Pending}
    {values : List Value} {m : Nat} (hb : Pending.base below ≤ m)
    (hv : values.length = m + op.arity) :
    (applyOperator tolerance op o below values).Yields fun w => w.length = m + 1 := by
  cases op with
  | sign s =>
    obtain ⟨v, rest, rfl, hr⟩ : ∃ v rest, values = v :: rest ∧ rest.length = m := by
      cases values with
      | nil => cases hv
      | cons v rest => exact ⟨v, rest, rfl, Nat.succ.inj hv⟩
    rw [applyOperator_sign _ _ _ _ (hr ▸ hb)]
    refine (s.act_yields o v).bind fun w _ => yields_pure ?_
    rw [List.length_cons, hr]
  | binary b =>
    obtain ⟨y, x, rest, rfl, hr⟩ : ∃ y x rest, values = y :: x :: rest ∧ rest.length = m := by
      match values, hv with
      | y :: x :: rest, hv => exact ⟨y, x, rest, rfl, Nat.succ.inj (Nat.succ.inj hv)⟩
    rw [applyOperator_binary _ _ _ _ _ (hr ▸ hb)]
    refine (b.act_yields tolerance o x y).bind fun w _ => yields_pure ?_
    rw [List.length_cons, hr]

theorem collect_yields {f : Frame} {values : List Value} (hb : f.base ≤ values.length)
    (hg : f.purpose = .group → values.length = f.base + 1) :
    (collect f values).Yields fun w => w.length = f.base + 1 := by
  obtain ⟨purpose, o, base⟩ := f
  have hd (w : Value) :
      (w :: values.drop (values.length - base)).length = base + 1 := by
    rw [List.length_cons, List.length_drop]
    dsimp only at hb
    omega
  cases purpose with
  | group => exact yields_pure (hg rfl)
  | call name function =>
    exact (function.act_yields name o _).bind fun w _ => yields_pure (hd w)
  | vector => exact (flatVector_yields o _).bind fun w _ => yields_pure (hd w)

theorem Environment.valueAt_yields {env : Environment} {n : String}
    (h : (env.valueOf? n).isSome ∨ (env.functionOf? n).isSome) (o : Nat) :
    (env.valueAt n o).Yields fun _ => True := by
  unfold Environment.valueAt
  split
  · exact yields_pure trivial
  · exact yields_fail rfl _
  · simp_all

theorem Environment.functionAt_yields {env : Environment} {n : String}
    (h : (env.valueOf? n).isSome ∨ (env.functionOf? n).isSome) (o : Nat) :
    (env.functionAt n o).Yields fun _ => True := by
  unfold Environment.functionAt
  split
  · exact yields_fail rfl _
  · exact yields_pure trivial
  · simp_all

end Formula
