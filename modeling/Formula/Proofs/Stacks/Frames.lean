import Mathlib.Data.List.DropRight
import Formula.Proofs.Trace
import Formula.Stacks.Step

/-!
# Operands, frames and the values below them

An operator lacks an operand, or it takes its operands from the top of the values above
the innermost frame. The bases of the frames do not decrease from the outermost frame to
the innermost one, and none exceeds the number of values. Applying operators and closing
a frame keep it so, and they leave the values below the base of the innermost frame as
they are.
-/

namespace Formula

open State Traced

theorem BinaryOp.act_result (tolerance : Float) (b : BinaryOp) (o : Nat) (x y : Value) :
    (b.act tolerance o x y).result = b.apply tolerance o x y := by
  rw [BinaryOp.act, bind_result, lift]
  cases b.apply tolerance o x y <;> rfl

theorem operands_cases (op : Operator) (below : List Pending) (values : List Value) :
    values.length - Pending.base below < op.arity ∨
      (∃ s x rest, op = .sign s ∧ values = x :: rest ∧ Pending.base below ≤ rest.length) ∨
      ∃ b y x rest, op = .binary b ∧ values = y :: x :: rest ∧
        Pending.base below ≤ rest.length := by
  by_cases h : values.length - Pending.base below < op.arity
  · exact .inl h
  · right
    cases op with
    | sign s =>
      rcases values with _ | ⟨x, rest⟩
      · simp [Operator.arity] at h
      · simp only [List.length_cons, Operator.arity] at h
        exact .inl ⟨s, x, rest, rfl, rfl, by omega⟩
    | binary b =>
      rcases values with _ | ⟨y, _ | ⟨x, rest⟩⟩
      · simp [Operator.arity] at h
      · simp only [List.length_singleton, Operator.arity] at h
        omega
      · simp only [List.length_cons, Operator.arity] at h
        exact .inr ⟨b, y, x, rest, rfl, rfl, by omega⟩

theorem applyOperator_lacking (tolerance : Float) {op : Operator} (o : Nat) {below : List Pending}
    {values : List Value} (h : values.length - Pending.base below < op.arity) :
    applyOperator tolerance op o below values = fail (.missingOperands op) o := by
  unfold applyOperator
  rw [if_pos h]

theorem applyOperator_sign (tolerance : Float) (s : Sign) (o : Nat) {below : List Pending}
    (v : Value) {values : List Value} (h : Pending.base below ≤ values.length) :
    applyOperator tolerance (.sign s) o below (v :: values) =
      s.act o v >>= fun w => pure (w :: values) := by
  have hc : ¬ (v :: values).length - Pending.base below < (Operator.sign s).arity := by
    simp only [List.length_cons, Operator.arity]
    omega
  rw [applyOperator, if_neg hc]

theorem applyOperator_binary (tolerance : Float) (b : BinaryOp) (o : Nat) {below : List Pending}
    (x y : Value) {values : List Value} (h : Pending.base below ≤ values.length) :
    applyOperator tolerance (.binary b) o below (y :: x :: values) =
      b.act tolerance o x y >>= fun w => pure (w :: values) := by
  have hc : ¬ (y :: x :: values).length - Pending.base below < (Operator.binary b).arity := by
    simp only [List.length_cons, Operator.arity]
    omega
  rw [applyOperator, if_neg hc]

namespace Pending

def EachFrame (p : Frame → Prop) (pending : List Pending) : Prop := ∀ f, .frame f ∈ pending → p f

def bases : List Pending → List Nat
  | [] => []
  | operator _ _ :: below => bases below
  | frame f :: below => f.base :: bases below

structure Nested (pending : List Pending) (count : Nat) : Prop where
  ordered : (bases pending).Pairwise (· ≥ ·)
  bounded : ∀ b ∈ bases pending, b ≤ count

variable {p : Frame → Prop} {below : List Pending}

@[simp] theorem eachFrame_operator {op : Operator} {o : Nat} :
    EachFrame p (.operator op o :: below) ↔ EachFrame p below := by
  refine ⟨fun h f hf => h f (List.mem_cons_of_mem _ hf), fun h f hf => ?_⟩
  cases hf with
  | tail _ hf => exact h f hf

@[simp] theorem eachFrame_frame {f : Frame} :
    EachFrame p (.frame f :: below) ↔ p f ∧ EachFrame p below := by
  refine ⟨fun h => ⟨h f List.mem_cons_self, fun g hg => h g (List.mem_cons_of_mem _ hg)⟩,
    fun h g hg => ?_⟩
  cases hg with
  | head => exact h.1
  | tail _ hg => exact h.2 g hg

theorem nested_nil (n : Nat) : Nested [] n := ⟨.nil, fun _ hb => by cases hb⟩

@[simp] theorem nested_operator {op : Operator} {o n : Nat} :
    Nested (.operator op o :: below) n ↔ Nested below n :=
  ⟨fun h => ⟨h.ordered, h.bounded⟩, fun h => ⟨h.ordered, h.bounded⟩⟩

@[simp] theorem nested_frame {f : Frame} {n : Nat} :
    Nested (.frame f :: below) n ↔ f.base ≤ n ∧ Nested below f.base := by
  constructor
  · rintro ⟨ho, hb⟩
    obtain ⟨hf, ho⟩ := List.pairwise_cons.mp ho
    exact ⟨hb _ List.mem_cons_self, ho, hf⟩
  · rintro ⟨hn, ho, hf⟩
    refine ⟨List.pairwise_cons.mpr ⟨hf, ho⟩, List.forall_mem_cons.mpr ⟨hn, fun b hb => ?_⟩⟩
    exact (hf b hb).trans hn

theorem Nested.base_le {pending : List Pending} {n : Nat} (h : Nested pending n) :
    base pending ≤ n := by
  induction pending with
  | nil => exact Nat.zero_le n
  | cons x below ih =>
    cases x with
    | operator op o => exact ih (nested_operator.mp h)
    | frame f => exact (nested_frame.mp h).1

theorem Nested.of_base_le {pending : List Pending} {n m : Nat} (h : Nested pending n)
    (hm : base pending ≤ m) : Nested pending m := by
  induction pending with
  | nil => exact nested_nil m
  | cons x below ih =>
    cases x with
    | operator op o => exact nested_operator.mpr (ih (nested_operator.mp h) hm)
    | frame f => exact nested_frame.mpr ⟨hm, (nested_frame.mp h).2⟩

end Pending

theorem rtake_cons {n : Nat} {vs : List Value} (h : n ≤ vs.length) (v : Value) :
    (v :: vs).rtake n = vs.rtake n := by
  rw [List.rtake, List.rtake, List.length_cons, Nat.succ_sub h, List.drop_succ_cons]

theorem rtake_length {n : Nat} {vs : List Value} (h : n ≤ vs.length) :
    (vs.rtake n).length = n := by
  rw [List.rtake, List.length_drop, Nat.sub_sub_self h]

open Pending

variable {tolerance : Float}

theorem applyOperator_ok {op : Operator} {o : Nat} {below : List Pending}
    {values values' : List Value}
    (h : (applyOperator tolerance op o below values).result = .ok values') :
    ∃ operands v rest, values = operands ++ rest ∧ operands.length = op.arity ∧
      values' = v :: rest ∧ base below ≤ rest.length := by
  rcases operands_cases op below values with hc | ⟨s, x, rest, rfl, rfl, hb⟩ |
    ⟨b, y, x, rest, rfl, rfl, hb⟩
  · rw [applyOperator_lacking tolerance o hc] at h
    cases h
  · rw [applyOperator_sign _ _ _ _ hb] at h
    obtain ⟨v, -, hv⟩ := bind_result_eq_ok_iff.mp h
    cases hv
    exact ⟨[x], v, rest, rfl, rfl, rfl, hb⟩
  · rw [applyOperator_binary _ _ _ _ _ hb] at h
    obtain ⟨v, -, hv⟩ := bind_result_eq_ok_iff.mp h
    cases hv
    exact ⟨[y, x], v, rest, rfl, rfl, rfl, hb⟩

/-- What is left of the two stacks when some of the operators on top have been applied. -/
inductive Drains (tolerance : Float) :
    List Pending → List Value → List Pending → List Value → Prop
  | done (pending : List Pending) (values : List Value) :
      Drains tolerance pending values pending values
  | apply {op : Operator} {o : Nat} {below pending : List Pending} {values vs ws : List Value} :
      (applyOperator tolerance op o below values).result = .ok vs →
      Drains tolerance below vs pending ws →
      Drains tolerance (.operator op o :: below) values pending ws

namespace Drains

variable {pending pending' : List Pending} {values values' : List Value}

theorem base_eq (h : Drains tolerance pending values pending' values') :
    base pending' = base pending := by
  induction h with
  | done pending values => rfl
  | apply ho hd ih => exact ih

theorem nested (h : Drains tolerance pending values pending' values')
    (hn : Nested pending values.length) : Nested pending' values'.length := by
  induction h with
  | done pending values => exact hn
  | apply ho hd ih =>
    obtain ⟨operands, v, rest, rfl, -, rfl, hb⟩ := applyOperator_ok ho
    exact ih ((nested_operator.mp hn).of_base_le (Nat.le_succ_of_le hb))

theorem eachFrame {p : Frame → Prop} (h : Drains tolerance pending values pending' values')
    (hp : EachFrame p pending) : EachFrame p pending' := by
  induction h with
  | done pending values => exact hp
  | apply ho hd ih => exact ih (eachFrame_operator.mp hp)

end Drains

def Reduced.pending (r : Reduced) : List Pending :=
  match r.frame with
  | none => []
  | some (f, below) => .frame f :: below

theorem reduceToFrame_drains {pending : List Pending} {values : List Value} {r : Reduced}
    (h : (reduceToFrame tolerance pending values).result = .ok r) :
    Drains tolerance pending values r.pending r.values := by
  induction pending generalizing values with
  | nil =>
    cases h
    exact .done [] values
  | cons x below ih =>
    cases x with
    | frame f =>
      cases h
      exact .done _ values
    | operator op o =>
      obtain ⟨vs, ho, hr⟩ := bind_result_eq_ok_iff.mp h
      exact .apply ho (ih hr)

theorem collect_ok {f : Frame} {values values' : List Value} (hb : f.base ≤ values.length)
    (h : (collect f values).result = .ok values') :
    f.base ≤ values'.length ∧ values'.rtake f.base = values.rtake f.base := by
  have one (v : Value) : f.base ≤ (v :: values.rtake f.base).length ∧
      (v :: values.rtake f.base).rtake f.base = values.rtake f.base := by
    have hl := rtake_length hb
    refine ⟨Nat.le_succ_of_le hl.ge, (rtake_cons hl.ge v).trans ?_⟩
    rw [List.rtake, hl, Nat.sub_self, List.drop_zero]
  obtain ⟨purpose, o, base⟩ := f
  cases purpose with
  | group =>
    cases h
    exact ⟨hb, rfl⟩
  | call name function =>
    obtain ⟨v, -, hv⟩ := bind_result_eq_ok_iff.mp h
    cases hv
    exact one v
  | vector =>
    obtain ⟨v, -, hv⟩ := bind_result_eq_ok_iff.mp h
    cases hv
    exact one v

end Formula
