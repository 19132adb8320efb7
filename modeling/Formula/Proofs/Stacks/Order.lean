import Mathlib.Data.List.Chain
import Formula.Proofs.Stacks.Moves

/-!
# The order of pending operators

Operators that no frame separates stand in order: each may be put above the one that lies
next below it. Precedence does not grow along the stack, since a sign is put above a power
that binds tighter. But an infix operator above a sign binds tighter than all that lies
below the sign, so it may be put above each of them too.
-/

namespace Formula

open State Traced

namespace Operator

theorem binary_shiftsOver {b : BinaryOp} {pending : Operator} :
    (binary b).shiftsOver pending = true ↔ pending.precedence < (binary b).precedence ∨
      (binary b).precedence = pending.precedence ∧ (binary b).grouping = .right := by
  simp only [shiftsOver, isSign, Bool.false_or, Bool.or_eq_true, Bool.and_eq_true,
    decide_eq_true_eq, beq_iff_eq]

abbrev Descends (ops : List Operator) : Prop :=
  ops.IsChain fun upper lower => upper.shiftsOver lower = true

theorem Descends.shiftsOver {b : BinaryOp} {ops : List Operator}
    (h : Descends (binary b :: ops)) : ∀ op ∈ ops, (binary b).shiftsOver op = true := by
  induction ops with
  | nil => exact List.forall_mem_nil _
  | cons p ops ih =>
    obtain ⟨hp, hops⟩ := List.isChain_cons_cons.mp h
    refine List.forall_mem_cons.mpr ⟨hp, ih ?_⟩
    -- what lies below `p` lies below the infix operator without `p` between them
    cases ops with
    | nil => exact List.isChain_singleton _
    | cons q ops =>
      obtain ⟨hq, hops⟩ := List.isChain_cons_cons.mp hops
      exact List.isChain_cons_cons.mpr ⟨shiftsOver_trans hp hq, hops⟩

theorem Descends.pairwise {ops : List Operator} (h : Descends ops) :
    ops.Pairwise fun upper lower => upper.isSign = false → upper.shiftsOver lower = true := by
  induction ops with
  | nil => exact .nil
  | cons op ops ih =>
    refine List.pairwise_cons.mpr ⟨fun q hq hop => ?_, ih h.tail⟩
    cases op with
    | sign s => cases hop
    | binary b => exact h.shiftsOver q hq

end Operator

namespace Pending

def row (ops : List (Operator × Nat)) : List Pending := ops.map fun x => operator x.1 x.2

/-- Every operator may be put above the operator next below it, if there is one in its frame. -/
def Ordered : List Pending → Prop
  | [] => True
  | operator op _ :: below => op.ShiftsOnto (top? below) ∧ Ordered below
  | frame _ :: below => Ordered below

theorem Ordered.below {above below : List Pending} (h : Ordered (above ++ below)) :
    Ordered below := by
  induction above with
  | nil => exact h
  | cons x above ih =>
    cases x with
    | operator op o => exact ih h.2
    | frame f => exact ih h

theorem Ordered.descends {ops : List (Operator × Nat)} {below : List Pending}
    (h : Ordered (row ops ++ below)) : Operator.Descends (ops.map Prod.fst) := by
  induction ops with
  | nil => exact .nil
  | cons x ops ih =>
    obtain ⟨hx, hops⟩ := h
    cases ops with
    | nil => exact List.isChain_singleton _
    | cons y ops => exact List.isChain_cons_cons.mpr ⟨hx y.1 rfl, ih hops⟩

end Pending

theorem Drains.ordered {tolerance : Float} {pending pending' : List Pending}
    {values values' : List Value} (h : Drains tolerance pending values pending' values')
    (ho : Pending.Ordered pending) : Pending.Ordered pending' := by
  induction h with
  | done pending values => exact ho
  | apply ha hd ih => exact ih ho.2

variable {env : Environment} {s s' : State}

theorem Moves.ordered (h : Moves env s s') (ho : Pending.Ordered s.pending) :
    Pending.Ordered s'.pending := by
  cases h with
  | number pending values hi => exact ho
  | «variable» pending values hi hv hp => exact ho
  | call pending values hi hp hv hf => exact ho
  | opening pending values hi => exact ho
  | shift values hi ht hs => exact ⟨hs, ho⟩
  | reduce hi ht hs ha => exact ho.2
  | close hi hd hk hc =>
    have hf : Pending.Ordered (.frame _ :: _) := hd.ordered ho
    exact hf
  | separate hi hd hc => exact hd.ordered ho

theorem Reached.ordered {tokens : List Token} (h : Reached env tokens s) :
    Pending.Ordered s.pending := by
  induction h with
  | start => trivial
  | step hs ht hr ih => exact (step_moves ht hr).ordered ih

theorem reached_power_sign_power (env : Environment) (sg : Sign) (x y : Float) :
    Reached env
      [⟨.number x, 0⟩, ⟨.binary .pow, 1⟩, ⟨.sign sg, 2⟩, ⟨.number y, 3⟩, ⟨.binary .pow, 4⟩]
      ⟨⟨none, []⟩, Pending.row [(.binary .pow, 4), (.sign sg, 2), (.binary .pow, 1)],
        [.scalar y, .scalar x]⟩ :=
  .step (.step (.step (.step (.step .start rfl rfl) rfl rfl) rfl rfl) rfl rfl) rfl rfl

/-- In every state of a run, whatever the tokens are, operators that no frame separates stand in
order, and an infix operator may be put above all that lie below it. Their precedences need not be
in order: a sign can lie above a power and below another one. -/
theorem reached_shiftsOver (env : Environment) :
    (∀ tokens s, Reached env tokens s → ∀ ops, Pending.row ops <:+: s.pending →
      ((ops.map Prod.fst).IsChain fun upper lower => upper.shiftsOver lower = true) ∧
      (ops.map Prod.fst).Pairwise fun upper lower => upper.isSign = false →
        upper.shiftsOver lower = true ∧ (lower.precedence < upper.precedence ∨
          upper.precedence = lower.precedence ∧ upper.grouping = .right)) ∧
    ∀ sg : Sign, ∃ tokens s, Reached env tokens s ∧
      (∃ o p q, s.pending = Pending.row [(.binary .pow, o), (.sign sg, p), (.binary .pow, q)]) ∧
      (Operator.sign sg).precedence < (Operator.binary .pow).precedence := by
  constructor
  · intro tokens s hs ops hops
    obtain ⟨above, below, hp⟩ := hops
    have ho := hs.ordered
    rw [← hp, List.append_assoc] at ho
    have hd : Operator.Descends (ops.map Prod.fst) := ho.below.descends
    refine ⟨hd, hd.pairwise.imp fun {upper lower} h hu => ⟨h hu, ?_⟩⟩
    cases upper with
    | sign sg => cases hu
    | binary b => exact Operator.binary_shiftsOver.mp (h hu)
  · intro sg
    exact ⟨_, _, reached_power_sign_power env sg 2 3, ⟨4, 2, 1, rfl⟩, Nat.lt_succ_self 4⟩

/-- In `1=(2+-3^` the power stands above a sign and a sum, and the frame parts them from the
comparison. -/
theorem reached_shiftsOver_parenthesis :
    let tokens : List Token := [⟨.number 1, 0⟩, ⟨.binary .equal, 1⟩, ⟨.opening .paren, 2⟩,
      ⟨.number 2, 3⟩, ⟨.binary .add, 4⟩, ⟨.sign .minus, 5⟩, ⟨.number 3, 6⟩, ⟨.binary .pow, 7⟩]
    let ops : List (Operator × Nat) := [(.binary .pow, 7), (.sign .minus, 5), (.binary .add, 4)]
    let s : State := ⟨⟨none, []⟩,
      Pending.row ops ++ [.frame ⟨.group, 2, 1⟩, .operator (.binary .equal) 1],
      [.scalar 3, .scalar 2, .scalar 1]⟩
    Reached .empty tokens s ∧ Pending.row ops <:+: s.pending ∧
      ((ops.map Prod.fst).IsChain fun upper lower => upper.shiftsOver lower = true) ∧
      (ops.map Prod.fst).Pairwise fun upper lower => upper.isSign = false →
        upper.shiftsOver lower = true ∧ (lower.precedence < upper.precedence ∨
          upper.precedence = lower.precedence ∧ upper.grouping = .right) := by
  intro tokens ops s
  have hs : Reached .empty tokens s :=
    .step (.step (.step (.step (.step (.step (.step (.step .start rfl rfl) rfl rfl) rfl rfl)
      rfl rfl) rfl rfl) rfl rfl) rfl rfl) rfl rfl
  have hops : Pending.row ops <:+: s.pending := (List.prefix_append _ _).isInfix
  exact ⟨hs, hops, (reached_shiftsOver .empty).1 tokens s hs ops hops⟩

end Formula
