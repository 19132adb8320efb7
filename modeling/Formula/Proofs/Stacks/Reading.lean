import Formula.Proofs.Precedence
import Formula.Proofs.Trace
import Formula.Stacks.Step

/-!
# Reading one token

What a run does from a state in which no token is held back, as one equation for
each kind of token. The equations are about the actions of the run, so that
applying a pending operator and reading the same token again is one step like any
other.
-/

namespace Formula

open Traced

theorem Sign.act_actions (s : Sign) (offset : Nat) (v : Value) :
    (s.act offset v).actions = s.act offset v := rfl

theorem BinaryOp.act_actions (tolerance : Float) (b : BinaryOp) (offset : Nat) (x y : Value) :
    (b.act tolerance offset x y).actions = b.act tolerance offset x y := by
  unfold BinaryOp.act
  rw [actions_bind, actions_lift]
  rfl

theorem Function.act_actions (f : Function) (name : String) (offset : Nat) (args : List Value) :
    (f.act name offset args).actions = f.act name offset args := by
  unfold Function.act
  rw [actions_bind, actions_lift]
  rfl

theorem flatVector_actions (opening : Nat) (items : List Value) :
    (flatVector opening items).actions = flatVector opening items := by
  unfold flatVector
  split <;> rfl

theorem applyOperator_actions (tolerance : Float) (op : Operator) (offset : Nat)
    (below : List Pending) (values : List Value) :
    (applyOperator tolerance op offset below values).actions =
      applyOperator tolerance op offset below values := by
  unfold applyOperator
  split
  · rfl
  · split
    · rw [actions_bind, Sign.act_actions]
      rfl
    · rw [actions_bind, BinaryOp.act_actions]
      rfl
    · rfl

theorem collect_actions (f : Frame) (values : List Value) :
    (State.collect f values).actions = State.collect f values := by
  unfold State.collect
  dsimp only
  split
  · rfl
  · rw [actions_bind, Function.act_actions]
    rfl
  · rw [actions_bind, flatVector_actions]
    rfl

def Pending.top? : List Pending → Option Operator
  | .operator op _ :: _ => some op
  | _ => none

namespace State

def reading (tokens : List Token) (pending : List Pending) (values : List Value) : State :=
  ⟨⟨none, tokens⟩, pending, values⟩

def acts (env : Environment) (last : Nat) (s : State) : Traced Value := (s.run env last).actions

variable {env : Environment} {last : Nat}

theorem run_eq (s : State) :
    s.run env last = match s.step env with
      | none => s.finish env last
      | some t => t >>= State.run env last := by
  rw [State.run]
  split
  · rename_i h
    rw [h]
  · rename_i t h
    rw [h]
    change _ = andThen t (State.run env last)
    unfold andThen
    split <;> (rename_i h; rw [h])

theorem acts_nil (pending : List Pending) (values : List Value) :
    acts env last (reading [] pending values) =
      ((reading [] pending values).finish env last).actions := by
  rw [acts, run_eq]
  rfl

theorem acts_cons (t : Token) (ts : List Token) (pending : List Pending) (values : List Value) :
    acts env last (reading (t :: ts) pending values) =
      ((reading ts pending values).read env t).actions >>= acts env last := by
  rw [acts, run_eq]
  exact actions_bind _ _

theorem acts_held (t : Token) (ts : List Token) (pending : List Pending) (values : List Value) :
    acts env last ⟨⟨some t, ts⟩, pending, values⟩ =
      acts env last (reading (t :: ts) pending values) := by
  rw [acts, run_eq, acts_cons]
  exact actions_bind _ _

theorem acts_number (x : Float) (o : Nat) (ts : List Token) (pending : List Pending)
    (values : List Value) :
    acts env last (reading (⟨.number x, o⟩ :: ts) pending values) =
      acts env last (reading ts pending (.scalar x :: values)) := by
  rw [acts_cons]
  rfl

theorem acts_opening (d : Delimiter) (o : Nat) (ts : List Token) (pending : List Pending)
    (values : List Value) :
    acts env last (reading (⟨.opening d, o⟩ :: ts) pending values) =
      acts env last (reading ts
        (.frame ⟨match d with | .paren => .group | .bracket => .vector, o, values.length⟩ ::
          pending) values) := by
  rw [acts_cons]
  cases d <;> rfl

theorem acts_identifier (n : String) (o : Nat) (ts : List Token) (pending : List Pending)
    (values : List Value) :
    acts env last (reading (⟨.identifier n, o⟩ :: ts) pending values) =
      ((reading ts pending values).resolve env n o).actions >>= acts env last := by
  rw [acts_cons]
  rfl

theorem read_operator {t : Token} {op : Operator} (ht : t.kind.operator? = some op) (s : State) :
    s.read env t = s.operate env op t := by
  obtain ⟨k, o⟩ := t
  cases k with
  | sign s => cases ht; rfl
  | binary b => cases ht; rfl
  | _ => cases ht

theorem acts_shift {t : Token} {op : Operator} (ht : t.kind.operator? = some op) (ts : List Token)
    {pending : List Pending} (hp : op.ShiftsOnto (Pending.top? pending)) (values : List Value) :
    acts env last (reading (t :: ts) pending values) =
      acts env last (reading ts (.operator op t.offset :: pending) values) := by
  have hs : (reading ts pending values).operate env op t =
      (reading ts pending values).shift op t.offset := by
    unfold operate
    split
    · rename_i top offset below h
      cases h
      exact if_pos (hp top rfl)
    · rfl
  rw [acts_cons, read_operator ht, hs]
  rfl

theorem acts_reduce {t : Token} {op top : Operator} (ht : t.kind.operator? = some op)
    (ho : op.shiftsOver top = false) (o : Nat) (ts : List Token) (below : List Pending)
    (values : List Value) :
    acts env last (reading (t :: ts) (.operator top o :: below) values) =
      applyOperator env.tolerance top o below values >>=
        fun w => acts env last (reading (t :: ts) below w) := by
  have hr : ((reading ts (.operator top o :: below) values).operate env op t).actions =
      applyOperator env.tolerance top o below values >>=
        fun w => pure ⟨⟨some t, ts⟩, below, w⟩ := by
    simp only [operate, reading, ho, Bool.false_eq_true, if_false, actions_bind,
      applyOperator_actions]
    rfl
  rw [acts_cons, read_operator ht, hr, bind_assoc]
  simp only [pure_bind, acts_held]

theorem finish_operator (top : Operator) (o : Nat) (below : List Pending) (values : List Value) :
    (reading [] (.operator top o :: below) values).finish env last =
      applyOperator env.tolerance top o below values >>=
        fun w => (reading [] below w).finish env last := by
  simp only [finish, reading, reduceToFrame, bind_assoc]

theorem close_operator (d : Delimiter) (c : Nat) (ts : List Token) (top : Operator) (o : Nat)
    (below : List Pending) (values : List Value) :
    (reading ts (.operator top o :: below) values).close env d c =
      applyOperator env.tolerance top o below values >>=
        fun w => (reading ts below w).close env d c := by
  simp only [close, reading, reduceToFrame, bind_assoc]

theorem separate_operator (c : Nat) (ts : List Token) (top : Operator) (o : Nat)
    (below : List Pending) (values : List Value) :
    (reading ts (.operator top o :: below) values).separate env c =
      applyOperator env.tolerance top o below values >>=
        fun w => (reading ts below w).separate env c := by
  simp only [separate, reading, reduceToFrame, bind_assoc]

theorem acts_apply {top : Operator} {ts : List Token} (h : Completes top ts) (o : Nat)
    (below : List Pending) (values : List Value) :
    acts env last (reading ts (.operator top o :: below) values) =
      applyOperator env.tolerance top o below values >>=
        fun w => acts env last (reading ts below w) := by
  cases ts with
  | nil =>
    simp only [acts_nil]
    rw [finish_operator, actions_bind, applyOperator_actions]
  | cons t ts =>
    obtain ⟨k, c⟩ := t
    cases k with
    | binary b => exact acts_reduce rfl h o ts below values
    | closing d =>
      simp only [acts_cons, read]
      rw [close_operator, actions_bind, applyOperator_actions, bind_assoc]
    | comma =>
      simp only [acts_cons, read]
      rw [separate_operator, actions_bind, applyOperator_actions, bind_assoc]
    | _ => cases h

theorem acts_closing_frame (d : Delimiter) (o : Nat) (ts : List Token) (f : Frame)
    (below : List Pending) (values : List Value) :
    acts env last (reading (⟨.closing d, o⟩ :: ts) (.frame f :: below) values) =
      if f.purpose.delimiter = d then
        collect f values >>= fun w => acts env last (reading ts below w)
      else fail (.mismatched f.purpose.delimiter d) o := by
  rw [acts_cons]
  simp only [read, close, reading, reduceToFrame, pure_bind]
  split
  · simp only [actions_bind, collect_actions, bind_assoc, actions_pure, pure_bind]
  · rfl

theorem acts_closing_nil (d : Delimiter) (o : Nat) (ts : List Token) (values : List Value) :
    acts env last (reading (⟨.closing d, o⟩ :: ts) [] values) = fail (.unmatched d) o := by
  rw [acts_cons]
  rfl

theorem acts_comma_frame (o : Nat) (ts : List Token) (f : Frame) (below : List Pending)
    (values : List Value) :
    acts env last (reading (⟨.comma, o⟩ :: ts) (.frame f :: below) values) =
      if f.purpose.takesCommas then acts env last (reading ts (.frame f :: below) values)
      else fail .misplacedComma o := by
  rw [acts_cons]
  simp only [read, separate, reading, reduceToFrame, pure_bind]
  split <;> rfl

theorem acts_comma_nil (o : Nat) (ts : List Token) (values : List Value) :
    acts env last (reading (⟨.comma, o⟩ :: ts) [] values) = fail .misplacedComma o := by
  rw [acts_cons]
  rfl

theorem acts_nil_frame (f : Frame) (below : List Pending) (values : List Value) :
    acts env last (reading [] (.frame f :: below) values) =
      fail (.unmatched f.purpose.delimiter) f.offset := by
  rw [acts_nil]
  rfl

theorem acts_nil_nil (v : Value) : acts env last (reading [] [] [v]) = pure v := by
  rw [acts_nil]
  rfl

end State
end Formula
