import Formula.Proofs.Checked.Calls
import Formula.Proofs.Stacks.Moves
import Formula.Proofs.Stacks.Origins

/-!
# Checked runs

The run of the two stacks with every operation checked that is not always possible: the
number of values above the innermost frame, taking an operand from the values, splitting
off those above the base of a frame, holding back one more token, running the body of a
function and reading the elements of a row. The states of a run are in such order that
none of these checks ever stops it, whatever tokens it is given. The one sum, of the
offset of a name and its length, need not be a word: it wraps around, or it is the only
check that stops a run.
-/

namespace Formula

open Traced

namespace Checked

def applyOperator (tolerance : Float) (op : Operator) (offset : Nat) (below : List Pending)
    (values : List Value) : Checked (List Value) := do
  let count ← minus values.length (Pending.base below)
  if count < op.arity then fail (.missingOperands op) offset
  else
    match op with
    | .sign s => do
      let (x, rest) ← pop values
      return s.apply x :: rest
    | .binary b => do
      let (y, rest) ← pop values
      let (x, rest) ← pop rest
      return (← binary tolerance offset b x y) :: rest

def reduceToFrame (tolerance : Float) : List Pending → List Value → Checked Reduced
  | [], values => return ⟨none, values⟩
  | .frame f :: below, values => return ⟨some (f, below), values⟩
  | .operator op offset :: below, values => do
    let values ← applyOperator tolerance op offset below values
    reduceToFrame tolerance below values

def collect (bodies : String → PartialBody) (f : Frame) (values : List Value) :
    Checked (List Value) :=
  match f.purpose with
  | .group => return values
  | .call name function => do
    let (args, rest) ← splitOff f.base values
    return (← call function (bodies name) name args f.offset) :: rest
  | .vector => do
    let (items, rest) ← splitOff f.base values
    if items.any Value.isVector then fail .nestedVector f.offset
    else return .vector (items.flatMap Value.elements) :: rest

def holdBack (i : Input) (t : Token) : Checked Input :=
  match i.held with
  | none => return i.holdBack t
  | some _ => stopped

variable (env : Environment) (bodies : String → PartialBody) (overflow : Overflow)

def resolve (name : String) (offset : Nat) (s : State) : Checked State :=
  match env.valueOf? name, env.functionOf? name with
  | some v, _ =>
    match s.input.peek? with
    | some ⟨.opening .paren, _⟩ => fail (.notAFunction name) offset
    | _ => return s.push v
  | none, some f =>
    match s.input.next? with
    | some (⟨.opening .paren, _⟩, input) =>
      return { s with input }.openFrame (.call name f) offset
    | _ => do fail (.missingCall name) (← overflow.plus offset (Text.byteLength name.toList))
  | none, none => fail (.unknownIdentifier name) offset

def operate (op : Operator) (t : Token) (s : State) : Checked State :=
  let shifted : State := { s with pending := .operator op t.offset :: s.pending }
  match s.pending with
  | .operator top offset :: below =>
    if op.shiftsOver top then return shifted
    else do
      let input ← holdBack s.input t
      let values ← applyOperator env.tolerance top offset below s.values
      return ⟨input, below, values⟩
  | _ => return shifted

def close (d : Delimiter) (offset : Nat) (s : State) : Checked State := do
  let r ← reduceToFrame env.tolerance s.pending s.values
  match r.frame with
  | none => fail (.unmatched d) offset
  | some (f, below) =>
    if f.purpose.delimiter = d then do
      let values ← collect bodies f r.values
      return { s with pending := below, values }
    else fail (.mismatched f.purpose.delimiter d) offset

def separate (offset : Nat) (s : State) : Checked State := do
  let r ← reduceToFrame env.tolerance s.pending s.values
  match r.frame with
  | some (f, below) =>
    if f.purpose.takesCommas then
      return { s with pending := .frame f :: below, values := r.values }
    else fail .misplacedComma offset
  | none => fail .misplacedComma offset

def read (t : Token) (s : State) : Checked State :=
  match t.kind with
  | .number x => return s.push (.scalar x)
  | .identifier name => resolve env overflow name t.offset s
  | .opening .paren => return s.openFrame .group t.offset
  | .opening .bracket => return s.openFrame .vector t.offset
  | .closing d => close env bodies d t.offset s
  | .comma => separate env t.offset s
  | .sign sg => operate env (.sign sg) t s
  | .binary b => operate env (.binary b) t s

def step (s : State) : Option (Checked State) :=
  match s.input.next? with
  | none => none
  | some (t, input) => some (read env bodies overflow t { s with input })

def finish (lastOffset : Nat) (s : State) : Checked Value := do
  let r ← reduceToFrame env.tolerance s.pending s.values
  match r.frame, r.values with
  | some (f, _), _ => fail (.unmatched f.purpose.delimiter) f.offset
  | none, [] => fail .noValue lastOffset
  | none, [v] => return v
  | none, values => fail (.leftoverValues values.length) lastOffset

def run (lastOffset : Nat) : Nat → State → Checked Value
  | 0, _ => stopped
  | bound + 1, s =>
    match step env bodies overflow s with
    | none => finish env lastOffset s
    | some c => do run lastOffset bound (← c)

def evaluateTokens (tokens : List Token) : Checked Value :=
  run env bodies overflow (lastOffset tokens) (2 * tokens.length + 1) (State.start tokens)

variable {env bodies} {overflow : Overflow} {tolerance : Float}

theorem applyOperator_eq {below : List Pending} {values : List Value}
    (h : Pending.base below ≤ values.length) (op : Operator) (o : Nat) :
    applyOperator tolerance op o below values =
      overflow.observe (Formula.applyOperator tolerance op o below values).result := by
  have hact (b : BinaryOp) (x y : Value) :
      binary tolerance o b x y = overflow.observe (b.act tolerance o x y).result := by
    rw [binary_eq, BinaryOp.act_result]
    refine overflow.ends_eq_observe fun n p he => ?_
    rw [BinaryOp.apply_eq_broadcast] at he
    obtain ⟨left, right, hs⟩ := broadcast_error he
    cases hs
  unfold applyOperator Formula.applyOperator
  rw [minus_eq h, pure_bind]
  split
  · rfl
  · rename_i hc
    cases op with
    | sign s =>
      rcases values with _ | ⟨x, rest⟩
      · simp [Operator.arity] at hc
      · rfl
    | binary b =>
      rcases values with _ | ⟨y, _ | ⟨x, rest⟩⟩
      · simp [Operator.arity] at hc
      · simp only [List.length_singleton, Operator.arity] at hc
        omega
      · exact overflow.bind_eq_observe (hact b x y) fun v _ => rfl

theorem reduceToFrame_eq {pending : List Pending} {values : List Value}
    (h : Pending.Nested pending values.length) :
    reduceToFrame tolerance pending values =
      overflow.observe (Formula.reduceToFrame tolerance pending values).result := by
  induction pending generalizing values with
  | nil => rfl
  | cons x below ih =>
    cases x with
    | frame f => rfl
    | operator op o =>
      have hb := Pending.nested_operator.mp h
      refine overflow.bind_eq_observe (applyOperator_eq hb.base_le op o) fun vs hv => ih ?_
      exact (Drains.apply hv (.done below vs)).nested h

theorem collect_eq (hb : env.CoveredBy bodies) {f : Frame} (hf : f.CallsBound env)
    {values : List Value} (h : f.base ≤ values.length) :
    collect bodies f values = overflow.observe (State.collect f values).result := by
  obtain ⟨purpose, o, base⟩ := f
  cases purpose with
  | group => rfl
  | call name function =>
    have hc := hb name function (hf name function rfl)
    have hcall (args : List Value) : call function (bodies name) name args o =
        overflow.observe (function.act name o args).result := by
      rw [call_eq hc]
      refine overflow.ends_eq_observe fun n p he => ?_
      cases (Function.call_error he).1
    simp only [collect, splitOff_eq h, pure_bind, State.collect]
    exact overflow.bind_eq_observe (hcall _) fun v _ => rfl
  | vector =>
    simp only [collect, splitOff_eq h, pure_bind, State.collect, flatVector]
    split <;> rfl

theorem resolve_eq (name : String) (o : Nat) (s : State) :
    resolve env overflow name o s = overflow.observe (s.resolve env name o).result := by
  unfold resolve State.resolve
  cases env.valueOf? name with
  | some v => rcases s.input.peek? with _ | ⟨_ | _ | _ | _ | (_ | _) | _ | _, p⟩ <;> rfl
  | none =>
    cases env.functionOf? name with
    | none => rfl
    | some f =>
      rcases s.input.next? with _ | ⟨⟨_ | _ | _ | _ | (_ | _) | _ | _, p⟩, after⟩ <;> rfl

theorem operate_eq {s : State} (hi : s.input.held = none)
    (h : Pending.Nested s.pending s.values.length) (op : Operator) (t : Token) :
    operate env op t s = overflow.observe (s.operate env op t).result := by
  obtain ⟨input, pending, values⟩ := s
  obtain ⟨held, rest⟩ := input
  obtain rfl : held = none := hi
  rcases pending with _ | ⟨⟨top, p⟩ | f, below⟩
  · rfl
  · have hb := (Pending.nested_operator.mp h).base_le
    simp only [operate, State.operate]
    split
    · rfl
    · exact overflow.bind_eq_observe (applyOperator_eq hb top p) fun vs hv => rfl
  · rfl

theorem close_eq (hb : env.CoveredBy bodies) {s : State}
    (h : Pending.Nested s.pending s.values.length)
    (hc : Pending.EachFrame (Frame.CallsBound env) s.pending) (d : Delimiter) (o : Nat) :
    close env bodies d o s = overflow.observe (s.close env d o).result := by
  refine overflow.bind_eq_observe (reduceToFrame_eq h) fun r hr => ?_
  have hd := reduceToFrame_drains hr
  obtain ⟨_ | ⟨f, below⟩, vs⟩ := r
  · rfl
  · obtain ⟨hv, -⟩ := Pending.nested_frame.mp (hd.nested h)
    obtain ⟨hg, -⟩ := Pending.eachFrame_frame.mp (hd.eachFrame hc)
    dsimp only
    by_cases hk : f.purpose.delimiter = d
    · rw [if_pos hk, if_pos hk]
      exact overflow.bind_eq_observe (collect_eq hb hg hv) fun ws _ => rfl
    · rw [if_neg hk, if_neg hk]
      rfl

theorem separate_eq {s : State} (h : Pending.Nested s.pending s.values.length) (o : Nat) :
    separate env o s = overflow.observe (s.separate env o).result := by
  refine overflow.bind_eq_observe (reduceToFrame_eq h) fun r _ => ?_
  obtain ⟨_ | ⟨⟨_ | _ | _, p, base⟩, below⟩, vs⟩ := r <;> rfl

theorem read_eq (hb : env.CoveredBy bodies) {s : State} (hi : s.input.held = none)
    (h : Pending.Nested s.pending s.values.length)
    (hc : Pending.EachFrame (Frame.CallsBound env) s.pending) (t : Token) :
    read env bodies overflow t s = overflow.observe (s.read env t).result := by
  obtain ⟨k, o⟩ := t
  cases k with
  | number x => rfl
  | identifier name => exact resolve_eq name o s
  | opening d => cases d <;> rfl
  | closing d => exact close_eq hb h hc d o
  | comma => exact separate_eq h o
  | sign sg => exact operate_eq hi h (.sign sg) ⟨.sign sg, o⟩
  | binary b => exact operate_eq hi h (.binary b) ⟨.binary b, o⟩

theorem step_eq (hb : env.CoveredBy bodies) {tokens : List Token} {s : State}
    (hs : s.Orderly env tokens) :
    step env bodies overflow s = (s.step env).map fun t => overflow.observe t.result := by
  unfold step State.step
  cases hn : s.input.next? with
  | none => rfl
  | some next =>
    obtain ⟨t, after⟩ := next
    obtain ⟨-, hi⟩ := Input.unread_of_next? hn
    exact congrArg some (read_eq (s := { s with input := after }) hb hi hs.nested hs.calls t)

theorem finish_eq {s : State} (h : Pending.Nested s.pending s.values.length) (last : Nat) :
    finish env last s = overflow.observe (s.finish env last).result := by
  refine overflow.bind_eq_observe (reduceToFrame_eq h) fun r _ => ?_
  obtain ⟨_ | ⟨f, below⟩, _ | ⟨v, _ | ⟨w, vs⟩⟩⟩ := r <;> rfl

theorem run_eq (hb : env.CoveredBy bodies) {tokens : List Token} (last : Nat) {bound : Nat}
    {s : State} (hs : s.Orderly env tokens) (hw : s.weight < bound) :
    run env bodies overflow last bound s = overflow.observe (s.run env last).result := by
  induction bound generalizing s with
  | zero => cases hw
  | succ bound ih =>
    rw [run, step_eq hb hs, State.run_eq]
    cases hstep : s.step env with
    | none => exact finish_eq hs.nested last
    | some t =>
      refine overflow.bind_eq_observe rfl fun s' hs' => ih (hs.step hstep hs') ?_
      exact Nat.lt_of_lt_of_le (State.step_weight hstep hs') (Nat.le_of_lt_succ hw)

end Checked

end Formula
