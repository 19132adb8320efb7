import Formula.Stacks.Basic

/-!
# Steps and runs

One step reads one token. An operator is put above the pending ones if the topmost of
these may wait for it; otherwise that one is applied and the token is held back, to be
compared with the next. A run takes steps while there are tokens, applies what is pending
and ends with the only value that is left.
-/

namespace Formula

namespace State

/-- A name gives the value of its variable, or opens the call of its function. Where the call is
missing the end of the name is counted without bound; `evaluateTokens` cuts it to a word. -/
def resolve (env : Environment) (name : String) (offset : Nat) (s : State) : Traced State :=
  match env.valueOf? name, env.functionOf? name with
  | some v, _ =>
    match s.input.peek? with
    | some ⟨.opening .paren, _⟩ => .fail (.notAFunction name) offset
    | _ => return s.push v
  | none, some f =>
    match s.input.next? with
    | some (⟨.opening .paren, _⟩, input) =>
      return { s with input }.openFrame (.call name f) offset
    | _ => .fail (.missingCall name) (offset + Text.byteLength name.toList)
  | none, none => .fail (.unknownIdentifier name) offset

def shift (op : Operator) (offset : Nat) (s : State) : Traced State := do
  Traced.record (.shift op offset)
  return { s with pending := .operator op offset :: s.pending }

def operate (env : Environment) (op : Operator) (t : Token) (s : State) : Traced State :=
  match s.pending with
  | .operator top offset :: below =>
    if op.shiftsOver top then s.shift op t.offset
    else do
      Traced.record (.reduce top op)
      let values ← applyOperator env.tolerance top offset below s.values
      return ⟨s.input.holdBack t, below, values⟩
  | _ => s.shift op t.offset

def collect (f : Frame) (values : List Value) : Traced (List Value) :=
  let count := values.length - f.base
  let items := (values.take count).reverse
  match f.purpose with
  | .group => return values
  | .call name function => do return (← function.act name f.offset items) :: values.drop count
  | .vector => do return (← flatVector f.offset items) :: values.drop count

def close (env : Environment) (d : Delimiter) (offset : Nat) (s : State) : Traced State := do
  let r ← reduceToFrame env.tolerance s.pending s.values
  match r.frame with
  | none => .fail (.unmatched d) offset
  | some (f, below) =>
    if f.purpose.delimiter = d then do
      let values ← collect f r.values
      return { s with pending := below, values }
    else .fail (.mismatched f.purpose.delimiter d) offset

def separate (env : Environment) (offset : Nat) (s : State) : Traced State := do
  let r ← reduceToFrame env.tolerance s.pending s.values
  match r.frame with
  | some (f, below) =>
    if f.purpose.takesCommas then
      return { s with pending := .frame f :: below, values := r.values }
    else .fail .misplacedComma offset
  | none => .fail .misplacedComma offset

def read (env : Environment) (t : Token) (s : State) : Traced State :=
  match t.kind with
  | .number x => return s.push (.scalar x)
  | .identifier name => s.resolve env name t.offset
  | .opening .paren => return s.openFrame .group t.offset
  | .opening .bracket => return s.openFrame .vector t.offset
  | .closing d => s.close env d t.offset
  | .comma => s.separate env t.offset
  | .sign sg => s.operate env (.sign sg) t
  | .binary b => s.operate env (.binary b) t

def step (env : Environment) (s : State) : Option (Traced State) :=
  match s.input.next? with
  | none => none
  | some (t, input) => some ({ s with input }.read env t)

/-- A bound on the steps that are left: a step either uses up a token, and then leaves at most one
operator more, or it holds the token back and takes an operator away. -/
def weight (s : State) : Nat := 2 * s.input.size + Pending.operatorCount s.pending

theorem resolve_weight {env : Environment} {name : String} {offset : Nat} {s s' : State}
    (h : (s.resolve env name offset).result = .ok s') : s'.weight ≤ s.weight := by
  unfold resolve at h
  split at h
  · split at h
    · simp at h
    · simp only [Traced.pure_result, Except.ok.injEq] at h
      subst h
      exact Nat.le_refl _
  · split at h
    · rename_i input hn
      simp only [Traced.pure_result, Except.ok.injEq] at h
      subst h
      have := (Input.size_of_next? hn).2
      simp only [weight, openFrame, Pending.operatorCount]
      omega
    · simp at h
  · simp at h

theorem operate_weight {env : Environment} {op : Operator} {t : Token} {s s' : State}
    (hs : s.input.held = none) (h : (s.operate env op t).result = .ok s') :
    s'.weight ≤ s.weight + 1 := by
  have shifted {offset : Nat} (h : (s.shift op offset).result = .ok s') :
      s'.weight ≤ s.weight + 1 := by
    simp only [shift, Traced.bind_result_eq_ok_iff, Traced.pure_result, Except.ok.injEq] at h
    obtain ⟨_, _, rfl⟩ := h
    simp [weight, Pending.operatorCount]
    omega
  unfold operate at h
  split at h
  · rename_i top offset below hp
    split at h
    · exact shifted h
    · simp only [Traced.bind_result_eq_ok_iff, Traced.pure_result, Except.ok.injEq] at h
      obtain ⟨_, _, _, _, rfl⟩ := h
      simp only [weight, Input.size, Input.holdBack, hp, hs, Pending.operatorCount,
        Option.toList_some, Option.toList_none, List.length_cons, List.length_nil]
      omega
  · exact shifted h

theorem close_weight {env : Environment} {d : Delimiter} {offset : Nat} {s s' : State}
    (h : (s.close env d offset).result = .ok s') : s'.weight ≤ s.weight := by
  simp only [close, Traced.bind_result_eq_ok_iff] at h
  obtain ⟨r, hr, h⟩ := h
  split at h
  · simp at h
  · rename_i f below hf
    have := reduceToFrame_operatorCount hr hf
    split at h
    · simp only [Traced.bind_result_eq_ok_iff, Traced.pure_result, Except.ok.injEq] at h
      obtain ⟨_, _, rfl⟩ := h
      simp only [weight]
      omega
    · simp at h

theorem separate_weight {env : Environment} {offset : Nat} {s s' : State}
    (h : (s.separate env offset).result = .ok s') : s'.weight ≤ s.weight := by
  simp only [separate, Traced.bind_result_eq_ok_iff] at h
  obtain ⟨r, hr, h⟩ := h
  split at h
  · rename_i f below hf
    have := reduceToFrame_operatorCount hr hf
    split at h
    · simp only [Traced.pure_result, Except.ok.injEq] at h
      subst h
      simp only [weight, Pending.operatorCount]
      omega
    · simp at h
  · simp at h

theorem read_weight {env : Environment} {t : Token} {s s' : State} (hs : s.input.held = none)
    (h : (s.read env t).result = .ok s') : s'.weight ≤ s.weight + 1 := by
  unfold read at h
  split at h
  · simp only [Traced.pure_result, Except.ok.injEq] at h
    subst h
    exact Nat.le_succ _
  · exact Nat.le_succ_of_le (resolve_weight h)
  · simp only [Traced.pure_result, Except.ok.injEq] at h
    subst h
    exact Nat.le_succ _
  · simp only [Traced.pure_result, Except.ok.injEq] at h
    subst h
    exact Nat.le_succ _
  · exact Nat.le_succ_of_le (close_weight h)
  · exact Nat.le_succ_of_le (separate_weight h)
  · exact operate_weight hs h
  · exact operate_weight hs h

theorem step_weight {env : Environment} {s s' : State} {t : Traced State}
    (h : s.step env = some t) (ht : t.result = .ok s') : s'.weight < s.weight := by
  unfold step at h
  split at h
  · simp at h
  · rename_i u input hn
    obtain ⟨hheld, hsize⟩ := Input.size_of_next? hn
    simp only [Option.some.injEq] at h
    subst h
    have := read_weight (s := { s with input }) hheld ht
    simp only [weight] at this ⊢
    omega

end State

def State.finish (env : Environment) (lastOffset : Nat) (s : State) : Traced Value := do
  let r ← reduceToFrame env.tolerance s.pending s.values
  match r.frame, r.values with
  | some (f, _), _ => .fail (.unmatched f.purpose.delimiter) f.offset
  | none, [] => .fail .noValue lastOffset
  | none, [v] => return v
  | none, values => .fail (.leftoverValues values.length) lastOffset

def State.run (env : Environment) (lastOffset : Nat) (s : State) : Traced Value :=
  match _h : s.step env with
  | none => s.finish env lastOffset
  | some t =>
    match _ht : t.result with
    | .error e => ⟨t.events, .error e⟩
    | .ok s' =>
      let r := State.run env lastOffset s'
      ⟨t.events ++ r.events, r.result⟩
termination_by s.weight
decreasing_by exact State.step_weight _h _ht

def lastOffset (tokens : List Token) : Nat := tokens.getLast?.elim 0 Token.offset

def traceTokens (tokens : List Token) (env : Environment) : Traced Value :=
  (State.start tokens).run env (lastOffset tokens)

def evaluateTokens (tokens : List Token) (env : Environment) : Except EvalError Value :=
  (traceTokens tokens env).outcome

end Formula
