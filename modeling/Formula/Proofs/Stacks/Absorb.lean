import Formula.Proofs.Stacks.Trees

/-!
# Absorbing tokens

A token that is held back is read again until it completes no pending operator. Put
together, these readings make of each token one change of the two stacks, and a run
is a fold of such changes over its tokens: what the first tokens make of the stacks
does not depend on those behind them, unless the parenthesis of a call is cut off from
its name.
-/

namespace Formula

open Traced

abbrev Stacks := List Pending × List Value

/-- The token applies an operator that is pending on top of the stack. -/
def Token.completes (t : Token) (top : Operator) : Bool :=
  match t.kind with
  | .closing _ | .comma => true
  | .binary b => !(Operator.binary b).shiftsOver top
  | .number _ | .identifier _ | .sign _ | .opening _ => false

/-- The token is a name and the tokens behind it begin with the parenthesis of its call. -/
def Token.Calls (t : Token) (ts : List Token) : Prop :=
  (∃ n, t.kind = .identifier n) ∧ ∃ u ∈ ts.head?, u.kind = .opening .paren

theorem Token.not_calls_tail {t : Token} {ts rest : List Token}
    (h : ∀ u ∈ (t :: ts).getLast?, ¬ u.Calls rest) : ∀ u ∈ ts.getLast?, ¬ u.Calls rest := by
  intro u hu
  refine h u ?_
  rw [List.getLast?_cons]
  simp [Option.mem_def.mp hu]

theorem Token.not_calls_append {t : Token} {ts rest : List Token} (hc : ¬ t.Calls ts)
    (h : ∀ u ∈ (t :: ts).getLast?, ¬ u.Calls rest) : ¬ t.Calls (ts ++ rest) := by
  cases ts with
  | nil => exact h t rfl
  | cons u ts => exact hc

def Delimiter.purpose : Delimiter → Purpose
  | .paren => .group
  | .bracket => .vector

namespace State

/-- What a token does to the stacks when it completes no operator any more. A name is looked up as
a variable. -/
def place (env : Environment) (t : Token) (pending : List Pending) (values : List Value) :
    Traced Stacks :=
  match t.kind, pending with
  | .number x, _ => return (pending, .scalar x :: values)
  | .identifier n, _ => do return (pending, (← env.valueAt n t.offset) :: values)
  | .sign s, _ => return (.operator (.sign s) t.offset :: pending, values)
  | .binary b, _ => return (.operator (.binary b) t.offset :: pending, values)
  | .opening d, _ => return (.frame ⟨d.purpose, t.offset, values.length⟩ :: pending, values)
  | .closing d, .frame f :: below =>
    if f.purpose.delimiter = d then do return (below, ← collect f values)
    else .fail (.mismatched f.purpose.delimiter d) t.offset
  | .closing d, _ => .fail (.unmatched d) t.offset
  | .comma, .frame f :: _ =>
    if f.purpose.takesCommas then return (pending, values) else .fail .misplacedComma t.offset
  | .comma, _ => .fail .misplacedComma t.offset

def absorb (env : Environment) (t : Token) : List Pending → List Value → Traced Stacks
  | .operator top o :: below, values =>
    if t.completes top then do
      let values ← applyOperator env.tolerance top o below values
      absorb env t below values
    else place env t (.operator top o :: below) values
  | pending, values => place env t pending values

/-- Absorbs tokens one after the other. A name takes the parenthesis of its call along. -/
def absorbAll (env : Environment) : List Token → Stacks → Traced Stacks
  | [], s => return s
  | ⟨.identifier n, o⟩ :: ⟨.opening .paren, _⟩ :: ts, s => do
    let f ← env.functionAt n o
    absorbAll env ts (.frame ⟨.call n f, o, s.2.length⟩ :: s.1, s.2)
  | t :: ts, s => do
    let s ← absorb env t s.1 s.2
    absorbAll env ts s

variable {env : Environment} {last : Nat}

theorem completes_iff {t : Token} {top : Operator} {ts : List Token} :
    t.completes top = true ↔ Completes top (t :: ts) := by
  obtain ⟨k, o⟩ := t
  cases k <;> simp [Token.completes, Completes]

theorem absorbAll_cons {t : Token} {ts : List Token} (h : ¬ t.Calls ts) (s : Stacks) :
    absorbAll env (t :: ts) s = absorb env t s.1 s.2 >>= absorbAll env ts := by
  rw [absorbAll]
  · rintro n o p ts' rfl rfl
    exact h ⟨⟨n, rfl⟩, _, rfl, rfl⟩

theorem tokens_cases (ts : List Token) :
    ts = [] ∨ (∃ n o p ts', ts = ⟨.identifier n, o⟩ :: ⟨.opening .paren, p⟩ :: ts') ∨
      ∃ t ts', ts = t :: ts' ∧ ¬ t.Calls ts' := by
  cases ts with
  | nil => exact .inl rfl
  | cons t ts =>
    right
    by_cases h : t.Calls ts
    · obtain ⟨⟨n, hn⟩, u, hu, hk⟩ := h
      obtain ⟨k, o⟩ := t
      obtain ⟨k', p⟩ := u
      obtain rfl : k = .identifier n := hn
      obtain rfl : k' = .opening .paren := hk
      obtain ⟨ts', rfl⟩ := List.head?_eq_some_iff.mp hu
      exact .inl ⟨n, o, p, ts', rfl⟩
    · exact .inr ⟨t, ts, rfl, h⟩

theorem acts_place {t : Token} {ts : List Token} (hc : ¬ t.Calls ts) {pending : List Pending}
    (hp : ∀ top ∈ Pending.top? pending, t.completes top = false) (values : List Value) :
    acts env last (reading (t :: ts) pending values) =
      place env t pending values >>= fun s => acts env last (reading ts s.1 s.2) := by
  obtain ⟨k, o⟩ := t
  cases k with
  | number x =>
    rw [acts_number]
    rfl
  | identifier n =>
    have hts : ∀ u ∈ ts.head?, u.kind ≠ .opening .paren :=
      fun u hu hk => hc ⟨⟨n, rfl⟩, u, hu, hk⟩
    rw [acts_name n o pending values hts]
    simp only [place, bind_assoc, pure_bind]
  | sign s =>
    rw [acts_shift rfl ts fun p _ => Operator.sign_shiftsOver s p]
    rfl
  | binary b =>
    have hs : (Operator.binary b).ShiftsOnto (Pending.top? pending) := by
      intro top ht
      simpa [Token.completes] using hp top ht
    rw [acts_shift rfl ts hs]
    rfl
  | opening d =>
    rw [acts_opening]
    cases d <;> rfl
  | closing d =>
    cases pending with
    | nil =>
      rw [acts_closing_nil]
      rfl
    | cons x below =>
      cases x with
      | operator top o' => cases hp top rfl
      | frame f =>
        rw [acts_closing_frame]
        simp only [place]
        split
        · simp only [bind_assoc, pure_bind]
        · rfl
  | comma =>
    cases pending with
    | nil =>
      rw [acts_comma_nil]
      rfl
    | cons x below =>
      cases x with
      | operator top o' => cases hp top rfl
      | frame f =>
        rw [acts_comma_frame]
        simp only [place]
        split <;> rfl

theorem acts_absorb {t : Token} {ts : List Token} (hc : ¬ t.Calls ts) (pending : List Pending)
    (values : List Value) :
    acts env last (reading (t :: ts) pending values) =
      absorb env t pending values >>= fun s => acts env last (reading ts s.1 s.2) := by
  induction pending generalizing values with
  | nil => exact acts_place hc (fun _ h => by cases h) values
  | cons x below ih =>
    cases x with
    | frame f => exact acts_place hc (fun _ h => by cases h) values
    | operator top o =>
      rw [absorb]
      split
      · rename_i h
        rw [acts_apply (completes_iff.mp h), bind_assoc]
        simp only [ih]
      · rename_i h
        refine acts_place hc (fun top' ht => ?_) values
        cases ht
        exact Bool.eq_false_iff.mpr h

theorem acts_append (ts : List Token) {rest : List Token}
    (h : ∀ t ∈ ts.getLast?, ¬ t.Calls rest) (s : Stacks) :
    acts env last (reading (ts ++ rest) s.1 s.2) =
      absorbAll env ts s >>= fun s => acts env last (reading rest s.1 s.2) := by
  rcases tokens_cases ts with rfl | ⟨n, o, p, ts, rfl⟩ | ⟨t, ts, rfl, hc⟩
  · rfl
  · have hl : ∀ t ∈ ts.getLast?, ¬ t.Calls rest := Token.not_calls_tail (Token.not_calls_tail h)
    rw [absorbAll, bind_assoc]
    refine (acts_called n o p (ts ++ rest) s.1 s.2).trans ?_
    congr 1
    funext f
    exact acts_append ts hl (.frame ⟨.call n f, o, s.2.length⟩ :: s.1, s.2)
  · rw [absorbAll_cons hc, bind_assoc, List.cons_append, acts_absorb (Token.not_calls_append hc h)]
    congr 1
    funext s'
    exact acts_append ts (Token.not_calls_tail h) s'
termination_by ts.length

/-- A run absorbs the tokens in front and reads the others from the stacks that they leave. -/
theorem traceTokens_append {pre rest : List Token} (h : ∀ t ∈ pre.getLast?, ¬ t.Calls rest) :
    (traceTokens (pre ++ rest) env).actions = absorbAll env pre ([], []) >>= fun s =>
      acts env (lastOffset (pre ++ rest)) (reading rest s.1 s.2) :=
  acts_append pre h ([], [])

theorem traceTokens_absorbAll (ts : List Token) :
    (traceTokens ts env).actions = absorbAll env ts ([], []) >>= fun s =>
      acts env (lastOffset ts) (reading [] s.1 s.2) := by
  have hc : ∀ t ∈ ts.getLast?, ¬ t.Calls [] := by
    rintro t - ⟨-, u, hu, -⟩
    cases hu
  have h : (traceTokens (ts ++ []) env).actions = absorbAll env ts ([], []) >>= fun s =>
      acts env (lastOffset (ts ++ [])) (reading [] s.1 s.2) := traceTokens_append hc
  rwa [List.append_nil] at h

end State
end Formula
