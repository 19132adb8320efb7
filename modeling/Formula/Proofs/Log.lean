import Formula.Proofs.Evaluate
import Formula.Proofs.Expr.Nodes
import Formula.Proofs.Expr.Semantics
import Formula.Proofs.Stacks.History

/-!
# Logs

The log of an evaluation tells the steps of the operator stack and the actions. Read
for the shifted operators it is the sequence of operators in the source, and read for
the actions it is the post-order of the tree, although operators are applied at four
different places: before a weaker operator, before a comma, before a closing delimiter
and at the end. The first word of a message tells what it is about, so all this can be
read from the messages alone.
-/

namespace Formula

open State Traced

def Event.shifted? : Event → Option PlacedOperator
  | shift op o => some (op, o)
  | evaluating _ | reduce _ _ | apply _ _ _ | call _ _ _ | failed _ _ => none

def Announced (events : List Event) : Prop :=
  ∀ before p i after, events = before ++ .reduce p i :: after →
    ∃ o v rest, after = .apply p o v :: rest

theorem announced_of_forall_ne {events : List Event} (h : ∀ p i, .reduce p i ∉ events) :
    Announced events := by
  rintro before p i after rfl
  exact absurd (List.mem_append_right before List.mem_cons_self) (h p i)

theorem Announced.append {a b : List Event} (ha : Announced a) (hb : Announced b) :
    Announced (a ++ b) := by
  intro before p i after h
  rcases List.append_eq_append_iff.mp h with ⟨between, rfl, hb'⟩ | ⟨tail, rfl, ht⟩
  · exact hb between p i after hb'
  · cases tail with
    | nil => exact hb [] p i after ht.symm
    | cons e tail =>
      obtain ⟨rfl, rfl⟩ := List.cons.inj ht
      obtain ⟨o, v, rest, rfl⟩ := ha before p i tail rfl
      exact ⟨o, v, rest ++ b, rfl⟩

namespace Traced

variable {α β : Type}

/-- All events are about parts of an evaluation, and with a result every announcement has been
kept. -/
structure Keeps (t : Traced α) : Prop where
  inner : ∀ e ∈ t.events, e.level = "trace"
  announced : ∀ a, t.result = .ok a → Announced t.events

theorem keeps_of_forall {t : Traced α}
    (h : ∀ e ∈ t.events, e.level = "trace" ∧ ∀ p i, e ≠ .reduce p i) : t.Keeps :=
  ⟨fun e he => (h e he).1, fun _ _ => announced_of_forall_ne fun p i hm => (h _ hm).2 p i rfl⟩

theorem keeps_of_events_eq_nil {t : Traced α} (h : t.events = []) : t.Keeps :=
  keeps_of_forall fun e he => by rw [h] at he; cases he

theorem keeps_pure (a : α) : (pure a : Traced α).Keeps := keeps_of_events_eq_nil rfl

theorem keeps_fail (fault : EvalFault) (o : Nat) : (fail fault o : Traced α).Keeps :=
  keeps_of_events_eq_nil rfl

theorem Keeps.bind {t : Traced α} {f : α → Traced β} (ht : t.Keeps)
    (hf : ∀ a, t.result = .ok a → (f a).Keeps) : (t >>= f).Keeps := by
  constructor
  · intro e he
    rw [bind_events] at he
    rcases List.mem_append.mp he with he | he
    · exact ht.inner e he
    · cases hr : t.result <;> rw [hr] at he
      · cases he
      · exact (hf _ hr).inner e he
  · intro b hb
    obtain ⟨a, ha, hb, he⟩ := bind_ok_events hb
    rw [he]
    exact (ht.announced a ha).append ((hf a ha).announced b hb)

end Traced

section Parts

theorem applyOperator_keeps (tolerance : Float) (op : Operator) (o : Nat) (below : List Pending)
    (values : List Value) : (applyOperator tolerance op o below values).Keeps := by
  rcases applyOperator_events tolerance op o below values with ⟨hn, -⟩ | ⟨v, hv⟩
  · exact keeps_of_events_eq_nil hn
  · refine keeps_of_forall fun e he => ?_
    rw [hv, List.mem_singleton] at he
    subst he
    exact ⟨rfl, nofun⟩

theorem reduceToFrame_keeps (tolerance : Float) (pending : List Pending) (values : List Value) :
    (reduceToFrame tolerance pending values).Keeps := by
  induction pending generalizing values with
  | nil => exact keeps_pure _
  | cons p below ih =>
    cases p with
    | frame f => exact keeps_pure _
    | operator op o =>
      exact (applyOperator_keeps tolerance op o below values).bind fun vs _ => ih vs

theorem Function.act_keeps (f : Function) (n : String) (o : Nat) (args : List Value) :
    (f.act n o args).Keeps := by
  refine keeps_of_forall fun e he => ?_
  rw [f.act_events, List.mem_singleton] at he
  subst he
  exact ⟨rfl, nofun⟩

theorem collect_keeps (f : Frame) (values : List Value) : (collect f values).Keeps := by
  obtain ⟨purpose, o, base⟩ := f
  cases purpose with
  | group => exact keeps_pure _
  | call n function => exact (function.act_keeps n o _).bind fun w _ => keeps_pure _
  | vector =>
    exact (keeps_of_events_eq_nil (flatVector_events o _)).bind fun w _ => keeps_pure _

end Parts

namespace State

variable {env : Environment}

theorem reduce_keeps (top op : Operator) (o : Nat) (below : List Pending) (values : List Value)
    (s' : List Value → State) :
    (Traced.record (.reduce top op) >>= fun _ =>
      applyOperator env.tolerance top o below values >>= fun vs => pure (s' vs)).Keeps := by
  have ha := applyOperator_keeps env.tolerance top o below values
  constructor
  · intro e he
    obtain rfl | he := List.mem_cons.mp he
    · rfl
    · exact (ha.bind fun vs _ => keeps_pure (s' vs)).inner e he
  · intro a h
    obtain ⟨-, -, h, hr⟩ := bind_ok_events h
    obtain ⟨vs, hvs, -, he⟩ := bind_ok_events h
    rcases applyOperator_events env.tolerance top o below values with ⟨-, e, hn⟩ | ⟨v, hv⟩
    · rw [hn] at hvs
      cases hvs
    · rw [hr, he, hv]
      intro before p i after heq
      match before, heq with
      | [], heq =>
        obtain ⟨hp, rfl⟩ := List.cons.inj heq
        cases hp
        exact ⟨o, v, [], rfl⟩
      | [_], heq => cases heq
      | _ :: _ :: before, heq => simp [record] at heq

theorem shift_keeps (op : Operator) (o : Nat) (s : State) : (s.shift op o).Keeps := by
  refine keeps_of_forall fun e he => ?_
  obtain rfl := List.mem_singleton.mp he
  exact ⟨rfl, nofun⟩

theorem operate_keeps (op : Operator) (t : Token) (s : State) : (s.operate env op t).Keeps := by
  obtain ⟨input, pending, values⟩ := s
  match pending with
  | [] => exact shift_keeps op t.offset _
  | .frame f :: below => exact shift_keeps op t.offset _
  | .operator top o :: below =>
    simp only [operate]
    split
    · exact shift_keeps op t.offset _
    · exact reduce_keeps top op o below values _

theorem resolve_keeps (n : String) (o : Nat) (s : State) : (s.resolve env n o).Keeps := by
  refine keeps_of_events_eq_nil ?_
  unfold resolve
  split
  · split <;> rfl
  · split <;> rfl
  · rfl

theorem close_keeps (d : Delimiter) (o : Nat) (s : State) : (s.close env d o).Keeps := by
  refine (reduceToFrame_keeps env.tolerance s.pending s.values).bind fun r _ => ?_
  obtain ⟨_ | ⟨f, below⟩, values⟩ := r
  · exact keeps_fail _ _
  · dsimp only
    split
    · exact (collect_keeps f values).bind fun vs _ => keeps_pure _
    · exact keeps_fail _ _

theorem separate_keeps (o : Nat) (s : State) : (s.separate env o).Keeps := by
  refine (reduceToFrame_keeps env.tolerance s.pending s.values).bind fun r _ => ?_
  obtain ⟨_ | ⟨f, below⟩, values⟩ := r
  · exact keeps_fail _ _
  · dsimp only
    split
    · exact keeps_pure _
    · exact keeps_fail _ _

theorem read_keeps (t : Token) (s : State) : (s.read env t).Keeps := by
  obtain ⟨k, o⟩ := t
  cases k with
  | number x => exact keeps_pure _
  | identifier n => exact resolve_keeps n o s
  | opening d => cases d <;> exact keeps_pure _
  | closing d => exact close_keeps d o s
  | comma => exact separate_keeps o s
  | sign sg => exact operate_keeps _ _ s
  | binary b => exact operate_keeps _ _ s

theorem finish_keeps (last : Nat) (s : State) : (s.finish env last).Keeps := by
  refine (reduceToFrame_keeps env.tolerance s.pending s.values).bind fun r _ => ?_
  obtain ⟨_ | ⟨f, below⟩, values⟩ := r
  · match values with
    | [] => exact keeps_fail _ _
    | [v] => exact keeps_pure _
    | v :: w :: vs => exact keeps_fail _ _
  · exact keeps_fail _ _

theorem run_keeps (last : Nat) (s : State) : (s.run env last).Keeps := by
  rw [run_eq]
  cases hs : s.step env with
  | none => exact finish_keeps last s
  | some t =>
    have ht : t.Keeps := by
      unfold step at hs
      split at hs
      · cases hs
      · cases hs
        exact read_keeps _ _
    exact ht.bind fun s' hr => run_keeps last s'
termination_by s.weight
decreasing_by exact step_weight hs hr

end State

theorem traceTokens_shifts {ts : List Token} {env : Environment} {v : Value}
    (h : (traceTokens ts env).result = .ok v) :
    (traceTokens ts env).events.filterMap Event.shifted? = ts.filterMap Token.operator? := by
  have ht : Tally ⟨ts.filterMap Token.operator?, []⟩ ((State.start ts).history env)
      (traceTokens ts env) fun _ => ⟨[], []⟩ := history_tally (lastOffset ts) (State.start ts)
  have hu := ht.unread v h
  have he : (fun e : Event => e.operation?.bind Operation.shifted?) = Event.shifted? :=
    funext fun e => by cases e <;> rfl
  have hf : (fun p : Operation => if p.isRecorded then p.shifted? else none) =
      Operation.shifted? := funext fun p => by cases p <;> rfl
  rw [List.append_nil] at hu
  rw [← he, ← List.filterMap_filterMap, ht.complete v h, List.filterMap_filter, hf, hu]

theorem innerEvents_keeps (source : String) (env : Environment) :
    (∀ e ∈ innerEvents source env, e.level = "trace") ∧
      ∀ v, evaluate source env = .ok v → Announced (innerEvents source env) := by
  unfold innerEvents
  split
  · exact ⟨nofun, fun _ _ => announced_of_forall_ne nofun⟩
  · rename_i ts hts
    have hk : (traceTokens ts env).Keeps := run_keeps _ _
    refine ⟨hk.inner, fun v hv => ?_⟩
    obtain ⟨ts', hts', hr⟩ := evaluate_eq_ok hv
    rw [hts] at hts'
    cases hts'
    exact hk.announced v hr

theorem evaluationLog_ok {source : String} {env : Environment} {v : Value}
    (h : evaluate source env = .ok v) :
    evaluationLog source env = [.evaluating source] ++ innerEvents source env := by
  rw [evaluationLog, h, List.append_nil]
  rfl

theorem evaluationLog_error {source : String} {env : Environment} {e : Error}
    (h : evaluate source env = .error e) :
    evaluationLog source env =
      .evaluating source :: (innerEvents source env ++ [.failed source e]) := by
  rw [evaluationLog, h]
  rfl

theorem mem_evaluationLog_failed {source s : String} {env : Environment} {e : Error} :
    .failed s e ∈ evaluationLog source env ↔ s = source ∧ evaluate source env = .error e := by
  have hi : .failed s e ∉ innerEvents source env := fun hm =>
    absurd (show "debug" = "trace" from (innerEvents_keeps source env).1 _ hm) (by decide)
  cases h : evaluate source env with
  | ok v =>
    rw [evaluationLog_ok h]
    simp [hi]
  | error e' =>
    rw [evaluationLog_error h]
    simp [hi, eq_comm]

section Messages

def Event.word : Event → String
  | evaluating _ => "evaluating"
  | shift _ _ => "shift"
  | reduce _ _ => "reduce"
  | apply _ _ _ => "apply"
  | call _ _ _ => "call"
  | failed _ _ => "evaluation"

def firstWord (message : String) : String :=
  .ofList (message.toList.takeWhile (· ≠ ' '))

theorem Event.firstWord_text (e : Event) : firstWord e.text = e.word := by
  cases e <;>
  · simp only [text, firstWord, String.toList_append, toString, List.append_assoc]
    rfl

theorem filter_messages (p : String → Bool) (events : List Event) :
    (events.map Event.text).filter (fun m => p (firstWord m)) =
      (events.filter fun e => p e.word).map Event.text := by
  rw [List.filter_map]
  exact congrArg (fun q => (events.filter q).map Event.text)
    (funext fun e => congrArg p e.firstWord_text)

/-- The message about a node: the value of an operator, or the number of arguments of a call. -/
inductive Expr.Logged (env : Environment) : Expr → String → Prop
  | sign {s : Sign} {o : Nat} {e : Expr} {v : Value} :
      (Expr.sign s o e).Evaluates env (.ok v) →
      Logged env (.sign s o e) ("apply " ++ (Operator.sign s).symbol ++ " -> " ++ v.text)
  | binary {b : BinaryOp} {o : Nat} {l r : Expr} {v : Value} :
      (Expr.binary b o l r).Evaluates env (.ok v) →
      Logged env (.binary b o l r) ("apply " ++ (Operator.binary b).symbol ++ " -> " ++ v.text)
  | nullary (n : String) (o p c : Nat) :
      Logged env (.nullary n o p c) ("call " ++ n ++ " with 0 argument(s)")
  | call (n : String) (o p : Nat) (args : Items) (c : Nat) :
      Logged env (.call n o p args c)
        ("call " ++ n ++ " with " ++ toString args.length ++ " argument(s)")

theorem Expr.Reported.logged {env : Environment} {t : Expr} {e : Event} (h : t.Reported env e) :
    t.Logged env e.text := by
  have evaluates {t : Expr} {v : Value} (hv : (t.evaluate env).result = .ok v) :
      t.Evaluates env (.ok v) := Expr.evaluates_iff.mpr (outcome_eq_ok_iff.mpr hv)
  cases h with
  | sign hv => exact .sign (evaluates hv)
  | binary hv => exact .binary (evaluates hv)
  | nullary n o p c =>
    have ht : (Event.call n o 0).text = "call " ++ n ++ " with 0 argument(s)" := by
      change "call " ++ n ++ " with " ++ "0" ++ " argument(s)" = _
      rw [String.append_assoc, String.append_assoc]
      rfl
    exact ht ▸ .nullary n o p c
  | call n o p args c => exact .call n o p args c

/-- The next message after that of a reduction is the one about the operator it names. -/
def AnnouncedIn (messages : List String) : Prop :=
  ∀ before m after, messages = before ++ m :: after → firstWord m = "reduce" →
    ∃ (top op : Operator) (v : Value) (rest : List String),
      m = "reduce " ++ top.symbol ++ " before " ++ op.symbol ∧
        after = ("apply " ++ top.symbol ++ " -> " ++ v.text) :: rest

theorem Announced.messages {events : List Event} (h : Announced events) :
    AnnouncedIn (events.map Event.text) := by
  intro before m after hm hw
  obtain ⟨l, r, rfl, -, hr⟩ := List.map_eq_append_iff.mp hm
  obtain ⟨e, r, rfl, rfl, rfl⟩ := List.map_eq_cons_iff.mp hr
  rw [e.firstWord_text] at hw
  cases e with
  | reduce top op =>
    obtain ⟨o, v, rest, rfl⟩ := h l top op r rfl
    exact ⟨top, op, v, rest.map Event.text, rfl, rfl⟩
  | _ => simp [Event.word] at hw

theorem shift_messages (events : List Event) :
    (events.map Event.text).filter (firstWord · = "shift") =
      (events.filterMap Event.shifted?).map fun p => "shift " ++ p.1.symbol := by
  rw [filter_messages (· = "shift")]
  induction events with
  | nil => rfl
  | cons e events ih =>
    cases e with
    | shift op o => exact congrArg (("shift " ++ op.symbol) :: ·) ih
    | _ => exact ih

theorem action_messages (events : List Event) :
    (events.map Event.text).filter (fun m => firstWord m = "apply" ∨ firstWord m = "call") =
      (events.filter Event.isAction).map Event.text := by
  rw [filter_messages fun w => w = "apply" ∨ w = "call"]
  exact congrArg (fun p => (events.filter p).map Event.text)
    (funext fun e => by cases e <;> rfl)

end Messages

theorem failure_messages (source : String) (env : Environment) :
    ((evaluationLog source env).map Event.text).filter (firstWord · = "evaluation") =
      match evaluate source env with
      | .ok _ => []
      | .error e => ["evaluation of " ++ Text.quote source ++ " failed: " ++ e.message] := by
  have hi : (innerEvents source env).filter (·.word = "evaluation") = [] := by
    refine List.filter_eq_nil_iff.mpr fun e he => ?_
    have hl := (innerEvents_keeps source env).1 e he
    cases e with
    | failed _ _ => simp [Event.level] at hl
    | _ => simp [Event.word]
  rw [filter_messages (· = "evaluation")]
  cases h : evaluate source env with
  | ok v =>
    rw [evaluationLog_ok h, List.filter_append, hi]
    rfl
  | error e =>
    rw [evaluationLog_error h, ← List.cons_append, List.filter_append,
      List.filter_cons_of_neg, hi]
    · rfl
    · simp [Event.word]

/-- The log of a source begins with the source, and ends with an error if this is the result; no
other error is in it. With a value, the shifted operators are those of the tokens in their order,
the actions are the operators and calls of the source's tree in post-order, with their values and
numbers of arguments, and every reduction is announced right before it. All this is written in the
messages. -/
theorem evaluationLog_postorder (source : String) (env : Environment) :
    let log := evaluationLog source env
    let messages := log.map Event.text
    log.head? = some (.evaluating source) ∧
    messages.head? = some ("evaluating " ++ Text.quote source) ∧
    (∀ s e, .failed s e ∈ log ↔ s = source ∧ evaluate source env = .error e) ∧
    (∀ e, evaluate source env = .error e → log.getLast? = some (.failed source e) ∧
      messages.getLast? =
        some ("evaluation of " ++ Text.quote source ++ " failed: " ++ e.message)) ∧
    (messages.filter (firstWord · = "evaluation") =
      match evaluate source env with
      | .ok _ => []
      | .error e => ["evaluation of " ++ Text.quote source ++ " failed: " ++ e.message]) ∧
    ∀ v, evaluate source env = .ok v →
      ∃ t, Expr.Derived .equality t ∧ tokenize source env.identifiers = .ok t.tokens ∧
        (∀ u, Expr.Derived .equality u → u.tokens = t.tokens → u = t) ∧
        log.filterMap Event.shifted? = t.tokens.filterMap Token.operator? ∧
        messages.filter (firstWord · = "shift") =
          (t.tokens.filterMap Token.operator?).map (fun p => "shift " ++ p.1.symbol) ∧
        List.Forall₂ (Expr.Reported env) t.nodes (log.filter Event.isAction) ∧
        List.Forall₂ (Expr.Logged env) t.nodes
          (messages.filter fun m => firstWord m = "apply" ∨ firstWord m = "call") ∧
        Announced log ∧ AnnouncedIn messages := by
  intro log messages
  refine ⟨rfl, rfl, fun s e => mem_evaluationLog_failed, fun e he => ?_,
    failure_messages source env, fun v hv => ?_⟩
  · have hlast : log.getLast? = some (.failed source e) := by
      rw [show log = _ from evaluationLog_error he, ← List.cons_append, List.getLast?_append]
      rfl
    exact ⟨hlast, by rw [List.getLast?_map, hlast]; rfl⟩
  · have hlog : log = [.evaluating source] ++ innerEvents source env := evaluationLog_ok hv
    obtain ⟨ts, hts, hr⟩ := evaluate_eq_ok hv
    obtain ⟨t, ht⟩ := Option.isSome_iff_exists.mp ((traceTokens_yields hts).result v hr)
    obtain ⟨hs, rfl⟩ := Expr.parse?_eq_some_iff.mp ht
    have hi : innerEvents source env = (traceTokens t.tokens env).events := by
      rw [innerEvents, hts]
    have hactions : (traceTokens t.tokens env).events.filter Event.isAction =
        (t.evaluate env).events := congrArg Traced.events (traceTokens_actions hs env)
    have hvalue : (t.evaluate env).result = .ok v := by rw [← traceTokens_actions hs env, hr]
    have hshifts : log.filterMap Event.shifted? = t.tokens.filterMap Token.operator? := by
      rw [hlog, hi]
      exact traceTokens_shifts hr
    have hnodes : List.Forall₂ (Expr.Reported env) t.nodes (log.filter Event.isAction) := by
      rw [hlog, hi, List.filter_append, hactions]
      exact Expr.evaluate_reports hvalue
    have hannounced : Announced log := by
      rw [hlog]
      have first : Announced [.evaluating source] := announced_of_forall_ne fun p i hm => by
        cases List.mem_singleton.mp hm
      exact first.append ((innerEvents_keeps source env).2 v hv)
    refine ⟨t, derived_iff.mpr hs, hts,
      fun u hu hut => Expr.tokens_injective (derived_iff.mp hu) hs hut, hshifts, ?_, hnodes, ?_,
      hannounced, hannounced.messages⟩
    · rw [shift_messages, hshifts]
    · rw [action_messages]
      exact List.forall₂_map_right_iff.mpr (hnodes.imp fun _ _ => Expr.Reported.logged)

/-- The operators are applied before a weaker one, before a bracket is closed and at the end. -/
theorem evaluationLog_postorder_vector :
    let env := Environment.empty.withFunction "twice" (.unary fun x => x + x)
    let source := "-1+twice(2)*[3,4-1]"
    evaluate source env = .ok (.vector [11, 11]) ∧
      (∃ t, Expr.Derived .equality t ∧ tokenize source env.identifiers = .ok t.tokens ∧
        List.Forall₂ (Expr.Logged env) t.nodes
          ["apply u- -> -1", "call twice with 1 argument(s)", "apply - -> 3",
            "apply * -> [12, 12]", "apply + -> [11, 11]"]) ∧
      (evaluationLog source env).map Event.text =
        ["evaluating \"-1+twice(2)*[3,4-1]\"", "shift u-", "reduce u- before +", "apply u- -> -1",
          "shift +", "call twice with 1 argument(s)", "shift *", "shift -", "apply - -> 3",
          "apply * -> [12, 12]", "apply + -> [11, 11]"] := by
  intro env source
  have hn : env.identifiers = ["twice"] := List.nil_merge _
  have h : evaluate source env = .ok (.vector [11, 11]) := by
    rw [evaluate, hn]
    decide +kernel
  have hm : (evaluationLog source env).map Event.text =
      ["evaluating \"-1+twice(2)*[3,4-1]\"", "shift u-", "reduce u- before +", "apply u- -> -1",
        "shift +", "call twice with 1 argument(s)", "shift *", "shift -", "apply - -> 3",
        "apply * -> [12, 12]", "apply + -> [11, 11]"] := by
    rw [evaluationLog, h, innerEvents, hn]
    decide +kernel
  obtain ⟨t, ht, htokens, -, -, -, -, hnodes, -⟩ :=
    (evaluationLog_postorder source env).2.2.2.2.2 _ h
  rw [hm] at hnodes
  exact ⟨h, ⟨t, ht, htokens, hnodes⟩, hm⟩

end Formula
