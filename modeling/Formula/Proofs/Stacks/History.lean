import Mathlib.Data.List.Perm.Subperm
import Formula.Proofs.Stacks.Moves

/-!
# Histories of runs

The history of a run lists what its loop does with tokens and operators: one entry for
each iteration, for each token that is held back with what has been held back before,
for each operator that is put on the stack and for each one that is applied, whether
this fails or not. Operators are shifted in the order of their tokens. What has been
shifted has been applied or is still pending, so nothing is applied twice, and at the
end of a run with a value nothing is left.
-/

namespace Formula

open State Traced

abbrev PlacedOperator := Operator × Nat

inductive Operation where
  | read (t : Token)
  /-- A token is stored to be read again, in the place of what is stored already. -/
  | holdBack (t : Token) (slot : Option Token)
  | shift (p : PlacedOperator)
  /-- An operator is taken off the stack and applied, which may fail. -/
  | apply (p : PlacedOperator)

namespace Operation

def isRead : Operation → Bool
  | read _ => true
  | holdBack _ _ | shift _ | apply _ => false

def shifted? : Operation → Option PlacedOperator
  | shift p => some p
  | read _ | holdBack _ _ | apply _ => none

def applied? : Operation → Option PlacedOperator
  | apply p => some p
  | read _ | holdBack _ _ | shift _ => none

def isRecorded : Operation → Bool
  | shift _ | apply _ => true
  | read _ | holdBack _ _ => false

end Operation

def Event.operation? : Event → Option Operation
  | shift op o => some (.shift (op, o))
  | apply op o _ => some (.apply (op, o))
  | evaluating _ | reduce _ _ | call _ _ _ | failed _ _ => none

def Token.operator? (t : Token) : Option PlacedOperator :=
  t.kind.operator?.map fun op => (op, t.offset)

def Pending.operators : List Pending → List PlacedOperator
  | [] => []
  | operator op o :: below => (op, o) :: operators below
  | frame _ :: below => operators below

/-- The operators that are applied one after the other down to the innermost frame. One that fails
is the last. -/
def applications (tolerance : Float) : List Pending → List Value → List PlacedOperator
  | .operator op o :: below, values =>
    (op, o) ::
      match (applyOperator tolerance op o below values).result with
      | .ok vs => applications tolerance below vs
      | .error _ => []
  | _, _ => []

namespace State

def operations (env : Environment) (t : Token) (s : State) : List Operation :=
  match t.kind.operator?, s.pending with
  | some op, .operator top o :: _ =>
    if op.shiftsOver top then [.shift (op, t.offset)]
    else [.holdBack t s.input.held, .apply (top, o)]
  | some op, _ => [.shift (op, t.offset)]
  | none, pending =>
    match t.kind with
    | .closing _ | .comma => (applications env.tolerance pending s.values).map .apply
    | _ => []

def history (env : Environment) (s : State) : List Operation :=
  match _h : s.input.next? with
  | none => (applications env.tolerance s.pending s.values).map .apply
  | some (t, input) =>
    .read t :: operations env t { s with input } ++
      match _hr : (read env t { s with input }).result with
      | .error _ => []
      | .ok s' => history env s'
termination_by s.weight
decreasing_by exact step_weight (t := read env t { s with input }) (by rw [step, _h]) _hr

/-- The run, if its loop ends within `n` iterations. -/
def runWithin (env : Environment) (lastOffset n : Nat) (s : State) : Option (Traced Value) :=
  match s.step env with
  | none => some (s.finish env lastOffset)
  | some t =>
    match n with
    | 0 => none
    | n + 1 =>
      match t.result with
      | .error e => some ⟨t.events, .error e⟩
      | .ok s' => (runWithin env lastOffset n s').map fun r => ⟨t.events ++ r.events, r.result⟩

end State

/-- The operators that are still to be read and those that are pending. -/
structure Account where
  unread : List PlacedOperator
  pending : List PlacedOperator

def State.account (s : State) : Account :=
  ⟨s.input.unread.filterMap Token.operator?, Pending.operators s.pending⟩

/-- A part of a run does these operations and leaves one account in the place of another. -/
structure Tally {α : Type} (before : Account) (ops : List Operation) (r : Traced α)
    (after : α → Account) : Prop where
  slots : ∀ t slot, .holdBack t slot ∈ ops → slot = none
  shifts : ops.filterMap Operation.shifted? <+: before.unread
  applies : (ops.filterMap Operation.applied?).Subperm
    (before.pending ++ ops.filterMap Operation.shifted?)
  recorded : r.events.filterMap Event.operation? <+: ops.filter Operation.isRecorded
  unread : ∀ a, r.result = .ok a →
    ops.filterMap Operation.shifted? ++ (after a).unread = before.unread
  pending : ∀ a, r.result = .ok a → (ops.filterMap Operation.applied? ++ (after a).pending).Perm
    (before.pending ++ ops.filterMap Operation.shifted?)
  complete : ∀ a, r.result = .ok a →
    r.events.filterMap Event.operation? = ops.filter Operation.isRecorded

namespace Tally

variable {α β : Type} {before : Account} {ops : List Operation}

theorem quiet {r : Traced α} (hr : r.events.filterMap Event.operation? = []) {after : α → Account}
    (h : ∀ a, r.result = .ok a → after a = before) : Tally before [] r after where
  slots _ _ h := nomatch h
  shifts := List.nil_prefix
  applies := List.nil_subperm
  recorded := by rw [hr]; exact List.nil_prefix
  unread a ha := by rw [h a ha]; rfl
  pending a ha := by rw [h a ha]; exact (List.append_nil before.pending).symm ▸ .refl _
  complete _ _ := hr

theorem silent {r : Traced α} (hr : r.events.filterMap Event.operation? = []) :
    Tally before [] r fun _ => before :=
  quiet hr fun _ _ => rfl

theorem pure (a : α) {after : α → Account} (h : after a = before) :
    Tally before [] (Pure.pure a) after :=
  quiet rfl fun b hb => by cases hb; exact h

theorem fail (fault : EvalFault) (o : Nat) (after : α → Account) :
    Tally before [] (Traced.fail fault o) after :=
  quiet rfl fun b hb => by cases hb

theorem read {r : Traced α} {after : α → Account} (h : Tally before ops r after) (t : Token) :
    Tally before (.read t :: ops) r after := by
  refine ⟨fun u slot hm => ?_, h.shifts, h.applies, h.recorded, h.unread, h.pending, h.complete⟩
  cases hm with
  | tail _ hm => exact h.slots u slot hm

theorem holdBack {r : Traced α} {after : α → Account} (h : Tally before ops r after) (t : Token) :
    Tally before (.holdBack t none :: ops) r after := by
  refine ⟨fun u slot hm => ?_, h.shifts, h.applies, h.recorded, h.unread, h.pending, h.complete⟩
  cases hm with
  | head => rfl
  | tail _ hm => exact h.slots u slot hm

theorem bind {r : Traced α} {mid : α → Account} (h : Tally before ops r mid) {f : α → Traced β}
    {g : α → List Operation} {after : β → Account}
    (hf : ∀ a, r.result = .ok a → Tally (mid a) (g a) (f a) after) :
    Tally before (ops ++ match r.result with | .error _ => [] | .ok a => g a) (r >>= f) after := by
  cases hr : r.result with
  | error e =>
    have he : (r >>= f).events = r.events := by rw [bind_events, hr, List.append_nil]
    have hn (b : β) : (r >>= f).result ≠ .ok b := by rw [bind_result, hr]; exact nofun
    rw [List.append_nil]
    exact ⟨h.slots, h.shifts, h.applies, he ▸ h.recorded, fun b hb => absurd hb (hn b),
      fun b hb => absurd hb (hn b), fun b hb => absurd hb (hn b)⟩
  | ok a =>
    have hg := hf a hr
    have he : (r >>= f).events = r.events ++ (f a).events := by rw [bind_events, hr]
    have hb : (r >>= f).result = (f a).result := by rw [bind_result, hr]; rfl
    constructor
    case slots =>
      intro t slot hm
      rcases List.mem_append.mp hm with hm | hm
      · exact h.slots t slot hm
      · exact hg.slots t slot hm
    case shifts =>
      rw [List.filterMap_append, ← h.unread a hr]
      exact (List.prefix_append_right_inj _).mpr hg.shifts
    case applies =>
      -- what is pending in between accounts for the second part
      rw [List.filterMap_append, List.filterMap_append, ← List.append_assoc]
      refine ((List.subperm_append_left _).mpr hg.applies).trans ?_
      rw [← List.append_assoc]
      exact ((h.pending a hr).append_right _).subperm
    case recorded =>
      rw [he, List.filterMap_append, List.filter_append, h.complete a hr]
      exact (List.prefix_append_right_inj _).mpr hg.recorded
    case unread =>
      intro b hb'
      rw [List.filterMap_append, List.append_assoc, hg.unread b (hb ▸ hb'), h.unread a hr]
    case pending =>
      intro b hb'
      have hp := (hg.pending b (hb ▸ hb')).append_left (ops.filterMap Operation.applied?)
      have hq := (h.pending a hr).append_right ((g a).filterMap Operation.shifted?)
      simp only [List.filterMap_append, List.append_assoc] at hp hq ⊢
      exact hp.trans hq
    case complete =>
      intro b hb'
      rw [he, List.filterMap_append, List.filter_append, h.complete a hr, hg.complete b (hb ▸ hb')]

theorem andQuiet {r : Traced α} {mid : α → Account} (h : Tally before ops r mid)
    {f : α → Traced β} {after : β → Account}
    (hf : ∀ a, r.result = .ok a → Tally (mid a) [] (f a) after) :
    Tally before ops (r >>= f) after := by
  have hb := h.bind hf
  cases hr : r.result <;> rw [hr, List.append_nil] at hb <;> exact hb

end Tally

section Parts

theorem applyOperator_events (tolerance : Float) (op : Operator) (o : Nat) (below : List Pending)
    (values : List Value) :
    (applyOperator tolerance op o below values).events = [] ∧
        (∃ e, (applyOperator tolerance op o below values).result = .error e) ∨
      ∃ v, (applyOperator tolerance op o below values).events = [.apply op o v] := by
  rcases operands_cases op below values with hc | ⟨s, x, rest, rfl, rfl, hb⟩ |
    ⟨b, y, x, rest, rfl, rfl, hb⟩
  · rw [applyOperator_lacking tolerance o hc]
    exact .inl ⟨rfl, _, rfl⟩
  · rw [applyOperator_sign _ _ _ _ hb]
    exact .inr ⟨_, rfl⟩
  · rw [applyOperator_binary _ _ _ _ _ hb, BinaryOp.act]
    cases b.apply tolerance o x y with
    | error e => exact .inl ⟨rfl, e, rfl⟩
    | ok v => exact .inr ⟨v, rfl⟩

theorem applyOperator_tally (tolerance : Float) (op : Operator) (o : Nat) (below : List Pending)
    (values : List Value) (unread pending : List PlacedOperator) :
    Tally ⟨unread, (op, o) :: pending⟩ [.apply (op, o)]
      (applyOperator tolerance op o below values) fun _ => ⟨unread, pending⟩ where
  slots _ _ h := by cases List.mem_singleton.mp h
  shifts := List.nil_prefix
  applies := by
    change List.Subperm [(op, o)] ((op, o) :: pending ++ [])
    exact (List.sublist_append_left _ _).subperm
  recorded := by
    rcases applyOperator_events tolerance op o below values with ⟨hn, -⟩ | ⟨v, hv⟩
    · rw [hn]
      exact List.nil_prefix
    · rw [hv]
      exact List.prefix_rfl
  unread _ _ := rfl
  pending _ _ := (List.append_nil ((op, o) :: pending)).symm ▸ .refl _
  complete vs h := by
    rcases applyOperator_events tolerance op o below values with ⟨-, e, he⟩ | ⟨v, hv⟩
    · rw [he] at h
      cases h
    · rw [hv]
      rfl

theorem reduceToFrame_tally (tolerance : Float) (pending : List Pending) (values : List Value)
    (unread : List PlacedOperator) :
    Tally ⟨unread, Pending.operators pending⟩
      ((applications tolerance pending values).map .apply) (reduceToFrame tolerance pending values)
      fun r => ⟨unread, Pending.operators r.pending⟩ := by
  induction pending generalizing values with
  | nil => exact Tally.pure _ rfl
  | cons p below ih =>
    cases p with
    | frame f => exact Tally.pure _ rfl
    | operator op o =>
      have h := (applyOperator_tally tolerance op o below values unread
        (Pending.operators below)).bind fun vs _ => ih vs
      simp only [applications, List.map_cons]
      cases hr : (applyOperator tolerance op o below values).result <;> rw [hr] at h <;> exact h

theorem collect_events (f : Frame) (values : List Value) :
    (collect f values).events.filterMap Event.operation? = [] := by
  obtain ⟨purpose, o, base⟩ := f
  cases purpose with
  | group => rfl
  | call name function =>
    simp only [collect, Function.act, bind_assoc, bind_events, record, lift]
    cases function.call name (values.take (values.length - base)).reverse o <;> rfl
  | vector =>
    simp only [collect, flatVector]
    split <;> rfl

end Parts

namespace State

variable {env : Environment}

theorem filterMap_operator_cons {t : Token} {op : Operator} (ht : t.kind.operator? = some op)
    (ts : List Token) :
    (t :: ts).filterMap Token.operator? = (op, t.offset) :: ts.filterMap Token.operator? := by
  rw [List.filterMap_cons_some]
  rw [Token.operator?, ht]
  rfl

theorem shift_tally (op : Operator) (o : Nat) (s : State) :
    Tally ⟨(op, o) :: s.input.unread.filterMap Token.operator?, Pending.operators s.pending⟩
      [.shift (op, o)] (s.shift op o) account where
  slots _ _ h := by cases List.mem_singleton.mp h
  shifts := List.cons_prefix_cons.mpr ⟨rfl, List.nil_prefix⟩
  applies := List.nil_subperm
  recorded := List.prefix_rfl
  unread s' h := by
    cases h
    rfl
  pending s' h := by
    cases h
    exact (List.perm_append_singleton _ _).symm
  complete _ _ := rfl

theorem operate_tally {t : Token} {op : Operator} (ht : t.kind.operator? = some op) {s : State}
    (hs : s.input.held = none) :
    Tally ⟨(t :: s.input.unread).filterMap Token.operator?, Pending.operators s.pending⟩
      (s.operations env t) (s.operate env op t) account := by
  have shifts := shift_tally op t.offset s
  rw [← filterMap_operator_cons ht] at shifts
  obtain ⟨input, pending, values⟩ := s
  match pending, shifts with
  | [], shifts =>
    rw [operations, ht]
    exact shifts
  | .frame f :: below, shifts =>
    rw [operations, ht]
    exact shifts
  | .operator top o :: below, shifts =>
    simp only [operations, operate, ht]
    split
    · exact shifts
    · have left (vs : List Value) : account ⟨input.holdBack t, below, vs⟩ =
          ⟨(t :: input.unread).filterMap Token.operator?, Pending.operators below⟩ := by
        rw [account, Input.unread_holdBack hs]
      have h := (applyOperator_tally env.tolerance top o below values _
        (Pending.operators below)).andQuiet fun vs _ => Tally.pure _ (left vs)
      have reduce : (Traced.record (.reduce top op)).events.filterMap Event.operation? = [] := rfl
      rw [hs]
      exact ((Tally.silent reduce).bind fun _ _ => h).holdBack t

theorem resolve_tally (n : String) (o : Nat) (s : State) :
    Tally s.account [] (s.resolve env n o) account := by
  have events : (s.resolve env n o).events.filterMap Event.operation? = [] := by
    unfold resolve
    split
    · split <;> rfl
    · split <;> rfl
    · rfl
  refine Tally.quiet events fun s' h => ?_
  unfold resolve at h
  split at h
  · split at h <;> cases h
    rfl
  · split at h
    · rename_i p input hn
      cases h
      -- the parenthesis that the call takes along is no operator
      rw [account, account, (Input.unread_of_next? hn).1]
      rfl
    · cases h
  · cases h

theorem close_tally (d : Delimiter) (o : Nat) (s : State) :
    Tally s.account ((applications env.tolerance s.pending s.values).map .apply)
      (s.close env d o) account := by
  refine (reduceToFrame_tally env.tolerance s.pending s.values _).andQuiet fun r _ => ?_
  obtain ⟨_ | ⟨f, below⟩, values⟩ := r
  · exact Tally.fail _ _ _
  · dsimp only
    split
    · exact (Tally.silent (collect_events f values)).andQuiet fun vs _ => Tally.pure _ rfl
    · exact Tally.fail _ _ _

theorem separate_tally (o : Nat) (s : State) :
    Tally s.account ((applications env.tolerance s.pending s.values).map .apply)
      (s.separate env o) account := by
  refine (reduceToFrame_tally env.tolerance s.pending s.values _).andQuiet fun r _ => ?_
  obtain ⟨_ | ⟨f, below⟩, values⟩ := r
  · exact Tally.fail _ _ _
  · dsimp only
    split
    · exact Tally.pure _ rfl
    · exact Tally.fail _ _ _

theorem read_tally (env : Environment) (t : Token) {s : State} (hs : s.input.held = none) :
    Tally ⟨(t :: s.input.unread).filterMap Token.operator?, Pending.operators s.pending⟩
      (s.operations env t) (s.read env t) account := by
  obtain ⟨k, o⟩ := t
  cases k with
  | number x => exact Tally.pure _ rfl
  | identifier n => exact resolve_tally n o s
  | opening d => cases d <;> exact Tally.pure _ rfl
  | closing d => exact close_tally d o s
  | comma => exact separate_tally o s
  | sign sg => exact operate_tally rfl hs
  | binary b => exact operate_tally rfl hs

theorem finish_tally (last : Nat) (s : State) (unread : List PlacedOperator) :
    Tally ⟨unread, Pending.operators s.pending⟩
      ((applications env.tolerance s.pending s.values).map .apply)
      (s.finish env last) fun _ => ⟨unread, []⟩ := by
  refine (reduceToFrame_tally env.tolerance s.pending s.values unread).andQuiet fun r _ => ?_
  obtain ⟨_ | ⟨f, below⟩, values⟩ := r
  · match values with
    | [] => exact Tally.fail _ _ _
    | [v] => exact Tally.pure _ rfl
    | v :: w :: vs => exact Tally.fail _ _ _
  · exact Tally.fail _ _ _

theorem history_done {s : State} (h : s.input.next? = none) :
    s.history env = (applications env.tolerance s.pending s.values).map .apply := by
  rw [history]
  split
  · rfl
  · rename_i hn
    rw [h] at hn
    cases hn

theorem history_read {s : State} {t : Token} {input : Input} (h : s.input.next? = some (t, input)) :
    s.history env = .read t :: (operations env t { s with input } ++
      match (read env t { s with input }).result with
      | .error _ => []
      | .ok s' => s'.history env) := by
  rw [history]
  split
  · rename_i hn
    rw [h] at hn
    cases hn
  · rename_i t' input' hn
    rw [h] at hn
    cases hn
    rw [List.cons_append]
    congr 2
    split <;> rename_i hr <;> rw [hr]

theorem history_tally (last : Nat) (s : State) :
    Tally s.account (s.history env) (s.run env last) fun _ => ⟨[], []⟩ := by
  rw [run_eq, step]
  cases hn : s.input.next? with
  | none =>
    have hu : s.account = ⟨[], Pending.operators s.pending⟩ := by
      rw [account, Input.unread_of_next?_none hn]
      rfl
    rw [hu, history_done hn]
    exact finish_tally last s []
  | some r =>
    obtain ⟨t, input⟩ := r
    obtain ⟨hu, hh⟩ := Input.unread_of_next? hn
    have h := (read_tally env t (s := { s with input }) hh).bind
      fun s' hr => history_tally last s'
    rw [history_read hn, account, hu]
    cases hr : (read env t { s with input }).result <;> rw [hr] at h <;> exact h.read t
termination_by s.weight
decreasing_by exact step_weight (t := read env t { s with input }) (by rw [step, hn]) hr

theorem applications_reads (tolerance : Float) (pending : List Pending) (values : List Value) :
    ((applications tolerance pending values).map Operation.apply).countP Operation.isRead = 0 := by
  rw [List.countP_eq_zero]
  intro x hx
  obtain ⟨p, -, rfl⟩ := List.mem_map.mp hx
  exact Bool.false_ne_true

theorem operations_reads (t : Token) (s : State) :
    (s.operations env t).countP Operation.isRead = 0 := by
  unfold operations
  split
  · split <;> rfl
  · rfl
  · split
    · exact applications_reads _ _ _
    · exact applications_reads _ _ _
    · rfl

theorem reads_done {s : State} (h : s.input.next? = none) :
    (s.history env).countP Operation.isRead = 0 := by
  rw [history_done h, applications_reads]

theorem reads_read {s : State} {t : Token} {input : Input} (h : s.input.next? = some (t, input)) :
    (s.history env).countP Operation.isRead =
      (match (read env t { s with input }).result with
        | .error _ => 0
        | .ok s' => (s'.history env).countP Operation.isRead) + 1 := by
  rw [history_read h, List.countP_cons_of_pos rfl, List.countP_append, operations_reads,
    Nat.zero_add]
  cases (read env t { s with input }).result <;> rfl

theorem history_reads (env : Environment) (s : State) :
    (s.history env).countP Operation.isRead ≤ s.weight := by
  cases hn : s.input.next? with
  | none =>
    rw [reads_done hn]
    exact Nat.zero_le _
  | some r =>
    obtain ⟨t, input⟩ := r
    rw [reads_read hn]
    cases hr : (read env t { s with input }).result with
    | error e =>
      have hsize := (Input.size_of_next? hn).2
      simp only [weight]
      omega
    | ok s' =>
      have hw := step_weight (t := read env t { s with input }) (by rw [step, hn]) hr
      exact (Nat.succ_le_succ (history_reads env s')).trans hw
termination_by s.weight
decreasing_by exact hw

theorem runWithin_eq (last n : Nat) (s : State) :
    s.runWithin env last n =
      if (s.history env).countP Operation.isRead ≤ n then some (s.run env last) else none := by
  induction n generalizing s with
  | zero =>
    rw [runWithin, run_eq, step]
    cases hn : s.input.next? with
    | none => rw [reads_done hn, if_pos (Nat.zero_le _)]
    | some r => rw [reads_read hn, if_neg (Nat.not_succ_le_zero _)]
  | succ n ih =>
    rw [runWithin, run_eq, step]
    cases hn : s.input.next? with
    | none => rw [reads_done hn, if_pos (Nat.zero_le _)]
    | some r =>
      obtain ⟨t, input⟩ := r
      rw [reads_read hn]
      dsimp only
      generalize read env t { s with input } = u
      obtain ⟨events, _ | s'⟩ := u
      · exact (if_pos (Nat.succ_le_succ (Nat.zero_le n))).symm
      · dsimp only
        rw [ih]
        by_cases h : (s'.history env).countP Operation.isRead ≤ n
        · rw [if_pos h, if_pos (Nat.succ_le_succ h)]
          rfl
        · rw [if_neg h, if_neg (mt Nat.le_of_succ_le_succ h)]
          rfl

end State

/-- A run over tokens has at most twice as many iterations as there are tokens, and it never holds
back a second token. It shifts the first operators of the tokens in their order, and what it applies
it has shifted, each operator at most once, one whose application fails included. The events are the
first of these operations, and if the run has a value then they are all of them, and every operator
has been shifted and applied. -/
theorem traceTokens_history (ts : List Token) (env : Environment) :
    let h := (State.start ts).history env
    let r := traceTokens ts env
    (State.start ts).runWithin env (lastOffset ts) (2 * ts.length) = some r ∧
    h.countP Operation.isRead ≤ 2 * ts.length ∧
    (∀ t slot, .holdBack t slot ∈ h → slot = none) ∧
    h.filterMap Operation.shifted? <+: ts.filterMap Token.operator? ∧
    (h.filterMap Operation.applied?).Subperm (h.filterMap Operation.shifted?) ∧
    r.events.filterMap Event.operation? <+: h.filter Operation.isRecorded ∧
    ∀ v, r.result = .ok v →
      r.events.filterMap Event.operation? = h.filter Operation.isRecorded ∧
      h.filterMap Operation.shifted? = ts.filterMap Token.operator? ∧
      (h.filterMap Operation.applied?).Perm (ts.filterMap Token.operator?) ∧
      (h.filterMap Operation.shifted?).length = (ts.filterMap Token.operator?).length ∧
      (h.filterMap Operation.applied?).length = (ts.filterMap Token.operator?).length := by
  intro h r
  have hw : (State.start ts).weight = 2 * ts.length := by
    simp [State.weight, State.start, Input.size, Pending.operatorCount]
  have ht : Tally ⟨ts.filterMap Token.operator?, []⟩ h r fun _ => ⟨[], []⟩ :=
    history_tally (lastOffset ts) (State.start ts)
  have hreads : h.countP Operation.isRead ≤ 2 * ts.length := hw ▸ history_reads env (State.start ts)
  refine ⟨?_, hreads, ht.slots, ht.shifts, ht.applies, ht.recorded, fun v hv => ?_⟩
  · rw [runWithin_eq]
    exact if_pos hreads
  have hs : h.filterMap Operation.shifted? = ts.filterMap Token.operator? :=
    (List.append_nil _).symm.trans (ht.unread v hv)
  have hp : (h.filterMap Operation.applied?).Perm (ts.filterMap Token.operator?) := by
    have hp := ht.pending v hv
    rwa [List.append_nil, List.nil_append, hs] at hp
  exact ⟨ht.complete v hv, hs, hp, congrArg List.length hs, hp.length_eq⟩

/-- The product is applied before the difference that it is the right operand of, and the second
difference waits for both. -/
theorem traceTokens_history_difference :
    let ts : List Token := [⟨.number 2, 0⟩, ⟨.binary .sub, 1⟩, ⟨.number 3, 2⟩, ⟨.binary .mul, 3⟩,
      ⟨.number 4, 4⟩, ⟨.binary .sub, 5⟩, ⟨.number 1, 6⟩]
    let h := (State.start ts).history .empty
    (traceTokens ts .empty).result = .ok (.scalar (-11)) ∧
      (State.start ts).runWithin .empty 6 14 = some (traceTokens ts .empty) ∧
      h.filterMap Operation.shifted? = [(.binary .sub, 1), (.binary .mul, 3), (.binary .sub, 5)] ∧
      (h.filterMap Operation.applied?).Perm
        [(.binary .mul, 3), (.binary .sub, 1), (.binary .sub, 5)] := by
  intro ts h
  have hv : (traceTokens ts .empty).result = .ok (.scalar (-11)) := by decide +kernel
  obtain ⟨hrun, -, -, -, -, -, hok⟩ := traceTokens_history ts .empty
  obtain ⟨-, hshifts, hperm, -, -⟩ := hok _ hv
  exact ⟨hv, hrun, hshifts, hperm.trans (.swap _ _ _)⟩

end Formula
