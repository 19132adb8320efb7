import Formula.Proofs.Stacks.Absorb
import Formula.Proofs.Stacks.Frames

/-!
# Moves of a run

What a step that fails with no error does to a state, one case for each way of reading a
token. The invariants of the states of a run are read off these cases: the frames are
nested, a step changes no value below the innermost frame, the functions that are called
are those of the environment, and the tokens that are left are among those of the start.
-/

namespace Formula

open State Traced

def Input.unread (i : Input) : List Token := i.held.toList ++ i.rest

theorem Input.unread_of_next? {i j : Input} {t : Token} (h : i.next? = some (t, j)) :
    i.unread = t :: j.unread ∧ j.held = none := by
  obtain ⟨held, rest⟩ := i
  match held, rest, h with
  | some u, rest, h =>
    cases h
    exact ⟨rfl, rfl⟩
  | none, u :: rest, h =>
    cases h
    exact ⟨rfl, rfl⟩

theorem Input.unread_of_next?_none {i : Input} (h : i.next? = none) : i.unread = [] := by
  obtain ⟨held, rest⟩ := i
  match held, rest, h with
  | none, [], _ => rfl

theorem Input.unread_holdBack {i : Input} (h : i.held = none) (t : Token) :
    (i.holdBack t).unread = t :: i.unread := by
  simp only [Input.unread, Input.holdBack, h, Option.toList_some, Option.toList_none,
    List.nil_append, List.singleton_append]

inductive Moves (env : Environment) : State → State → Prop
  | number {input after : Input} {x : Float} {o : Nat} (pending : List Pending)
      (values : List Value) : input.next? = some (⟨.number x, o⟩, after) →
      Moves env ⟨input, pending, values⟩ ⟨after, pending, .scalar x :: values⟩
  | variable {input after : Input} {n : String} {o : Nat} {v : Value} (pending : List Pending)
      (values : List Value) : input.next? = some (⟨.identifier n, o⟩, after) →
      env.valueOf? n = some v → (∀ t ∈ after.peek?, t.kind ≠ .opening .paren) →
      Moves env ⟨input, pending, values⟩ ⟨after, pending, v :: values⟩
  | call {input between after : Input} {n : String} {o p : Nat} {f : Function}
      (pending : List Pending) (values : List Value) :
      input.next? = some (⟨.identifier n, o⟩, between) →
      between.next? = some (⟨.opening .paren, p⟩, after) →
      env.valueOf? n = none → env.functionOf? n = some f →
      Moves env ⟨input, pending, values⟩
        ⟨after, .frame ⟨.call n f, o, values.length⟩ :: pending, values⟩
  | opening {input after : Input} {d : Delimiter} {o : Nat} (pending : List Pending)
      (values : List Value) : input.next? = some (⟨.opening d, o⟩, after) →
      Moves env ⟨input, pending, values⟩
        ⟨after, .frame ⟨d.purpose, o, values.length⟩ :: pending, values⟩
  | shift {input after : Input} {t : Token} {op : Operator} {pending : List Pending}
      (values : List Value) : input.next? = some (t, after) → t.kind.operator? = some op →
      op.ShiftsOnto (Pending.top? pending) →
      Moves env ⟨input, pending, values⟩ ⟨after, .operator op t.offset :: pending, values⟩
  | reduce {input after : Input} {t : Token} {op top : Operator} {o : Nat} {below : List Pending}
      {values values' : List Value} : input.next? = some (t, after) →
      t.kind.operator? = some op → op.shiftsOver top = false →
      (applyOperator env.tolerance top o below values).result = .ok values' →
      Moves env ⟨input, .operator top o :: below, values⟩ ⟨after.holdBack t, below, values'⟩
  | close {input after : Input} {d : Delimiter} {o : Nat} {f : Frame}
      {pending below : List Pending} {values vs values' : List Value} :
      input.next? = some (⟨.closing d, o⟩, after) →
      Drains env.tolerance pending values (.frame f :: below) vs → f.purpose.delimiter = d →
      (collect f vs).result = .ok values' →
      Moves env ⟨input, pending, values⟩ ⟨after, below, values'⟩
  | separate {input after : Input} {o : Nat} {f : Frame} {pending below : List Pending}
      {values values' : List Value} : input.next? = some (⟨.comma, o⟩, after) →
      Drains env.tolerance pending values (.frame f :: below) values' →
      f.purpose.takesCommas = true →
      Moves env ⟨input, pending, values⟩ ⟨after, .frame f :: below, values'⟩

variable {env : Environment} {s s' : State}

theorem operate_moves {op : Operator} {t : Token} {input after : Input} {pending : List Pending}
    {values : List Value} (hn : input.next? = some (t, after)) (ht : t.kind.operator? = some op)
    (h : (operate env op t ⟨after, pending, values⟩).result = .ok s') :
    Moves env ⟨input, pending, values⟩ s' := by
  have shifts (hs : op.ShiftsOnto (Pending.top? pending))
      (h : (shift op t.offset ⟨after, pending, values⟩).result = .ok s') :
      Moves env ⟨input, pending, values⟩ s' := by
    cases h
    exact .shift values hn ht hs
  match pending, h, shifts with
  | [], h, shifts => exact shifts (fun _ hp => by cases hp) h
  | .frame f :: below, h, shifts => exact shifts (fun _ hp => by cases hp) h
  | .operator top o :: below, h, shifts =>
    simp only [operate] at h
    split at h
    · rename_i hs
      refine shifts (fun p hp => ?_) h
      cases hp
      exact hs
    · rename_i hs
      obtain ⟨-, -, h⟩ := bind_result_eq_ok_iff.mp h
      obtain ⟨vs, hv, h⟩ := bind_result_eq_ok_iff.mp h
      cases h
      exact .reduce hn ht (Bool.eq_false_iff.mpr hs) hv

theorem resolve_moves {n : String} {o : Nat} {input after : Input} {pending : List Pending}
    {values : List Value} (hn : input.next? = some (⟨.identifier n, o⟩, after))
    (h : (resolve env n o ⟨after, pending, values⟩).result = .ok s') :
    Moves env ⟨input, pending, values⟩ s' := by
  unfold resolve at h
  split at h
  · rename_i v f hv
    split at h
    · cases h
    · rename_i hp
      cases h
      refine .variable pending values hn hv fun t ht hk => ?_
      obtain ⟨k, p⟩ := t
      obtain rfl : k = .opening .paren := hk
      exact hp p ht
  · rename_i f hv hf
    split at h
    · rename_i p input' hp
      cases h
      exact .call pending values hn hp hv hf
    · cases h
  · cases h

theorem close_moves {d : Delimiter} {o : Nat} {input after : Input} {pending : List Pending}
    {values : List Value} (hn : input.next? = some (⟨.closing d, o⟩, after))
    (h : (close env d o ⟨after, pending, values⟩).result = .ok s') :
    Moves env ⟨input, pending, values⟩ s' := by
  obtain ⟨r, hr, h⟩ := bind_result_eq_ok_iff.mp h
  have hd := reduceToFrame_drains hr
  split at h
  · cases h
  · rename_i f below hf
    rw [Reduced.pending, hf] at hd
    split at h
    · rename_i hk
      obtain ⟨vs, hc, h⟩ := bind_result_eq_ok_iff.mp h
      cases h
      exact .close hn hd hk hc
    · cases h

theorem separate_moves {o : Nat} {input after : Input} {pending : List Pending}
    {values : List Value} (hn : input.next? = some (⟨.comma, o⟩, after))
    (h : (separate env o ⟨after, pending, values⟩).result = .ok s') :
    Moves env ⟨input, pending, values⟩ s' := by
  obtain ⟨r, hr, h⟩ := bind_result_eq_ok_iff.mp h
  have hd := reduceToFrame_drains hr
  split at h
  · rename_i f below hf
    rw [Reduced.pending, hf] at hd
    split at h
    · rename_i hc
      cases h
      exact .separate hn hd hc
    · cases h
  · cases h

theorem step_moves {t : Traced State} (h : s.step env = some t) (ht : t.result = .ok s') :
    Moves env s s' := by
  obtain ⟨input, pending, values⟩ := s
  unfold step at h
  split at h
  · cases h
  · rename_i t input' hn
    cases h
    obtain ⟨k, o⟩ := t
    cases k with
    | number x =>
      cases ht
      exact .number pending values hn
    | identifier n => exact resolve_moves hn ht
    | opening d =>
      cases d <;> cases ht <;> exact .opening pending values hn
    | closing d => exact close_moves hn ht
    | comma => exact separate_moves hn ht
    | sign sg => exact operate_moves hn rfl ht
    | binary b => exact operate_moves hn rfl ht

/-- The states between two steps of a run. -/
inductive Reached (env : Environment) (tokens : List Token) : State → Prop
  | start : Reached env tokens (State.start tokens)
  | step {s s' : State} {t : Traced State} : Reached env tokens s → s.step env = some t →
      t.result = .ok s' → Reached env tokens s'

def Frame.CallsBound (env : Environment) (f : Frame) : Prop :=
  ∀ n g, f.purpose = .call n g → env.functionOf? n = some g

structure State.Orderly (env : Environment) (tokens : List Token) (s : State) : Prop where
  nested : Pending.Nested s.pending s.values.length
  calls : Pending.EachFrame (Frame.CallsBound env) s.pending
  unread : s.input.unread ⊆ tokens

namespace Moves

theorem nested (h : Moves env s s') (hn : Pending.Nested s.pending s.values.length) :
    Pending.Nested s'.pending s'.values.length := by
  cases h with
  | number pending values hi => exact hn.of_base_le (Nat.le_succ_of_le hn.base_le)
  | «variable» pending values hi hv hp => exact hn.of_base_le (Nat.le_succ_of_le hn.base_le)
  | call pending values hi hp hv hf => exact Pending.nested_frame.mpr ⟨Nat.le_refl _, hn⟩
  | opening pending values hi => exact Pending.nested_frame.mpr ⟨Nat.le_refl _, hn⟩
  | shift values hi ht hs => exact Pending.nested_operator.mpr hn
  | reduce hi ht hs ha => exact (Drains.apply ha (.done _ _)).nested hn
  | close hi hd hk hc =>
    obtain ⟨hb, hf⟩ := Pending.nested_frame.mp (hd.nested hn)
    exact hf.of_base_le (hf.base_le.trans (collect_ok hb hc).1)
  | separate hi hd hc => exact hd.nested hn

theorem calls (h : Moves env s s')
    (hc : Pending.EachFrame (Frame.CallsBound env) s.pending) :
    Pending.EachFrame (Frame.CallsBound env) s'.pending := by
  cases h with
  | number pending values hi => exact hc
  | «variable» pending values hi hv hp => exact hc
  | call pending values hi hp hv hf =>
    refine Pending.eachFrame_frame.mpr ⟨fun n g hg => ?_, hc⟩
    cases hg
    exact hf
  | @opening input after d o pending values hi =>
    refine Pending.eachFrame_frame.mpr ⟨fun n g hg => ?_, hc⟩
    cases d <;> cases hg
  | shift values hi ht hs => exact Pending.eachFrame_operator.mpr hc
  | reduce hi ht hs ha => exact Pending.eachFrame_operator.mp hc
  | close hi hd hk hv => exact (Pending.eachFrame_frame.mp (hd.eachFrame hc)).2
  | separate hi hd hk => exact hd.eachFrame hc

theorem unread_subset (h : Moves env s s') : s'.input.unread ⊆ s.input.unread := by
  have reads {input after : Input} {t : Token} (hi : input.next? = some (t, after)) :
      after.unread ⊆ input.unread := by
    rw [(Input.unread_of_next? hi).1]
    exact List.subset_cons_self t _
  cases h with
  | number pending values hi => exact reads hi
  | «variable» pending values hi hv hp => exact reads hi
  | call pending values hi hp hv hf => exact List.Subset.trans (reads hp) (reads hi)
  | opening pending values hi => exact reads hi
  | shift values hi ht hs => exact reads hi
  | @reduce input after t op top o below values values' hi ht hs ha =>
    obtain ⟨hu, hh⟩ := Input.unread_of_next? hi
    rw [Input.unread_holdBack hh, hu]
    exact List.Subset.refl _
  | close hi hd hk hc => exact reads hi
  | separate hi hd hc => exact reads hi

end Moves

theorem State.Orderly.step {tokens : List Token} (h : s.Orderly env tokens) {t : Traced State}
    (ht : s.step env = some t) (hr : t.result = .ok s') : s'.Orderly env tokens :=
  have hm := step_moves ht hr
  ⟨hm.nested h.nested, hm.calls h.calls, List.Subset.trans hm.unread_subset h.unread⟩

end Formula
