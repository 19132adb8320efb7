import Mathlib.Data.List.Basic
import Formula.Proofs.Stacks.Absorb

/-!
# Parentheses

Behind an opening parenthesis the tokens up to the closing one are absorbed as they are
by empty stacks: nothing of what lies below the group is looked at, and the bases of
the frames inside count the values below it as well. So a group stands for its value
wherever it is written.
-/

namespace Formula

open State Traced

/-- A group that has been opened above other pending entries and values. -/
structure Context where
  offset : Nat
  pending : List Pending
  values : List Value

def Pending.raise (n : Nat) : Pending → Pending
  | .operator op o => .operator op o
  | .frame f => .frame { f with base := f.base + n }

namespace Context

variable (c : Context)

def above (pending : List Pending) : List Pending :=
  pending.map (Pending.raise c.values.length) ++
    .frame ⟨.group, c.offset, c.values.length⟩ :: c.pending

def fill (s : Stacks) : Stacks := (c.above s.1, s.2 ++ c.values)

theorem base_above (pending : List Pending) :
    Pending.base (c.above pending) = Pending.base pending + c.values.length := by
  induction pending with
  | nil => exact (Nat.zero_add _).symm
  | cons x below ih =>
    cases x with
    | operator op o => exact ih
    | frame f => rfl

theorem base_above_le {pending : List Pending} {values : List Value}
    (h : Pending.base pending ≤ values.length) :
    Pending.base (c.above pending) ≤ (values ++ c.values).length := by
  rw [base_above, List.length_append]
  exact Nat.add_le_add_right h _

theorem applyOperator_above (tolerance : Float) (op : Operator) (o : Nat) (below : List Pending)
    (values : List Value) :
    applyOperator tolerance op o (c.above below) (values ++ c.values) =
      applyOperator tolerance op o below values >>= fun w => pure (w ++ c.values) := by
  rcases operands_cases op below values with h | ⟨s, x, rest, rfl, rfl, h⟩ |
    ⟨b, y, x, rest, rfl, rfl, h⟩
  · have h' : (values ++ c.values).length - Pending.base (c.above below) < op.arity := by
      rw [base_above, List.length_append]
      omega
    rw [applyOperator_lacking tolerance o h, applyOperator_lacking tolerance o h']
    rfl
  · rw [List.cons_append, applyOperator_sign _ _ _ _ h,
      applyOperator_sign _ _ _ _ (base_above_le c h)]
    simp only [bind_assoc, pure_bind, List.cons_append]
  · rw [List.cons_append, List.cons_append, applyOperator_binary _ _ _ _ _ h,
      applyOperator_binary _ _ _ _ _ (base_above_le c h)]
    simp only [bind_assoc, pure_bind, List.cons_append]

theorem collect_above (f : Frame) (values : List Value) :
    collect { f with base := f.base + c.values.length } (values ++ c.values) =
      collect f values >>= fun w => pure (w ++ c.values) := by
  have hn : (values ++ c.values).length - (f.base + c.values.length) =
      values.length - f.base := by
    rw [List.length_append]
    omega
  have hle : values.length - f.base ≤ values.length := Nat.sub_le _ _
  obtain ⟨purpose, o, base⟩ := f
  cases purpose <;>
    simp only [collect, hn, List.take_append_of_le_length hle, List.drop_append_of_le_length hle,
      bind_assoc, pure_bind, List.cons_append]

variable {env : Environment} {s : Stacks}

/-- A token that can be placed on the stacks of the group is placed in the same way above the
context; only a delimiter that is not open inside the group would see the difference. -/
theorem place_above {t : Token} {pending : List Pending} {values : List Value}
    (h : (place env t pending values).result = .ok s) :
    (place env t (c.above pending) (values ++ c.values)).result = .ok (c.fill s) := by
  obtain ⟨k, o⟩ := t
  cases k with
  | number x =>
    cases h
    rfl
  | identifier n =>
    simp only [place, bind_result_eq_ok_iff] at h ⊢
    obtain ⟨v, hv, hs⟩ := h
    cases hs
    exact ⟨v, hv, rfl⟩
  | sign s =>
    cases h
    rfl
  | binary b =>
    cases h
    rfl
  | opening d =>
    cases h
    simp only [place, fill, above, List.length_append]
    rfl
  | closing d =>
    rcases pending with _ | ⟨op | f, below⟩
    · cases h
    · cases h
    · simp only [place] at h
      split at h
      · rename_i hd
        obtain ⟨w, hw, hs⟩ := bind_result_eq_ok_iff.mp h
        cases hs
        change (place env _ (.frame { f with base := f.base + c.values.length } :: c.above below)
          _).result = _
        simp only [place, if_pos hd, collect_above, bind_result_eq_ok_iff]
        exact ⟨_, ⟨w, hw, rfl⟩, rfl⟩
      · cases h
  | comma =>
    rcases pending with _ | ⟨op | f, below⟩
    · cases h
    · cases h
    · simp only [place] at h
      split at h
      · rename_i hd
        cases h
        change (place env _ (.frame { f with base := f.base + c.values.length } :: c.above below)
          _).result = _
        simp only [place, if_pos hd]
        rfl
      · cases h

theorem absorb_above {t : Token} {pending : List Pending} {values : List Value}
    (h : (absorb env t pending values).result = .ok s) :
    (absorb env t (c.above pending) (values ++ c.values)).result = .ok (c.fill s) := by
  induction pending generalizing values with
  | nil => exact c.place_above h
  | cons x below ih =>
    cases x with
    | frame f => exact c.place_above h
    | operator top o =>
      change (absorb env t (.operator top o :: c.above below) _).result = _
      rw [absorb] at h ⊢
      split
      · rename_i ht
        rw [if_pos ht] at h
        obtain ⟨w, hw, hs⟩ := bind_result_eq_ok_iff.mp h
        rw [applyOperator_above, bind_assoc]
        simp only [pure_bind]
        exact bind_result_eq_ok_iff.mpr ⟨w, hw, ih hs⟩
      · rename_i ht
        rw [if_neg ht] at h
        exact c.place_above h

theorem absorbAll_above (ts : List Token) {s s' : Stacks}
    (h : (absorbAll env ts s).result = .ok s') :
    (absorbAll env ts (c.fill s)).result = .ok (c.fill s') := by
  rcases tokens_cases ts with rfl | ⟨n, o, p, ts, rfl⟩ | ⟨t, ts, rfl, hc⟩
  · cases h
    rfl
  · rw [absorbAll] at h ⊢
    obtain ⟨f, hf, h⟩ := bind_result_eq_ok_iff.mp h
    refine bind_result_eq_ok_iff.mpr ⟨f, hf, ?_⟩
    have := absorbAll_above ts h
    simpa only [fill, above, List.length_append, List.map_cons, List.cons_append,
      Pending.raise] using this
  · rw [absorbAll_cons hc] at h ⊢
    obtain ⟨u, hu, h⟩ := bind_result_eq_ok_iff.mp h
    exact bind_result_eq_ok_iff.mpr ⟨_, c.absorb_above hu, absorbAll_above ts h⟩
termination_by ts.length

theorem absorb_closing {last : Nat} {pending : List Pending} {values : List Value} {v : Value}
    (h : (acts env last (reading [] pending values)).result = .ok v) (o : Nat) :
    (absorb env ⟨.closing .paren, o⟩ (c.above pending) (values ++ c.values)).result =
      .ok (c.pending, v :: c.values) := by
  induction pending generalizing values with
  | nil =>
    rw [acts_nil] at h
    match values with
    | [] => cases h
    | [w] =>
      cases h
      rfl
    | w :: w' :: ws => cases h
  | cons x below ih =>
    cases x with
    | frame f =>
      rw [acts_nil_frame] at h
      cases h
    | operator top o' =>
      have hc : Completes top [] := trivial
      rw [acts_apply hc, bind_result_eq_ok_iff] at h
      obtain ⟨w, hw, h⟩ := h
      change (absorb env _ (.operator top o' :: c.above below) _).result = _
      simp only [absorb, Token.completes, if_true, applyOperator_above, bind_assoc, pure_bind]
      exact bind_result_eq_ok_iff.mpr ⟨w, hw, ih h⟩

end Context

variable {env : Environment}

theorem acts_group {ts : List Token} {v : Value} (h : evaluateTokens ts env = .ok v)
    (last p o : Nat) (post : List Token) (s : Stacks) :
    (acts env last (reading (⟨.opening .paren, p⟩ :: (ts ++ ⟨.closing .paren, o⟩ :: post))
        s.1 s.2)).result =
      (acts env last (reading post s.1 (v :: s.2))).result := by
  let c : Context := ⟨p, s.1, s.2⟩
  have hin : (traceTokens ts env).actions.result = .ok v := outcome_eq_ok_iff.mp h
  rw [traceTokens_absorbAll] at hin
  obtain ⟨inner, hs, hv⟩ := bind_result_eq_ok_iff.mp hin
  have hcut : ∀ t ∈ ts.getLast?, ¬ t.Calls (⟨.closing .paren, o⟩ :: post) := by
    rintro t - ⟨-, u, hu, hk⟩
    cases hu
    cases hk
  have hclose : ¬ (⟨.closing .paren, o⟩ : Token).Calls post := by
    rintro ⟨⟨n, hn⟩, -⟩
    cases hn
  -- behind the opening parenthesis the stacks are the empty ones above the context
  have hopen : acts env last (reading (⟨.opening .paren, p⟩ :: (ts ++ ⟨.closing .paren, o⟩ :: post))
        s.1 s.2) =
      acts env last (reading (ts ++ ⟨.closing .paren, o⟩ :: post) (c.fill ([], [])).1
        (c.fill ([], [])).2) :=
    acts_opening .paren p _ s.1 s.2
  rw [hopen, acts_append ts hcut, bind_result, c.absorbAll_above ts hs]
  simp only [Except.bind]
  rw [acts_absorb hclose, bind_result]
  simp only [Context.fill, c.absorb_closing hv, Except.bind]
  rfl

/-- Tokens that have a value can be put in parentheses wherever a variable with that value can
stand. -/
theorem evaluateTokens_group {pre ts post : List Token} {x : String} {v : Value}
    (hpre : ∀ t ∈ pre.getLast?, ∀ n, t.kind ≠ .identifier n)
    (hpost : ∀ t ∈ post.head?, t.kind ≠ .opening .paren)
    (hx : env.valueOf? x = some v) (hts : evaluateTokens ts env = .ok v) (p o : Nat) :
    evaluateTokens (pre ++ [⟨.opening .paren, p⟩] ++ ts ++ [⟨.closing .paren, o⟩] ++ post) env =
      evaluateTokens (pre ++ [⟨.identifier x, o⟩] ++ post) env := by
  have hlast : lastOffset (pre ++ [⟨.opening .paren, p⟩] ++ ts ++ [⟨.closing .paren, o⟩] ++ post) =
      lastOffset (pre ++ [⟨.identifier x, o⟩] ++ post) := by
    simp only [lastOffset, List.getLast?_append, List.getLast?_singleton]
    cases post.getLast? <;> rfl
  have hcut (rest : List Token) : ∀ t ∈ pre.getLast?, ¬ t.Calls rest := by
    rintro t ht ⟨⟨n, hn⟩, -⟩
    exact hpre t ht n hn
  have hname (last : Nat) (s : Stacks) :
      acts env last (reading (⟨.identifier x, o⟩ :: post) s.1 s.2) =
        acts env last (reading post s.1 (v :: s.2)) := by
    rw [acts_name x o s.1 s.2 hpost, Environment.valueAt, hx]
    rfl
  refine outcome_congr ?_
  change (acts env _ (reading _ [] [])).result = (acts env _ (reading _ [] [])).result
  rw [hlast]
  simp only [List.append_assoc, List.cons_append, List.nil_append]
  -- both runs have the same stacks behind the tokens in front, and again behind the operand
  have hsplit (last : Nat) (rest : List Token) :
      (acts env last (reading (pre ++ rest) [] [])).result =
        (absorbAll env pre ([], [])).result.bind fun s =>
          (acts env last (reading rest s.1 s.2)).result :=
    (congrArg Traced.result (acts_append pre (hcut rest) ([], []))).trans (bind_result _ _)
  rw [hsplit, hsplit]
  congr 1
  funext s
  rw [acts_group hts, hname]

theorem evaluateTokens_group_product :
    let env := Environment.empty.withVariable "x" (.scalar 3)
    let pre : List Token := [⟨.number 2, 0⟩, ⟨.binary .mul, 1⟩, ⟨.sign .minus, 2⟩]
    let ts : List Token := [⟨.number 1, 4⟩, ⟨.binary .add, 5⟩, ⟨.number 2, 6⟩]
    let post : List Token := [⟨.comma, 8⟩]
    evaluateTokens ts env = .ok (.scalar 3) ∧
      evaluateTokens (pre ++ [⟨.opening .paren, 3⟩] ++ ts ++ [⟨.closing .paren, 7⟩] ++ post) env =
        evaluateTokens (pre ++ [⟨.identifier "x", 7⟩] ++ post) env := by
  intro env pre ts post
  have hpre : ∀ t ∈ pre.getLast?, ∀ n, t.kind ≠ .identifier n := by
    intro t ht n hn
    cases ht
    cases hn
  have hpost : ∀ t ∈ post.head?, t.kind ≠ .opening .paren := by
    intro t ht hn
    cases ht
    cases hn
  have hx : env.valueOf? "x" = some (.scalar 3) := by decide +kernel
  have hts : evaluateTokens ts env = .ok (.scalar 3) := by decide +kernel
  exact ⟨hts, evaluateTokens_group hpre hpost hx hts 3 7⟩

end Formula
