import Formula.Proofs.Faults
import Formula.Proofs.Stacks.Absorb
import Formula.Proofs.Stacks.Frames
import Formula.Proofs.Token.Adjacency

/-!
# Values that are waited for

What is pending keeps values for itself: an infix operator its left operand and a frame all
those below it. While tokens are read that may follow each other, these values are there,
and behind an operand there is one more. So an operator that is applied has its operands,
also where a delimiter is left open or a name has no value.
-/

namespace Formula

open State Traced

namespace Pending

/-- The number of values that the pending entries keep. -/
def reserved : List Pending → Nat
  | [] => 0
  | operator op _ :: below => reserved below + (op.arity - 1)
  | frame f :: _ => f.base

def Founded : List Pending → Prop
  | [] => True
  | operator _ _ :: below => Founded below
  | frame f :: below => reserved below ≤ f.base ∧ Founded below

theorem base_le_reserved (pending : List Pending) : base pending ≤ reserved pending := by
  induction pending with
  | nil => exact Nat.le_refl 0
  | cons p below ih =>
    cases p with
    | operator op o => exact Nat.le_add_right_of_le ih
    | frame f => exact Nat.le_refl f.base

end Pending

open Pending

/-- The stacks hold the values that are kept, and one more if an operand is complete. Where the
parenthesis of a call can be closed at once, the call lies on top. -/
structure Stacks.Supplied (x : Expected) (s : Stacks) : Prop where
  founded : Founded s.1
  enough : reserved s.1 + x.afterOperand.toNat ≤ s.2.length
  called : x = .argument → ∃ f below, s.1 = .frame f :: below ∧ f.purpose ≠ .group

namespace Stacks.Supplied

variable {env : Environment} {x y : Expected} {t : Token} {pending below : List Pending}
  {values vs : List Value} {s : Stacks}

theorem start : Supplied .operand ([], []) :=
  ⟨trivial, Nat.le_refl 0, fun h => by cases h⟩

theorem of_afterOperand (h : Supplied x s) (hy : y.afterOperand = x.afterOperand)
    (hn : y ≠ .argument) : Supplied y s :=
  ⟨h.founded, hy ▸ h.enough, fun he => absurd he hn⟩

theorem open_call (h : Supplied x (pending, values)) {f : Frame} (hf : f.purpose ≠ .group)
    (hb : f.base = values.length) : Supplied .argument (.frame f :: pending, values) :=
  ⟨⟨hb ▸ Nat.le_of_add_right_le h.enough, h.founded⟩, Nat.le_of_eq hb,
    fun _ => ⟨f, pending, rfl, hf⟩⟩

theorem not_argument {op : Operator} {o : Nat}
    (h : Supplied x (.operator op o :: below, values)) : x ≠ .argument := by
  intro hx
  obtain ⟨f, rest, he, -⟩ := h.called hx
  cases he

theorem base_lt (h : Supplied x (pending, values)) (hx : x.afterOperand = true) :
    base pending < values.length := by
  have he := h.enough
  rw [hx] at he
  exact Nat.lt_of_lt_of_le (Nat.lt_succ_of_le (base_le_reserved pending)) he

theorem applied {tolerance : Float} {op : Operator} {o : Nat}
    (h : Supplied x (.operator op o :: below, values)) (hx : x.afterOperand = true)
    (hr : (applyOperator tolerance op o below values).result = .ok vs) :
    Supplied x (below, vs) := by
  obtain ⟨operands, v, rest, rfl, hl, rfl, -⟩ := applyOperator_ok hr
  have he := h.enough
  refine ⟨h.founded, ?_, fun hn => absurd hn h.not_argument⟩
  simp only [reserved, hx, Bool.toNat_true, List.length_append, List.length_cons, hl] at he ⊢
  cases op <;> simp only [Operator.arity] at he <;> omega

theorem base_lt_collect {f : Frame} (h : Supplied x (.frame f :: below, values))
    {d : Delimiter} (ha : x.admits (.closing d) = true)
    (hr : (collect f values).result = .ok vs) : f.base < vs.length := by
  by_cases hg : f.purpose = .group
  · -- the parenthesis of a call is not that of a group, so an operand is complete
    have hx : x.afterOperand = true := by
      cases x with
      | operand => cases ha
      | argument =>
        obtain ⟨g, rest, he, hn⟩ := h.called rfl
        cases he
        exact absurd hg hn
      | operator => rfl
      | operatorOrCall => rfl
    obtain rfl : vs = values := by
      unfold collect at hr
      rw [hg] at hr
      cases hr
      rfl
    exact h.base_lt hx
  · have hb : f.base ≤ values.length := Nat.le_of_add_right_le h.enough
    have hc := (collect_yields hb fun hp => absurd hp hg).result vs hr
    exact hc ▸ Nat.lt_succ_self f.base

end Stacks.Supplied

open Stacks

variable {env : Environment} {x y : Expected} {t : Token} {pending : List Pending}
  {values : List Value} {s : Stacks}

theorem place_supplied (h : Supplied x (pending, values)) (ha : x.admits t.kind = true)
    (hy : y.afterOperand = t.kind.endsOperand) (hn : y ≠ .argument)
    (hr : (place env t pending values).result = .ok s) : Supplied y s := by
  obtain ⟨k, o⟩ := t
  have hl : reserved pending ≤ values.length := Nat.le_of_add_right_le h.enough
  have waits {p : List Pending} {vs : List Value} (hf : Founded p)
      (hy : y.afterOperand = false) (he : reserved p ≤ vs.length) : Supplied y (p, vs) :=
    ⟨hf, by rwa [hy], fun hc => absurd hc hn⟩
  have complete {p : List Pending} {vs : List Value} (hf : Founded p)
      (he : reserved p < vs.length) : Supplied y (p, vs) :=
    ⟨hf, Nat.le_trans (Nat.add_le_add_left (Bool.toNat_le _) _) he, fun hc => absurd hc hn⟩
  cases k with
  | number z =>
    cases hr
    exact complete h.founded (Nat.lt_succ_of_le hl)
  | identifier n =>
    obtain ⟨v, -, hs⟩ := bind_result_eq_ok_iff.mp hr
    cases hs
    exact complete h.founded (Nat.lt_succ_of_le hl)
  | sign sg =>
    cases hr
    exact waits h.founded hy hl
  | binary b =>
    cases hr
    have hx : x.afterOperand = true := by cases x <;> first | rfl | cases ha
    refine waits h.founded hy ?_
    have he := h.enough
    rwa [hx] at he
  | opening d =>
    cases hr
    exact waits ⟨hl, h.founded⟩ hy (Nat.le_refl _)
  | closing d =>
    rcases pending with _ | ⟨_ | f, below⟩
    · cases hr
    · cases hr
    · simp only [place] at hr
      split at hr
      · obtain ⟨vs, hvs, hs⟩ := bind_result_eq_ok_iff.mp hr
        cases hs
        obtain ⟨hf, hb⟩ := h.founded
        exact complete hb (Nat.lt_of_le_of_lt hf (h.base_lt_collect ha hvs))
      · cases hr
  | comma =>
    rcases pending with _ | ⟨_ | f, below⟩
    · cases hr
    · cases hr
    · simp only [place] at hr
      split at hr
      · cases hr
        exact waits h.founded hy hl
      · cases hr

theorem afterOperand_of_completes {top : Operator} (ha : x.admits t.kind = true)
    (hn : x ≠ .argument) (hc : t.completes top = true) : x.afterOperand = true := by
  obtain ⟨k, o⟩ := t
  cases x with
  | operand =>
    cases k with
    | binary b => cases ha
    | closing d => cases ha
    | comma => cases ha
    | _ => cases hc
  | argument => exact absurd rfl hn
  | operator => rfl
  | operatorOrCall => rfl

theorem absorb_supplied (h : Supplied x (pending, values)) (ha : x.admits t.kind = true)
    (hy : y.afterOperand = t.kind.endsOperand) (hn : y ≠ .argument)
    (hr : (absorb env t pending values).result = .ok s) : Supplied y s := by
  induction pending generalizing values with
  | nil => exact place_supplied h ha hy hn hr
  | cons p below ih =>
    cases p with
    | frame f => exact place_supplied h ha hy hn hr
    | operator top o =>
      rw [absorb] at hr
      split at hr
      · rename_i hc
        obtain ⟨vs, hvs, hr⟩ := bind_result_eq_ok_iff.mp hr
        exact ih (h.applied (afterOperand_of_completes ha h.not_argument hc) hvs) hr
      · exact place_supplied h ha hy hn hr

theorem Expected.Accepts.tail {ts : List Token} (h : x.Accepts (t :: ts))
    (hx : x ≠ .operatorOrCall) (hc : ¬ t.Calls ts) :
    ∃ y : Expected, y ≠ .operatorOrCall ∧ y ≠ .argument ∧ y.afterOperand = t.kind.endsOperand ∧
      y.Accepts ts := by
  obtain ⟨k, o⟩ := t
  have hr := h.2
  cases k with
  | identifier n =>
    have hts : ∀ u ∈ ts.head?, u.kind ≠ .opening .paren := fun u hu hk => hc ⟨⟨n, rfl⟩, u, hu, hk⟩
    exact ⟨.operator, by decide, by decide, rfl, Expected.Accepts.not_called hr hts⟩
  | opening d =>
    cases d with
    | bracket => exact ⟨.operand, by decide, by decide, rfl, hr⟩
    | paren =>
      simp only [Expected.next, if_neg hx] at hr
      exact ⟨.operand, by decide, by decide, rfl, hr⟩
  | number z => exact ⟨.operator, by decide, by decide, rfl, hr⟩
  | closing d => exact ⟨.operator, by decide, by decide, rfl, hr⟩
  | sign sg => exact ⟨.operand, by decide, by decide, rfl, hr⟩
  | binary b => exact ⟨.operand, by decide, by decide, rfl, hr⟩
  | comma => exact ⟨.operand, by decide, by decide, rfl, hr⟩

theorem absorbAll_supplied (ts : List Token) {rest : List Token} {x : Expected} {s s' : Stacks}
    (hx : x ≠ .operatorOrCall) (h : Supplied x s) (ha : x.Accepts (ts ++ rest))
    (hcut : ∀ t ∈ ts.getLast?, ¬ t.Calls rest) (hr : (absorbAll env ts s).result = .ok s') :
    ∃ y : Expected, y ≠ .operatorOrCall ∧ Supplied y s' ∧ y.Accepts rest := by
  rcases tokens_cases ts with rfl | ⟨n, o, p, ts, rfl⟩ | ⟨t, ts, rfl, hc⟩
  · cases hr
    exact ⟨x, hx, h, ha⟩
  · have hl : ∀ t ∈ ts.getLast?, ¬ t.Calls rest := Token.not_calls_tail (Token.not_calls_tail hcut)
    rw [absorbAll] at hr
    obtain ⟨f, -, hr⟩ := bind_result_eq_ok_iff.mp hr
    have hcall : Supplied .argument (.frame ⟨.call n f, o, s.2.length⟩ :: s.1, s.2) :=
      h.open_call (fun hp => by cases hp) rfl
    exact absorbAll_supplied ts (by decide) hcall ha.2.2 hl hr
  · obtain ⟨y, hy, hn, hyt, hya⟩ := ha.tail hx (Token.not_calls_append hc hcut)
    rw [absorbAll_cons hc] at hr
    obtain ⟨u, hu, hr⟩ := bind_result_eq_ok_iff.mp hr
    have hsu : Supplied y u := absorb_supplied h ha.1 hyt hn hu
    exact absorbAll_supplied ts hy hsu hya (Token.not_calls_tail hcut) hr
termination_by ts.length

end Formula
