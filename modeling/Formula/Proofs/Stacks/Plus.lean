import Formula.Proofs.Stacks.Supply
import Formula.Proofs.Token.Position

/-!
# Signs that change nothing

A prefix plus that is pending leaves its operand as it is when it is applied, and until
then whatever is put above it would be put above what lies below it as well: signs and
powers are put above every operator, and every other operator applies the plus first. So
the run with the plus and the run without it have the same values at every token, and the
same entries are pending but for the plus.
-/

namespace Formula

open State Traced

/-- Both end with one error, or with results that are related. -/
inductive Alike {α β : Type} (r : α → β → Prop) : Except EvalError α → Except EvalError β → Prop
  | error (e : EvalError) : Alike r (.error e) (.error e)
  | ok {a : α} {b : β} : r a b → Alike r (.ok a) (.ok b)

namespace Alike

variable {α β γ δ : Type} {r : α → β → Prop} {q : γ → δ → Prop}

theorem refl {r : α → α → Prop} (h : ∀ a, r a a) (t : Except EvalError α) : Alike r t t := by
  cases t with
  | error e => exact .error e
  | ok a => exact .ok (h a)

theorem eq_iff {s t : Except EvalError α} : Alike Eq s t ↔ s = t := by
  refine ⟨fun h => ?_, fun h => h ▸ refl (fun _ => rfl) s⟩
  cases h with
  | error e => rfl
  | ok h => rw [h]

theorem bind {t : Traced α} {u : Traced β} (h : Alike r t.result u.result) {f : α → Traced γ}
    {g : β → Traced δ}
    (hfg : ∀ a b, t.result = .ok a → r a b → Alike q (f a).result (g b).result) :
    Alike q (t >>= f).result (u >>= g).result := by
  rw [bind_result, bind_result]
  cases ht : t.result with
  | error e =>
    rw [ht] at h
    cases hu : u.result with
    | error e' =>
      rw [hu] at h
      cases h
      exact .error e
    | ok b =>
      rw [hu] at h
      cases h
  | ok a =>
    rw [ht] at h
    cases hu : u.result with
    | error e =>
      rw [hu] at h
      cases h
    | ok b =>
      rw [hu] at h
      cases h with
      | ok hr => exact hfg a b ht hr

theorem bind_same {t : Traced α} {f : α → Traced γ} {g : α → Traced δ}
    (hfg : ∀ a, t.result = .ok a → Alike q (f a).result (g a).result) :
    Alike q (t >>= f).result (t >>= g).result := by
  refine bind (refl (fun _ => rfl) t.result) fun a b ha hab => ?_
  obtain rfl : a = b := hab
  exact hfg a ha

end Alike

namespace Pending

/-- The first entries are the second ones, or have a prefix plus among them in addition. -/
inductive PlusAmong : List Pending → List Pending → Prop
  | none (pending : List Pending) : PlusAmong pending pending
  | here (o : Nat) (below : List Pending) : PlusAmong (operator (.sign .plus) o :: below) below
  | under (p : Pending) {pending pending' : List Pending} :
      PlusAmong pending pending' → PlusAmong (p :: pending) (p :: pending')

theorem PlusAmong.base_eq {pending pending' : List Pending} (h : PlusAmong pending pending') :
    base pending = base pending' := by
  induction h with
  | none pending => rfl
  | here o below => rfl
  | under p h ih =>
    cases p with
    | operator op o => exact ih
    | frame f => rfl

end Pending

def Stacks.PlusAmong (s s' : Stacks) : Prop := Pending.PlusAmong s.1 s'.1 ∧ s.2 = s'.2

theorem Stacks.PlusAmong.refl (s : Stacks) : s.PlusAmong s := ⟨.none s.1, rfl⟩

open Pending Stacks

theorem applyOperator_base {below below' : List Pending} (h : base below = base below')
    (tolerance : Float) (op : Operator) (o : Nat) (values : List Value) :
    applyOperator tolerance op o below values = applyOperator tolerance op o below' values := by
  simp only [applyOperator, h]

theorem applyOperator_plus {below : List Pending} {values : List Value}
    (h : base below < values.length) (tolerance : Float) (o : Nat) :
    (applyOperator tolerance (.sign .plus) o below values).result = .ok values := by
  cases values with
  | nil => cases h
  | cons v rest =>
    rw [applyOperator_sign _ _ _ _ (Nat.le_of_lt_succ h)]
    rfl

variable {env : Environment} {x : Expected} {t : Token} {pending pending' : List Pending}
  {values : List Value}

theorem place_under (p : Pending) (h : Pending.PlusAmong pending pending') (values : List Value) :
    Alike Stacks.PlusAmong (place env t (p :: pending) values).result
      (place env t (p :: pending') values).result := by
  have above (q : Pending) : Pending.PlusAmong (q :: p :: pending) (q :: p :: pending') :=
    .under q (.under p h)
  obtain ⟨k, o⟩ := t
  cases k with
  | number z => exact .ok ⟨.under p h, rfl⟩
  | identifier n => exact .bind_same fun v _ => .ok ⟨.under p h, rfl⟩
  | sign s => exact .ok ⟨above _, rfl⟩
  | binary b => exact .ok ⟨above _, rfl⟩
  | opening d => exact .ok ⟨above _, rfl⟩
  | closing d =>
    cases p with
    | operator op q => exact .error _
    | frame f =>
      simp only [place]
      split
      · exact .bind_same fun vs _ => .ok ⟨h, rfl⟩
      · exact .error _
  | comma =>
    cases p with
    | operator op q => exact .error _
    | frame f =>
      simp only [place]
      split
      · exact .ok ⟨.under _ h, rfl⟩
      · exact .error _

theorem absorb_above_plus (h : t.completes (.sign .plus) = false) (o : Nat) (pending : List Pending)
    (values : List Value) :
    Alike Stacks.PlusAmong (place env t (.operator (.sign .plus) o :: pending) values).result
      (absorb env t pending values).result := by
  have habsorb (hc : ∀ top, t.completes top = false) :
      absorb env t pending values = place env t pending values := by
    rcases pending with _ | ⟨⟨top, q⟩ | f, below⟩
    · rfl
    · rw [absorb, hc top]
      rfl
    · rfl
  obtain ⟨k, p⟩ := t
  have above (q : Pending) : Pending.PlusAmong (q :: .operator (.sign .plus) o :: pending)
      (q :: pending) := .under q (.here o pending)
  cases k with
  | number z =>
    rw [habsorb fun _ => rfl]
    exact .ok ⟨.here o pending, rfl⟩
  | identifier n =>
    rw [habsorb fun _ => rfl]
    exact .bind_same fun v _ => .ok ⟨.here o pending, rfl⟩
  | sign s =>
    rw [habsorb fun _ => rfl]
    exact .ok ⟨above _, rfl⟩
  | opening d =>
    rw [habsorb fun _ => rfl]
    exact .ok ⟨above _, rfl⟩
  | binary b =>
    -- only a power is put above a sign, and it is put above every operator
    obtain rfl : b = .pow := by cases b <;> first | rfl | cases h
    rw [habsorb fun top => congrArg not (Operator.pow_shiftsOver top)]
    exact .ok ⟨above _, rfl⟩
  | closing d => cases h
  | comma => cases h

theorem absorb_plusAmong (h : Pending.PlusAmong pending pending')
    (hs : Supplied x (pending, values)) (ha : x.admits t.kind = true) :
    Alike Stacks.PlusAmong (absorb env t pending values).result
      (absorb env t pending' values).result := by
  induction h generalizing values with
  | none pending => exact .refl Stacks.PlusAmong.refl _
  | here o below =>
    rw [absorb]
    split
    · rename_i hc
      have hx := afterOperand_of_completes ha hs.not_argument hc
      have hb : base below < values.length := hs.base_lt hx
      rw [bind_result, applyOperator_plus hb]
      exact .refl Stacks.PlusAmong.refl _
    · rename_i hc
      exact absorb_above_plus (Bool.eq_false_iff.mpr hc) o below values
  | under p h ih =>
    cases p with
    | frame f => exact place_under (.frame f) h values
    | operator top o =>
      rw [absorb, absorb]
      split
      · rename_i hc
        have hx := afterOperand_of_completes ha hs.not_argument hc
        rw [← applyOperator_base h.base_eq]
        exact .bind_same fun vs hvs => ih (hs.applied hx hvs)
      · exact place_under (.operator top o) h values

theorem acts_nil_plusAmong {last : Nat} (h : Pending.PlusAmong pending pending')
    (hs : Supplied x (pending, values)) (hx : x.afterOperand = true) :
    (acts env last (reading [] pending values)).result =
      (acts env last (reading [] pending' values)).result := by
  have hc {top : Operator} : Completes top [] := trivial
  induction h generalizing values with
  | none pending => rfl
  | here o below =>
    have hb : base below < values.length := hs.base_lt hx
    rw [acts_apply hc, bind_result, applyOperator_plus hb]
    rfl
  | under p h ih =>
    cases p with
    | frame f => rw [acts_nil_frame, acts_nil_frame]
    | operator top o =>
      rw [acts_apply hc, acts_apply hc, ← applyOperator_base h.base_eq]
      exact Alike.eq_iff.mp (.bind_same fun vs hvs => Alike.eq_iff.mpr (ih (hs.applied hx hvs)))

theorem acts_plusAmong {last : Nat} (ts : List Token) {x : Expected} {s s' : Stacks}
    (h : s.PlusAmong s') (hx : x ≠ .operatorOrCall) (hs : Supplied x s) (ha : x.Accepts ts) :
    (acts env last (reading ts s.1 s.2)).result =
      (acts env last (reading ts s'.1 s'.2)).result := by
  obtain ⟨hp, hv⟩ := h
  rcases tokens_cases ts with rfl | ⟨n, o, p, ts, rfl⟩ | ⟨t, ts, rfl, hc⟩
  · rw [← hv]
    exact acts_nil_plusAmong hp hs ha
  · rw [acts_called, acts_called, ← hv]
    refine Alike.eq_iff.mp (.bind_same fun f _ => Alike.eq_iff.mpr ?_)
    have hcall : Supplied .argument (.frame ⟨.call n f, o, s.2.length⟩ :: s.1, s.2) :=
      hs.open_call (fun hp => by cases hp) rfl
    have hpush : Stacks.PlusAmong (.frame ⟨.call n f, o, s.2.length⟩ :: s.1, s.2)
        (.frame ⟨.call n f, o, s.2.length⟩ :: s'.1, s.2) := ⟨.under _ hp, rfl⟩
    exact acts_plusAmong ts hpush (by decide) hcall ha.2.2
  · obtain ⟨y, hy, hn, hyt, hya⟩ := ha.tail hx hc
    rw [acts_absorb hc, acts_absorb hc, ← hv]
    refine Alike.eq_iff.mp (.bind (absorb_plusAmong hp hs ha.1) fun u u' hu huu => ?_)
    have hsu : Supplied y u := absorb_supplied hs ha.1 hyt hn hu
    exact Alike.eq_iff.mpr (acts_plusAmong ts huu hy hsu hya)
termination_by ts.length

theorem Expected.Accepts.admits {x : Expected} {pre post : List Token} {t : Token}
    (h : x.Accepts (pre ++ t :: post)) : (x.afterAll pre).admits t.kind = true := by
  induction pre generalizing x with
  | nil => exact h.1
  | cons u pre ih => exact ih h.2

theorem Expected.begins_of_admits {x : Expected} {k : Token.Kind} (hx : x.afterOperand = false)
    (hk : x.admits k = true) (hn : k ≠ .closing .paren) : k.beginsOperand = true := by
  cases x with
  | operand => exact hk
  | argument =>
    cases k with
    | closing d =>
      cases d with
      | paren => exact absurd rfl hn
      | bracket => exact hk
    | _ => exact hk
  | operator => cases hx
  | operatorOrCall => cases hx

theorem Expected.Accepts.beginsOperand {pre post : List Token} {t : Token}
    (h : Expected.operand.Accepts (pre ++ t :: post))
    (hpre : ∀ u ∈ pre.getLast?, u.kind.endsOperand = false) (ht : t.kind ≠ .closing .paren) :
    t.kind.beginsOperand = true := by
  refine Expected.begins_of_admits ?_ h.admits ht
  rw [Expected.afterOperand_afterAll]
  cases hl : pre.getLast? with
  | none => rfl
  | some u => exact hpre u hl

theorem Expected.Accepts.of_begins {x : Expected} {t : Token} {post : List Token}
    (h : x.Accepts (t :: post)) (hx : x ≠ .operatorOrCall) (ht : t.kind.beginsOperand = true) :
    x.afterOperand = false ∧ Expected.operand.Accepts (t :: post) := by
  obtain ⟨k, o⟩ := t
  cases x with
  | operand => exact ⟨rfl, h⟩
  | argument =>
    refine ⟨rfl, ht, ?_⟩
    cases k with
    | opening d => cases d <;> exact h.2
    | _ => exact h.2
  | operator =>
    have hk : k.followsOperand = true := h.1
    cases k with
    | binary b => cases ht
    | closing d => cases ht
    | comma => cases ht
    | _ => cases hk
  | operatorOrCall => exact absurd rfl hx

/-- A prefix plus can be written wherever an operand begins, and the tokens have the same value or
the same error. -/
theorem evaluateTokens_plus {source : String} {allowed : List String} {pre post : List Token}
    {t : Token} (h : tokenize source allowed = .ok (pre ++ t :: post))
    (hpre : ∀ u ∈ pre.getLast?, u.kind.endsOperand = false) (ht : t.kind ≠ .closing .paren)
    (env : Environment) (o : Nat) :
    evaluateTokens (pre ++ ⟨.sign .plus, o⟩ :: t :: post) env =
      evaluateTokens (pre ++ t :: post) env := by
  have ha : Expected.operand.Accepts (pre ++ t :: post) := tokenize_accepts h
  have hcut (rest : List Token) : ∀ u ∈ pre.getLast?, ¬ u.Calls rest := by
    rintro u hu ⟨⟨n, hn⟩, -⟩
    have he := hpre u hu
    rw [hn] at he
    cases he
  have hlast : lastOffset (pre ++ ⟨.sign .plus, o⟩ :: t :: post) =
      lastOffset (pre ++ t :: post) := by
    simp only [lastOffset, List.getLast?_append, List.getLast?_cons_cons]
  -- both runs have the same stacks in front of the plus
  have hsplit (rest : List Token) : (traceTokens (pre ++ rest) env).result =
      (absorbAll env pre ([], []) >>= fun s =>
        acts env (lastOffset (pre ++ rest)) (reading rest s.1 s.2)).result :=
    (actions_result _).symm.trans (congrArg Traced.result (traceTokens_append (hcut rest)))
  refine outcome_congr ?_
  rw [hsplit, hsplit, hlast]
  refine Alike.eq_iff.mp (.bind_same fun s hs => Alike.eq_iff.mpr ?_)
  obtain ⟨y, hy, hys, hya⟩ := absorbAll_supplied pre (by decide) .start ha (hcut _) hs
  obtain ⟨hyo, hop⟩ := hya.of_begins hy (ha.beginsOperand hpre ht)
  have hoperand : Supplied .operand s := hys.of_afterOperand hyo.symm (by decide)
  have hsign : Supplied .operand (.operator (.sign .plus) o :: s.1, s.2) :=
    ⟨hoperand.founded, hoperand.enough, fun he => by cases he⟩
  rw [acts_shift rfl _ fun p _ => Operator.sign_shiftsOver .plus p]
  have hplus : Stacks.PlusAmong (.operator (.sign .plus) o :: s.1, s.2) s := ⟨.here o s.1, rfl⟩
  exact acts_plusAmong (t :: post) hplus (by decide) hsign hop

theorem evaluateTokens_plus_power :
    let env := Environment.empty.withVariable "x" (.vector [1, 2])
    let pre : List Token := [⟨.number 2, 0⟩, ⟨.binary .pow, 1⟩]
    let post : List Token := [⟨.identifier "x", 3⟩]
    tokenize "2^-x" ["x"] = .ok (pre ++ ⟨.sign .minus, 2⟩ :: post) ∧
      evaluateTokens (pre ++ ⟨.sign .plus, 9⟩ :: ⟨.sign .minus, 2⟩ :: post) env =
        evaluateTokens (pre ++ ⟨.sign .minus, 2⟩ :: post) env := by
  intro env pre post
  have h : tokenize "2^-x" ["x"] = .ok (pre ++ ⟨.sign .minus, 2⟩ :: post) := by decide +kernel
  have hpre : ∀ u ∈ pre.getLast?, u.kind.endsOperand = false := by
    intro u hu
    cases hu
    rfl
  exact ⟨h, evaluateTokens_plus h hpre (by decide) env 9⟩

end Formula
