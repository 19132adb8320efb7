import Formula.Proofs.Faults
import Formula.Proofs.Stacks.Absorb
import Formula.Proofs.Stacks.Frames

/-!
# Where faults come from

Everything on the stack of what is pending has been read from some token and keeps its
offset: an operator that of its token, a group and a vector that of their delimiter, and
a call that of the name of its function. So whatever an evaluation of tokens ends with,
it is reported at the offset of a token that it is about. Only a call that is missing is
reported behind one.
-/

namespace Formula

open Pending State Traced Text

def Frame.OpenedAmong (env : Environment) (ts : List Token) (f : Frame) : Prop :=
  match f.purpose with
  | .group => ⟨.opening .paren, f.offset⟩ ∈ ts
  | .vector => ⟨.opening .bracket, f.offset⟩ ∈ ts
  | .call n g => env.valueOf? n = none ∧ env.functionOf? n = some g ∧
    ∃ p, [⟨.identifier n, f.offset⟩, ⟨.opening .paren, p⟩] <:+: ts

def Pending.ReadAmong (env : Environment) (ts : List Token) : Pending → Prop
  | operator op o => ∃ k, k.operator? = some op ∧ ⟨k, o⟩ ∈ ts
  | frame f => f.OpenedAmong env ts

def EvalFault.FoundAmong (env : Environment) (ts : List Token) (o : Nat) : EvalFault → Prop
  | unmatched d => ⟨.closing d, o⟩ ∈ ts ∨
      ∃ f : Frame, f.OpenedAmong env ts ∧ f.purpose.delimiter = d ∧ f.offset = o
  | mismatched _ found => ⟨.closing found, o⟩ ∈ ts
  | unknownIdentifier n | notAFunction n => ⟨.identifier n, o⟩ ∈ ts
  | missingCall n => ∃ p, ⟨.identifier n, p⟩ ∈ ts ∧ o = p + byteLength n.toList
  | missingOperands op => ∃ k, k.operator? = some op ∧ ⟨k, o⟩ ∈ ts
  | noValue | leftoverValues _ => o = lastOffset ts
  | wrongCount n _ _ | invalidArgument n _ =>
    (env.functionOf? n).isSome = true ∧ ⟨.identifier n, o⟩ ∈ ts
  | misplacedComma => ⟨.comma, o⟩ ∈ ts
  | nestedVector => ⟨.opening .bracket, o⟩ ∈ ts
  | shapeMismatch n _ _ => (∃ b : BinaryOp, b.symbol = n ∧ ⟨.binary b, o⟩ ∈ ts) ∨
      (env.functionOf? n).isSome = true ∧ ⟨.identifier n, o⟩ ∈ ts

def EvalError.FoundAmong (env : Environment) (ts : List Token) (e : EvalError) : Prop :=
  e.fault.FoundAmong env ts e.offset

variable {env : Environment} {all : List Token}

theorem Token.Kind.eq_binary {k : Token.Kind} {b : BinaryOp} (h : k.operator? = some (.binary b)) :
    k = .binary b := by
  cases k with
  | binary c =>
    cases h
    rfl
  | _ => cases h

theorem Frame.OpenedAmong.called {f : Frame} (h : f.OpenedAmong env all) {n : String}
    {g : Function} (hp : f.purpose = .call n g) :
    (env.functionOf? n).isSome = true ∧ ⟨.identifier n, f.offset⟩ ∈ all := by
  rw [OpenedAmong, hp] at h
  obtain ⟨-, hf, p, hi⟩ := h
  exact ⟨Option.isSome_iff_exists.mpr ⟨g, hf⟩, hi.subset List.mem_cons_self⟩

theorem applyOperator_found (tolerance : Float) {op : Operator} {o : Nat}
    (hop : (Pending.operator op o).ReadAmong env all) (below : List Pending)
    (values : List Value) :
    (applyOperator tolerance op o below values).Ends (EvalError.FoundAmong env all)
      fun _ => True := by
  refine ⟨fun e he => ?_, fun _ _ => trivial⟩
  obtain ⟨fault, p⟩ := e
  obtain ⟨hr, rfl⟩ := applyOperator_error he
  cases hr with
  | operands => exact hop
  | shape b left right hb =>
    obtain ⟨k, hk, hm⟩ := hop
    rw [hb] at hk
    exact .inl ⟨b, rfl, Token.Kind.eq_binary hk ▸ hm⟩

theorem collect_found {f : Frame} (hf : f.OpenedAmong env all) (values : List Value) :
    (collect f values).Ends (EvalError.FoundAmong env all) fun _ => True := by
  refine ⟨fun e he => ?_, fun _ _ => trivial⟩
  obtain ⟨fault, p⟩ := e
  obtain ⟨hr, rfl⟩ := collect_error he
  cases hr with
  | call name function count fault hp hr =>
    have hn := hf.called hp
    cases hr with
    | count _ => exact hn
    | shape left right => exact .inr hn
    | argument details => exact hn
  | nested hp =>
    rw [Frame.OpenedAmong, hp] at hf
    exact hf

theorem Environment.valueAt_found {n : String} {o : Nat} (hn : ⟨.identifier n, o⟩ ∈ all) :
    (env.valueAt n o).Ends (EvalError.FoundAmong env all) fun _ => True := by
  unfold Environment.valueAt
  split
  · exact ends_pure trivial
  · exact ends_fail ⟨o, hn, rfl⟩
  · exact ends_fail hn

theorem Environment.functionAt_found {n : String} {o : Nat} (hn : ⟨.identifier n, o⟩ ∈ all) :
    (env.functionAt n o).Ends (EvalError.FoundAmong env all)
      fun f => env.valueOf? n = none ∧ env.functionOf? n = some f := by
  unfold Environment.functionAt
  split
  · exact ends_fail hn
  · rename_i f hv hf
    exact ends_pure ⟨hv, hf⟩
  · exact ends_fail hn

theorem place_found {t : Token} (ht : t ∈ all) {pending : List Pending}
    (hp : ∀ p ∈ pending, p.ReadAmong env all) (values : List Value) :
    (place env t pending values).Ends (EvalError.FoundAmong env all)
      fun s => ∀ p ∈ s.1, p.ReadAmong env all := by
  obtain ⟨k, o⟩ := t
  cases k with
  | number x => exact ends_pure hp
  | identifier n => exact (Environment.valueAt_found ht).bind fun v _ => ends_pure hp
  | sign s => exact ends_pure (List.forall_mem_cons.mpr ⟨⟨_, rfl, ht⟩, hp⟩)
  | binary b => exact ends_pure (List.forall_mem_cons.mpr ⟨⟨_, rfl, ht⟩, hp⟩)
  | opening d =>
    refine ends_pure (List.forall_mem_cons.mpr ⟨?_, hp⟩)
    cases d <;> exact ht
  | closing d =>
    rcases pending with _ | ⟨op | f, below⟩
    · exact ends_fail (.inl ht)
    · exact ends_fail (.inl ht)
    · obtain ⟨hf, hbelow⟩ := List.forall_mem_cons.mp hp
      simp only [place]
      split
      · exact (collect_found hf values).bind fun w _ => ends_pure hbelow
      · exact ends_fail ht
  | comma =>
    rcases pending with _ | ⟨op | f, below⟩
    · exact ends_fail ht
    · exact ends_fail ht
    · simp only [place]
      split
      · exact ends_pure hp
      · exact ends_fail ht

theorem absorb_found {t : Token} (ht : t ∈ all) {pending : List Pending}
    (hp : ∀ p ∈ pending, p.ReadAmong env all) (values : List Value) :
    (absorb env t pending values).Ends (EvalError.FoundAmong env all)
      fun s => ∀ p ∈ s.1, p.ReadAmong env all := by
  induction pending generalizing values with
  | nil => exact place_found ht hp values
  | cons p below ih =>
    cases p with
    | frame f => exact place_found ht hp values
    | operator top o =>
      obtain ⟨htop, hbelow⟩ := List.forall_mem_cons.mp hp
      rw [absorb]
      split
      · exact (applyOperator_found env.tolerance htop below values).bind
          fun w _ => ih hbelow w
      · exact place_found ht hp values

/-- What is pending has been read from the tokens that have been absorbed. -/
theorem absorbAll_found (ts : List Token) (hts : ts <:+ all) {s : Stacks}
    (hp : ∀ p ∈ s.1, p.ReadAmong env all) :
    (absorbAll env ts s).Ends (EvalError.FoundAmong env all)
      fun s => ∀ p ∈ s.1, p.ReadAmong env all := by
  rcases tokens_cases ts with rfl | ⟨n, o, p, ts, rfl⟩ | ⟨t, ts, rfl, hc⟩
  · exact ends_pure hp
  · rw [absorbAll]
    refine (Environment.functionAt_found (hts.subset List.mem_cons_self)).bind fun f hf => ?_
    have hrest : ts <:+ all :=
      (List.suffix_cons _ ts).trans ((List.suffix_cons _ _).trans hts)
    obtain ⟨pre, hpre⟩ := hts
    refine absorbAll_found ts hrest (List.forall_mem_cons.mpr ⟨⟨hf.1, hf.2, p, pre, ts, ?_⟩, hp⟩)
    rw [← hpre, List.append_assoc]
    rfl
  · rw [absorbAll_cons hc]
    have ht : t ∈ all := hts.subset List.mem_cons_self
    exact (absorb_found ht hp s.2).bind fun s' hs' =>
      absorbAll_found ts ((List.suffix_cons t ts).trans hts) hs'
termination_by ts.length

theorem acts_nil_found {pending : List Pending} (hp : ∀ p ∈ pending, p.ReadAmong env all)
    (values : List Value) :
    (acts env (lastOffset all) (reading [] pending values)).Ends (EvalError.FoundAmong env all)
      fun _ => True := by
  induction pending generalizing values with
  | nil =>
    rw [acts_nil]
    match values with
    | [] => exact ends_fail rfl
    | [v] => exact ends_pure trivial
    | v :: w :: vs => exact ends_fail rfl
  | cons p below ih =>
    obtain ⟨hp, hbelow⟩ := List.forall_mem_cons.mp hp
    cases p with
    | frame f =>
      rw [acts_nil_frame]
      exact ends_fail (.inr ⟨f, hp, rfl, rfl⟩)
    | operator top o =>
      have hc : Completes top [] := trivial
      rw [acts_apply hc]
      exact (applyOperator_found env.tolerance hp below values).bind fun w _ => ih hbelow w

/-- What an evaluation fails with is about tokens at the offset that it reports. -/
theorem traceTokens_found {ts : List Token} {e : EvalError}
    (h : (traceTokens ts env).result = .error e) : e.FoundAmong env ts := by
  have hp : ∀ p ∈ ([] : List Pending), p.ReadAmong env ts := List.forall_mem_nil _
  have hrun := (absorbAll_found ts List.suffix_rfl (s := ([], [])) hp).bind
    fun s hs => acts_nil_found hs s.2
  rw [← traceTokens_absorbAll] at hrun
  exact hrun.fault e h

end Formula
