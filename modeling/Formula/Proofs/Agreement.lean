import Formula.Proofs.Evaluate
import Formula.Proofs.Stacks.Origins
import Formula.Proofs.Token.Position

/-!
# Environments that agree

An evaluation sees of its environment only what the names of its source are bound to, and
the tolerance if it compares. A name that has a value is never looked up as a function.
So environments that agree on this much give the same result, also when it is an error,
whatever else they bind.
-/

namespace Formula

open State Traced Text

def Lexeme.names (ls : List PlacedLexeme) : List String :=
  ls.filterMap fun l => match l.lexeme with
    | .name cs => some (String.ofList cs)
    | _ => none

theorem Lexeme.mem_names {n : String} {ls : List PlacedLexeme} :
    n ∈ names ls ↔ ∃ l ∈ ls, l.lexeme = .name n.toList := by
  rw [names, List.mem_filterMap]
  refine exists_congr fun l => and_congr_right fun _ => ?_
  cases hl : l.lexeme with
  | name cs =>
    simp only [Option.some.injEq, name.injEq]
    exact ⟨fun h => by rw [← h, String.toList_ofList], fun h => by rw [h, String.ofList_toList]⟩
  | _ => simp

def spelledNames (source : String) : List String := Lexeme.names (Lexeme.split 0 source.toList)

structure Environment.Agree (env env' : Environment) (names : List String) : Prop where
  values : ∀ n ∈ names, env.valueOf? n = env'.valueOf? n
  functions : ∀ n ∈ names, env.valueOf? n = none → env.functionOf? n = env'.functionOf? n

theorem Traced.bind_congr_result {α β : Type} {t : Traced α} {f g : α → Traced β}
    (h : ∀ a, t.result = .ok a → f a = g a) : t >>= f = t >>= g := by
  change andThen t f = andThen t g
  unfold andThen
  split
  · rfl
  · rename_i a ha
    rw [h a ha]

namespace Environment

variable {env env' : Environment} {names : List String}

theorem Agree.mem_identifiers_iff (h : env.Agree env' names) {n : String} (hn : n ∈ names) :
    n ∈ env.identifiers ↔ n ∈ env'.identifiers := by
  rw [env.mem_identifiers_iff, env'.mem_identifiers_iff, ← h.values n hn]
  cases hv : env.valueOf? n with
  | some v => simp
  | none => rw [h.functions n hn hv]

theorem Agree.valueAt_eq (h : env.Agree env' names) {n : String} (hn : n ∈ names) (o : Nat) :
    env.valueAt n o = env'.valueAt n o := by
  unfold valueAt
  rw [← h.values n hn]
  cases hv : env.valueOf? n with
  | some v => rfl
  | none => rw [h.functions n hn hv]

theorem Agree.functionAt_eq (h : env.Agree env' names) {n : String} (hn : n ∈ names) (o : Nat) :
    env.functionAt n o = env'.functionAt n o := by
  unfold functionAt
  rw [← h.values n hn]
  cases hv : env.valueOf? n with
  | some v => rfl
  | none => rw [h.functions n hn hv]

end Environment

section Tokens

variable {allowed allowed' : List String}

theorem Token.Kind.ofLexeme_congr {l : Lexeme}
    (h : ∀ cs, l = .name cs → (String.ofList cs ∈ allowed ↔ String.ofList cs ∈ allowed'))
    (after : Bool) : Kind.ofLexeme allowed after l = Kind.ofLexeme allowed' after l := by
  cases l with
  | name cs => simp only [Kind.ofLexeme, h cs rfl]
  | _ => rfl

theorem Token.ofLexemes_congr {ls : List PlacedLexeme}
    (h : ∀ n ∈ Lexeme.names ls, n ∈ allowed ↔ n ∈ allowed') (x : Expected) :
    ofLexemes allowed x ls = ofLexemes allowed' x ls := by
  induction ls generalizing x with
  | nil => rfl
  | cons l ls ih =>
    have hl : ∀ cs, l.lexeme = .name cs →
        (String.ofList cs ∈ allowed ↔ String.ofList cs ∈ allowed') := by
      intro cs hcs
      exact h _ (Lexeme.mem_names.mpr ⟨l, List.mem_cons_self, by rw [hcs, String.toList_ofList]⟩)
    have hls : ∀ n ∈ Lexeme.names ls, n ∈ allowed ↔ n ∈ allowed' := by
      intro n hn
      obtain ⟨m, hm, hmn⟩ := Lexeme.mem_names.mp hn
      exact h n (Lexeme.mem_names.mpr ⟨m, List.mem_cons_of_mem l hm, hmn⟩)
    simp only [ofLexemes, Kind.ofNext, Kind.ofLexeme_congr hl, ih hls]

theorem tokenize_congr {source : String}
    (h : ∀ n ∈ spelledNames source, n ∈ allowed ↔ n ∈ allowed') :
    tokenize source allowed = tokenize source allowed' := by
  simp only [tokenize, Token.ofLexemes_congr h]

theorem Token.ofLexemes_spelled {x : Expected} {ls : List PlacedLexeme} {ts : List Token}
    (h : ofLexemes allowed x ls = .ok ts) {n : String} {o : Nat} (hn : ⟨.identifier n, o⟩ ∈ ts) :
    n ∈ Lexeme.names ls := by
  rw [Lexeme.mem_names]
  induction ls generalizing x ts with
  | nil =>
    cases h
    cases hn
  | cons l ls ih =>
    obtain ⟨k, rest, hk, hr, rfl⟩ := ofLexemes_cons.mp h
    rcases List.mem_cons.mp hn with he | hn
    · cases he
      exact ⟨l, List.mem_cons_self, (Kind.ofLexeme_identifier (Kind.ofNext_eq_ok.mp hk).1).1⟩
    · obtain ⟨m, hm, hmn⟩ := ih hr hn
      exact ⟨m, List.mem_cons_of_mem l hm, hmn⟩

theorem tokenize_no_equal {source : String} {ts : List Token}
    (h : tokenize source allowed = .ok ts) (hs : '=' ∉ source.toList) (o : Nat) :
    ⟨.binary .equal, o⟩ ∉ ts := by
  intro hm
  obtain ⟨text, ht, before, after, he, -⟩ := tokenize_standsAt h hm
  obtain rfl : text = ['='] := ht
  refine hs ?_
  rw [he]
  simp

end Tokens

theorem BinaryOp.eval_congr {tolerance tolerance' : Float} {b : BinaryOp}
    (h : b = .equal → tolerance = tolerance') : b.eval tolerance = b.eval tolerance' := by
  cases b with
  | equal => rw [h rfl]
  | _ => rfl

theorem applyOperator_congr {tolerance tolerance' : Float} {op : Operator}
    (h : op = .binary .equal → tolerance = tolerance') (o : Nat) (below : List Pending)
    (values : List Value) :
    applyOperator tolerance op o below values = applyOperator tolerance' op o below values := by
  have hact (b : BinaryOp) (hb : op = .binary b) (x y : Value) :
      b.act tolerance o x y = b.act tolerance' o x y := by
    have he : b.eval tolerance = b.eval tolerance' :=
      BinaryOp.eval_congr fun hequal => h (hb.trans (congrArg Operator.binary hequal))
    have hrow : b.evalRow tolerance = b.evalRow tolerance' := by
      funext row
      unfold BinaryOp.evalRow
      split <;> simp only [he]
    simp only [BinaryOp.act, BinaryOp.apply_eq_broadcast, hrow]
  rcases operands_cases op below values with hc | ⟨s, x, rest, rfl, rfl, hb⟩ |
    ⟨b, y, x, rest, rfl, rfl, hb⟩
  · rw [applyOperator_lacking tolerance o hc, applyOperator_lacking tolerance' o hc]
  · rw [applyOperator_sign _ _ _ _ hb, applyOperator_sign _ _ _ _ hb]
  · rw [applyOperator_binary _ _ _ _ _ hb, applyOperator_binary _ _ _ _ _ hb, hact b rfl]

structure Environment.AgreeAmong (env env' : Environment) (all : List Token) : Prop where
  names : ∃ names, env.Agree env' names ∧ ∀ n o, ⟨.identifier n, o⟩ ∈ all → n ∈ names
  tolerance : (∃ o, ⟨.binary .equal, o⟩ ∈ all) → env.tolerance = env'.tolerance

namespace Environment.AgreeAmong

variable {env env' : Environment} {all : List Token}

theorem valueAt_eq (h : env.AgreeAmong env' all) {n : String} {o : Nat}
    (hn : ⟨.identifier n, o⟩ ∈ all) : env.valueAt n o = env'.valueAt n o := by
  obtain ⟨names, ha, hnames⟩ := h.names
  exact ha.valueAt_eq (hnames n o hn) o

theorem functionAt_eq (h : env.AgreeAmong env' all) {n : String} {o : Nat}
    (hn : ⟨.identifier n, o⟩ ∈ all) : env.functionAt n o = env'.functionAt n o := by
  obtain ⟨names, ha, hnames⟩ := h.names
  exact ha.functionAt_eq (hnames n o hn) o

theorem applyOperator_eq (h : env.AgreeAmong env' all) {op : Operator} {o : Nat}
    (hop : (Pending.operator op o).ReadAmong env all) (below : List Pending)
    (values : List Value) :
    applyOperator env.tolerance op o below values =
      applyOperator env'.tolerance op o below values := by
  refine applyOperator_congr ?_ o below values
  rintro rfl
  obtain ⟨k, hk, hm⟩ := hop
  exact h.tolerance ⟨o, Token.Kind.eq_binary hk ▸ hm⟩

theorem place_eq (h : env.AgreeAmong env' all) {t : Token} (ht : t ∈ all)
    (pending : List Pending) (values : List Value) :
    place env t pending values = place env' t pending values := by
  obtain ⟨k, o⟩ := t
  cases k with
  | identifier n => simp only [place, h.valueAt_eq ht]
  | _ => rcases pending with _ | ⟨op | f, below⟩ <;> rfl

theorem absorb_eq (h : env.AgreeAmong env' all) {t : Token} (ht : t ∈ all)
    {pending : List Pending} (hp : ∀ p ∈ pending, p.ReadAmong env all) (values : List Value) :
    absorb env t pending values = absorb env' t pending values := by
  induction pending generalizing values with
  | nil => exact h.place_eq ht [] values
  | cons p below ih =>
    cases p with
    | frame f => exact h.place_eq ht _ values
    | operator top o =>
      obtain ⟨htop, hbelow⟩ := List.forall_mem_cons.mp hp
      simp only [absorb, h.applyOperator_eq htop, h.place_eq ht, ih hbelow]

theorem absorbAll_eq (h : env.AgreeAmong env' all) (ts : List Token) (hts : ts <:+ all)
    {s : Stacks} (hp : ∀ p ∈ s.1, p.ReadAmong env all) :
    absorbAll env ts s = absorbAll env' ts s := by
  rcases tokens_cases ts with rfl | ⟨n, o, p, ts, rfl⟩ | ⟨t, ts, rfl, hc⟩
  · rfl
  · have hrest : ts <:+ all :=
      (List.suffix_cons _ ts).trans ((List.suffix_cons _ _).trans hts)
    have hn := hts.subset List.mem_cons_self
    rw [absorbAll, absorbAll, ← h.functionAt_eq hn]
    refine bind_congr_result fun f hf => ?_
    obtain ⟨hv, hg⟩ := (Environment.functionAt_found hn).result f hf
    obtain ⟨pre, hpre⟩ := hts
    refine h.absorbAll_eq ts hrest (List.forall_mem_cons.mpr ⟨⟨hv, hg, p, pre, ts, ?_⟩, hp⟩)
    rw [← hpre, List.append_assoc]
    rfl
  · have ht : t ∈ all := hts.subset List.mem_cons_self
    rw [absorbAll_cons hc, absorbAll_cons hc, ← h.absorb_eq ht hp]
    exact bind_congr_result fun s' hs' =>
      h.absorbAll_eq ts ((List.suffix_cons t ts).trans hts)
        ((absorb_found ht hp s.2).result s' hs')
termination_by ts.length

theorem acts_nil_eq (h : env.AgreeAmong env' all) (last : Nat) {pending : List Pending}
    (hp : ∀ p ∈ pending, p.ReadAmong env all) (values : List Value) :
    acts env last (reading [] pending values) = acts env' last (reading [] pending values) := by
  induction pending generalizing values with
  | nil =>
    rw [acts_nil, acts_nil]
    rfl
  | cons p below ih =>
    obtain ⟨hp, hbelow⟩ := List.forall_mem_cons.mp hp
    cases p with
    | frame f => rw [acts_nil_frame, acts_nil_frame]
    | operator top o =>
      have hc : Completes top [] := trivial
      simp only [acts_apply hc, h.applyOperator_eq hp, ih hbelow]

theorem traceTokens_eq (h : env.AgreeAmong env' all) :
    (traceTokens all env).result = (traceTokens all env').result := by
  have hp : ∀ p ∈ ([] : List Pending), p.ReadAmong env all := List.forall_mem_nil _
  have hrun : (traceTokens all env).actions = (traceTokens all env').actions := by
    rw [traceTokens_absorbAll, traceTokens_absorbAll,
      ← h.absorbAll_eq all List.suffix_rfl (s := ([], [])) hp]
    exact bind_congr_result fun s hs =>
      h.acts_nil_eq (lastOffset all)
        ((absorbAll_found all List.suffix_rfl (s := ([], [])) hp).result s hs) s.2
  have hresult := congrArg Traced.result hrun
  exact hresult

end Environment.AgreeAmong

theorem Environment.Agree.evaluate_eq {env env' : Environment} {source : String}
    (h : env.Agree env' (spelledNames source))
    (ht : env.tolerance = env'.tolerance ∨ '=' ∉ source.toList) :
    evaluate source env = evaluate source env' := by
  have htokens := tokenize_congr fun n hn => h.mem_identifiers_iff hn
  unfold evaluate
  rw [← htokens]
  cases hts : tokenize source env.identifiers with
  | error e => rfl
  | ok ts =>
    have hspelled : ∀ n o, ⟨.identifier n, o⟩ ∈ ts → n ∈ spelledNames source := fun n o hn =>
      Token.ofLexemes_spelled (tokenize_eq_ok.mp hts).1 hn
    have hboth : env.AgreeAmong env' ts := by
      refine ⟨⟨_, h, hspelled⟩, ?_⟩
      rintro ⟨o, ho⟩
      rcases ht with ht | hs
      · exact ht
      · exact absurd ho (tokenize_no_equal hts hs o)
    exact congrArg (Except.mapError Error.eval) hboth.traceTokens_eq

/-- An evaluation depends on the names that are spelled in its source, and on the tolerance if an
equality sign stands there. Binding another name changes no result, and neither does a function
under a name that has a value. -/
theorem evaluate_agree (source : String) (env : Environment) :
    (∀ env', env.Agree env' (spelledNames source) →
      (env.tolerance = env'.tolerance ∨ '=' ∉ source.toList) →
      evaluate source env = evaluate source env') ∧
    (∀ n v, n ∉ spelledNames source →
      evaluate source (env.withVariable n v) = evaluate source env) ∧
    (∀ n f, n ∉ spelledNames source ∨ (env.valueOf? n).isSome = true →
      evaluate source (env.withFunction n f) = evaluate source env) := by
  refine ⟨fun env' h ht => h.evaluate_eq ht, fun n v hn => ?_, fun n f hn => ?_⟩
  · have h : (env.withVariable n v).Agree env (spelledNames source) := by
      refine ⟨fun m hm => ?_, fun m hm _ => rfl⟩
      have hne : m ≠ n := fun he => hn (he ▸ hm)
      simp only [Environment.valueOf?, Environment.withVariable, Bindings.find?_insert,
        if_neg hne]
    exact h.evaluate_eq (.inl rfl)
  · have h : (env.withFunction n f).Agree env (spelledNames source) := by
      refine ⟨fun m hm => rfl, fun m hm hv => ?_⟩
      have hne : m ≠ n := by
        rintro rfl
        rcases hn with hn | hn
        · exact hn hm
        · have hv : env.valueOf? m = none := hv
          rw [hv] at hn
          cases hn
      simp only [Environment.functionOf?, Environment.withFunction, Bindings.find?_insert,
        if_neg hne]
    exact h.evaluate_eq (.inl rfl)

theorem evaluate_agree_sum :
    let source := "x+half(2)"
    let env := (Environment.empty.withVariable "x" (.scalar 1)).withFunction "half" (.unary (· / 2))
    let env' := (env.withVariable "y" (.scalar 3)).withTolerance 1
    (env.Agree env' (spelledNames source) ∧ '=' ∉ source.toList ∧
      evaluate source env = evaluate source env') ∧
    ("y" ∉ spelledNames source ∧
      evaluate source (env.withVariable "y" (.scalar 3)) = evaluate source env) ∧
    ((env.valueOf? "x").isSome = true ∧
      evaluate source (env.withFunction "x" (.unary Float.abs)) = evaluate source env) := by
  intro source env env'
  have hnames : spelledNames source = ["x", "half"] := by decide +kernel
  have hy : "y" ∉ spelledNames source := by
    rw [hnames]
    decide
  have hx : (env.valueOf? "x").isSome = true := by decide +kernel
  have hequal : '=' ∉ source.toList := by decide +kernel
  have hagree : env.Agree env' (spelledNames source) := by
    rw [hnames]
    refine ⟨fun n hn => ?_, fun n _ _ => rfl⟩
    have hne : n ≠ "y" := by
      rintro rfl
      revert hn
      decide
    simp only [env', Environment.valueOf?, Environment.withVariable, Environment.withTolerance,
      Bindings.find?_insert, if_neg hne]
  obtain ⟨hcongr, hvalues, hfunctions⟩ := evaluate_agree source env
  exact ⟨⟨hagree, hequal, hcongr env' hagree (.inr hequal)⟩, ⟨hy, hvalues "y" (.scalar 3) hy⟩,
    hx, hfunctions "x" (.unary Float.abs) (.inr hx)⟩

end Formula
