import Formula.Proofs.Evaluate
import Formula.Proofs.Stacks.Origins
import Formula.Proofs.Token.Position

/-!
# The places of errors

The offset of an error lies between two characters of the source, and what the error
names stands there: a character, a numeral, a name or a token. A function whose
call is missing stands before the offset. A mismatch of shapes is reported at an
operator, which has a second spelling if it is a power, or at the name of a function.
A frame keeps where it was opened: a group and a vector at their delimiter, a call at
the name of its function. So for an open call the report of an unmatched delimiter stands
at a name and not at the parenthesis behind it.
-/

namespace Formula

open Text

namespace Text

def IsBoundary (source : List Char) (offset : Nat) : Prop :=
  ∃ before after, source = before ++ after ∧ byteLength before = offset

def EndsAt (source : List Char) (offset : Nat) (text : List Char) : Prop :=
  ∃ before after, source = before ++ text ++ after ∧ byteLength (before ++ text) = offset

theorem IsBoundary.le {source : List Char} {o : Nat} (h : IsBoundary source o) :
    o ≤ byteLength source := by
  obtain ⟨before, after, rfl, rfl⟩ := h
  rw [byteLength_append]
  exact Nat.le_add_right _ _

theorem StandsAt.isBoundary {source text : List Char} {o : Nat} (h : StandsAt source o text) :
    IsBoundary source o := by
  obtain ⟨before, after, rfl, ho⟩ := h
  exact ⟨before, text ++ after, List.append_assoc _ _ _, ho⟩

theorem StandsAt.endsAt {source text : List Char} {o : Nat} (h : StandsAt source o text) :
    EndsAt source (o + byteLength text) text := by
  obtain ⟨before, after, hs, rfl⟩ := h
  exact ⟨before, after, hs, byteLength_append before text⟩

theorem EndsAt.isBoundary {source text : List Char} {o : Nat} (h : EndsAt source o text) :
    IsBoundary source o := by
  obtain ⟨before, after, hs, ho⟩ := h
  exact ⟨before ++ text, after, hs, ho⟩

end Text

/-- A lexeme of the source begins at the offset, it is this token behind the tokens before it, and
these lexemes stand behind it. -/
def Token.Kind.BeginsAt (allowed : List String) (source : List Char) (o : Nat)
    (behind : List PlacedLexeme) (k : Token.Kind) : Prop :=
  ∃ before ts l, Lexeme.split 0 source = before ++ ⟨l, o⟩ :: behind ∧
    Token.ofLexemes allowed .operand before = .ok ts ∧
    Kind.ofLexeme allowed (ts.getLast?.elim false fun t => t.kind.endsOperand) l = .ok k ∧
    l.text ∈ k.spellings allowed ∧ StandsAt source o l.text

def ParseFault.PointsAt (allowed : List String) (source : List Char) (o : Nat) :
    ParseFault → Prop
  | unexpectedCharacter c => StandsAt source o [c]
  | malformedNumber text | unknownIdentifier text => StandsAt source o text.toList
  | unexpectedToken k => ∃ behind, k.BeginsAt allowed source o behind
  | unexpectedEnd k => k.BeginsAt allowed source o []
  | emptyExpression => o = byteLength source

/-- What stands where an evaluation fails. That the tokens run short of values or leave too many is
never reported, and of an unmatched delimiter no more is said here than that it has a place. -/
def EvalFault.PointsAt (env : Environment) (source : List Char) (o : Nat) : EvalFault → Prop
  | unmatched _ => IsBoundary source o
  | mismatched _ found => StandsAt source o [found.closer]
  | unknownIdentifier n | notAFunction n | wrongCount n _ _ | invalidArgument n _ =>
    StandsAt source o n.toList
  | missingCall n => EndsAt source o n.toList
  | misplacedComma => StandsAt source o [',']
  | nestedVector => StandsAt source o ['[']
  | shapeMismatch n _ _ =>
    (∃ b : BinaryOp, b.symbol = n ∧
      ∃ text ∈ (Token.Kind.binary b).spellings env.identifiers, StandsAt source o text) ∨
    (env.functionOf? n).isSome = true ∧ StandsAt source o n.toList
  | missingOperands _ | noValue | leftoverValues _ => False

def Error.PointsAt (env : Environment) (source : List Char) : Error → Prop
  | parse e => e.fault.PointsAt env.identifiers source e.offset
  | eval e => e.fault.PointsAt env source e.offset

variable {allowed : List String} {env : Environment} {source : List Char}

theorem ParseFault.PointsAt.isBoundary {o : Nat} {fault : ParseFault}
    (h : fault.PointsAt allowed source o) : IsBoundary source o := by
  have begins {behind : List PlacedLexeme} {k : Token.Kind}
      (h : k.BeginsAt allowed source o behind) : IsBoundary source o := by
    obtain ⟨before, ts, l, -, -, -, -, hs⟩ := h
    exact hs.isBoundary
  cases fault with
  | unexpectedToken k =>
    obtain ⟨behind, hb⟩ := h
    exact begins hb
  | unexpectedEnd k => exact begins h
  | emptyExpression => exact ⟨source, [], (List.append_nil source).symm, h.symm⟩
  | _ => exact StandsAt.isBoundary h

theorem EvalFault.PointsAt.isBoundary {o : Nat} {fault : EvalFault}
    (h : fault.PointsAt env source o) : IsBoundary source o := by
  cases fault with
  | unmatched d => exact h
  | missingCall n => exact EndsAt.isBoundary h
  | shapeMismatch n left right =>
    rcases h with ⟨b, -, text, -, hs⟩ | ⟨-, hs⟩ <;> exact hs.isBoundary
  | missingOperands op => exact h.elim
  | noValue => exact h.elim
  | leftoverValues count => exact h.elim
  | _ => exact StandsAt.isBoundary h

theorem Error.PointsAt.isBoundary {e : Error} (h : e.PointsAt env source) :
    IsBoundary source e.offset := by
  cases e with
  | parse e => exact ParseFault.PointsAt.isBoundary h
  | eval e => exact EvalFault.PointsAt.isBoundary h

theorem begins_of_ofLexeme {before behind : List PlacedLexeme} {p : PlacedLexeme}
    (hs : Lexeme.split 0 source = before ++ p :: behind) {ts : List Token}
    (hts : Token.ofLexemes allowed .operand before = .ok ts) {k : Token.Kind}
    (hk : Token.Kind.ofLexeme allowed (Expected.operand.afterAll ts).afterOperand p.lexeme =
      .ok k) :
    k.BeginsAt allowed source p.offset behind := by
  have hp : p ∈ Lexeme.split 0 source := by
    rw [hs]
    exact List.mem_append_right before List.mem_cons_self
  obtain ⟨-, c, rest, -, -, hl⟩ := mem_split hp
  have hspell : p.lexeme.text ∈ k.spellings allowed := by
    rw [hl] at hk ⊢
    exact scan_spelling hk
  rw [Expected.afterOperand_afterAll] at hk
  exact ⟨before, ts, p.lexeme, hs, hts, hk, hspell, split_standsAt hp⟩

theorem tokenize_error_pointsAt {source : String} {e : ParseError}
    (h : tokenize source allowed = .error e) :
    e.fault.PointsAt allowed source.toList e.offset := by
  unfold tokenize at h
  split at h
  · rename_i e' he
    cases h
    obtain ⟨before, p, behind, ts, hs, hts, hk, ho⟩ := Token.ofLexemes_error he
    rcases Token.Kind.ofNext_error hk with hl | ⟨k, hl, hf⟩
    · -- the lexeme is no token by itself, and the fault repeats its text
      have hp : p ∈ Lexeme.split 0 source.toList := by
        rw [hs]
        exact List.mem_append_right before List.mem_cons_self
      have hstands := split_standsAt hp
      rw [← ho] at hstands
      rcases Token.Kind.ofLexeme_error hl with ⟨c, hf, ht⟩ | hf | hf
      · rw [hf]
        rwa [ht] at hstands
      · rw [hf, ParseFault.PointsAt, String.toList_ofList]
        exact hstands
      · rw [hf, ParseFault.PointsAt, String.toList_ofList]
        exact hstands
    · rw [hf, ho]
      exact ⟨behind, begins_of_ofLexeme hs hts hl⟩
  · rename_i ts hts
    rcases Token.checkEnd_error h with ⟨-, rfl⟩ | ⟨us, t, rfl, rfl⟩
    · rfl
    · rcases List.eq_nil_or_concat (Lexeme.split 0 source.toList) with hs | ⟨before, p, hs⟩
      · rw [hs] at hts
        simp [Token.ofLexemes] at hts
      · rw [List.concat_eq_append] at hs
        -- the last token is that of the last lexeme
        rw [hs] at hts
        obtain ⟨vs, ws, hvs, hws, he⟩ := Token.ofLexemes_append.mp hts
        obtain ⟨k, rest, hk, hr, rfl⟩ := Token.ofLexemes_cons.mp hws
        cases hr
        obtain ⟨rfl, hlast⟩ := List.append_inj' he rfl
        cases hlast
        exact begins_of_ofLexeme hs hvs (Token.Kind.ofNext_eq_ok.mp hk).1

theorem tokenize_token_standsAt {source : String} {ts : List Token}
    (h : tokenize source allowed = .ok ts) {k : Token.Kind} {o : Nat} (hk : ⟨k, o⟩ ∈ ts)
    {text : List Char} (ht : ∀ t ∈ k.spellings allowed, t = text) :
    StandsAt source.toList o text := by
  obtain ⟨t, hmem, hs⟩ := tokenize_standsAt h hk
  rwa [← ht t hmem]

theorem tokenize_name_standsAt {source : String} {ts : List Token}
    (h : tokenize source allowed = .ok ts) {n : String} {o : Nat} (hn : ⟨.identifier n, o⟩ ∈ ts) :
    StandsAt source.toList o n.toList :=
  tokenize_token_standsAt h hn fun _ ht => ht.2.1

theorem found_pointsAt {source : String} {ts : List Token}
    (h : tokenize source env.identifiers = .ok ts) {e : EvalError} (he : e.FoundAmong env ts)
    (hi : e.fault.isInternal = false) : e.fault.PointsAt env source.toList e.offset := by
  obtain ⟨fault, o⟩ := e
  cases fault with
  | unmatched d =>
    rcases he with hc | ⟨⟨purpose, p, base⟩, hf, -, rfl⟩
    · obtain ⟨text, -, hs⟩ := tokenize_standsAt h hc
      exact hs.isBoundary
    · cases purpose with
      | group =>
        obtain ⟨text, -, hs⟩ := tokenize_standsAt h hf
        exact hs.isBoundary
      | call n g => exact (tokenize_name_standsAt h (hf.called rfl).2).isBoundary
      | vector =>
        obtain ⟨text, -, hs⟩ := tokenize_standsAt h hf
        exact hs.isBoundary
  | mismatched expected found => exact tokenize_token_standsAt h he fun _ ht => ht
  | unknownIdentifier n => cases hi
  | notAFunction n => exact tokenize_name_standsAt h he
  | missingCall n =>
    obtain ⟨p, hn, ho⟩ := he
    obtain rfl : o = _ := ho
    exact (tokenize_name_standsAt h hn).endsAt
  | missingOperands op => cases hi
  | noValue => cases hi
  | leftoverValues count => cases hi
  | wrongCount n expected found => exact tokenize_name_standsAt h he.2
  | misplacedComma => exact tokenize_token_standsAt h he fun _ ht => ht
  | nestedVector => exact tokenize_token_standsAt h he fun _ ht => ht
  | shapeMismatch n left right =>
    rcases he with ⟨b, hb, hm⟩ | ⟨hf, hn⟩
    · exact .inl ⟨b, hb, tokenize_standsAt h hm⟩
    · exact .inr ⟨hf, tokenize_name_standsAt h hn⟩
  | invalidArgument n details => exact tokenize_name_standsAt h he.2

theorem evaluate_pointsAt {source : String} {e : Error} (h : evaluate source env = .error e) :
    e.PointsAt env source.toList := by
  cases e with
  | eval e =>
    obtain ⟨ts, hts, he⟩ := evaluate_eq_eval_error h
    exact found_pointsAt hts (traceTokens_found he) (evaluate_eval_error h)
  | parse e => exact tokenize_error_pointsAt (evaluate_eq_parse_error h)

/-- The places of a source that a word can measure are words, so its evaluation is that of its
tokens. -/
theorem evaluate_eq_evaluateTokens {source : String} (env : Environment)
    (h : byteLength source.toList < UInt64.size) :
    evaluate source env =
      match tokenize source env.identifiers with
      | .error e => .error (.parse e)
      | .ok ts => (evaluateTokens ts env).mapError .eval := by
  cases hts : tokenize source env.identifiers with
  | error e => rw [evaluate, hts]
  | ok ts =>
    cases hr : (traceTokens ts env).result with
    | ok v =>
      rw [evaluate, hts]
      dsimp only
      rw [evaluateTokens, Traced.outcome_eq_ok_iff.mpr hr, hr]
    | error e =>
      have he : evaluate source env = .error (.eval e) := by
        rw [evaluate, hts]
        dsimp only
        rw [hr]
        rfl
      have hword : e.inWord = e :=
        EvalError.inWord_of_lt (Nat.lt_of_le_of_lt (evaluate_pointsAt he).isBoundary.le h)
      dsimp only
      rw [he, evaluateTokens, Traced.outcome_eq_error_iff.mpr ⟨e, hr, hword⟩]
      rfl

theorem traceTokens_unmatched {ts : List Token} {d : Delimiter} {o : Nat}
    (h : (traceTokens ts env).result = .error ⟨.unmatched d, o⟩) :
    ⟨.opening d, o⟩ ∈ ts ∨ ⟨.closing d, o⟩ ∈ ts ∨
      d = .paren ∧ ∃ n f p, env.valueOf? n = none ∧ env.functionOf? n = some f ∧
        [⟨.identifier n, o⟩, ⟨.opening .paren, p⟩] <:+: ts := by
  rcases traceTokens_found h with hc | ⟨⟨purpose, p, base⟩, hf, rfl, rfl⟩
  · exact .inr (.inl hc)
  · cases purpose with
    | group => exact .inl hf
    | vector => exact .inl hf
    | call n f =>
      obtain ⟨hv, hg, q, hi⟩ := hf
      exact .inr (.inr ⟨rfl, n, f, q, hv, hg, hi⟩)

/-- An unmatched delimiter of a source is reported where an opener or a closer of its kind stands,
or at the name of a function that is called there: a call that is left open is reported at its name
and not at its parenthesis. -/
theorem evaluate_unmatched {source : String} {d : Delimiter} {o : Nat}
    (h : evaluate source env = .error (.eval ⟨.unmatched d, o⟩)) :
    StandsAt source.toList o [d.opener] ∨ StandsAt source.toList o [d.closer] ∨
      d = .paren ∧ ∃ n f blank, env.valueOf? n = none ∧ env.functionOf? n = some f ∧
        (∀ c ∈ blank, isBlank c = true) ∧
        StandsAt source.toList o (n.toList ++ blank ++ ['(']) := by
  obtain ⟨ts, hts, he⟩ := evaluate_eq_eval_error h
  rcases traceTokens_unmatched he with ho | hc | ⟨rfl, n, f, p, hv, hf, hi⟩
  · obtain ⟨text, rfl, hs⟩ := tokenize_standsAt hts ho
    exact .inl hs
  · obtain ⟨text, rfl, hs⟩ := tokenize_standsAt hts hc
    exact .inr (.inl hs)
  · obtain ⟨blank, hb, hs⟩ := tokenize_call_standsAt hts hi
    exact .inr (.inr ⟨rfl, n, f, blank, hv, hf, hb, hs⟩)

theorem evaluate_unmatched_group :
    let source := "2*(3-[(1)"
    evaluate source .empty = .error (.eval ⟨.unmatched .bracket, 5⟩) ∧
      (StandsAt source.toList 5 ['['] ∨ StandsAt source.toList 5 [']'] ∨
        Delimiter.bracket = .paren ∧ ∃ n f blank, Environment.empty.valueOf? n = none ∧
          Environment.empty.functionOf? n = some f ∧ (∀ c ∈ blank, isBlank c = true) ∧
          StandsAt source.toList 5 (n.toList ++ blank ++ ['('])) := by
  intro source
  have h : evaluate source .empty = .error (.eval ⟨.unmatched .bracket, 5⟩) := by decide +kernel
  exact ⟨h, evaluate_unmatched h⟩

theorem evaluate_unmatched_call :
    let source := "half(1"
    let env := Environment.empty.withFunction "half" (.unary (· / 2))
    evaluate source env = .error (.eval ⟨.unmatched .paren, 0⟩) ∧
      ¬ StandsAt source.toList 0 ['('] ∧ ¬ StandsAt source.toList 0 [')'] := by
  intro source env
  have hnames : env.identifiers = ["half"] := by
    simp [env, Environment.identifiers, Environment.withFunction, Environment.empty,
      Bindings.insert, Bindings.place, Bindings.names]
  have htokens : tokenize source ["half"] =
      .ok [⟨.identifier "half", 0⟩, ⟨.opening .paren, 4⟩, ⟨.number 1, 5⟩] := by
    decide +kernel
  have hend :
      (traceTokens [⟨.identifier "half", 0⟩, ⟨.opening .paren, 4⟩, ⟨.number 1, 5⟩] env).result =
        .error ⟨.unmatched .paren, 0⟩ := by
    decide +kernel
  have hne {c : Char} (hc : 'h' ≠ c) : ¬ StandsAt source.toList 0 [c] := by
    have hs : source.toList = ['h', 'a', 'l', 'f', '(', '1'] := by decide
    rintro ⟨before, after, h, hb⟩
    rw [hs] at h
    cases before with
    | nil => exact hc (List.cons.inj h).1
    | cons b before =>
      have := Char.utf8Size_pos b
      simp only [byteLength_cons] at hb
      omega
  refine ⟨?_, hne (by decide), hne (by decide)⟩
  rw [evaluate, hnames, htokens]
  exact congrArg (Except.mapError Error.eval) hend

end Formula
