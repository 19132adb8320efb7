import Formula.Token.Sequence

/-!
# Neighbouring tokens

What may stand behind some tokens is a rule about the last two of them. The scan
carries only what it expects; here the two are proved to agree, so that the tokens
of a source are exactly the sequences in which every token may stand where it does
and the last one completes an operand.
-/

namespace Formula

namespace Token.Kind

/-- Binary operators, closing delimiters and commas continue what is complete before them. -/
inductive Continues : Kind → Prop
  | binary (b : BinaryOp) : Continues (.binary b)
  | closing (d : Delimiter) : Continues (.closing d)
  | comma : Continues .comma

/-- Operators, opening delimiters and commas need something behind them. -/
inductive Unfinished : Kind → Prop
  | sign (s : Sign) : Unfinished (.sign s)
  | binary (b : BinaryOp) : Unfinished (.binary b)
  | opening (d : Delimiter) : Unfinished (.opening d)
  | comma : Unfinished .comma

/-- The rule of neighbours. The tokens before are given from the last one backwards. -/
def MayFollow (before : List Kind) (k : Kind) : Prop :=
  match before with
  | .identifier _ :: _ => k.Continues ∨ k = .opening .paren
  | .number _ :: _ | .closing _ :: _ => k.Continues
  | .opening .paren :: .identifier _ :: _ => ¬k.Continues ∨ k = .closing .paren
  | _ => ¬k.Continues

theorem continues_iff {k : Kind} : k.Continues ↔ k.followsOperand = true := by
  constructor
  · rintro (b | d | _) <;> rfl
  · intro h
    cases k with
    | binary b => exact .binary b
    | closing d => exact .closing d
    | comma => exact .comma
    | _ => cases h

theorem not_continues_iff {k : Kind} : ¬k.Continues ↔ k.beginsOperand = true := by
  rw [continues_iff]
  cases k <;> simp [followsOperand, beginsOperand]

theorem unfinished_iff {k : Kind} : k.Unfinished ↔ k.endsOperand = false := by
  constructor
  · rintro (s | b | d | _) <;> rfl
  · intro h
    cases k with
    | sign s => exact .sign s
    | binary b => exact .binary b
    | opening d => exact .opening d
    | comma => exact .comma
    | _ => cases h

theorem not_unfinished_iff {k : Kind} : ¬k.Unfinished ↔ k.endsOperand = true := by
  rw [unfinished_iff, Bool.not_eq_false]

end Token.Kind

/-- Every token may stand behind those before it, and the last one needs nothing more. -/
structure Token.WellFormed (ts : List Token) : Prop where
  follow : ∀ before t after, ts = before ++ t :: after →
    t.kind.MayFollow (before.map Token.kind).reverse
  complete : ∃ last ∈ ts.getLast?, ¬last.kind.Unfinished

namespace Expected

def behind : List Token.Kind → Expected
  | .identifier _ :: _ => operatorOrCall
  | .number _ :: _ | .closing _ :: _ => operator
  | .opening .paren :: .identifier _ :: _ => argument
  | _ => operand

theorem admits_behind_iff (before : List Token.Kind) (k : Token.Kind) :
    (behind before).admits k = true ↔ k.MayFollow before := by
  unfold behind Token.Kind.MayFollow
  split
  · rw [Token.Kind.continues_iff]
    cases k with
    | opening d => cases d <;> simp [admits, Token.Kind.followsOperand]
    | _ => simp [admits, Token.Kind.followsOperand]
  · rw [Token.Kind.continues_iff]
    rfl
  · rw [Token.Kind.continues_iff]
    rfl
  · rw [Token.Kind.not_continues_iff]
    cases k with
    | closing d => cases d <;> simp [admits, Token.Kind.beginsOperand]
    | _ => simp [admits, Token.Kind.beginsOperand]
  · rw [Token.Kind.not_continues_iff]
    rfl

theorem next_behind (before : List Token.Kind) (k : Token.Kind) :
    (behind before).next k = behind (k :: before) := by
  cases k with
  | opening d =>
    cases d with
    | bracket => rfl
    | paren =>
      cases before with
      | nil => rfl
      | cons b before =>
        cases b with
        | opening d =>
          cases d with
          | bracket => rfl
          | paren =>
            cases before with
            | nil => rfl
            | cons c before => cases c <;> rfl
        | _ => rfl
  | _ => rfl

theorem afterOperand_next (x : Expected) (k : Token.Kind) :
    (x.next k).afterOperand = k.endsOperand := by
  cases k with
  | opening d =>
    cases d with
    | bracket => rfl
    | paren =>
      simp only [next]
      split <;> rfl
  | _ => rfl

def Accepts : Expected → List Token → Prop
  | x, [] => x.afterOperand = true
  | x, t :: ts => x.admits t.kind = true ∧ (x.next t.kind).Accepts ts

theorem accepts_of_kinds {x : Expected} {ts us : List Token}
    (h : us.map Token.kind = ts.map Token.kind) (ha : x.Accepts ts) : x.Accepts us := by
  induction us generalizing x ts with
  | nil =>
    obtain rfl := List.map_eq_nil_iff.mp h.symm
    exact ha
  | cons u us ih =>
    cases ts with
    | nil => cases h
    | cons t ts =>
      obtain ⟨hk, hr⟩ := List.cons.inj h
      rw [Accepts, hk]
      exact ⟨ha.1, ih hr ha.2⟩

theorem Accepts.not_called {ts : List Token} (h : operatorOrCall.Accepts ts)
    (hn : ∀ t ∈ ts.head?, t.kind ≠ .opening .paren) : operator.Accepts ts := by
  cases ts with
  | nil => rfl
  | cons t ts =>
    obtain ⟨k, o⟩ := t
    have hk : k ≠ .opening .paren := hn _ rfl
    cases k with
    | opening d =>
      cases d with
      | paren => exact absurd rfl hk
      | bracket => exact h
    | _ => exact h

theorem accepts_behind_iff (before : List Token.Kind) (ts : List Token) :
    (behind before).Accepts ts ↔
      (∀ pre t post, ts = pre ++ t :: post →
        t.kind.MayFollow ((pre.map Token.kind).reverse ++ before)) ∧
      (ts.getLast?.elim (behind before).afterOperand fun t => t.kind.endsOperand) = true := by
  induction ts generalizing before with
  | nil => simp [Accepts]
  | cons t ts ih =>
    rw [Accepts, next_behind, ih, admits_behind_iff]
    have hlast :
        ((t :: ts).getLast?.elim (behind before).afterOperand fun t => t.kind.endsOperand) =
        ts.getLast?.elim (behind (t.kind :: before)).afterOperand fun t => t.kind.endsOperand := by
      cases ts with
      | nil =>
        rw [← next_behind, List.getLast?_nil, Option.elim_none, afterOperand_next]
        rfl
      | cons u ts => rw [List.getLast?_cons_cons]; cases h : (u :: ts).getLast? <;> simp_all
    -- the first token is judged by what stands before, the others with it in front of that
    rw [hlast, ← and_assoc]
    refine and_congr_left fun _ => ?_
    constructor
    · intro h pre u post he
      cases pre with
      | nil =>
        cases he
        exact h.1
      | cons p pre =>
        cases he
        have := h.2 pre u post rfl
        simpa using this
    · intro h
      refine ⟨h [] t ts rfl, ?_⟩
      intro pre u post he
      have := h (t :: pre) u post (by rw [he]; rfl)
      simpa using this

/-- Scanning accepts exactly the well-formed sequences. -/
theorem accepts_iff (ts : List Token) : operand.Accepts ts ↔ Token.WellFormed ts := by
  rw [show operand = behind [] from rfl, accepts_behind_iff]
  constructor
  · rintro ⟨hf, hl⟩
    refine ⟨fun pre t post he => by simpa using hf pre t post he, ?_⟩
    cases h : ts.getLast? with
    | none =>
      rw [h] at hl
      cases hl
    | some last =>
      rw [h] at hl
      exact ⟨last, rfl, Token.Kind.not_unfinished_iff.mpr hl⟩
  · rintro ⟨hf, last, hl, he⟩
    refine ⟨fun pre t post he => by simpa using hf pre t post he, ?_⟩
    rw [Option.mem_def.mp hl]
    exact Token.Kind.not_unfinished_iff.mp he

theorem Accepts.complete {ts : List Token} (h : operand.Accepts ts) :
    ∃ last ∈ ts.getLast?, last.kind.endsOperand = true := by
  obtain ⟨last, hl, he⟩ := ((accepts_iff ts).mp h).complete
  exact ⟨last, hl, Token.Kind.not_unfinished_iff.mp he⟩

end Expected

namespace Token

theorem Kind.ofNext_eq_ok {allowed : List String} {x : Expected} {l : Lexeme} {k : Kind} :
    Kind.ofNext allowed x l = .ok k ↔
      Kind.ofLexeme allowed x.afterOperand l = .ok k ∧ x.admits k = true := by
  unfold Kind.ofNext
  constructor
  · intro h
    split at h
    · cases h
    · rename_i k' hk
      split at h
      · rename_i ha
        cases h
        exact ⟨hk, ha⟩
      · cases h
  · intro h
    obtain ⟨hk, ha⟩ := h
    rw [hk]
    exact if_pos ha

theorem Kind.ofLexeme_identifier {allowed : List String} {after : Bool} {l : Lexeme} {n : String}
    (h : Kind.ofLexeme allowed after l = .ok (.identifier n)) :
    l = .name n.toList ∧ n ∈ allowed := by
  cases l with
  | numeral m =>
    simp only [Kind.ofLexeme] at h
    split at h <;> cases h
  | name cs =>
    simp only [Kind.ofLexeme] at h
    split at h
    · rename_i ha
      cases h
      exact ⟨congrArg Lexeme.name String.toList_ofList.symm, ha⟩
    · cases h
  | mark m => cases m <;> cases after <;> cases h
  | stray c => cases h

theorem ofLexemes_cons {allowed : List String} {x : Expected} {l : PlacedLexeme}
    {ls : List PlacedLexeme} {ts : List Token} :
    ofLexemes allowed x (l :: ls) = .ok ts ↔
      ∃ k rest, Kind.ofNext allowed x l.lexeme = .ok k ∧
        ofLexemes allowed (x.next k) ls = .ok rest ∧ ts = ⟨k, l.offset⟩ :: rest := by
  simp only [ofLexemes]
  constructor
  · intro h
    split at h
    · cases h
    · rename_i k hk
      cases hr : ofLexemes allowed (x.next k) ls with
      | error e =>
        rw [hr] at h
        cases h
      | ok rest =>
        rw [hr] at h
        cases h
        exact ⟨k, rest, hk, hr, rfl⟩
  · intro h
    obtain ⟨k, rest, hk, hr, rfl⟩ := h
    simp only [hk, hr]
    rfl

theorem ofLexemes_names {allowed : List String} {x : Expected} {ls : List PlacedLexeme}
    {ts : List Token} (h : ofLexemes allowed x ls = .ok ts) {n : String} {o : Nat}
    (hn : ⟨.identifier n, o⟩ ∈ ts) : n ∈ allowed := by
  induction ls generalizing x ts with
  | nil =>
    cases h
    cases hn
  | cons l ls ih =>
    obtain ⟨k, rest, hk, hr, rfl⟩ := ofLexemes_cons.mp h
    rcases List.mem_cons.mp hn with he | hn
    · cases he
      exact (Kind.ofLexeme_identifier (Kind.ofNext_eq_ok.mp hk).1).2
    · exact ih hr hn

theorem ofLexemes_accepts {allowed : List String} {x : Expected} {ls : List PlacedLexeme}
    {ts : List Token} (h : ofLexemes allowed x ls = .ok ts)
    (he : (ts.getLast?.elim x.afterOperand fun t => t.kind.endsOperand) = true) :
    x.Accepts ts := by
  induction ls generalizing x ts with
  | nil =>
    cases h
    exact he
  | cons l ls ih =>
    obtain ⟨k, rest, hk, hr, rfl⟩ := ofLexemes_cons.mp h
    refine ⟨(Kind.ofNext_eq_ok.mp hk).2, ih hr ?_⟩
    cases rest with
    | nil => exact (x.afterOperand_next k).trans he
    | cons t rest =>
      rw [List.getLast?_cons_cons] at he
      cases hl : (t :: rest).getLast? <;> simp_all

theorem checkEnd_eq_ok_iff {n : Nat} {ts us : List Token} :
    checkEnd n ts = .ok us ↔ us = ts ∧ ∃ last ∈ ts.getLast?, last.kind.endsOperand = true := by
  unfold checkEnd
  cases h : ts.getLast? with
  | none => simp
  | some last =>
    cases he : last.kind.endsOperand with
    | false => simp [he]
    | true =>
      simp only [he, if_true]
      constructor
      · intro h
        cases h
        exact ⟨rfl, last, rfl, he⟩
      · intro h
        rw [h.1]

end Token

theorem tokenize_eq_ok {source : String} {allowed : List String} {ts : List Token} :
    tokenize source allowed = .ok ts ↔
      Token.ofLexemes allowed .operand (Lexeme.split 0 source.toList) = .ok ts ∧
        ∃ last ∈ ts.getLast?, last.kind.endsOperand = true := by
  unfold tokenize
  constructor
  · intro h
    split at h
    · cases h
    · rename_i us hus
      obtain ⟨rfl, he⟩ := Token.checkEnd_eq_ok_iff.mp h
      exact ⟨hus, he⟩
  · intro h
    obtain ⟨ht, he⟩ := h
    rw [ht]
    exact Token.checkEnd_eq_ok_iff.mpr ⟨rfl, he⟩

theorem tokenize_accepts {source : String} {allowed : List String} {ts : List Token}
    (h : tokenize source allowed = .ok ts) : Expected.operand.Accepts ts := by
  obtain ⟨hl, last, hlast, he⟩ := tokenize_eq_ok.mp h
  refine Token.ofLexemes_accepts hl ?_
  rw [Option.mem_def.mp hlast]
  exact he

theorem tokenize_names {source : String} {allowed : List String} {ts : List Token}
    (h : tokenize source allowed = .ok ts) {n : String} {o : Nat}
    (hn : ⟨.identifier n, o⟩ ∈ ts) : n ∈ allowed :=
  Token.ofLexemes_names (tokenize_eq_ok.mp h).1 hn

end Formula
