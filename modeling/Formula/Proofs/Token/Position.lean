import Formula.Proofs.Token.Layout

/-!
# Positions of tokens and of what is rejected

A token of a source has the offset at which one of its spellings stands there, and
between it and the next token there are blanks only. A source is rejected at a lexeme
that is no token where it stands, and the lexemes before it are tokens; if all of them
are, then at its last token or at its end. What is wrong with a lexeme is told by the
text that stands at its offset.
-/

namespace Formula

open Text

def Text.StandsAt (source : List Char) (offset : Nat) (text : List Char) : Prop :=
  ∃ before after, source = before ++ text ++ after ∧ byteLength before = offset

variable {allowed : List String}

theorem Token.Written.cut {start : Nat} {pre post : List Token} {t : Token} {cs : List Char}
    (h : Written allowed start (pre ++ t :: post) cs) :
    ∃ before text after, cs = before ++ text ++ after ∧ t.offset = start + byteLength before ∧
      text ∈ t.kind.spellings allowed ∧
      Written allowed (t.offset + byteLength text) post after := by
  induction pre generalizing start cs with
  | nil =>
    cases h with
    | @cons _ blank text rest k ts hb ht h =>
      refine ⟨blank, text, rest, rfl, rfl, ht, ?_⟩
      rwa [byteLength_append, ← Nat.add_assoc] at h
  | cons u pre ih =>
    cases h with
    | @cons _ blank text rest k ts hb ht h =>
      obtain ⟨before, text', after, rfl, ho, ht', hw⟩ := ih h
      refine ⟨blank ++ text ++ before, text', after, ?_, ?_, ht', hw⟩
      · simp only [List.append_assoc]
      · rw [ho, byteLength_append (blank ++ text), Nat.add_assoc]

theorem tokenize_written {source : String} {ts : List Token}
    (h : tokenize source allowed = .ok ts) : Token.Written allowed 0 ts source.toList :=
  ofLexemes_written (tokenize_eq_ok.mp h).1

theorem tokenize_standsAt {source : String} {ts : List Token}
    (h : tokenize source allowed = .ok ts) {t : Token} (ht : t ∈ ts) :
    ∃ text ∈ t.kind.spellings allowed, StandsAt source.toList t.offset text := by
  obtain ⟨pre, post, rfl⟩ := List.append_of_mem ht
  obtain ⟨before, text, after, hs, ho, htext, -⟩ := (tokenize_written h).cut
  exact ⟨text, htext, before, after, hs, by rw [ho, Nat.zero_add]⟩

theorem tokenize_call_standsAt {source : String} {ts : List Token}
    (h : tokenize source allowed = .ok ts) {n : String} {o p : Nat}
    (hc : [⟨.identifier n, o⟩, ⟨.opening .paren, p⟩] <:+: ts) :
    ∃ blank, (∀ c ∈ blank, isBlank c = true) ∧
      StandsAt source.toList o (n.toList ++ blank ++ ['(']) := by
  obtain ⟨pre, post, rfl⟩ := hc
  simp only [List.append_assoc, List.cons_append, List.nil_append] at h
  obtain ⟨before, text, after, hs, ho, ⟨-, rfl, -⟩, hw⟩ := (tokenize_written h).cut
  cases hw with
  | @cons _ blank text rest k ts hb ht hw =>
    obtain rfl : text = ['('] := ht
    refine ⟨blank, hb, before, rest, ?_, (ho.trans (Nat.zero_add _)).symm⟩
    simp only [hs, List.append_assoc]

theorem mem_split {start : Nat} {cs : List Char} {p : PlacedLexeme}
    (h : p ∈ Lexeme.split start cs) :
    ∃ before c rest, cs = before ++ c :: rest ∧ p.offset = start + byteLength before ∧
      p.lexeme = (Lexeme.scan c rest).1 := by
  induction start, cs using Lexeme.split.induct with
  | case1 start =>
    rw [Lexeme.split] at h
    cases h
  | case2 start c cs hc ih =>
    rw [Lexeme.split, if_pos hc] at h
    obtain ⟨before, d, rest, rfl, ho, hl⟩ := ih h
    refine ⟨c :: before, d, rest, rfl, ?_, hl⟩
    rw [ho, byteLength_cons, Nat.add_assoc]
  | case3 start c cs hc ih =>
    rw [Lexeme.split, if_neg hc] at h
    rcases List.mem_cons.mp h with rfl | h
    · exact ⟨[], c, cs, rfl, rfl, rfl⟩
    · obtain ⟨before, d, rest, hs, ho, hl⟩ := ih h
      refine ⟨(Lexeme.scan c cs).1.text ++ before, d, rest, ?_, ?_, hl⟩
      · rw [List.append_assoc, ← hs, Lexeme.scan_text]
      · rw [ho, byteLength_append, Nat.add_assoc]

theorem split_standsAt {cs : List Char} {p : PlacedLexeme} (h : p ∈ Lexeme.split 0 cs) :
    StandsAt cs p.offset p.lexeme.text := by
  obtain ⟨before, c, rest, rfl, ho, hl⟩ := mem_split h
  refine ⟨before, (Lexeme.scan c rest).2, ?_, by rw [ho, Nat.zero_add]⟩
  rw [hl, List.append_assoc, Lexeme.scan_text]

theorem split_eq_nil {start : Nat} {cs : List Char} (h : Lexeme.split start cs = []) :
    ∀ c ∈ cs, isBlank c = true := by
  induction start, cs using Lexeme.split.induct with
  | case1 start => exact List.forall_mem_nil _
  | case2 start c cs hc ih =>
    rw [Lexeme.split, if_pos hc] at h
    exact List.forall_mem_cons.mpr ⟨hc, ih h⟩
  | case3 start c cs hc ih =>
    rw [Lexeme.split, if_neg hc] at h
    cases h

def Expected.afterAll (x : Expected) (ts : List Token) : Expected :=
  ts.foldl (fun x t => x.next t.kind) x

theorem Expected.afterOperand_afterAll (x : Expected) (ts : List Token) :
    (x.afterAll ts).afterOperand =
      ts.getLast?.elim x.afterOperand fun t => t.kind.endsOperand := by
  rcases List.eq_nil_or_concat ts with rfl | ⟨us, t, rfl⟩
  · rfl
  · simp only [afterAll, List.concat_eq_append, List.foldl_append, List.foldl_cons, List.foldl_nil,
      afterOperand_next, List.getLast?_concat, Option.elim_some]

namespace Token

variable {allowed : List String}

theorem Kind.ofLexeme_error {after : Bool} {l : Lexeme} {fault : ParseFault}
    (h : Kind.ofLexeme allowed after l = .error fault) :
    (∃ c, fault = .unexpectedCharacter c ∧ l.text = [c]) ∨
      fault = .malformedNumber (String.ofList l.text) ∨
      fault = .unknownIdentifier (String.ofList l.text) := by
  cases l with
  | numeral n =>
    simp only [Kind.ofLexeme] at h
    split at h <;> cases h
    exact .inr (.inl rfl)
  | name cs =>
    simp only [Kind.ofLexeme] at h
    split at h <;> cases h
    exact .inr (.inr rfl)
  | mark m => cases h
  | stray c =>
    cases h
    exact .inl ⟨c, rfl, rfl⟩

theorem Kind.ofNext_error {x : Expected} {l : Lexeme} {fault : ParseFault}
    (h : Kind.ofNext allowed x l = .error fault) :
    Kind.ofLexeme allowed x.afterOperand l = .error fault ∨
      ∃ k, Kind.ofLexeme allowed x.afterOperand l = .ok k ∧ fault = .unexpectedToken k := by
  unfold Kind.ofNext at h
  split at h
  · rename_i f hf
    cases h
    exact .inl hf
  · rename_i k hk
    split at h <;> cases h
    exact .inr ⟨k, hk, rfl⟩

theorem ofLexemes_append {x : Expected} {ls ms : List PlacedLexeme} {ts : List Token} :
    ofLexemes allowed x (ls ++ ms) = .ok ts ↔
      ∃ us vs, ofLexemes allowed x ls = .ok us ∧ ofLexemes allowed (x.afterAll us) ms = .ok vs ∧
        ts = us ++ vs := by
  induction ls generalizing x ts with
  | nil =>
    refine ⟨fun h => ⟨[], ts, rfl, h, rfl⟩, ?_⟩
    rintro ⟨us, vs, hu, hv, rfl⟩
    cases hu
    exact hv
  | cons l ls ih =>
    rw [List.cons_append, ofLexemes_cons]
    constructor
    · rintro ⟨k, rest, hk, hr, rfl⟩
      obtain ⟨us, vs, hu, hv, rfl⟩ := ih.mp hr
      exact ⟨⟨k, l.offset⟩ :: us, vs, ofLexemes_cons.mpr ⟨k, us, hk, hu, rfl⟩, hv, rfl⟩
    · rintro ⟨us, vs, hu, hv, rfl⟩
      obtain ⟨k, rest, hk, hr, rfl⟩ := ofLexemes_cons.mp hu
      exact ⟨k, rest ++ vs, hk, ih.mpr ⟨rest, vs, hr, hv, rfl⟩, rfl⟩

theorem ofLexemes_error {x : Expected} {ls : List PlacedLexeme} {e : ParseError}
    (h : ofLexemes allowed x ls = .error e) :
    ∃ before l behind ts, ls = before ++ l :: behind ∧ ofLexemes allowed x before = .ok ts ∧
      Kind.ofNext allowed (x.afterAll ts) l.lexeme = .error e.fault ∧ e.offset = l.offset := by
  induction ls generalizing x with
  | nil => cases h
  | cons l ls ih =>
    simp only [ofLexemes] at h
    split at h
    · rename_i fault hf
      cases h
      exact ⟨[], l, ls, [], rfl, rfl, hf, rfl⟩
    · rename_i k hk
      cases hr : ofLexemes allowed (x.next k) ls with
      | ok ts =>
        rw [hr] at h
        cases h
      | error e' =>
        rw [hr] at h
        cases h
        obtain ⟨before, m, behind, ts, rfl, hts, hm, ho⟩ := ih hr
        exact ⟨l :: before, m, behind, ⟨k, l.offset⟩ :: ts, rfl,
          ofLexemes_cons.mpr ⟨k, ts, hk, hts, rfl⟩, hm, ho⟩

theorem checkEnd_error {n : Nat} {ts : List Token} {e : ParseError}
    (h : checkEnd n ts = .error e) :
    ts = [] ∧ e = ⟨.emptyExpression, n⟩ ∨
      ∃ us t, ts = us ++ [t] ∧ e = ⟨.unexpectedEnd t.kind, t.offset⟩ := by
  unfold checkEnd at h
  split at h
  · rename_i hl
    cases h
    exact .inl ⟨List.getLast?_eq_none_iff.mp hl, rfl⟩
  · rename_i t hl
    split at h <;> cases h
    obtain ⟨us, rfl⟩ := List.getLast?_eq_some_iff.mp hl
    exact .inr ⟨us, t, rfl, rfl⟩

theorem ofLexemes_eq_nil {x : Expected} {ls : List PlacedLexeme}
    (h : ofLexemes allowed x ls = .ok []) : ls = [] := by
  cases ls with
  | nil => rfl
  | cons l ls =>
    obtain ⟨k, rest, -, -, he⟩ := ofLexemes_cons.mp h
    cases he

end Token

theorem blank_of_tokenize_empty {source : String} {allowed : List String} {o : Nat}
    (h : tokenize source allowed = .error ⟨.emptyExpression, o⟩) :
    ∀ c ∈ source.toList, isBlank c = true := by
  unfold tokenize at h
  split at h
  · rename_i e he
    cases h
    obtain ⟨before, l, behind, ts, -, -, hk, -⟩ := Token.ofLexemes_error he
    rcases Token.Kind.ofNext_error hk with hl | ⟨k, -, hf⟩
    · rcases Token.Kind.ofLexeme_error hl with ⟨c, hf, -⟩ | hf | hf <;> cases hf
    · cases hf
  · rename_i ts hts
    rcases Token.checkEnd_error h with ⟨rfl, -⟩ | ⟨us, t, -, he⟩
    · exact split_eq_nil (Token.ofLexemes_eq_nil hts)
    · cases he

end Formula
