import Mathlib.Tactic.Abel
import Formula.Proofs.Token.Leftmost

/-!
# Scanning numbers

Where a digit or a point stands, the scan takes the longest number that begins there, whether or
not it has the digits that it needs. No text belongs to two patterns of lexemes, so the last
characters of the longest number tell whether it lacks digits, and a number that lacks none is
read by the parser of floats.
-/

namespace Formula

open Computability Text

inductive Lexeme.Pattern where
  | number
  | malformed
  | name
  | mark (m : Mark)
deriving DecidableEq, Repr

def Lexeme.Pattern.texts : Pattern → Language Char
  | number => numberText
  | malformed => malformedText
  | name => nameText
  | mark m => {m.text}

/-- The numbers that the parser of floats reads: `[0-9]+`, `[0-9]+\.[0-9]+`, `[0-9]+\.` and
`\.[0-9]+`, each with an optional exponent. -/
def decimalText : Language Char :=
  (digitsText + digitsText * {['.']} * digitsText + digitsText * {['.']} +
    {['.']} * digitsText) * optional exponentText

theorem star_digit : (oneOf Char.isDigit)∗ = 1 + digitsText :=
  (Language.one_add_self_mul_kstar_eq_kstar _).symm

theorem numberText_eq_decimalText : numberText = decimalText := by
  rw [numberText, decimalText, star_digit, optional]
  simp only [mul_add, add_mul, mul_one, mul_assoc]
  abel

namespace Lexeme

def pattern? : Lexeme → Option Pattern
  | numeral n => some (if n.wellFormed then .number else .malformed)
  | name _ => some .name
  | mark m => some (.mark m)
  | stray _ => none

theorem pattern?_eq_number {n : Numeral} :
    (numeral n).pattern? = some .number ↔ n.wellFormed = true := by
  cases hw : n.wellFormed <;> simp [pattern?, hw]

theorem pattern?_eq_malformed {n : Numeral} :
    (numeral n).pattern? = some .malformed ↔ n.wellFormed = false := by
  cases hw : n.wellFormed <;> simp [pattern?, hw]

theorem Pattern.mem_texts {p : Pattern} {t : List Char} :
    t ∈ p.texts ↔ ∃ l : Lexeme, l.Proper ∧ l.pattern? = some p ∧ l.text = t := by
  constructor
  · intro h
    cases p with
    | number =>
      obtain ⟨n, hn, hw, rfl⟩ := mem_numberText.mp h
      obtain ⟨c, cs, ht, -⟩ := Numeral.text_head hn hw
      exact ⟨numeral n, ⟨hn, ht ▸ List.cons_ne_nil c cs⟩, pattern?_eq_number.mpr hw, rfl⟩
    | malformed =>
      obtain ⟨n, hn, hw, hne, rfl⟩ := mem_malformedText.mp h
      exact ⟨numeral n, ⟨hn, hne⟩, pattern?_eq_malformed.mpr hw, rfl⟩
    | name => exact ⟨.name t, h, rfl, rfl⟩
    | mark m => exact ⟨.mark m, trivial, rfl, h.symm⟩
  · rintro ⟨l, hl, hp, rfl⟩
    cases l with
    | numeral n =>
      cases hw : n.wellFormed with
      | true =>
        rw [pattern?, if_pos hw] at hp
        cases hp
        exact mem_numberText.mpr ⟨n, hl.1, hw, rfl⟩
      | false =>
        rw [pattern?, hw] at hp
        cases hp
        exact mem_malformedText.mpr ⟨n, hl.1, hw, hl.2, rfl⟩
    | name cs =>
      cases hp
      exact hl
    | mark m =>
      cases hp
      rfl
    | stray c => cases hp

theorem Proper.mem_texts_iff {l : Lexeme} (hl : l.Proper) {p : Pattern} :
    l.text ∈ p.texts ↔ l.pattern? = some p := by
  refine ⟨fun h => ?_, fun h => Pattern.mem_texts.mpr ⟨l, hl, h, rfl⟩⟩
  obtain ⟨m, hm, hp, ht⟩ := Pattern.mem_texts.mp h
  rwa [← hm.eq_of_text hl ht]

theorem Pattern.eq_of_mem {p q : Pattern} {t : List Char} (hp : t ∈ p.texts) (hq : t ∈ q.texts) :
    p = q := by
  obtain ⟨l, hl, h, rfl⟩ := mem_texts.mp hp
  exact Option.some.inj (h.symm.trans (hl.mem_texts_iff.mp hq))

end Lexeme

namespace Numeral

variable {n : Numeral}

theorem text_mem_numberText_iff (hn : n.Shaped) (hne : n.text ≠ []) :
    n.text ∈ numberText ↔ n.wellFormed = true := by
  have h := Lexeme.Proper.mem_texts_iff (l := .numeral n) ⟨hn, hne⟩ (p := .number)
  exact h.trans Lexeme.pattern?_eq_number

theorem text_mem_malformedText_iff (hn : n.Shaped) (hne : n.text ≠ []) :
    n.text ∈ malformedText ↔ n.wellFormed = false := by
  have h := Lexeme.Proper.mem_texts_iff (l := .numeral n) ⟨hn, hne⟩ (p := .malformed)
  exact h.trans Lexeme.pattern?_eq_malformed

end Numeral

theorem numberText_getLast? {t : List Char} (h : t ∈ numberText) :
    ∀ c ∈ t.getLast?, c.isDigit = true ∨ c = '.' := by
  obtain ⟨⟨whole, fraction, exponent⟩, hn, hw, rfl⟩ := mem_numberText.mp h
  intro c hc
  cases exponent with
  | some e =>
    have hd : e.digits ≠ [] := ((Numeral.wellFormed_iff _).mp hw).2 e rfl
    have he : e.letter :: e.sign.toList ++ e.digits ≠ [] := List.cons_ne_nil _ _
    rw [Numeral.text, Option.elim_some, Exponent.text,
      List.getLast?_append_of_ne_nil _ he, List.getLast?_append_of_ne_nil _ hd] at hc
    exact .inl ((hn.exponent e rfl).digits c (List.mem_of_mem_getLast? hc))
  | none =>
    have hmem := List.mem_of_mem_getLast? hc
    rw [Numeral.text, Option.elim_none, List.append_nil, List.mem_append] at hmem
    rcases hmem with hmem | hmem
    · exact .inl (hn.whole c hmem)
    · cases fraction with
      | none => cases hmem
      | some ds =>
        rcases List.mem_cons.mp hmem with rfl | hmem
        · exact .inr rfl
        · exact .inl (hn.fraction ds rfl c hmem)

theorem markerText_getLast? {t : List Char} (h : t ∈ markerText) :
    ∃ c ∈ t.getLast?, ¬(c.isDigit = true ∨ c = '.') := by
  obtain ⟨⟨letter, sign, digits⟩, he, hd, rfl⟩ := mem_markerText.mp h
  obtain rfl : digits = [] := hd
  cases sign with
  | none =>
    have hl : letter = 'e' ∨ letter = 'E' := he.letter
    refine ⟨letter, rfl, ?_⟩
    rcases hl with rfl | rfl <;> decide
  | some s =>
    refine ⟨s, rfl, ?_⟩
    rcases he.sign s rfl with rfl | rfl <;> decide

theorem malformedText_ends {t : List Char} (h : t ∈ malformedText) :
    t = ['.'] ∨ ∃ front, ∃ marker ∈ markerText, t = front ++ marker := by
  rw [malformedText, ← add_mul, Language.mem_add] at h
  rcases h with h | h
  · obtain ⟨front, -, marker, hm, rfl⟩ := Language.mem_mul.mp h
    exact .inr ⟨front, marker, hm, rfl⟩
  · exact .inl h

theorem not_mem_numberText_of_marker {front marker : List Char} (hm : marker ∈ markerText) :
    front ++ marker ∉ numberText := by
  intro h
  obtain ⟨c, hc, hend⟩ := markerText_getLast? hm
  refine hend (numberText_getLast? h c ?_)
  rw [List.getLast?_append, Option.mem_def.mp hc]
  rfl

theorem Numeral.text_malformed_iff {n : Numeral} (hn : n.Shaped) (hne : n.text ≠ []) :
    n.text ∈ malformedText ↔
      n.text = ['.'] ∨ ∃ front, ∃ marker ∈ markerText, n.text = front ++ marker := by
  refine ⟨malformedText_ends, ?_⟩
  rintro (h | ⟨front, marker, hm, h⟩)
  · rw [h]
    exact .inr rfl
  · rw [text_mem_malformedText_iff hn hne, ← Bool.not_eq_true, ← text_mem_numberText_iff hn hne, h]
    exact not_mem_numberText_of_marker hm

namespace Lexeme

theorem scan_digit_or_point {c : Char} (hc : c.isDigit = true ∨ c = '.') (cs : List Char) :
    ∃ n rest, scan c cs = (numeral n, rest) ∧ n.Shaped ∧ n.text ≠ [] ∧
      LongestFront (numberText + malformedText) n.text (c :: cs) := by
  have hd : (c.isDigit || c == '.') = true := by
    rcases hc with hc | rfl
    · rw [hc]
      rfl
    · rfl
  have hscan : scan c cs = (numeral (Numeral.scan (c :: cs)).1, (Numeral.scan (c :: cs)).2) :=
    if_pos hd
  have hn := Numeral.scan_shaped (c :: cs)
  have hne := Numeral.scan_text_ne_nil cs hd
  have hstray : (scan c cs).1.isStray = false := by
    rw [hscan]
    rfl
  have hlongest := scan_longestFront hstray
  rw [hscan] at hlongest
  refine ⟨_, _, hscan, hn, hne, ?_, hlongest.front, ?_⟩
  · rw [Language.mem_add, Numeral.text_mem_numberText_iff hn hne,
      Numeral.text_mem_malformedText_iff hn hne]
    exact Bool.eq_false_or_eq_true _
  · exact fun t ht => hlongest.longest t (.inl (.inl ht))

end Lexeme

theorem tokenize_malformedNumber {source m : String} {allowed : List String} {o : Nat}
    (h : tokenize source allowed = .error ⟨.malformedNumber m, o⟩) :
    ∃ n : Numeral, ⟨.numeral n, o⟩ ∈ Lexeme.split 0 source.toList ∧
      n.text = m.toList ∧ n.text ∈ malformedText := by
  unfold tokenize at h
  split at h
  · rename_i e he
    cases h
    obtain ⟨before, ⟨l, p⟩, behind, ts, hs, -, hk, hp⟩ := Token.ofLexemes_error he
    obtain rfl : o = p := hp
    have hmem : ⟨l, o⟩ ∈ Lexeme.split 0 source.toList := hs ▸ List.mem_append_cons_self
    have hl : l.Proper := split_proper hmem
    rcases Token.Kind.ofNext_error hk with hf | ⟨k, -, hf⟩
    · have hfault : Token.AtFault allowed [] l.text (.malformedNumber m) :=
        Token.Kind.atFault_of_ofLexeme hl hf
      cases hfault with
      | number hm =>
        obtain ⟨n, hn, -, hne, ht⟩ := mem_malformedText.mp hm
        obtain rfl := hl.eq_of_text (m := .numeral n) ⟨hn, hne⟩ ht.symm
        exact ⟨n, hmem, String.toList_ofList.symm, hm⟩
    · cases hf
  · rename_i ts hts
    rcases Token.checkEnd_error h with ⟨-, he⟩ | ⟨us, t, -, he⟩ <;> cases he

/-- No text belongs to two patterns of lexemes, and the numbers are those that the parser of floats
reads. Where a digit or a point stands the lexeme is the longest number there, with or without the
digits that it needs. It lacks digits if it is a bare point or ends in an exponent marker, and is
then reported; otherwise the parser reads it. No other text is reported as a number. -/
theorem Lexeme.scan_number :
    (∀ (p q : Pattern) (t : List Char), t ∈ p.texts → t ∈ q.texts → p = q) ∧
    numberText = decimalText ∧
    (∀ c cs, c.isDigit = true ∨ c = '.' →
      ∃ n rest, scan c cs = (numeral n, rest) ∧
        LongestFront (numberText + malformedText) n.text (c :: cs) ∧
        (n.text ∈ numberText ↔ n.text ∉ malformedText) ∧
        (n.text ∈ malformedText ↔
          n.text = ['.'] ∨ ∃ front, ∃ marker ∈ markerText, n.text = front ++ marker) ∧
        (n.text ∈ numberText → ∃ x, readFloat? n.text = some x ∧ ∀ allowed after,
          Token.Kind.ofLexeme allowed after (numeral n) = .ok (.number x)) ∧
        (n.text ∈ malformedText → ∀ allowed after,
          Token.Kind.ofLexeme allowed after (numeral n) =
            .error (.malformedNumber (String.ofList n.text)))) ∧
    ∀ source allowed m o, tokenize source allowed = .error ⟨.malformedNumber m, o⟩ →
      ∃ n, ⟨numeral n, o⟩ ∈ split 0 source.toList ∧ n.text = m.toList ∧
        n.text ∈ malformedText := by
  refine ⟨fun p q t => Pattern.eq_of_mem, numberText_eq_decimalText, ?_,
    fun source allowed m o => tokenize_malformedNumber⟩
  intro c cs hc
  obtain ⟨n, rest, hscan, hn, hne, hlongest⟩ := scan_digit_or_point hc cs
  have hnumber := Numeral.text_mem_numberText_iff hn hne
  have hmalformed := Numeral.text_mem_malformedText_iff hn hne
  refine ⟨n, rest, hscan, hlongest, ?_, Numeral.text_malformed_iff hn hne, ?_, ?_⟩
  · rw [hnumber, hmalformed, Bool.not_eq_false]
  · intro h
    have hw := hnumber.mp h
    exact ⟨n.value, Numeral.readFloat?_text hn hw, fun _ _ => if_pos hw⟩
  · intro h allowed after
    have hw := hmalformed.mp h
    exact if_neg (Bool.not_eq_true _ ▸ hw)

theorem Lexeme.scan_number_marker :
    tokenize "1+.5e-x" ["x"] = .error ⟨.malformedNumber ".5e-", 2⟩ ∧
      LongestFront (numberText + malformedText) ".5e-".toList ".5e-x".toList ∧
      ".5e-".toList ∈ malformedText ∧ ".5e-".toList ∉ numberText := by
  have herror : tokenize "1+.5e-x" ["x"] = .error ⟨.malformedNumber ".5e-", 2⟩ := by
    decide +kernel
  obtain ⟨n, -, hn, hmalformed⟩ := scan_number.2.2.2 _ _ _ _ herror
  rw [hn] at hmalformed
  obtain ⟨m, rest, hscan, hlongest, hone, -⟩ := scan_number.2.2.1 '.' "5e-x".toList (.inr rfl)
  have hm : (scan '.' "5e-x".toList).1.text = ".5e-".toList := by decide +kernel
  rw [hscan] at hm
  rw [show m.text = ".5e-".toList from hm] at hlongest hone
  exact ⟨herror, hlongest, hmalformed, fun h => hone.mp h hmalformed⟩

end Formula
