import Formula.Proofs.Token.Position

/-!
# Blanks behind a source

No scan reads past a blank: what is scanned at the front of a text is the same with
blanks behind the text, and the blanks are left over. So a source has the same lexemes
with blanks behind it.
-/

namespace Formula

open Text

variable {tail : List Char}

theorem span_append_tail {p : Char → Bool} (ht : ∀ c ∈ tail.head?, p c = false) (cs : List Char) :
    (cs ++ tail).takeWhile p = cs.takeWhile p ∧
      (cs ++ tail).dropWhile p = cs.dropWhile p ++ tail := by
  induction cs with
  | nil =>
    have h := span_append (p := p) (List.forall_mem_nil _) ht
    exact h
  | cons c cs ih =>
    by_cases hc : p c = true
    · simp only [List.cons_append, List.takeWhile_cons, List.dropWhile_cons, hc, if_true, ih.1,
        ih.2, and_self]
    · simp only [List.cons_append, List.takeWhile_cons, List.dropWhile_cons, hc, if_false,
        Bool.false_eq_true, and_self]

theorem spanDigits_append_tail (ht : ∀ c ∈ tail.head?, isBlank c = true) (cs : List Char) :
    spanDigits (cs ++ tail) = ((spanDigits cs).1, (spanDigits cs).2 ++ tail) := by
  have hd : ∀ c ∈ tail.head?, c.isDigit = false := fun c hc =>
    (Numeral.prolongs_eq_false (blank_ends (ht c hc)).1).1
  rw [spanDigits, (span_append_tail hd cs).1, (span_append_tail hd cs).2, spanDigits]

theorem Exponent.scan_append_tail (ht : ∀ c ∈ tail.head?, isBlank c = true) (cs : List Char) :
    Exponent.scan (cs ++ tail) = ((Exponent.scan cs).1, (Exponent.scan cs).2 ++ tail) := by
  have hspan := spanDigits_append_tail ht
  cases cs with
  | nil =>
    cases tail with
    | nil => rfl
    | cons b tail =>
      exact if_neg (Numeral.prolongs_eq_false (blank_ends (ht b rfl)).1).2.2
  | cons c cs =>
    by_cases hc : c = 'e' ∨ c = 'E'
    · cases cs with
      | nil =>
        cases tail with
        | nil =>
          rw [List.append_nil, List.append_nil]
        | cons b tail =>
          -- what would be a sign or a digit is a blank
          have hsign : ¬(b = '+' ∨ b = '-') := by
            have hb := ht b rfl
            rintro (rfl | rfl) <;> cases hb
          have h := hspan []
          rw [List.nil_append] at h
          simp only [List.cons_append, List.nil_append, Exponent.scan, if_pos hc, if_neg hsign, h]
          rfl
      | cons s rest =>
        simp only [List.cons_append, Exponent.scan, if_pos hc]
        by_cases hs : s = '+' ∨ s = '-'
        · simp only [if_pos hs, hspan rest]
        · have h := hspan (s :: rest)
          rw [List.cons_append] at h
          simp only [if_neg hs, h]
    · simp only [List.cons_append, Exponent.scan, if_neg hc]

theorem Numeral.scanFraction_of_ne {c : Char} (hc : c ≠ '.') (cs : List Char) :
    scanFraction (c :: cs) = (none, c :: cs) := by
  unfold scanFraction
  split
  · rename_i he
    cases he
    exact absurd rfl hc
  · rfl

theorem Numeral.scanFraction_append_tail (ht : ∀ c ∈ tail.head?, isBlank c = true)
    (cs : List Char) :
    scanFraction (cs ++ tail) = ((scanFraction cs).1, (scanFraction cs).2 ++ tail) := by
  cases cs with
  | nil =>
    cases tail with
    | nil => rfl
    | cons b tail =>
      exact scanFraction_of_ne (prolongs_eq_false (blank_ends (ht b rfl)).1).2.1 tail
  | cons c cs =>
    by_cases hc : c = '.'
    · subst hc
      simp only [List.cons_append, scanFraction, spanDigits_append_tail ht cs]
    · rw [List.cons_append, scanFraction_of_ne hc, scanFraction_of_ne hc, List.cons_append]

theorem Numeral.scan_append_tail (ht : ∀ c ∈ tail.head?, isBlank c = true) (cs : List Char) :
    scan (cs ++ tail) = ((scan cs).1, (scan cs).2 ++ tail) := by
  simp only [scan, spanDigits_append_tail ht, scanFraction_append_tail ht,
    Exponent.scan_append_tail ht]
  split <;> rfl

theorem Mark.scan?_star (cs : List Char) :
    scan? ('*' :: cs) =
      if cs.head? = some '*' then some (doubleStar, cs.tail) else some (star, cs) := by
  cases cs with
  | nil => rfl
  | cons c cs =>
    by_cases hc : c = '*'
    · subst hc
      rfl
    · have hhead : ¬(c :: cs).head? = some '*' := fun h => hc (Option.some.inj h)
      rw [if_neg hhead]
      exact Mark.scan?_eq star fun _ d hd => Option.some.inj hd ▸ hc

theorem Mark.scan?_eq_none {c : Char} {cs : List Char} (h : scan? (c :: cs) = none)
    (rest : List Char) : scan? (c :: rest) = none := by
  cases h' : scan? (c :: rest) with
  | none => rfl
  | some r =>
    obtain ⟨m, rest'⟩ := r
    have ht := Lexeme.scan?_text h'
    have hstar : c ≠ '*' := by
      rintro rfl
      rw [scan?_star] at h
      split at h <;> cases h
    cases m with
    | star => exact absurd (List.cons.inj ht).1.symm hstar
    | doubleStar => exact absurd (List.cons.inj ht).1.symm hstar
    | _ =>
      cases ht
      cases h

theorem Mark.scan?_append_tail (ht : ∀ c ∈ tail.head?, isBlank c = true) (c : Char)
    (cs : List Char) :
    scan? (c :: (cs ++ tail)) = (scan? (c :: cs)).map fun r => (r.1, r.2 ++ tail) := by
  cases h : scan? (c :: cs) with
  | none => exact scan?_eq_none h _
  | some r =>
    obtain ⟨m, rest⟩ := r
    have htext := Lexeme.scan?_text h
    have hstar : m = star → ∀ d ∈ (rest ++ tail).head?, d ≠ '*' := by
      rintro rfl d hd rfl
      obtain ⟨rfl, rfl⟩ := List.cons.inj htext
      rw [scan?_star] at h
      split at h
      · cases h
      · rename_i hhead
        cases rest with
        | nil => exact (blank_ends (ht '*' hd)).2.2 rfl
        | cons e rest => exact hhead hd
    rw [← List.cons_append, ← htext, List.append_assoc, scan?_eq m hstar]
    rfl

theorem Lexeme.scan_append_tail (ht : ∀ c ∈ tail.head?, isBlank c = true) (c : Char)
    (cs : List Char) :
    Lexeme.scan c (cs ++ tail) = ((Lexeme.scan c cs).1, (Lexeme.scan c cs).2 ++ tail) := by
  have hname : ∀ d ∈ tail.head?, continuesName d = false := fun d hd => (blank_ends (ht d hd)).2.1
  obtain ⟨htake, hdrop⟩ := span_append_tail hname cs
  unfold Lexeme.scan
  split
  · rw [← List.cons_append, Numeral.scan_append_tail ht]
  · split
    · rw [htake, hdrop]
    · rw [Mark.scan?_append_tail ht]
      cases Mark.scan? (c :: cs) <;> rfl

theorem split_append_blanks {blank : List Char} (hb : ∀ c ∈ blank, isBlank c = true) (offset : Nat)
    (cs : List Char) : Lexeme.split offset (cs ++ blank) = Lexeme.split offset cs := by
  have ht : ∀ c ∈ blank.head?, isBlank c = true := fun c hc => hb c (List.mem_of_mem_head? hc)
  induction offset, cs using Lexeme.split.induct with
  | case1 offset =>
    have h := split_blanks hb offset []
    rw [List.append_nil, Lexeme.split] at h
    rw [List.nil_append, h, Lexeme.split]
  | case2 offset c cs hc ih =>
    rw [List.cons_append, Lexeme.split, if_pos hc, ih, Lexeme.split, if_pos hc]
  | case3 offset c cs hc ih =>
    rw [List.cons_append, Lexeme.split, if_neg hc, Lexeme.scan_append_tail ht]
    rw [ih, Lexeme.split, if_neg hc]

theorem checkEnd_length {ts : List Token} (hts : ts ≠ []) (m n : Nat) :
    Token.checkEnd m ts = Token.checkEnd n ts := by
  unfold Token.checkEnd
  split
  · rename_i hl
    exact absurd (List.getLast?_eq_none_iff.mp hl) hts
  · rfl

/-- A source that is not blank has the same tokens, or the same error, with blanks behind it. -/
theorem tokenize_append_blanks {source blank : List Char} (hb : ∀ c ∈ blank, isBlank c = true)
    (hs : ¬∀ c ∈ source, isBlank c = true) (allowed : List String) :
    tokenize (String.ofList (source ++ blank)) allowed =
      tokenize (String.ofList source) allowed := by
  unfold tokenize
  rw [String.toList_ofList, String.toList_ofList, split_append_blanks hb]
  split
  · rfl
  · rename_i ts hts
    apply checkEnd_length
    rintro rfl
    exact hs (split_eq_nil (Token.ofLexemes_eq_nil hts))

end Formula
