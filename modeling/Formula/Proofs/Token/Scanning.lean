import Formula.Proofs.Text.Characters
import Formula.Proofs.Token.Spelling

/-!
# Scanning one token

The scan finds a token where a spelling of it stands, if the text behind does not
belong to the spelling too, and it finds no token elsewhere.
-/

namespace Formula

def Token.Kind.spellings (allowed : List String) : Token.Kind → Language Char
  | .number x => {cs | cs ∈ numberText ∧ readFloat? cs = some x}
  | .identifier n => {cs | cs ∈ nameText ∧ cs = n.toList ∧ n ∈ allowed}
  | .sign s => {s.symbol.toList}
  | .binary .pow => {['^'], ['*', '*']}
  | .binary b => {b.symbol.toList}
  | .opening d => {[d.opener]}
  | .closing d => {[d.closer]}
  | .comma => {[',']}

theorem Mark.text_spelling (allowed : List String) (after : Bool) (m : Mark) :
    m.text ∈ (m.kind after).spellings allowed := by
  cases m with
  | doubleStar => exact .inr rfl
  | caret => exact .inl rfl
  | plus => cases after <;> rfl
  | minus => cases after <;> rfl
  | _ => rfl

theorem spelling_cases {allowed : List String} {k : Token.Kind} {t : List Char}
    (ht : t ∈ k.spellings allowed) :
    (∃ n : Numeral, n.Shaped ∧ n.wellFormed = true ∧ n.text = t ∧ k = .number n.value) ∨
      (t ∈ nameText ∧ String.ofList t ∈ allowed ∧ k = .identifier (String.ofList t)) ∨
      ∃ (m : Mark) (after : Bool), m.text = t ∧ m.kind after = k := by
  cases k with
  | number x =>
    obtain ⟨ht, hx⟩ := ht
    obtain ⟨n, hn, hw, rfl⟩ := mem_numberText.mp ht
    rw [Numeral.readFloat?_text hn hw] at hx
    cases hx
    exact .inl ⟨n, hn, hw, rfl, rfl⟩
  | identifier n =>
    obtain ⟨ht, rfl, ha⟩ := ht
    rw [String.ofList_toList]
    exact .inr (.inl ⟨ht, ha, rfl⟩)
  | sign s =>
    cases s with
    | plus => exact .inr (.inr ⟨.plus, false, ht.symm, rfl⟩)
    | minus => exact .inr (.inr ⟨.minus, false, ht.symm, rfl⟩)
  | binary b =>
    cases b with
    | equal => exact .inr (.inr ⟨.equals, true, ht.symm, rfl⟩)
    | add => exact .inr (.inr ⟨.plus, true, ht.symm, rfl⟩)
    | sub => exact .inr (.inr ⟨.minus, true, ht.symm, rfl⟩)
    | mul => exact .inr (.inr ⟨.star, true, ht.symm, rfl⟩)
    | div => exact .inr (.inr ⟨.slash, true, ht.symm, rfl⟩)
    | pow =>
      rcases ht with rfl | rfl
      · exact .inr (.inr ⟨.caret, true, rfl, rfl⟩)
      · exact .inr (.inr ⟨.doubleStar, true, rfl, rfl⟩)
  | opening d =>
    cases d with
    | paren => exact .inr (.inr ⟨.leftParen, false, ht.symm, rfl⟩)
    | bracket => exact .inr (.inr ⟨.leftBracket, false, ht.symm, rfl⟩)
  | closing d =>
    cases d with
    | paren => exact .inr (.inr ⟨.rightParen, true, ht.symm, rfl⟩)
    | bracket => exact .inr (.inr ⟨.rightBracket, true, ht.symm, rfl⟩)
  | comma => exact .inr (.inr ⟨.comma, true, ht.symm, rfl⟩)

theorem name_spelling {allowed : List String} {c : Char} (cs : List Char)
    (hc : startsName c = true) (ha : String.ofList (c :: cs.takeWhile continuesName) ∈ allowed) :
    c :: cs.takeWhile continuesName ∈
      (Token.Kind.identifier (String.ofList (c :: cs.takeWhile continuesName))).spellings
        allowed := by
  refine ⟨mem_nameText.mpr ⟨c, _, rfl, hc, ?_⟩, String.toList_ofList.symm, ha⟩
  intro d hd
  exact List.all_eq_true.mp List.all_takeWhile d hd

theorem numeral_spelling (allowed : List String) {n : Numeral} (hn : n.Shaped)
    (hw : n.wellFormed = true) : n.text ∈ (Token.Kind.number n.value).spellings allowed :=
  ⟨mem_numberText.mpr ⟨n, hn, hw, rfl⟩, Numeral.readFloat?_text hn hw⟩

theorem scan_spelling {allowed : List String} {after : Bool} {c : Char} {cs : List Char}
    {k : Token.Kind} (h : Token.Kind.ofLexeme allowed after (Lexeme.scan c cs).1 = .ok k) :
    (Lexeme.scan c cs).1.text ∈ k.spellings allowed := by
  unfold Lexeme.scan at h ⊢
  split
  · rename_i hc
    rw [if_pos hc] at h
    simp only [Token.Kind.ofLexeme] at h
    split at h
    · rename_i hw
      cases h
      exact numeral_spelling allowed (Numeral.scan_shaped (c :: cs)) hw
    · cases h
  · rename_i hc
    rw [if_neg hc] at h
    split
    · rename_i hn
      rw [if_pos hn] at h
      simp only [Token.Kind.ofLexeme] at h
      split at h
      · rename_i ha
        cases h
        exact name_spelling cs hn ha
      · cases h
    · rename_i hn
      rw [if_neg hn] at h
      split
      · rename_i m rest hm
        rw [hm] at h
        cases h
        exact m.text_spelling allowed after
      · rename_i hm
        rw [hm] at h
        cases h

def Token.Kind.EndsBefore (k : Token.Kind) (rest : List Char) : Prop :=
  ∀ c ∈ rest.head?,
    match k with
    | .number _ => Numeral.prolongs c = false
    | .identifier _ => continuesName c = false
    | .binary .mul => c ≠ '*'
    | _ => True

theorem Expected.admits_sign {x : Expected} {s : Sign} (h : x.admits (.sign s) = true) :
    x.afterOperand = false := by
  cases x with
  | operand => rfl
  | argument => rfl
  | operator => cases h
  | operatorOrCall => cases h

theorem Expected.admits_binary {x : Expected} {b : BinaryOp} (h : x.admits (.binary b) = true) :
    x.afterOperand = true := by
  cases x with
  | operand => cases h
  | argument => cases h
  | operator => rfl
  | operatorOrCall => rfl

theorem Expected.mark_kind {x : Expected} {m : Mark} {after : Bool}
    (h : x.admits (m.kind after) = true) : m.kind x.afterOperand = m.kind after := by
  cases m with
  | plus =>
    cases after with
    | true => rw [admits_binary (b := .add) h]
    | false => rw [admits_sign (s := .plus) h]
  | minus =>
    cases after with
    | true => rw [admits_binary (b := .sub) h]
    | false => rw [admits_sign (s := .minus) h]
  | _ => rfl

theorem Mark.scan?_eq (m : Mark) {rest : List Char} (hr : m = .star → ∀ c ∈ rest.head?, c ≠ '*') :
    Mark.scan? (m.text ++ rest) = some (m, rest) := by
  cases m with
  | star =>
    cases rest with
    | nil => rfl
    | cons c cs =>
      have hc : c ≠ '*' := hr rfl c rfl
      simp only [text, List.cons_append, List.nil_append]
      unfold Mark.scan?
      split <;> simp_all
  | _ => rfl

theorem Mark.text_head (m : Mark) : ∃ c cs, m.text = c :: cs ∧ (c.isDigit || c == '.') = false ∧
    startsName c = false := by
  cases m <;> exact ⟨_, _, rfl, by decide, by decide⟩

theorem scan_mark (m : Mark) {rest : List Char} (hr : m = .star → ∀ c ∈ rest.head?, c ≠ '*') :
    ∃ c cs, m.text = c :: cs ∧ Lexeme.scan c (cs ++ rest) = (.mark m, rest) := by
  obtain ⟨c, cs, ht, hd, hn⟩ := m.text_head
  have hs := m.scan?_eq hr
  rw [ht, List.cons_append] at hs
  refine ⟨c, cs, ht, ?_⟩
  rw [Lexeme.scan, if_neg (Bool.not_eq_true _ ▸ hd), if_neg (Bool.not_eq_true _ ▸ hn), hs]

theorem scan_numeral {n : Numeral} (hn : n.Shaped) (hw : n.wellFormed = true) {rest : List Char}
    (hr : ∀ c ∈ rest.head?, Numeral.prolongs c = false) :
    ∃ c cs, n.text = c :: cs ∧ Lexeme.scan c (cs ++ rest) = (.numeral n, rest) := by
  obtain ⟨c, cs, ht, hc⟩ := Numeral.text_head hn hw
  have hs := Numeral.scan_eq hn hw hr
  rw [ht, List.cons_append] at hs
  have hd : (c.isDigit || c == '.') = true := by
    rcases hc with hc | rfl
    · rw [hc]
      rfl
    · rfl
  refine ⟨c, cs, ht, ?_⟩
  rw [Lexeme.scan, if_pos hd, hs]

theorem scan_name {t : List Char} (ht : t ∈ nameText) {rest : List Char}
    (hr : ∀ c ∈ rest.head?, continuesName c = false) :
    ∃ c cs, t = c :: cs ∧ Lexeme.scan c (cs ++ rest) = (.name t, rest) := by
  obtain ⟨c, cs, rfl, hc, hcs⟩ := mem_nameText.mp ht
  obtain ⟨htake, hdrop⟩ := span_append hcs hr
  refine ⟨c, cs, rfl, ?_⟩
  rw [Lexeme.scan, if_neg (Bool.not_eq_true _ ▸ startsName_not_digit hc), if_pos hc, htake, hdrop]

/-- Where a spelling stands that ends before the text behind it, the scan takes it. -/
theorem scan_of_spelling {allowed : List String} {x : Expected} {k : Token.Kind}
    (hx : x.admits k = true) {t : List Char} (ht : t ∈ k.spellings allowed) {rest : List Char}
    (hr : k.EndsBefore rest) :
    ∃ c cs l, t = c :: cs ∧ Lexeme.scan c (cs ++ rest) = (l, rest) ∧ l.text = t ∧
      Token.Kind.ofLexeme allowed x.afterOperand l = .ok k := by
  rcases spelling_cases ht with ⟨n, hn, hw, rfl, rfl⟩ | ⟨hname, ha, rfl⟩ | ⟨m, after, rfl, rfl⟩
  · obtain ⟨c, cs, he, hs⟩ := scan_numeral hn hw hr
    exact ⟨c, cs, .numeral n, he, hs, rfl, if_pos hw⟩
  · obtain ⟨c, cs, he, hs⟩ := scan_name hname hr
    exact ⟨c, cs, .name t, he, hs, rfl, if_pos ha⟩
  · have hstar : m = .star → ∀ c ∈ rest.head?, c ≠ '*' := by
      intro h
      subst h
      exact hr
    obtain ⟨c, cs, he, hs⟩ := scan_mark m hstar
    exact ⟨c, cs, .mark m, he, hs, rfl, congrArg Except.ok (Expected.mark_kind hx)⟩

section Characters

open Text

variable {allowed : List String}

theorem Mark.text_not_blank (m : Mark) {c : Char} (hc : c ∈ m.text) : isBlank c = false := by
  have h : (m.text.all fun d => !isBlank d) = true := by cases m <;> rfl
  have hb := List.all_eq_true.mp h c hc
  rwa [Bool.not_eq_true'] at hb

theorem spelling_not_blank {k : Token.Kind} {t : List Char} (ht : t ∈ k.spellings allowed) :
    ∀ c ∈ t, isBlank c = false := by
  intro c hc
  rcases spelling_cases ht with ⟨n, hn, hw, rfl, rfl⟩ | ⟨hname, ha, rfl⟩ | ⟨m, after, rfl, rfl⟩
  · exact isBlank_eq_false (hn.toNat hc)
  · obtain ⟨d, ds, rfl, hd, hds⟩ := mem_nameText.mp hname
    rcases List.mem_cons.mp hc with rfl | hc
    · have := startsName_toNat hd
      exact isBlank_eq_false (by omega)
    · have := continuesName_toNat (hds c hc)
      exact isBlank_eq_false (by omega)
  · exact m.text_not_blank hc

theorem nil_not_spelling (k : Token.Kind) : [] ∉ k.spellings allowed := by
  intro h
  rcases spelling_cases h with ⟨n, hn, hw, he, rfl⟩ | ⟨hname, _⟩ | ⟨m, _, he, _⟩
  · obtain ⟨c, cs, ht, _⟩ := Numeral.text_head hn hw
    rw [he] at ht
    cases ht
  · obtain ⟨c, cs, he, _⟩ := mem_nameText.mp hname
    cases he
  · cases m <;> cases he

theorem Expected.admits_call {k : Token.Kind} (h : operator.admits k = true) :
    operatorOrCall.admits k = true := by
  cases k with
  | opening d => cases h
  | _ => exact h

theorem follows_head {k : Token.Kind} (hk : Expected.operatorOrCall.admits k = true) {c : Char}
    {cs : List Char} (ht : c :: cs ∈ k.spellings allowed) :
    Numeral.prolongs c = false ∧ continuesName c = false := by
  rcases spelling_cases ht with ⟨n, _, _, _, rfl⟩ | ⟨_, _, rfl⟩ | ⟨m, _, he, _⟩
  · cases hk
  · cases hk
  · cases m <;> cases he <;> decide

theorem begins_head {k : Token.Kind} (hk : k.beginsOperand = true) {c : Char}
    {cs : List Char} (ht : c :: cs ∈ k.spellings allowed) : c ≠ '*' := by
  intro hc
  subst hc
  rcases spelling_cases ht with ⟨n, hn, hw, he, rfl⟩ | ⟨hname, _⟩ | ⟨m, after, he, rfl⟩
  · obtain ⟨c, cs, ht, hc⟩ := Numeral.text_head hn hw
    rw [he] at ht
    cases ht
    rcases hc with hc | hc <;> cases hc
  · obtain ⟨c, cs, he, hc, _⟩ := mem_nameText.mp hname
    cases he
    cases hc
  · cases m with
    | star => cases hk
    | doubleStar => cases hk
    | _ => cases he

end Characters

end Formula
