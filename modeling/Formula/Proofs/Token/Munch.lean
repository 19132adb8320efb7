import Formula.Proofs.Decimal.Numeral
import Formula.Proofs.Token.Trailing

/-!
# Maximal munch

The lexemes are the texts of a language. A text is split by passing over blanks and
taking the longest text of the language that stands in front, or one character if it
begins none. This rule says nothing about how lexemes are scanned, and it leaves one
way to split a text: the one that the scan finds.
-/

namespace Formula

open Computability Text

/-- Numbers that lack digits: `[0-9]+(\.[0-9]*)?[eE][+-]?`, `\.[0-9]+[eE][+-]?` and `\.` -/
def malformedText : Language Char :=
  digitsText * optional ({['.']} * (oneOf Char.isDigit)∗) * markerText +
    {['.']} * digitsText * markerText + {['.']}

def markText : Language Char := {cs | ∃ m : Mark, m.text = cs}

def lexemeText : Language Char := numberText + malformedText + nameText + markText

def BeginsNone (c : Char) : Prop := ∀ t ∈ lexemeText, t.head? ≠ some c

/-- The longest text of a language at the front of another. -/
structure LongestFront (l : Language Char) (text cs : List Char) : Prop where
  mem : text ∈ l
  front : text <+: cs
  longest : ∀ other ∈ l, other <+: cs → other.length ≤ text.length

structure Piece where
  text : List Char
  offset : Nat

/-- The pieces of a text, which begins at a byte offset, by maximal munch. -/
inductive Munched : Nat → List Char → List Piece → Prop
  | nil (offset : Nat) : Munched offset [] []
  | blank {offset : Nat} {c : Char} {cs : List Char} {ps : List Piece} : isBlank c = true →
      Munched (offset + c.utf8Size) cs ps → Munched offset (c :: cs) ps
  | lexeme {offset : Nat} {text rest cs : List Char} {ps : List Piece} : cs = text ++ rest →
      LongestFront lexemeText text cs → Munched (offset + byteLength text) rest ps →
      Munched offset cs (⟨text, offset⟩ :: ps)
  | stray {offset : Nat} {c : Char} {cs : List Char} {ps : List Piece} : isBlank c = false →
      BeginsNone c → Munched (offset + c.utf8Size) cs ps →
      Munched offset (c :: cs) (⟨[c], offset⟩ :: ps)

theorem Numeral.shaped_malformed {whole : List Char} {fraction : Option (List Char)}
    {e : Exponent} (hw : ∀ d ∈ whole, d.isDigit = true)
    (hf : ∀ ds ∈ fraction, ∀ d ∈ ds, d.isDigit = true) (he : e.Shaped) (hd : e.digits = [])
    (hne : whole ++ fraction.getD [] ≠ []) :
    (⟨whole, fraction, some e⟩ : Numeral).Shaped ∧
      wellFormed ⟨whole, fraction, some e⟩ = false := by
  refine ⟨⟨hw, hf, fun e' he' => ?_, fun _ => hne⟩, ?_⟩
  · cases he'
    exact he
  · rw [wellFormed, Option.all_some, hd, List.isEmpty_nil]
    exact Bool.and_false _

theorem Numeral.text_of_malformed {n : Numeral} (hx : n.exponent = none)
    (hwf : n.wellFormed = false) (hne : n.text ≠ []) : n.text = ['.'] := by
  obtain ⟨whole, fraction, x⟩ := n
  obtain rfl : x = none := hx
  have hd : whole ++ fraction.getD [] = [] := by
    rwa [wellFormed, Option.all_none, Bool.and_true, Bool.not_eq_false', List.isEmpty_iff] at hwf
  obtain ⟨rfl, hf⟩ := List.append_eq_nil_iff.mp hd
  cases fraction with
  | none => exact absurd rfl hne
  | some ds =>
    obtain rfl : ds = [] := hf
    rfl

theorem exists_malformed {cs : List Char} (h : cs ∈ malformedText) :
    ∃ n : Numeral, n.Shaped ∧ n.wellFormed = false ∧ n.text ≠ [] ∧ n.text = cs := by
  rcases h with (h | h) | rfl
  · obtain ⟨_, ⟨whole, hw, frac, hf, rfl⟩, m, hm, rfl⟩ := h
    obtain ⟨hne, hw⟩ := mem_digitsText.mp hw
    obtain ⟨f, hfd, rfl⟩ := mem_optional_fraction.mp hf
    obtain ⟨e, he, hd, rfl⟩ := mem_markerText.mp hm
    have hn : whole ++ f.getD [] ≠ [] := List.append_ne_nil_of_left_ne_nil hne _
    obtain ⟨hs, hwf⟩ := Numeral.shaped_malformed hw hfd he hd hn
    refine ⟨_, hs, hwf, ?_, rfl⟩
    exact List.append_ne_nil_of_left_ne_nil (List.append_ne_nil_of_left_ne_nil hne _) _
  · obtain ⟨_, ⟨_, rfl, ds, hds, rfl⟩, m, hm, rfl⟩ := h
    obtain ⟨hne, hds⟩ := mem_digitsText.mp hds
    obtain ⟨e, he, hd, rfl⟩ := mem_markerText.mp hm
    have hf : ∀ es ∈ some ds, ∀ d ∈ es, d.isDigit = true := by
      rintro es ⟨⟩
      exact hds
    obtain ⟨hs, hwf⟩ := Numeral.shaped_malformed (List.forall_mem_nil _) hf he hd hne
    exact ⟨_, hs, hwf, List.cons_ne_nil _ _, rfl⟩
  · have hf : ∀ es ∈ some ([] : List Char), ∀ d ∈ es, d.isDigit = true := by
      rintro es ⟨⟩
      exact List.forall_mem_nil _
    exact ⟨⟨[], some [], none⟩, ⟨List.forall_mem_nil _, hf, nofun, fun h => absurd rfl h⟩, rfl,
      List.cons_ne_nil _ _, rfl⟩

theorem Numeral.Shaped.exponent_empty {n : Numeral} (hs : n.Shaped) {e : Exponent}
    (hx : n.exponent = some e) (hwf : n.wellFormed = false) : e.digits = [] := by
  by_contra hde
  have hn : n.whole ++ n.fraction.getD [] ≠ [] := hs.behind (hx ▸ Option.some_ne_none e)
  have hw : n.wellFormed = true := by
    refine (Numeral.wellFormed_iff n).mpr ⟨hn, fun e' he' => ?_⟩
    rw [hx] at he'
    cases he'
    exact hde
  rw [hw] at hwf
  cases hwf

theorem Numeral.Shaped.text_mem_of_marker {n : Numeral} (hs : n.Shaped) {e : Exponent}
    (hx : n.exponent = some e) (he : e.digits = []) :
    n.text ∈ digitsText * optional ({['.']} * (oneOf Char.isDigit)∗) * markerText +
      {['.']} * digitsText * markerText := by
  obtain ⟨whole, f, x⟩ := n
  obtain rfl : x = some e := hx
  have hd : whole ++ f.getD [] ≠ [] := hs.behind (Option.some_ne_none e)
  have hm : e.text ∈ markerText := mem_markerText.mpr ⟨e, hs.exponent e rfl, he, rfl⟩
  cases whole with
  | cons d ds =>
    have hw : d :: ds ∈ digitsText := mem_digitsText.mpr ⟨List.cons_ne_nil d ds, hs.whole⟩
    have hf := mem_optional_fraction.mpr ⟨f, hs.fraction, rfl⟩
    exact .inl (Language.append_mem_mul (Language.append_mem_mul hw hf) hm)
  | nil =>
    cases f with
    | none => exact absurd rfl hd
    | some ds =>
      have hds : ds ∈ digitsText := mem_digitsText.mpr ⟨hd, hs.fraction ds rfl⟩
      have hp : ['.'] ∈ ({['.']} : Language Char) := rfl
      have h := Language.append_mem_mul (Language.append_mem_mul hp hds) hm
      exact .inr h

theorem mem_malformedText {cs : List Char} :
    cs ∈ malformedText ↔
      ∃ n : Numeral, n.Shaped ∧ n.wellFormed = false ∧ n.text ≠ [] ∧ n.text = cs := by
  constructor
  · exact exists_malformed
  · rintro ⟨n, hs, hwf, hne, rfl⟩
    cases hx : n.exponent with
    | none => exact .inr (Numeral.text_of_malformed hx hwf hne)
    | some e => exact .inl (hs.text_mem_of_marker hx (hs.exponent_empty hx hwf))

theorem Numeral.text_begins {n : Numeral} (hn : n.Shaped) {c : Char} {cs : List Char}
    (h : n.text = c :: cs) : (c.isDigit || c == '.') = true := by
  rcases text_cons hn h with hc | rfl
  · rw [hc]
    rfl
  · rfl

namespace Lexeme

/-- The lexemes that the scan finds: a numeral has its parts in place, and a stray begins
nothing. -/
def Proper : Lexeme → Prop
  | numeral n => n.Shaped ∧ n.text ≠ []
  | name cs => cs ∈ nameText
  | mark _ => True
  | stray c => BeginsNone c

def isStray : Lexeme → Bool
  | stray _ => true
  | numeral _ | name _ | mark _ => false

theorem exists_of_isStray {l : Lexeme} (h : l.isStray = true) : ∃ c, l = stray c := by
  cases l with
  | stray c => exact ⟨c, rfl⟩
  | _ => cases h

theorem mem_lexemeText {t : List Char} :
    t ∈ lexemeText ↔ ∃ l : Lexeme, l.Proper ∧ l.isStray = false ∧ l.text = t := by
  rw [lexemeText, Language.mem_add, Language.mem_add, Language.mem_add]
  constructor
  · intro h
    rcases h with ((h | h) | h) | ⟨m, rfl⟩
    · obtain ⟨n, hn, hw, rfl⟩ := mem_numberText.mp h
      obtain ⟨c, cs, ht, -⟩ := Numeral.text_head hn hw
      exact ⟨numeral n, ⟨hn, ht ▸ List.cons_ne_nil c cs⟩, rfl, rfl⟩
    · obtain ⟨n, hn, -, hne, rfl⟩ := mem_malformedText.mp h
      exact ⟨numeral n, ⟨hn, hne⟩, rfl, rfl⟩
    · exact ⟨name t, h, rfl, rfl⟩
    · exact ⟨mark m, trivial, rfl, rfl⟩
  · intro h
    obtain ⟨l, hl, hs, rfl⟩ := h
    cases l with
    | numeral n =>
      cases hw : n.wellFormed with
      | true => exact .inl (.inl (.inl (mem_numberText.mpr ⟨n, hl.1, hw, rfl⟩)))
      | false => exact .inl (.inl (.inr (mem_malformedText.mpr ⟨n, hl.1, hw, hl.2, rfl⟩)))
    | name cs => exact .inl (.inr hl)
    | mark m => exact .inr ⟨m, rfl⟩
    | stray c => cases hs

theorem scan_isStray {l : Lexeme} (hl : l.Proper) (hs : l.isStray = false) {c : Char}
    {ds : List Char} (ht : l.text = c :: ds) (cs : List Char) :
    (scan c cs).1.isStray = false := by
  cases l with
  | numeral n =>
    rw [scan, if_pos (Numeral.text_begins hl.1 ht)]
    rfl
  | name t =>
    obtain ⟨e, es, he, hc, -⟩ := mem_nameText.mp hl
    obtain ⟨rfl, -⟩ := List.cons.inj (ht.symm.trans he)
    rw [scan, if_neg (Bool.not_eq_true _ ▸ startsName_not_digit hc), if_pos hc]
    rfl
  | mark m =>
    obtain ⟨e, es, he, hd, hn⟩ := m.text_head
    obtain ⟨rfl, rfl⟩ := List.cons.inj (ht.symm.trans he)
    rw [scan, if_neg (Bool.not_eq_true _ ▸ hd), if_neg (Bool.not_eq_true _ ▸ hn)]
    split
    · rfl
    · rename_i hnone
      have hr : m = .star → ∀ c ∈ ([] : List Char).head?, c ≠ '*' := by
        intro _ c hc
        cases hc
      have h := m.scan?_eq hr
      rw [List.append_nil, he, Mark.scan?_eq_none hnone] at h
      cases h
  | stray e => cases hs

theorem scan_proper (c : Char) (cs : List Char) : (scan c cs).1.Proper := by
  have hne := scan_text_ne_nil c cs
  have hbegins (hs : (scan c cs).1.isStray = true) : BeginsNone c := by
    intro t ht hc
    obtain ⟨l, hl, hstray, rfl⟩ := mem_lexemeText.mp ht
    obtain ⟨ds, ht⟩ := List.head?_eq_some_iff.mp hc
    rw [scan_isStray hl hstray ht cs] at hs
    cases hs
  unfold scan at hbegins hne ⊢
  split
  · rename_i hc
    rw [if_pos hc] at hne
    exact ⟨Numeral.scan_shaped _, hne⟩
  · rename_i hc
    rw [if_neg hc] at hbegins
    split
    · rename_i hn
      refine mem_nameText.mpr ⟨c, _, rfl, hn, fun d hd => ?_⟩
      exact List.all_eq_true.mp List.all_takeWhile d hd
    · rename_i hn
      rw [if_neg hn] at hbegins
      split
      · trivial
      · rename_i hm
        rw [hm] at hbegins
        exact hbegins rfl

theorem scan_text_mem {c : Char} {cs : List Char} (hs : (scan c cs).1.isStray = false) :
    (scan c cs).1.text ∈ lexemeText :=
  mem_lexemeText.mpr ⟨_, scan_proper c cs, hs, rfl⟩

theorem scan_stray {c : Char} (hc : BeginsNone c) (cs : List Char) : scan c cs = (stray c, cs) := by
  have htext := scan_text c cs
  cases hs : (scan c cs).1.isStray with
  | true =>
    obtain ⟨d, hd⟩ := exists_of_isStray hs
    rw [hd] at htext
    obtain ⟨rfl, hr⟩ := List.cons.inj htext
    exact Prod.ext hd hr
  | false =>
    have hm := scan_text_mem hs
    obtain ⟨e, es, he⟩ := List.exists_cons_of_ne_nil (scan_text_ne_nil c cs)
    rw [he] at htext hm
    obtain ⟨rfl, -⟩ := List.cons.inj htext
    exact absurd rfl (hc _ hm)

theorem Proper.scan_self {l : Lexeme} (hl : l.Proper) :
    ∃ c cs, l.text = c :: cs ∧ scan c cs = (l, []) := by
  cases l with
  | numeral n =>
    obtain ⟨c, cs, ht⟩ := List.exists_cons_of_ne_nil hl.2
    refine ⟨c, cs, ht, ?_⟩
    rw [scan, if_pos (Numeral.text_begins hl.1 ht), ← ht, Numeral.scan_self hl.1]
  | name t =>
    have hr : ∀ c ∈ ([] : List Char).head?, continuesName c = false := by
      intro c hc
      cases hc
    have h := scan_name hl hr
    simp only [List.append_nil] at h
    exact h
  | mark m =>
    have hr : m = .star → ∀ c ∈ ([] : List Char).head?, c ≠ '*' := by
      intro _ c hc
      cases hc
    have h := scan_mark m hr
    simp only [List.append_nil] at h
    exact h
  | stray c => exact ⟨c, [], rfl, scan_stray hl []⟩

theorem Proper.eq_of_text {l m : Lexeme} (hl : l.Proper) (hm : m.Proper) (h : l.text = m.text) :
    l = m := by
  obtain ⟨c, cs, ht, hc⟩ := hl.scan_self
  obtain ⟨d, ds, hu, hd⟩ := hm.scan_self
  obtain ⟨rfl, rfl⟩ := List.cons.inj (ht.symm.trans (h.trans hu))
  exact congrArg Prod.fst (hc.symm.trans hd)

theorem scan_longest {l : Lexeme} (hl : l.Proper) {c : Char} {cs : List Char}
    (h : l.text <+: c :: cs) : l.text.length ≤ (scan c cs).1.text.length := by
  have hpos : 1 ≤ (scan c cs).1.text.length := List.length_pos_iff.mpr (scan_text_ne_nil c cs)
  obtain ⟨rest, hr⟩ := h
  obtain ⟨d, ds, ht, -⟩ := hl.scan_self
  obtain ⟨rfl, rfl⟩ : d = c ∧ ds ++ rest = cs := by
    rw [ht] at hr
    exact List.cons.inj hr
  cases l with
  | numeral n =>
    rw [scan, if_pos (Numeral.text_begins hl.1 ht), ← hr]
    exact Numeral.scan_longest hl.1 rest
  | name t =>
    obtain ⟨e, es, rfl, hd, hes⟩ := mem_nameText.mp hl
    obtain ⟨rfl, rfl⟩ := List.cons.inj ht
    rw [scan, if_neg (Bool.not_eq_true _ ▸ startsName_not_digit hd), if_pos hd,
      List.takeWhile_append_of_pos hes]
    simp only [text, List.length_cons, List.length_append]
    omega
  | mark m =>
    by_cases hm : m = .doubleStar
    · subst hm
      have hstar : Mark.doubleStar = .star → ∀ c ∈ rest.head?, c ≠ '*' := by
        intro h
        cases h
      obtain ⟨e, es, he, hs⟩ := scan_mark .doubleStar hstar
      obtain ⟨rfl, rfl⟩ := List.cons.inj (ht.symm.trans he)
      rw [hs]
    · -- all other marks are single characters
      refine Nat.le_trans ?_ hpos
      cases m <;> first | exact absurd rfl hm | exact Nat.le_refl 1
  | stray e => exact hpos

theorem scan_longestFront {c : Char} {cs : List Char} (hs : (scan c cs).1.isStray = false) :
    LongestFront lexemeText (scan c cs).1.text (c :: cs) where
  mem := scan_text_mem hs
  front := ⟨_, scan_text c cs⟩
  longest t ht hp := by
    obtain ⟨l, hl, -, rfl⟩ := mem_lexemeText.mp ht
    exact scan_longest hl hp

end Lexeme

theorem LongestFront.eq {l : Language Char} {s t cs : List Char} (hs : LongestFront l s cs)
    (ht : LongestFront l t cs) : s = t := by
  have hlen : s.length = t.length :=
    Nat.le_antisymm (ht.longest s hs.mem hs.front) (hs.longest t ht.mem ht.front)
  exact (List.prefix_of_prefix_length_le hs.front ht.front hlen.le).eq_of_length hlen

theorem lexemeText_head_not_blank {c : Char} {cs : List Char} (h : c :: cs ∈ lexemeText) :
    isBlank c = false := by
  obtain ⟨l, hl, hs, ht⟩ := Lexeme.mem_lexemeText.mp h
  have hc : c ∈ l.text := ht ▸ List.mem_cons_self
  cases l with
  | numeral n => exact isBlank_eq_false (hl.1.toNat hc)
  | name t =>
    obtain ⟨e, es, he, hstart, -⟩ := mem_nameText.mp hl
    obtain ⟨rfl, -⟩ := List.cons.inj (he.symm.trans ht)
    have := startsName_toNat hstart
    exact isBlank_eq_false (by omega)
  | mark m => exact m.text_not_blank hc
  | stray d => cases hs

def PlacedLexeme.piece (l : PlacedLexeme) : Piece := ⟨l.lexeme.text, l.offset⟩

theorem split_munched (offset : Nat) (cs : List Char) :
    Munched offset cs ((Lexeme.split offset cs).map PlacedLexeme.piece) := by
  induction offset, cs using Lexeme.split.induct with
  | case1 offset =>
    rw [Lexeme.split]
    exact .nil offset
  | case2 offset c cs hc ih =>
    rw [Lexeme.split, if_pos hc]
    exact .blank hc ih
  | case3 offset c cs hc ih =>
    rw [Lexeme.split, if_neg hc, List.map_cons]
    cases hs : (Lexeme.scan c cs).1.isStray with
    | true =>
      obtain ⟨d, hd⟩ := Lexeme.exists_of_isStray hs
      have htext := Lexeme.scan_text c cs
      have hp := Lexeme.scan_proper c cs
      rw [hd] at htext hp
      obtain ⟨rfl, -⟩ := List.cons.inj htext
      rw [Lexeme.scan_stray hp] at ih ⊢
      exact .stray (Bool.eq_false_iff.mpr hc) hp ih
    | false => exact .lexeme (Lexeme.scan_text c cs).symm (Lexeme.scan_longestFront hs) ih

/-- The scan splits a text by maximal munch, and this is the only way to do so. -/
theorem munched_iff {offset : Nat} {cs : List Char} {ps : List Piece} :
    Munched offset cs ps ↔ ps = (Lexeme.split offset cs).map PlacedLexeme.piece := by
  refine ⟨fun h => ?_, fun h => h ▸ split_munched offset cs⟩
  induction h with
  | nil offset => rw [Lexeme.split, List.map_nil]
  | blank hc _ ih => rw [Lexeme.split, if_pos hc, ih]
  | @lexeme offset text rest cs ps hcs hl _ ih =>
    obtain ⟨l, hp, hs, rfl⟩ := Lexeme.mem_lexemeText.mp hl.mem
    obtain ⟨c, ds, ht, -⟩ := hp.scan_self
    have hc : ¬isBlank c = true := by
      rw [lexemeText_head_not_blank (ht ▸ hl.mem)]
      exact Bool.false_ne_true
    obtain rfl : cs = c :: (ds ++ rest) := by rw [hcs, ht, List.cons_append]
    have heq := hl.eq (Lexeme.scan_longestFront (Lexeme.scan_isStray hp hs ht _))
    have hr : (Lexeme.scan c (ds ++ rest)).2 = rest := by
      have h := Lexeme.scan_text c (ds ++ rest)
      rw [← heq, ← List.cons_append, ← ht] at h
      exact List.append_cancel_left h
    rw [Lexeme.split, if_neg hc, List.map_cons, ih, PlacedLexeme.piece, hr, ← heq]
  | @stray offset c cs ps hb hc _ ih =>
    rw [Lexeme.split, if_neg (Bool.not_eq_true _ ▸ hb), Lexeme.scan_stray hc, List.map_cons, ih]
    simp only [PlacedLexeme.piece, Lexeme.text, byteLength_cons, byteLength_nil, Nat.add_zero]

end Formula
