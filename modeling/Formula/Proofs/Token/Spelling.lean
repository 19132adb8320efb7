import Mathlib.Computability.Language
import Formula.Proofs.Decimal.Numeral
import Formula.Token.Sequence

/-!
# Spellings

The texts that a token can be written as, as languages. The numbers and names that
the scan finds are exactly those of the two languages that are given here as regular
expressions.
-/

namespace Formula

open Computability

def oneOf (p : Char → Bool) : Language Char := {cs | ∃ c, p c = true ∧ cs = [c]}

def optional (l : Language Char) : Language Char := 1 + l

/-- `[0-9]+` -/
def digitsText : Language Char := oneOf Char.isDigit * (oneOf Char.isDigit)∗

/-- `[eE][+-]?` -/
def markerText : Language Char :=
  oneOf (fun c => c == 'e' || c == 'E') * optional (oneOf fun c => c == '+' || c == '-')

/-- `[eE][+-]?[0-9]+` -/
def exponentText : Language Char :=
  oneOf (fun c => c == 'e' || c == 'E') * optional (oneOf fun c => c == '+' || c == '-') *
    digitsText

/-- `[0-9]+(\.[0-9]*)?([eE][+-]?[0-9]+)?` and `\.[0-9]+([eE][+-]?[0-9]+)?` -/
def numberText : Language Char :=
  digitsText * optional ({['.']} * (oneOf Char.isDigit)∗) * optional exponentText +
    {['.']} * digitsText * optional exponentText

/-- `[a-zA-Z_$][a-zA-Z0-9_$]*` -/
def nameText : Language Char :=
  oneOf (fun c => c.isAlpha || c == '_' || c == '$') *
    (oneOf fun c => c.isAlphanum || c == '_' || c == '$')∗

theorem mem_optional {l : Language Char} {cs : List Char} : cs ∈ optional l ↔ cs = [] ∨ cs ∈ l :=
  Iff.rfl

theorem mem_star_oneOf {p : Char → Bool} {cs : List Char} :
    cs ∈ (oneOf p)∗ ↔ ∀ c ∈ cs, p c = true := by
  rw [Language.mem_kstar]
  constructor
  · intro h c hc
    obtain ⟨parts, rfl, hp⟩ := h
    obtain ⟨part, hpart, hc⟩ := List.mem_flatten.mp hc
    obtain ⟨d, hd, rfl⟩ := hp part hpart
    rw [List.mem_singleton.mp hc]
    exact hd
  · intro h
    refine ⟨cs.map fun c => [c], ?_, ?_⟩
    · induction cs with
      | nil => rfl
      | cons c cs ih =>
        rw [List.map_cons, List.flatten_cons, ← ih fun d hd => h d (List.mem_cons_of_mem c hd)]
        rfl
    · intro part hpart
      obtain ⟨c, hc, rfl⟩ := List.mem_map.mp hpart
      exact ⟨c, h c hc, rfl⟩

theorem mem_oneOf_mul_star {p q : Char → Bool} {cs : List Char} :
    cs ∈ oneOf p * (oneOf q)∗ ↔ ∃ c ds, cs = c :: ds ∧ p c = true ∧ ∀ d ∈ ds, q d = true := by
  rw [Language.mem_mul]
  constructor
  · intro h
    obtain ⟨_, ⟨c, hc, rfl⟩, ds, hds, rfl⟩ := h
    exact ⟨c, ds, rfl, hc, mem_star_oneOf.mp hds⟩
  · intro h
    obtain ⟨c, ds, rfl, hc, hds⟩ := h
    exact ⟨[c], ⟨c, hc, rfl⟩, ds, mem_star_oneOf.mpr hds, rfl⟩

theorem mem_nameText {cs : List Char} : cs ∈ nameText ↔
    ∃ c ds, cs = c :: ds ∧ startsName c = true ∧ ∀ d ∈ ds, continuesName d = true :=
  mem_oneOf_mul_star

theorem mem_digitsText {cs : List Char} :
    cs ∈ digitsText ↔ cs ≠ [] ∧ ∀ d ∈ cs, d.isDigit = true := by
  rw [digitsText, mem_oneOf_mul_star]
  constructor
  · intro h
    obtain ⟨c, ds, rfl, hc, hds⟩ := h
    exact ⟨List.cons_ne_nil c ds, List.forall_mem_cons.mpr ⟨hc, hds⟩⟩
  · intro h
    obtain ⟨hne, hd⟩ := h
    cases cs with
    | nil => exact absurd rfl hne
    | cons c ds =>
      obtain ⟨hc, hds⟩ := List.forall_mem_cons.mp hd
      exact ⟨c, ds, rfl, hc, hds⟩

theorem mem_markerText {cs : List Char} :
    cs ∈ markerText ↔ ∃ e : Exponent, e.Shaped ∧ e.digits = [] ∧ e.text = cs := by
  rw [markerText]
  constructor
  · intro h
    obtain ⟨_, ⟨c, hc, rfl⟩, sign, hs, rfl⟩ := h
    have hl : c = 'e' ∨ c = 'E' := by simpa using hc
    rcases mem_optional.mp hs with rfl | ⟨s, hplus, rfl⟩
    · refine ⟨⟨c, none, []⟩, ⟨hl, ?_, List.forall_mem_nil _⟩, rfl, rfl⟩
      intro s hs
      cases hs
    · refine ⟨⟨c, some s, []⟩, ⟨hl, ?_, List.forall_mem_nil _⟩, rfl, rfl⟩
      intro t ht
      obtain rfl : s = t := Option.some.inj ht
      simpa using hplus
  · intro h
    obtain ⟨⟨c, sign, ds⟩, ⟨hl, hs, -⟩, hd, rfl⟩ := h
    obtain rfl : ds = [] := hd
    have hc : [c] ∈ oneOf fun c => c == 'e' || c == 'E' := ⟨c, by simpa using hl, rfl⟩
    have hsign : sign.toList ∈ optional (oneOf fun c => c == '+' || c == '-') := by
      cases sign with
      | none => exact mem_optional.mpr (.inl rfl)
      | some s => exact mem_optional.mpr (.inr ⟨s, by simpa using hs s rfl, rfl⟩)
    rw [Exponent.text, List.append_nil]
    exact Language.append_mem_mul hc hsign

theorem mem_exponentText {cs : List Char} :
    cs ∈ exponentText ↔ ∃ e : Exponent, e.Shaped ∧ e.digits ≠ [] ∧ e.text = cs := by
  rw [show exponentText = markerText * digitsText from rfl]
  constructor
  · intro h
    obtain ⟨_, hm, ds, hds, rfl⟩ := h
    obtain ⟨hne, hd⟩ := mem_digitsText.mp hds
    obtain ⟨⟨c, sign, es⟩, he, hes, rfl⟩ := mem_markerText.mp hm
    obtain rfl : es = [] := hes
    refine ⟨⟨c, sign, ds⟩, ⟨he.letter, he.sign, hd⟩, hne, ?_⟩
    simp only [Exponent.text, List.append_nil]
  · intro h
    obtain ⟨⟨c, sign, ds⟩, ⟨hl, hs, hd⟩, hne, rfl⟩ := h
    have hm : (⟨c, sign, []⟩ : Exponent).text ∈ markerText :=
      mem_markerText.mpr ⟨⟨c, sign, []⟩, ⟨hl, hs, List.forall_mem_nil _⟩, rfl, rfl⟩
    rw [Exponent.text, List.append_nil] at hm
    exact Language.append_mem_mul hm (mem_digitsText.mpr ⟨hne, hd⟩)

theorem mem_optional_exponentText {cs : List Char} :
    cs ∈ optional exponentText ↔ ∃ x : Option Exponent, (∀ e ∈ x, e.Shaped ∧ e.digits ≠ []) ∧
      x.elim [] Exponent.text = cs := by
  rw [mem_optional]
  constructor
  · intro h
    rcases h with rfl | h
    · refine ⟨none, ?_, rfl⟩
      intro e he
      cases he
    · obtain ⟨e, he, hne, rfl⟩ := mem_exponentText.mp h
      refine ⟨some e, ?_, rfl⟩
      intro e' he'
      cases he'
      exact ⟨he, hne⟩
  · intro h
    obtain ⟨x, hx, rfl⟩ := h
    cases x with
    | none => exact .inl rfl
    | some e => exact .inr (mem_exponentText.mpr ⟨e, (hx e rfl).1, (hx e rfl).2, rfl⟩)

theorem mem_optional_fraction {cs : List Char} :
    cs ∈ optional ({['.']} * (oneOf Char.isDigit)∗) ↔
      ∃ f : Option (List Char), (∀ ds ∈ f, ∀ d ∈ ds, d.isDigit = true) ∧
        f.elim [] ('.' :: ·) = cs := by
  rw [mem_optional]
  constructor
  · intro h
    rcases h with rfl | ⟨_, rfl, ds, hds, rfl⟩
    · refine ⟨none, ?_, rfl⟩
      intro ds hds
      cases hds
    · refine ⟨some ds, ?_, rfl⟩
      intro ds' hds'
      cases hds'
      exact mem_star_oneOf.mp hds
  · intro h
    obtain ⟨f, hf, rfl⟩ := h
    cases f with
    | none => exact .inl rfl
    | some ds => exact .inr ⟨_, rfl, ds, mem_star_oneOf.mpr (hf ds rfl), rfl⟩

theorem Numeral.shaped_wellFormed {n : Numeral} (hw : ∀ d ∈ n.whole, d.isDigit = true)
    (hf : ∀ ds ∈ n.fraction, ∀ d ∈ ds, d.isDigit = true)
    (hx : ∀ e ∈ n.exponent, e.Shaped ∧ e.digits ≠ [])
    (hne : n.whole ++ n.fraction.getD [] ≠ []) : n.Shaped ∧ n.wellFormed = true := by
  refine ⟨⟨hw, hf, fun e he => (hx e he).1, fun _ => hne⟩, ?_⟩
  exact (wellFormed_iff n).mpr ⟨hne, fun e he => (hx e he).2⟩

theorem mem_numberText {cs : List Char} :
    cs ∈ numberText ↔ ∃ n : Numeral, n.Shaped ∧ n.wellFormed = true ∧ n.text = cs := by
  rw [numberText, Language.mem_add]
  constructor
  · intro h
    rcases h with h | h
    · obtain ⟨_, ⟨whole, hw, frac, hf, rfl⟩, e, he, rfl⟩ := h
      obtain ⟨hne, hw⟩ := mem_digitsText.mp hw
      obtain ⟨f, hfd, rfl⟩ := mem_optional_fraction.mp hf
      obtain ⟨x, hx, rfl⟩ := mem_optional_exponentText.mp he
      have hn : whole ++ f.getD [] ≠ [] := List.append_ne_nil_of_left_ne_nil hne _
      obtain ⟨hs, hwf⟩ := Numeral.shaped_wellFormed (n := ⟨whole, f, x⟩) hw hfd hx hn
      exact ⟨_, hs, hwf, rfl⟩
    · obtain ⟨_, ⟨_, rfl, ds, hds, rfl⟩, e, he, rfl⟩ := h
      obtain ⟨hne, hds⟩ := mem_digitsText.mp hds
      obtain ⟨x, hx, rfl⟩ := mem_optional_exponentText.mp he
      have hw : ∀ d ∈ ([] : List Char), d.isDigit = true := List.forall_mem_nil _
      have hf : ∀ es ∈ some ds, ∀ d ∈ es, d.isDigit = true := by
        intro es hes
        cases hes
        exact hds
      obtain ⟨hs, hwf⟩ := Numeral.shaped_wellFormed (n := ⟨[], some ds, x⟩) hw hf hx hne
      exact ⟨_, hs, hwf, rfl⟩
  · intro h
    obtain ⟨⟨whole, f, x⟩, hs, hwf, rfl⟩ := h
    obtain ⟨hne, hx⟩ := (Numeral.wellFormed_iff _).mp hwf
    have hexp : x.elim [] Exponent.text ∈ optional exponentText :=
      mem_optional_exponentText.mpr ⟨x, fun e he => ⟨hs.exponent e he, hx e he⟩, rfl⟩
    cases whole with
    | cons d ds =>
      have hw : d :: ds ∈ digitsText := mem_digitsText.mpr ⟨List.cons_ne_nil d ds, hs.whole⟩
      have hf := mem_optional_fraction.mpr ⟨f, hs.fraction, rfl⟩
      exact .inl (Language.append_mem_mul (Language.append_mem_mul hw hf) hexp)
    | nil =>
      cases f with
      | none => exact absurd rfl hne
      | some ds =>
        have hds : ds ∈ digitsText := mem_digitsText.mpr ⟨hne, hs.fraction ds rfl⟩
        have hp : ['.'] ∈ ({['.']} : Language Char) := rfl
        have h := Language.append_mem_mul (Language.append_mem_mul hp hds) hexp
        exact .inr h

end Formula
