import Formula.Decimal

/-!
# Reading numerals

What the scan leaves in the parts of a numeral, and the way back: the text of a
numeral is read as the numeral in front of every text that does not prolong it. The scan
takes the longest numeral at the front of a text, whether or not it has the digits that
it needs: no numeral that stands there is longer, and a text that is one numeral is taken
to its end.
-/

namespace Formula

structure Exponent.Shaped (e : Exponent) : Prop where
  letter : e.letter = 'e' ∨ e.letter = 'E'
  sign : ∀ s ∈ e.sign, s = '+' ∨ s = '-'
  digits : ∀ d ∈ e.digits, d.isDigit = true

/-- The parts hold what belongs there, and an exponent stands behind digits. -/
structure Numeral.Shaped (n : Numeral) : Prop where
  whole : ∀ d ∈ n.whole, d.isDigit = true
  fraction : ∀ ds ∈ n.fraction, ∀ d ∈ ds, d.isDigit = true
  exponent : ∀ e ∈ n.exponent, e.Shaped
  behind : n.exponent ≠ none → n.whole ++ n.fraction.getD [] ≠ []

theorem spanDigits_digits (cs : List Char) : ∀ d ∈ (spanDigits cs).1, d.isDigit = true := by
  intro d hd
  exact List.all_eq_true.mp List.all_takeWhile d hd

theorem span_append {p : Char → Bool} {ds rest : List Char} (hd : ∀ d ∈ ds, p d = true)
    (hr : ∀ c ∈ rest.head?, p c = false) :
    (ds ++ rest).takeWhile p = ds ∧ (ds ++ rest).dropWhile p = rest := by
  have hrest : rest.takeWhile p = [] ∧ rest.dropWhile p = rest := by
    cases rest with
    | nil => exact ⟨rfl, rfl⟩
    | cons c cs =>
      have hc : p c = false := hr c rfl
      simp [hc]
  rw [List.takeWhile_append_of_pos hd, List.dropWhile_append_of_pos hd, hrest.1, hrest.2,
    List.append_nil]
  exact ⟨rfl, rfl⟩

theorem spanDigits_eq {ds rest : List Char} (hd : ∀ d ∈ ds, d.isDigit = true)
    (hr : ∀ c ∈ rest.head?, c.isDigit = false) : spanDigits (ds ++ rest) = (ds, rest) := by
  obtain ⟨ht, hdr⟩ := span_append hd hr
  rw [spanDigits, ht, hdr]

namespace Exponent

theorem scan_shaped (cs : List Char) : ∀ e ∈ (Exponent.scan cs).1, e.Shaped := by
  unfold Exponent.scan
  intro e he
  split at he
  · rename_i c cs
    split at he
    · rename_i hl
      split at he
      · rename_i s rest
        split at he
        · rename_i hs
          cases he
          refine ⟨hl, ?_, spanDigits_digits rest⟩
          intro t ht
          cases ht
          exact hs
        · cases he
          refine ⟨hl, ?_, spanDigits_digits (s :: rest)⟩
          intro t ht
          cases ht
      · cases he
        refine ⟨hl, ?_, List.forall_mem_nil _⟩
        intro t ht
        cases ht
    · cases he
  · cases he

theorem scan_eq {e : Exponent} (he : e.Shaped) (hd : e.digits ≠ []) {rest : List Char}
    (hr : ∀ c ∈ rest.head?, c.isDigit = false) :
    Exponent.scan (e.text ++ rest) = (some e, rest) := by
  obtain ⟨letter, sign, digits⟩ := e
  obtain ⟨hl, hs, hds⟩ := he
  have hspan := spanDigits_eq hds hr
  cases sign with
  | some s =>
    have hs := hs s rfl
    simp only [text, Option.toList_some, List.cons_append, List.nil_append, Exponent.scan]
    rw [if_pos hl, if_pos hs, hspan]
  | none =>
    cases digits with
    | nil => exact absurd rfl hd
    | cons d ds =>
      have hdigit : d.isDigit = true := hds d List.mem_cons_self
      have hsign : ¬(d = '+' ∨ d = '-') := by
        intro h
        rcases h with rfl | rfl <;> cases hdigit
      simp only [text, Option.toList_none, List.cons_append, List.nil_append, Exponent.scan]
      rw [if_pos hl, if_neg hsign, ← List.cons_append, hspan]

end Exponent

namespace Numeral

theorem wellFormed_iff (n : Numeral) :
    n.wellFormed = true ↔
      n.whole ++ n.fraction.getD [] ≠ [] ∧ ∀ e ∈ n.exponent, e.digits ≠ [] := by
  rw [wellFormed, Bool.and_eq_true, Bool.not_eq_true', List.isEmpty_eq_false_iff]
  refine and_congr_right fun _ => ?_
  cases n.exponent with
  | none => simp
  | some e => simp

theorem scanFraction_digits (cs : List Char) :
    ∀ ds ∈ (scanFraction cs).1, ∀ d ∈ ds, d.isDigit = true := by
  unfold scanFraction
  split
  · intro ds hds
    cases hds
    exact spanDigits_digits _
  · intro ds hds
    cases hds

theorem scan_shaped (cs : List Char) : (scan cs).1.Shaped := by
  have hw := spanDigits_digits cs
  have hf := scanFraction_digits (spanDigits cs).2
  simp only [scan]
  split
  · refine ⟨hw, hf, ?_, ?_⟩
    · intro e he
      cases he
    · intro h
      exact absurd rfl h
  · rename_i h
    refine ⟨hw, hf, Exponent.scan_shaped _, ?_⟩
    intro _ he
    exact h (List.isEmpty_iff.mpr he)

def prolongs (c : Char) : Bool := c.isDigit || c == '.' || c == 'e' || c == 'E'

theorem prolongs_eq_false {c : Char} (h : prolongs c = false) :
    c.isDigit = false ∧ c ≠ '.' ∧ ¬(c = 'e' ∨ c = 'E') := by
  simp only [prolongs, Bool.or_eq_false_iff, beq_eq_false_iff_ne] at h
  obtain ⟨⟨⟨hd, hp⟩, he⟩, hE⟩ := h
  refine ⟨hd, hp, ?_⟩
  intro h
  rcases h with h | h
  · exact he h
  · exact hE h

theorem head_exponent {n : Numeral} (hn : n.Shaped) {rest : List Char}
    (hr : ∀ c ∈ rest.head?, prolongs c = false) :
    ∀ c ∈ (n.exponent.elim [] Exponent.text ++ rest).head?, c.isDigit = false ∧ c ≠ '.' := by
  intro c hc
  cases he : n.exponent with
  | none =>
    rw [he] at hc
    obtain ⟨hd, hp, _⟩ := prolongs_eq_false (hr c hc)
    exact ⟨hd, hp⟩
  | some e =>
    rw [he] at hc
    obtain rfl : e.letter = c := Option.some.inj hc
    rcases (hn.exponent e he).letter with h | h <;> rw [h] <;> decide

theorem scanFraction_eq {n : Numeral} (hn : n.Shaped) {rest : List Char}
    (hh : ∀ c ∈ (n.exponent.elim [] Exponent.text ++ rest).head?, c.isDigit = false ∧ c ≠ '.') :
    scanFraction (n.fraction.elim [] ('.' :: ·) ++ (n.exponent.elim [] Exponent.text ++ rest)) =
      (n.fraction, n.exponent.elim [] Exponent.text ++ rest) := by
  cases hf : n.fraction with
  | none =>
    simp only [Option.elim_none, List.nil_append]
    unfold scanFraction
    split
    · rename_i cs he
      rw [he] at hh
      exact absurd rfl (hh '.' rfl).2
    · rfl
  | some ds =>
    have hspan := spanDigits_eq (hn.fraction ds hf) fun c hc => (hh c hc).1
    simp only [Option.elim_some, List.cons_append, scanFraction, hspan]

theorem spanDigits_whole {n : Numeral} (hn : n.Shaped) {rest : List Char}
    (hh : ∀ c ∈ (n.exponent.elim [] Exponent.text ++ rest).head?, c.isDigit = false ∧ c ≠ '.') :
    spanDigits (n.whole ++ (n.fraction.elim [] ('.' :: ·) ++
      (n.exponent.elim [] Exponent.text ++ rest))) =
      (n.whole, n.fraction.elim [] ('.' :: ·) ++ (n.exponent.elim [] Exponent.text ++ rest)) := by
  refine spanDigits_eq hn.whole ?_
  intro c hc
  cases hf : n.fraction with
  | none =>
    rw [hf] at hc
    exact (hh c hc).1
  | some ds =>
    rw [hf] at hc
    obtain rfl : '.' = c := Option.some.inj hc
    rfl

theorem scan_eq {n : Numeral} (hn : n.Shaped) (hw : n.wellFormed = true) {rest : List Char}
    (hr : ∀ c ∈ rest.head?, prolongs c = false) : scan (n.text ++ rest) = (n, rest) := by
  -- each part is read up to the next one, which begins with no character of it
  have hh := head_exponent hn hr
  have hspan := spanDigits_whole hn hh
  have hfraction := scanFraction_eq hn hh
  obtain ⟨hd, he⟩ := (wellFormed_iff n).mp hw
  have hexponent :
      Exponent.scan (n.exponent.elim [] Exponent.text ++ rest) = (n.exponent, rest) := by
    cases hx : n.exponent with
    | some e =>
      exact Exponent.scan_eq (hn.exponent e hx) (he e hx) fun c hc =>
        (prolongs_eq_false (hr c hc)).1
    | none =>
      cases rest with
      | nil => rfl
      | cons c cs => exact if_neg (prolongs_eq_false (hr c rfl)).2.2
  simp only [text, List.append_assoc, scan]
  rw [hspan, hfraction]
  dsimp only
  rw [if_neg (fun h => hd (List.isEmpty_iff.mp h)), hexponent]

theorem text_cons {n : Numeral} (hn : n.Shaped) {c : Char} {cs : List Char}
    (h : n.text = c :: cs) : c.isDigit = true ∨ c = '.' := by
  obtain ⟨whole, fraction, exponent⟩ := n
  cases whole with
  | cons d ds =>
    obtain ⟨rfl, -⟩ := List.cons.inj h
    exact .inl (hn.whole d List.mem_cons_self)
  | nil =>
    cases fraction with
    | some ds => exact .inr (List.cons.inj h).1.symm
    | none =>
      cases exponent with
      | none => cases h
      | some e => exact absurd rfl (hn.behind (Option.some_ne_none e))

theorem text_head {n : Numeral} (hn : n.Shaped) (hw : n.wellFormed = true) :
    ∃ c cs, n.text = c :: cs ∧ (c.isDigit = true ∨ c = '.') := by
  cases ht : n.text with
  | cons c cs => exact ⟨c, cs, rfl, text_cons hn ht⟩
  | nil =>
    obtain ⟨whole, fraction, exponent⟩ := n
    simp only [text, List.append_eq_nil_iff] at ht
    obtain ⟨⟨rfl, hf⟩, -⟩ := ht
    cases fraction with
    | none => cases hw
    | some ds => cases hf

theorem toLower_ne {c : Char} (h : c.isDigit = true ∨ c = '.') :
    c.toLower ≠ 'i' ∧ c.toLower ≠ 'n' := by
  have hv : c.val ≤ '9'.val := by
    rcases h with h | rfl
    · exact UInt32.le_iff_toNat_le.mpr (Char.isDigit_iff_toNat.mp h).2
    · decide
  have hl : c.toLower = c := by
    refine dif_neg ?_
    intro hu
    exact absurd (UInt32.le_trans hu.1 hv) (by decide)
  rw [hl]
  constructor
  · intro hc
    rw [hc] at hv
    exact absurd hv (by decide)
  · intro hc
    rw [hc] at hv
    exact absurd hv (by decide)

theorem magnitude?_text {n : Numeral} (hn : n.Shaped) (hw : n.wellFormed = true) :
    readFloat?.magnitude? n.text = some n.value := by
  obtain ⟨c, cs, ht, hc⟩ := text_head hn hw
  obtain ⟨hi, hnan⟩ := toLower_ne hc
  have hscan : scan n.text = (n, []) := by
    have hr : ∀ c ∈ ([] : List Char).head?, prolongs c = false := by
      intro c hc
      cases hc
    have h := scan_eq hn hw hr
    rwa [List.append_nil] at h
  have hname (first : Char) (name : List Char) (hf : c.toLower ≠ first) :
      String.ofList (n.text.map Char.toLower) ≠ String.ofList (first :: name) := by
    intro he
    have hl := congrArg String.toList he
    rw [String.toList_ofList, String.toList_ofList, ht, List.map_cons] at hl
    exact hf (List.cons.inj hl).1
  have hinf : ¬(String.ofList (n.text.map Char.toLower) = "inf" ∨
      String.ofList (n.text.map Char.toLower) = "infinity") := by
    intro h
    rcases h with h | h
    · exact hname 'i' ['n', 'f'] hi h
    · exact hname 'i' ['n', 'f', 'i', 'n', 'i', 't', 'y'] hi h
  have hnan : String.ofList (n.text.map Char.toLower) ≠ "nan" := hname 'n' ['a', 'n'] hnan
  simp only [readFloat?.magnitude?, if_neg hinf, if_neg hnan, hscan, hw, if_true]

theorem readFloat?_text {n : Numeral} (hn : n.Shaped) (hw : n.wellFormed = true) :
    readFloat? n.text = some n.value := by
  have hm := magnitude?_text hn hw
  obtain ⟨c, cs, ht, hc⟩ := text_head hn hw
  rw [ht] at hm ⊢
  unfold readFloat?
  split
  · rename_i he
    cases he
    rcases hc with hc | hc <;> cases hc
  · rename_i he
    cases he
    rcases hc with hc | hc <;> cases hc
  · exact hm

end Numeral

theorem spanDigits_append_left {ds : List Char} (hd : ∀ d ∈ ds, d.isDigit = true)
    (rest : List Char) :
    spanDigits (ds ++ rest) = (ds ++ (spanDigits rest).1, (spanDigits rest).2) := by
  rw [spanDigits, List.takeWhile_append_of_pos hd, List.dropWhile_append_of_pos hd, spanDigits]

namespace Exponent

theorem sign_ne_digit {d : Char} (h : d.isDigit = true) : ¬(d = '+' ∨ d = '-') := by
  rintro (rfl | rfl) <;> cases h

theorem scan_longest {e : Exponent} (he : e.Shaped) (rest : List Char) :
    e.text.length ≤ ((Exponent.scan (e.text ++ rest)).1.elim [] text).length := by
  obtain ⟨letter, sign, digits⟩ := e
  obtain ⟨hl, hs, hds⟩ := he
  have hspan := spanDigits_append_left hds rest
  cases sign with
  | some s =>
    simp only [text, Option.toList_some, List.cons_append, List.nil_append, Exponent.scan]
    rw [if_pos hl, if_pos (hs s rfl), hspan]
    simp [text]
  | none =>
    cases digits with
    | nil =>
      simp only [text, Option.toList_none, List.append_nil, List.cons_append, List.nil_append,
        Exponent.scan, if_pos hl]
      split
      · split <;> simp [text]
      · simp [text]
    | cons d ds =>
      simp only [text, Option.toList_none, List.cons_append, List.nil_append, Exponent.scan]
      rw [if_pos hl, if_neg (sign_ne_digit (hds d List.mem_cons_self)), ← List.cons_append, hspan]
      simp [text]

theorem scan_self {e : Exponent} (he : e.Shaped) : Exponent.scan e.text = (some e, []) := by
  by_cases hd : e.digits = []
  · obtain ⟨letter, sign, digits⟩ := e
    obtain rfl : digits = [] := hd
    cases sign with
    | none => exact if_pos he.letter
    | some s =>
      simp only [text, Option.toList_some, List.append_nil, Exponent.scan]
      rw [if_pos he.letter, if_pos (he.sign s rfl)]
      rfl
  · have hr : ∀ c ∈ ([] : List Char).head?, c.isDigit = false := by
      intro c hc
      cases hc
    have h := scan_eq he hd hr
    rwa [List.append_nil] at h

end Exponent

namespace Numeral

theorem scan_self {n : Numeral} (hn : n.Shaped) : scan n.text = (n, []) := by
  obtain ⟨whole, fraction, exponent⟩ := n
  have hr : ∀ c ∈ ([] : List Char).head?, prolongs c = false := by
    intro c hc
    cases hc
  have hh := head_exponent hn hr
  have hspan := spanDigits_whole hn hh
  have hfraction := scanFraction_eq hn hh
  rw [← List.append_nil (text _)]
  simp only [text, List.append_assoc, scan]
  rw [hspan, hfraction]
  dsimp only
  cases exponent with
  | some e =>
    have hd : whole ++ fraction.getD [] ≠ [] := hn.behind (Option.some_ne_none e)
    rw [if_neg (fun h => hd (List.isEmpty_iff.mp h)), Option.elim_some, List.append_nil,
      Exponent.scan_self (hn.exponent e rfl)]
  | none =>
    split
    · rfl
    · rfl

theorem scan_length_ge (cs : List Char) :
    (spanDigits cs).1.length + ((scanFraction (spanDigits cs).2).1.elim [] ('.' :: ·)).length ≤
      (scan cs).1.text.length := by
  simp only [scan]
  split <;> simp only [text, List.length_append, Nat.le_add_right]

theorem scan_exponent (cs : List Char)
    (h : (spanDigits cs).1 ++ (scanFraction (spanDigits cs).2).1.getD [] ≠ []) :
    (scan cs).1.text.length = (spanDigits cs).1.length +
      ((scanFraction (spanDigits cs).2).1.elim [] ('.' :: ·)).length +
      ((Exponent.scan (scanFraction (spanDigits cs).2).2).1.elim [] Exponent.text).length := by
  simp only [scan]
  rw [if_neg (fun he => h (List.isEmpty_iff.mp he))]
  simp only [text, List.length_append]

theorem scan_longest {n : Numeral} (hn : n.Shaped) (rest : List Char) :
    n.text.length ≤ (scan (n.text ++ rest)).1.text.length := by
  obtain ⟨whole, fraction, exponent⟩ := n
  have hlength : (text ⟨whole, fraction, exponent⟩).length = whole.length +
      (fraction.elim [] ('.' :: ·)).length + (exponent.elim [] Exponent.text).length := by
    simp only [text, List.length_append]
  rw [hlength]
  cases exponent with
  | some e =>
    -- the letter ends the part in front of it
    have hh : ∀ c ∈ (e.text ++ rest).head?, c.isDigit = false ∧ c ≠ '.' := by
      intro c hc
      obtain rfl : e.letter = c := Option.some.inj hc
      rcases (hn.exponent e rfl).letter with h | h <;> rw [h] <;> decide
    have hspan := spanDigits_whole hn hh
    have hfraction := scanFraction_eq hn hh
    have hd : whole ++ fraction.getD [] ≠ [] := hn.behind (Option.some_ne_none e)
    have he := Exponent.scan_longest (hn.exponent e rfl) rest
    have h := scan_exponent (text ⟨whole, fraction, some e⟩ ++ rest)
    simp only [text, List.append_assoc] at h ⊢
    rw [hspan, hfraction] at h
    rw [h hd]
    exact Nat.add_le_add_left he _
  | none =>
    have h := scan_length_ge (text ⟨whole, fraction, none⟩ ++ rest)
    refine Nat.le_trans ?_ h
    cases fraction with
    | none =>
      simp only [text, Option.elim_none, List.append_nil, spanDigits_append_left hn.whole,
        List.length_append, List.length_nil]
      omega
    | some ds =>
      have hpoint : spanDigits (whole ++ '.' :: (ds ++ rest)) = (whole, '.' :: (ds ++ rest)) :=
        spanDigits_eq hn.whole fun c hc => Option.some.inj hc ▸ rfl
      simp only [text, Option.elim_some, Option.elim_none, List.append_nil, List.append_assoc,
        List.cons_append, hpoint, scanFraction, spanDigits_append_left (hn.fraction ds rfl),
        List.length_cons, List.length_append, List.length_nil]
      omega

end Numeral
end Formula
