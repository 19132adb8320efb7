import Formula.Proofs.Decimal.Numeral
import Formula.Token.Sequence

/-!
# Classes of characters

Where the classes of characters that the scan tells apart lie among the code points.
Blanks lie below and above all characters that a token is written with.
-/

namespace Formula

theorem isDigit_toNat {c : Char} (h : c.isDigit = true) : 48 ≤ c.toNat ∧ c.toNat ≤ 57 :=
  Char.isDigit_iff_toNat.mp h

theorem isAlpha_toNat {c : Char} (h : c.isAlpha = true) :
    65 ≤ c.toNat ∧ c.toNat ≤ 90 ∨ 97 ≤ c.toNat ∧ c.toNat ≤ 122 := by
  have h : (c.isUpper || c.isLower) = true := h
  rcases Bool.or_eq_true_iff.mp h with hu | hl
  · have hu : c.val ≥ 'A'.val ∧ c.val ≤ 'Z'.val := of_decide_eq_true hu
    exact .inl ⟨UInt32.le_iff_toNat_le.mp hu.1, UInt32.le_iff_toNat_le.mp hu.2⟩
  · obtain ⟨ha, hz⟩ := Bool.and_eq_true_iff.mp hl
    exact .inr ⟨UInt32.le_iff_toNat_le.mp (of_decide_eq_true ha),
      UInt32.le_iff_toNat_le.mp (of_decide_eq_true hz)⟩

theorem startsName_toNat {c : Char} (h : startsName c = true) :
    c.toNat = 36 ∨ 65 ≤ c.toNat ∧ c.toNat ≤ 122 := by
  simp only [startsName, Bool.or_eq_true, beq_iff_eq] at h
  rcases h with (h | rfl) | rfl
  · have := isAlpha_toNat h
    omega
  · exact .inr (by decide)
  · exact .inl rfl

theorem continuesName_toNat {c : Char} (h : continuesName c = true) :
    c.toNat = 36 ∨ 48 ≤ c.toNat ∧ c.toNat ≤ 57 ∨ 65 ≤ c.toNat ∧ c.toNat ≤ 122 := by
  simp only [continuesName, Char.isAlphanum, Bool.or_eq_true, beq_iff_eq] at h
  rcases h with ((h | h) | rfl) | rfl
  · have := isAlpha_toNat h
    omega
  · have := isDigit_toNat h
    omega
  · exact .inr (.inr (by decide))
  · exact .inl rfl

theorem prolongs_toNat {c : Char} (h : Numeral.prolongs c = true) :
    46 ≤ c.toNat ∧ c.toNat ≤ 101 := by
  simp only [Numeral.prolongs, Bool.or_eq_true, beq_iff_eq] at h
  rcases h with ((h | rfl) | rfl) | rfl
  · have := isDigit_toNat h
    omega
  · decide
  · decide
  · decide

theorem isBlank_toNat {c : Char} (h : Text.isBlank c = true) : c.toNat ≤ 32 ∨ 133 ≤ c.toNat := by
  simp only [Text.isBlank, Text.blankRanges, List.any_cons, List.any_nil, Bool.or_eq_true,
    Bool.and_eq_true, decide_eq_true_eq, Bool.false_eq_true, or_false] at h
  omega

theorem isBlank_eq_false {c : Char} (h : 33 ≤ c.toNat ∧ c.toNat ≤ 132) :
    Text.isBlank c = false := by
  rw [← Bool.not_eq_true]
  intro hb
  have := isBlank_toNat hb
  omega

theorem startsName_not_digit {c : Char} (h : startsName c = true) :
    (c.isDigit || c == '.') = false := by
  have hc := startsName_toNat h
  rw [Bool.or_eq_false_iff]
  constructor
  · rw [← Bool.not_eq_true]
    intro hd
    have := isDigit_toNat hd
    omega
  · rw [beq_eq_false_iff_ne]
    rintro rfl
    revert hc
    decide

theorem Exponent.Shaped.toNat {e : Exponent} (he : e.Shaped) {c : Char} (hc : c ∈ e.text) :
    33 ≤ c.toNat ∧ c.toNat ≤ 132 := by
  simp only [Exponent.text, List.cons_append, List.mem_cons, List.mem_append,
    Option.mem_toList] at hc
  rcases hc with rfl | hc | hc
  · rcases he.letter with h | h <;> rw [h] <;> decide
  · rcases he.sign c hc with rfl | rfl <;> decide
  · have := isDigit_toNat (he.digits c hc)
    omega

theorem Numeral.Shaped.toNat {n : Numeral} (hn : n.Shaped) {c : Char} (hc : c ∈ n.text) :
    33 ≤ c.toNat ∧ c.toNat ≤ 132 := by
  obtain ⟨whole, fraction, exponent⟩ := n
  simp only [Numeral.text, List.mem_append] at hc
  rcases hc with (hc | hc) | hc
  · have := isDigit_toNat (hn.whole c hc)
    omega
  · cases fraction with
    | none => cases hc
    | some ds =>
      rcases List.mem_cons.mp hc with rfl | hc
      · decide
      · have := isDigit_toNat (hn.fraction ds rfl c hc)
        omega
  · cases exponent with
    | none => cases hc
    | some e => exact (hn.exponent e rfl).toNat hc

theorem blank_ends {c : Char} (hb : Text.isBlank c = true) :
    Numeral.prolongs c = false ∧ continuesName c = false ∧ c ≠ '*' := by
  have h := isBlank_toNat hb
  refine ⟨?_, ?_, ?_⟩
  · rw [← Bool.not_eq_true]
    intro hp
    have := prolongs_toNat hp
    omega
  · rw [← Bool.not_eq_true]
    intro hc
    have := continuesName_toNat hc
    omega
  · intro hc
    subst hc
    revert h
    decide

end Formula
