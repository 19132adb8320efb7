import Formula.Proofs.Decimal.Nearest
import Formula.Proofs.Decimal.Signs
import Formula.Proofs.Token.Spelling

/-!
# Texts that read back

A decimal that is written with its point in place is a numeral for the same number,
whether zeros are appended, the point stands among the digits or zeros are put before
them. So the text of a finite double is a numeral that is read as its magnitude, with a
minus in front of it if the sign bit is set.
-/

namespace Formula

namespace Decimal

theorem ofDigits_eq (ds : List Char) : ofDigits ds = Nat.ofDigitChars 10 ds 0 := by
  rw [ofDigits, Nat.ofDigitChars_eq_foldl]

theorem ofDigits_toDigits (n : Nat) : ofDigits (Nat.toDigits 10 n) = n := by
  rw [ofDigits_eq, Nat.ofDigitChars_ten_toDigits]

theorem ofDigits_append_zeros (ds : List Char) (n : Nat) :
    ofDigits (ds ++ List.replicate n '0') = ofDigits ds * tenPow n := by
  rw [ofDigits_eq, ofDigits_eq, Nat.ofDigitChars_append, Nat.ofDigitChars_replicate_zero,
    Nat.mul_comm]
  rfl

theorem ofDigits_zeros_append (n : Nat) (ds : List Char) :
    ofDigits (List.replicate n '0' ++ ds) = ofDigits ds := by
  rw [ofDigits_eq, ofDigits_eq, Nat.ofDigitChars_append, Nat.ofDigitChars_replicate_zero,
    Nat.mul_zero]

theorem isDigit_of_mem_zeros {n : Nat} : ∀ c ∈ List.replicate n '0', c.isDigit = true := by
  intro c hc
  rw [List.eq_of_mem_replicate hc]
  rfl

theorem isDigit_of_mem_toDigits {n : Nat} : ∀ c ∈ Nat.toDigits 10 n, c.isDigit = true := by
  intro c hc
  exact Nat.isDigit_of_mem_toDigits (by decide) (by decide) hc

/-- The text is a numeral that stands for the decimal, up to zeros behind it. -/
structure WrittenAs (d : Decimal) (n : Numeral) : Prop where
  shaped : n.Shaped
  wellFormed : n.wellFormed = true
  text : n.text = d.positional
  numerator : n.decimal.numerator = d.numerator
  denominator : n.decimal.denominator = d.denominator

theorem writtenAs_whole {d : Decimal} (he : 0 ≤ d.exponent) :
    d.WrittenAs ⟨Nat.toDigits 10 d.digits ++ List.replicate d.exponent.toNat '0', none, none⟩ := by
  have hd : ∀ c ∈ Nat.toDigits 10 d.digits ++ List.replicate d.exponent.toNat '0',
      c.isDigit = true := by
    intro c hc
    rcases List.mem_append.mp hc with hc | hc
    · exact isDigit_of_mem_toDigits c hc
    · exact isDigit_of_mem_zeros c hc
  have hneg : (-d.exponent).toNat = 0 := by omega
  obtain ⟨hs, hw⟩ := Numeral.shaped_wellFormed
    (n := ⟨Nat.toDigits 10 d.digits ++ List.replicate d.exponent.toNat '0', none, none⟩) hd
    (by simp) (by simp) (by simp [Nat.toDigits_ne_nil])
  refine ⟨hs, hw, ?_, ?_, ?_⟩
  · simp only [Numeral.text, Option.elim_none, List.append_nil, positional]
    rw [if_pos he]
  · simp only [Numeral.decimal, numerator, Option.getD_none, List.append_nil, Option.elim_none,
      List.length_nil, ofDigits_append_zeros, ofDigits_toDigits]
    exact Nat.mul_one _
  · rw [denominator, denominator, hneg]
    rfl

theorem writtenAs_point {d : Decimal} (he : d.exponent < 0) (whole fraction : List Char)
    (hw : ∀ c ∈ whole, c.isDigit = true) (hf : ∀ c ∈ fraction, c.isDigit = true)
    (hl : fraction.length = (-d.exponent).toNat) (hd : ofDigits (whole ++ fraction) = d.digits)
    (ht : whole ++ '.' :: fraction = d.positional) : d.WrittenAs ⟨whole, some fraction, none⟩ := by
  have hne : whole ++ fraction ≠ [] := by
    apply List.append_ne_nil_of_right_ne_nil
    apply List.ne_nil_of_length_pos
    omega
  obtain ⟨hs, hw⟩ := Numeral.shaped_wellFormed (n := ⟨whole, some fraction, none⟩) hw
    (by simpa using hf) (by simp) hne
  have hn : (⟨whole, some fraction, none⟩ : Numeral).decimal = d := by
    have hexp : (0 : Int) - (fraction.length : Nat) = d.exponent := by omega
    simp only [Numeral.decimal, Option.getD_some, Option.elim_none, hd, hexp]
  refine ⟨hs, hw, ?_, by rw [hn], by rw [hn]⟩
  rw [← ht]
  simp only [Numeral.text, Option.elim_some, Option.elim_none, List.append_nil]

theorem exists_writtenAs (d : Decimal) : ∃ n, d.WrittenAs n := by
  by_cases hpos : 0 ≤ d.exponent
  · exact ⟨_, writtenAs_whole hpos⟩
  · have he : d.exponent < 0 := Int.lt_of_not_ge hpos
    have ht : d.positional = insertPoint (Nat.toDigits 10 d.digits) (-d.exponent).toNat := by
      rw [positional, if_neg hpos]
    rw [insertPoint] at ht
    split at ht
    · rename_i hlt
      refine ⟨_, writtenAs_point he _ _ ?_ ?_ ?_ ?_ ht.symm⟩
      · intro c hc
        exact isDigit_of_mem_toDigits c (List.mem_of_mem_take hc)
      · intro c hc
        exact isDigit_of_mem_toDigits c (List.mem_of_mem_drop hc)
      · rw [List.length_drop]
        omega
      · rw [List.take_append_drop, ofDigits_toDigits]
    · rename_i hle
      refine ⟨_, writtenAs_point he ['0'] (List.replicate _ '0' ++ _) ?_ ?_ ?_ ?_ ht.symm⟩
      · intro c hc
        rw [List.mem_singleton.mp hc]
        rfl
      · intro c hc
        rcases List.mem_append.mp hc with hc | hc
        · exact isDigit_of_mem_zeros c hc
        · exact isDigit_of_mem_toDigits c hc
      · rw [List.length_append, List.length_replicate]
        omega
      · have hzero := ofDigits_zeros_append 1
        rw [List.replicate_one] at hzero
        rw [hzero, ofDigits_zeros_append, ofDigits_toDigits]

theorem WrittenAs.reads {d : Decimal} {n : Numeral} (h : d.WrittenAs n) {bits : Nat}
    (hd : d.readsAs bits = true) : n.decimal.readsAs bits = true := by
  rw [readsAs, h.numerator, h.denominator]
  exact hd

end Decimal

theorem floatText_numeral {x : Float} (hx : x.isFinite = true) :
    ∃ n : Numeral, n.Shaped ∧ n.wellFormed = true ∧
      (floatText x).toList = (if isNegative x then '-' :: n.text else n.text) ∧
      (if isNegative x then -n.value else n.value) = x := by
  have hlt := magnitudeBits_lt hx
  obtain ⟨n, hn⟩ := (Decimal.shortest (magnitudeBits x)).exists_writtenAs
  have hbits := Decimal.toBits_eq_of_readsAs hlt (hn.reads (Decimal.readsAs_shortest _))
  have hvalue : n.value = Float.ofBits (magnitudeBits x).toUInt64 := by
    rw [Numeral.value, Decimal.toFloat, hbits]
  refine ⟨n, hn.shaped, hn.wellFormed, ?_, ?_⟩
  · have hnan : ¬x.isNaN = true := by
      rw [isNaN_of_isFinite hx]
      exact Bool.false_ne_true
    rw [floatText, signedText, if_neg hnan, if_neg (Nat.ne_of_lt hlt), String.toList_ofList,
      hn.text]
  · rw [hvalue]
    exact ofBits_magnitudeBits hx

end Formula
