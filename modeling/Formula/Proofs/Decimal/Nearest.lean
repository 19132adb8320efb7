import Formula.Decimal
import Mathlib.Algebra.Order.Ring.Nat
import Mathlib.Order.Monotone.Basic

/-!
# The nearest double

Doubles increase with their bits, and so do the midpoints between neighbours: a number
that reaches one double reaches all before it. A decimal that reaches a double and not
the next one is read as that double, since the bounds that spare the powers of ten cut
off only decimals that are rounded to zero or to infinity anyway. So the shortest decimal
of a double is read as the double.
-/

namespace Formula

theorem twoPow_eq (n : Nat) : twoPow n = 2 ^ n := rfl

namespace Binary64

theorem units_subnormal {m : Nat} (hm : m < 2 ^ 52) : units m = 2 * m := by
  rw [units, twoPow_eq, if_pos (Nat.div_eq_of_lt hm)]

theorem units_normal {e m : Nat} (he : 0 < e) (hm : m < 2 ^ 52) :
    units (2 ^ 52 * e + m) = (2 ^ 52 + m) * 2 ^ e := by
  have hdiv : (2 ^ 52 * e + m) / 2 ^ 52 = e := by omega
  have hmod : (2 ^ 52 * e + m) % 2 ^ 52 = m := by omega
  rw [units, twoPow_eq, twoPow_eq, hdiv, hmod, if_neg (Nat.ne_of_gt he)]

theorem units_lt_succ (bits : Nat) : units bits < units (bits + 1) := by
  have hd := Nat.div_add_mod bits (2 ^ 52)
  have hm := Nat.mod_lt bits (Nat.two_pow_pos 52)
  generalize bits / 2 ^ 52 = e at hd
  generalize bits % 2 ^ 52 = m at hd hm
  rw [← hd]
  rcases Nat.eq_zero_or_pos e with rfl | he
  · rw [Nat.mul_zero, Nat.zero_add, units_subnormal hm]
    rcases Nat.lt_or_ge (m + 1) (2 ^ 52) with h | h
    · rw [units_subnormal h]
      omega
    · -- the least normal double
      obtain rfl : m = 2 ^ 52 - 1 := by omega
      decide
  · rw [units_normal he hm]
    have hp := Nat.two_pow_pos e
    rcases Nat.lt_or_ge (m + 1) (2 ^ 52) with h | h
    · rw [Nat.add_assoc, units_normal he h]
      exact Nat.mul_lt_mul_of_pos_right (by omega) hp
    · -- the mantissa carries into the exponent
      have hn : 2 ^ 52 * e + m + 1 = 2 ^ 52 * (e + 1) + 0 := by omega
      rw [hn, units_normal (Nat.succ_pos e) (by decide), Nat.pow_succ]
      have hlt := Nat.mul_lt_mul_of_pos_right (show 2 ^ 52 + m < 2 ^ 52 * 2 by omega) hp
      calc (2 ^ 52 + m) * 2 ^ e < 2 ^ 52 * 2 * 2 ^ e := hlt
        _ = (2 ^ 52 + 0) * (2 ^ e * 2) := by rw [Nat.add_zero, Nat.mul_assoc, Nat.mul_comm 2]

theorem units_strictMono : StrictMono units := strictMono_nat_of_lt_succ units_lt_succ

theorem midpoint_strictMono : StrictMono midpoint := by
  apply strictMono_nat_of_lt_succ
  intro bits
  have h := units_lt_succ bits
  have hle := units_strictMono.monotone (Nat.sub_le bits 1)
  simp only [midpoint, Nat.add_sub_cancel]
  omega

theorem le_of_reaches {num den bits : Nat} (h : reaches num den bits = true) :
    midpoint bits * den ≤ num * twoPow 1076 := by
  simp only [reaches, Bool.or_eq_true, Bool.and_eq_true, beq_iff_eq, decide_eq_true_eq] at h
  rcases h with (rfl | h) | ⟨h, -⟩
  · rw [show midpoint 0 = 0 from rfl, Nat.zero_mul]
    exact Nat.zero_le _
  · exact Nat.le_of_lt h
  · exact Nat.le_of_eq h

theorem reaches_of_lt {num den bits : Nat} (h : midpoint bits * den < num * twoPow 1076) :
    reaches num den bits = true := by
  rw [reaches, decide_eq_true h, Bool.or_true, Bool.true_or]

theorem reaches_eq_false {num den bits : Nat} (h : num * twoPow 1076 < midpoint bits * den) :
    reaches num den bits = false := by
  rw [← Bool.not_eq_true]
  intro hr
  exact Nat.not_le_of_lt h (le_of_reaches hr)

theorem reaches_of_le {num den a b : Nat} (hd : 0 < den) (hab : a ≤ b)
    (h : reaches num den b = true) : reaches num den a = true := by
  rcases Nat.eq_or_lt_of_le hab with rfl | hlt
  · exact h
  · apply reaches_of_lt
    have hm := Nat.mul_lt_mul_of_pos_right (midpoint_strictMono hlt) hd
    exact Nat.lt_of_lt_of_le hm (le_of_reaches h)

theorem nearest_eq {num den bits : Nat} (hd : 0 < den) (hb : bits < infinityBits)
    (h : reaches num den bits = true) (hn : reaches num den (bits + 1) = false) :
    nearest num den = bits := by
  have hholds : (decide (nearest num den ≤ infinityBits) &&
      reaches num den (nearest num den)) = true :=
    greatest_holds (p := fun b => decide (b ≤ infinityBits) && reaches num den b) 63 rfl
  apply Nat.le_antisymm
  · apply Nat.le_of_not_lt
    intro hlt
    have hr := reaches_of_le hd hlt (Bool.and_eq_true_iff.mp hholds).2
    rw [hn] at hr
    cases hr
  · refine le_greatest_of_holds ?_ 63 0 (Nat.lt_trans hb (by decide)) ?_
    · intro a b hab hp
      obtain ⟨hle, hr⟩ := Bool.and_eq_true_iff.mp hp
      rw [reaches_of_le hd hab hr, decide_eq_true (Nat.le_trans hab (of_decide_eq_true hle))]
      rfl
    · rw [h, decide_eq_true (Nat.le_of_lt hb)]
      rfl

theorem midpoint_infinityBits_le : midpoint infinityBits ≤ 2 ^ 2100 := by
  decide +kernel

end Binary64

namespace Decimal

open Binary64

theorem denominator_pos (d : Decimal) : 0 < d.denominator := tenPow_pos _

theorem digits_lt (d : Decimal) : d.digits < 10 ^ (Nat.toDigits 10 d.digits).length :=
  (Nat.length_toDigits_le_iff (by decide) Nat.length_toDigits_pos).mp (Nat.le_refl _)

theorem le_digits {d : Decimal} (h : d.digits ≠ 0) :
    10 ^ ((Nat.toDigits 10 d.digits).length - 1) ≤ d.digits := by
  rcases Nat.eq_zero_or_pos ((Nat.toDigits 10 d.digits).length - 1) with hl | hl
  · rw [hl]
    exact Nat.pos_of_ne_zero h
  · apply Nat.le_of_not_lt
    intro hlt
    have := (Nat.length_toDigits_le_iff (b := 10) (by decide) hl).mpr hlt
    omega

theorem numerator_lt {d : Decimal} {n : Nat} (h : d.magnitude ≤ -n) :
    d.numerator * 10 ^ n < d.denominator := by
  have hd := d.digits_lt
  simp only [magnitude] at h
  generalize (Nat.toDigits 10 d.digits).length = len at h hd
  have hnum : d.numerator = d.digits := by
    have he : d.exponent.toNat = 0 := by omega
    rw [numerator, he]
    exact Nat.mul_one _
  calc d.numerator * 10 ^ n = d.digits * 10 ^ n := by rw [hnum]
    _ < 10 ^ len * 10 ^ n := Nat.mul_lt_mul_of_pos_right hd (Nat.pow_pos (by decide))
    _ = 10 ^ (len + n) := (Nat.pow_add 10 len n).symm
    _ ≤ d.denominator := Nat.pow_le_pow_right (by decide) (by omega)

theorem le_numerator {d : Decimal} {n : Nat} (h : n < d.magnitude) (h0 : d.digits ≠ 0) :
    10 ^ n * d.denominator ≤ d.numerator := by
  have hd := le_digits h0
  have hpos : 0 < (Nat.toDigits 10 d.digits).length := Nat.length_toDigits_pos
  simp only [magnitude] at h
  generalize (Nat.toDigits 10 d.digits).length = len at h hd hpos
  calc 10 ^ n * d.denominator = 10 ^ (n + (-d.exponent).toNat) := (Nat.pow_add 10 _ _).symm
    _ ≤ 10 ^ (len - 1 + d.exponent.toNat) := Nat.pow_le_pow_right (by decide) (by omega)
    _ = 10 ^ (len - 1) * 10 ^ d.exponent.toNat := Nat.pow_add 10 _ _
    _ ≤ d.numerator := Nat.mul_le_mul_right _ hd

theorem readsAs_iff {d : Decimal} {bits : Nat} :
    d.readsAs bits = true ↔ reaches d.numerator d.denominator bits = true ∧
      reaches d.numerator d.denominator (bits + 1) = false := by
  rw [readsAs, Bool.and_eq_true, Bool.not_eq_true']

theorem eq_zero_of_reaches {d : Decimal} {bits : Nat}
    (h : d.digits = 0 ∨ d.magnitude ≤ -324)
    (hr : reaches d.numerator d.denominator bits = true) : bits = 0 := by
  by_contra hb
  have hden := d.denominator_pos
  have hle := le_of_reaches (reaches_of_le hden (Nat.one_le_iff_ne_zero.mpr hb) hr)
  rw [show Binary64.midpoint 1 = 2 from rfl] at hle
  rcases h with h | h
  · rw [numerator, h, Nat.zero_mul, Nat.zero_mul] at hle
    omega
  · have hlt := numerator_lt (n := 324) h
    have hpow : twoPow 1076 ≤ 10 ^ 324 := by decide +kernel
    have := Nat.mul_le_mul_left d.numerator hpow
    omega

theorem reaches_of_magnitude {d : Decimal} (h0 : d.digits ≠ 0) (h : 310 ≤ d.magnitude) {bits : Nat}
    (hb : bits ≤ infinityBits) : reaches d.numerator d.denominator bits = true := by
  apply reaches_of_le d.denominator_pos hb
  apply reaches_of_lt
  have hnum := le_numerator (n := 309) (by omega) h0
  have hpow : 2 ^ 2100 < 10 ^ 309 * twoPow 1076 := by decide +kernel
  calc Binary64.midpoint infinityBits * d.denominator
      ≤ 2 ^ 2100 * d.denominator := Nat.mul_le_mul_right _ midpoint_infinityBits_le
    _ < 10 ^ 309 * twoPow 1076 * d.denominator :=
      Nat.mul_lt_mul_of_pos_right hpow d.denominator_pos
    _ = 10 ^ 309 * d.denominator * twoPow 1076 := Nat.mul_right_comm _ _ _
    _ ≤ d.numerator * twoPow 1076 := Nat.mul_le_mul_right _ hnum

theorem toBits_eq_of_readsAs {d : Decimal} {bits : Nat} (hb : bits < infinityBits)
    (h : d.readsAs bits = true) : d.toBits = bits := by
  obtain ⟨hr, hn⟩ := readsAs_iff.mp h
  unfold toBits
  split
  · rename_i hsmall
    exact (eq_zero_of_reaches hsmall hr).symm
  · rename_i hsmall
    rw [not_or] at hsmall
    split
    · rename_i hlarge
      rw [reaches_of_magnitude hsmall.1 hlarge hb] at hn
      cases hn
    · exact nearest_eq d.denominator_pos hb hr hn

theorem readsAs_of_onGrid? {bits : Nat} {exponent : Int} {d : Decimal}
    (h : onGrid? bits exponent = some d) : d.readsAs bits = true := by
  unfold onGrid? at h
  split at h
  rename_i num den _
  dsimp only at h
  split at h
  · rename_i hlow hhigh
    cases h
    split
    · exact hlow
    · exact hhigh
  · rename_i hlow _
    cases h
    exact hlow
  · rename_i _ hhigh
    cases h
    exact hhigh
  · cases h

theorem readsAs_exact {bits : Nat} (hb : 0 < bits) : (exact bits).readsAs bits = true := by
  have hlow := units_strictMono (Nat.sub_one_lt_of_lt hb)
  have hhigh := units_lt_succ bits
  have hpow : Nat.pow 5 1075 * twoPow 1076 = 2 * tenPow 1075 := by decide +kernel
  have hnum : (exact bits).numerator * twoPow 1076 = 2 * units bits * tenPow 1075 := by
    rw [numerator, exact, show (-1075 : Int).toNat = 0 from rfl, show tenPow 0 = 1 from rfl,
      Nat.mul_one, Nat.mul_assoc, hpow, Nat.mul_left_comm, Nat.mul_assoc]
  have hden : (exact bits).denominator = tenPow 1075 := by
    rw [denominator, exact, show (- -1075 : Int).toNat = 1075 from rfl]
  rw [readsAs_iff, hden]
  constructor
  · apply reaches_of_lt
    rw [hnum]
    refine Nat.mul_lt_mul_of_pos_right ?_ (tenPow_pos 1075)
    simp only [Binary64.midpoint]
    omega
  · apply reaches_eq_false
    rw [hnum]
    refine Nat.mul_lt_mul_of_pos_right ?_ (tenPow_pos 1075)
    simp only [Binary64.midpoint, Nat.add_sub_cancel]
    omega

theorem readsAs_shortest (bits : Nat) : (shortest bits).readsAs bits = true := by
  unfold shortest
  split
  · rename_i hb
    rw [hb]
    decide +kernel
  · rename_i hb
    cases hg : onGrid? bits (coarsest bits) with
    | some d => exact readsAs_of_onGrid? hg
    | none => exact readsAs_exact (Nat.pos_of_ne_zero hb)

end Decimal
end Formula
