/-!
# Decimals as binary floating-point numbers

A decimal is a row of digits and a power of ten. The bits of a double without its sign,
read as a natural number, count through the doubles in increasing order, from zero to
infinity. A non-negative rational is rounded to the last double whose lower midpoint it
reaches; on the midpoint itself the even one of the two neighbours is taken. That double
is sought bit by bit, the largest first.
-/

namespace Formula

section Powers

def twoPow (n : Nat) : Nat := Nat.pow 2 n

def tenPow (n : Nat) : Nat := Nat.pow 10 n

theorem twoPow_succ (n : Nat) : twoPow (n + 1) = twoPow n + twoPow n := by
  simp only [twoPow, Nat.pow_eq, Nat.pow_succ]
  omega

theorem tenPow_pos (n : Nat) : 0 < tenPow n := Nat.pow_pos (by decide)

end Powers

section Bisection

/-- The greatest number below `low + 2 ^ n` with the property, sought from `low` upwards. -/
def greatest (p : Nat → Bool) : Nat → Nat → Nat
  | 0, low => low
  | n + 1, low => greatest p n (if p (low + twoPow n) then low + twoPow n else low)

theorem greatest_holds {p : Nat → Bool} (n : Nat) {low : Nat} (h : p low) :
    p (greatest p n low) := by
  induction n generalizing low with
  | zero => exact h
  | succ n ih =>
    simp only [greatest]
    split
    · exact ih (by assumption)
    · exact ih h

theorem le_greatest_of_holds {p : Nat → Bool} (down : ∀ a b, a ≤ b → p b → p a)
    (n low : Nat) {b : Nat} (hb : b < low + twoPow n) (h : p b) : b ≤ greatest p n low := by
  induction n generalizing low with
  | zero => exact Nat.le_of_lt_succ hb
  | succ n ih =>
    have := twoPow_succ n
    simp only [greatest]
    split
    · exact ih _ (by omega)
    · rename_i hp
      exact ih _ (Nat.lt_of_not_le fun hle => hp (down _ _ hle h))

end Bisection

/-- The number `digits * 10 ^ exponent`. -/
structure Decimal where
  digits : Nat
  exponent : Int
deriving DecidableEq, Repr

namespace Decimal

def numerator (d : Decimal) : Nat := d.digits * tenPow d.exponent.toNat

def denominator (d : Decimal) : Nat := tenPow (-d.exponent).toNat

def ofDigits (ds : List Char) : Nat :=
  ds.foldl (fun n d => 10 * n + (d.toNat - '0'.toNat)) 0

end Decimal

namespace Binary64

def infinityBits : Nat := 0x7FF0000000000000

/-- The value of a double as a multiple of `2 ^ -1075`, a half of the least positive one. -/
def units (bits : Nat) : Nat :=
  if bits / twoPow 52 = 0 then 2 * bits
  else (twoPow 52 + bits % twoPow 52) * twoPow (bits / twoPow 52)

/-- Halfway between a double and the one before it, as a multiple of `2 ^ -1076`. -/
def midpoint (bits : Nat) : Nat := units (bits - 1) + units bits

/-- The rational `num / den` is rounded to this double or to a later one. -/
def reaches (num den bits : Nat) : Bool :=
  bits == 0 || decide (midpoint bits * den < num * twoPow 1076) ||
    (midpoint bits * den == num * twoPow 1076 && bits % 2 == 0)

def nearest (num den : Nat) : Nat :=
  greatest (fun bits => decide (bits ≤ infinityBits) && reaches num den bits) 63 0

end Binary64

namespace Decimal

/-- The power of ten above the number: `d < 10 ^ d.magnitude`, and it is the least such power. -/
def magnitude (d : Decimal) : Int := (Nat.toDigits 10 d.digits).length + d.exponent

/-- Numbers from `10 ^ 309` on are infinite and those below `10 ^ -324` are zero, which spares the
powers of ten that no double needs. -/
def toBits (d : Decimal) : Nat :=
  if d.digits = 0 ∨ d.magnitude ≤ -324 then 0
  else if 310 ≤ d.magnitude then Binary64.infinityBits
  else Binary64.nearest d.numerator d.denominator

def toFloat (d : Decimal) : Float := Float.ofBits d.toBits.toUInt64

end Decimal

/-!
## Numerals

The written form of an unsigned number: digits, a point with digits behind it,
and an exponent with a sign of its own. Reading takes the longest such form that
stands at the front of a text; whether it has the digits that it needs is a
question of its own.
-/

structure Exponent where
  letter : Char
  sign : Option Char
  digits : List Char
deriving DecidableEq, Repr

structure Numeral where
  whole : List Char
  fraction : Option (List Char)
  exponent : Option Exponent
deriving DecidableEq, Repr

def spanDigits (cs : List Char) : List Char × List Char :=
  (cs.takeWhile Char.isDigit, cs.dropWhile Char.isDigit)

theorem spanDigits_append (cs : List Char) : (spanDigits cs).1 ++ (spanDigits cs).2 = cs :=
  List.takeWhile_append_dropWhile

namespace Exponent

def text (e : Exponent) : List Char := e.letter :: e.sign.toList ++ e.digits

def value (e : Exponent) : Int :=
  if e.sign = some '-' then -(Decimal.ofDigits e.digits : Int) else Decimal.ofDigits e.digits

def scan : List Char → Option Exponent × List Char
  | c :: cs =>
    if c = 'e' ∨ c = 'E' then
      match cs with
      | s :: rest =>
        if s = '+' ∨ s = '-' then
          (some ⟨c, some s, (spanDigits rest).1⟩, (spanDigits rest).2)
        else (some ⟨c, none, (spanDigits (s :: rest)).1⟩, (spanDigits (s :: rest)).2)
      | [] => (some ⟨c, none, []⟩, [])
    else (none, c :: cs)
  | [] => (none, [])

end Exponent

namespace Numeral

def text (n : Numeral) : List Char :=
  n.whole ++ (n.fraction.elim [] ('.' :: ·)) ++ (n.exponent.elim [] Exponent.text)

def wellFormed (n : Numeral) : Bool :=
  !(n.whole ++ n.fraction.getD []).isEmpty && n.exponent.all fun e => !e.digits.isEmpty

def decimal (n : Numeral) : Decimal where
  digits := Decimal.ofDigits (n.whole ++ n.fraction.getD [])
  exponent := n.exponent.elim 0 Exponent.value - (n.fraction.getD []).length

def value (n : Numeral) : Float := n.decimal.toFloat

def scanFraction : List Char → Option (List Char) × List Char
  | '.' :: cs => (some (spanDigits cs).1, (spanDigits cs).2)
  | cs => (none, cs)

/-- The longest numeral at the front of a text, and the rest. An exponent belongs to it only
behind digits. -/
def scan (cs : List Char) : Numeral × List Char :=
  let (whole, afterWhole) := spanDigits cs
  let (fraction, afterFraction) := scanFraction afterWhole
  if (whole ++ fraction.getD []).isEmpty then (⟨whole, fraction, none⟩, afterFraction)
  else
    let (exponent, rest) := Exponent.scan afterFraction
    (⟨whole, fraction, exponent⟩, rest)

end Numeral

theorem Exponent.scan_text (cs : List Char) :
    (Exponent.scan cs).1.elim [] Exponent.text ++ (Exponent.scan cs).2 = cs := by
  unfold Exponent.scan
  split
  · split
    · split
      · split <;> simp [Exponent.text, spanDigits_append]
      · simp [Exponent.text]
    · simp
  · simp

theorem Numeral.scanFraction_text (cs : List Char) :
    (Numeral.scanFraction cs).1.elim [] ('.' :: ·) ++ (Numeral.scanFraction cs).2 = cs := by
  unfold Numeral.scanFraction
  split <;> simp [spanDigits_append]

theorem Numeral.scan_text_ne_nil {c : Char} (cs : List Char) (h : c.isDigit || c == '.') :
    (Numeral.scan (c :: cs)).1.text ≠ [] := by
  by_cases hc : c.isDigit
  · simp only [Numeral.scan, spanDigits, List.takeWhile_cons, hc, if_true]
    split <;> simp [Numeral.text]
  · obtain rfl : c = '.' := by simpa [hc] using h
    simp only [Numeral.scan, spanDigits, List.takeWhile_cons, List.dropWhile_cons, hc,
      Numeral.scanFraction, Bool.false_eq_true, if_false, List.nil_append, Option.getD_some]
    split <;> simp [Numeral.text]

theorem Numeral.scan_text (cs : List Char) :
    (Numeral.scan cs).1.text ++ (Numeral.scan cs).2 = cs := by
  have hw := spanDigits_append cs
  have hf := Numeral.scanFraction_text (spanDigits cs).2
  have he := Exponent.scan_text (Numeral.scanFraction (spanDigits cs).2).2
  simp only [Numeral.scan]
  split
  · simp only [Numeral.text, Option.elim_none, List.append_nil, List.append_assoc]
    rw [hf, hw]
  · simp only [Numeral.text, List.append_assoc]
    rw [he, hf, hw]

def readFloat? (cs : List Char) : Option Float :=
  match cs with
  | '-' :: cs => (magnitude? cs).map (- ·)
  | '+' :: cs => magnitude? cs
  | cs => magnitude? cs
where
  magnitude? (cs : List Char) : Option Float :=
    let name := String.ofList (cs.map Char.toLower)
    if name = "inf" ∨ name = "infinity" then some (1 / 0)
    else if name = "nan" then some (0 / 0)
    else
      match Numeral.scan cs with
      | (n, []) => if n.wellFormed then some n.value else none
      | _ => none

/-!
## The text of a floating-point number

A finite double is written with the fewest digits that are read as the same double: on
the coarsest grid of a power of ten on which one of the two neighbours of the value is
read back. Of two such neighbours the nearer one is taken, and the upper one when they
are equally near. With a given number of digits the exact value is rounded, a half to the
even neighbour. A number that is no double of its own kind (not a number, infinite) has a
name, a negative one a minus, and zero keeps its sign.
-/

namespace Decimal

def insertPoint (ds : List Char) (places : Nat) : List Char :=
  if places < ds.length then
    ds.take (ds.length - places) ++ '.' :: ds.drop (ds.length - places)
  else '0' :: '.' :: List.replicate (places - ds.length) '0' ++ ds

def positional (d : Decimal) : List Char :=
  let ds := Nat.toDigits 10 d.digits
  if 0 ≤ d.exponent then ds ++ List.replicate d.exponent.toNat '0'
  else insertPoint ds (-d.exponent).toNat

section Shortest

/-- The decimal is read as the double with these bits and as no later one. -/
def readsAs (d : Decimal) (bits : Nat) : Bool :=
  Binary64.reaches d.numerator d.denominator bits &&
    !Binary64.reaches d.numerator d.denominator (bits + 1)

/-- The value of a double in steps of `10 ^ exponent`, as a numerator and a denominator. -/
def steps (bits : Nat) (exponent : Int) : Nat × Nat :=
  (Binary64.units bits * tenPow (-exponent).toNat, twoPow 1075 * tenPow exponent.toNat)

def onGrid? (bits : Nat) (exponent : Int) : Option Decimal :=
  let (num, den) := steps bits exponent
  let low : Decimal := ⟨num / den, exponent⟩
  let high : Decimal := ⟨num / den + 1, exponent⟩
  match low.readsAs bits, high.readsAs bits with
  | true, true => some (if 2 * (num % den) < den then low else high)
  | true, false => some low
  | false, true => some high
  | false, false => none

/-- No double needs a grid finer than this power of ten. -/
def finestExponent : Int := -340

def coarsest (bits : Nat) : Int :=
  greatest (fun n => (onGrid? bits (n + finestExponent)).isSome) 10 0 + finestExponent

def exact (bits : Nat) : Decimal := ⟨Binary64.units bits * Nat.pow 5 1075, -1075⟩

def shortest (bits : Nat) : Decimal :=
  if bits = 0 then ⟨0, 0⟩ else (onGrid? bits (coarsest bits)).getD (exact bits)

end Shortest

section Scientific

def roundQuotient (num den : Nat) : Nat :=
  let down := num / den
  if 2 * (num % den) < den ∨ (2 * (num % den) = den ∧ down % 2 = 0) then down else down + 1

def leadingExponent (bits : Nat) : Int :=
  greatest (fun n =>
    let (num, den) := steps bits (n + finestExponent)
    decide (den ≤ num)) 10 0 + finestExponent

/-- The double rounded to `places + 1` digits, and the exponent of the first of them. -/
def significant (places bits : Nat) : Nat × Int :=
  if bits = 0 then (0, 0)
  else
    let e := leadingExponent bits
    let (num, den) := steps bits (e - places)
    let digits := roundQuotient num den
    if digits = tenPow (places + 1) then (tenPow places, e + 1) else (digits, e)

def scientific (places bits : Nat) : List Char :=
  let (digits, e) := significant places bits
  let ds := Nat.toDigits 10 digits
  let row := ds ++ List.replicate (places + 1 - ds.length) '0'
  (if places = 0 then row else insertPoint row places) ++ 'e' :: (toString e).toList

end Scientific

end Decimal

def magnitudeBits (x : Float) : Nat := x.toBits.toNat % twoPow 63

def isNegative (x : Float) : Bool := twoPow 63 ≤ x.toBits.toNat

def signedText (finite : Nat → List Char) (x : Float) : String :=
  if x.isNaN then "NaN"
  else
    let body :=
      if magnitudeBits x = Binary64.infinityBits then ['i', 'n', 'f']
      else finite (magnitudeBits x)
    String.ofList (if isNegative x then '-' :: body else body)

def floatText (x : Float) : String :=
  signedText (fun bits => (Decimal.shortest bits).positional) x

def scientificText (places : Nat) (x : Float) : String :=
  signedText (Decimal.scientific places) x

end Formula
