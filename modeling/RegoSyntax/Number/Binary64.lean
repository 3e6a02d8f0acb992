/-
# RegoSyntax.Number.Binary64 — floating-point numbers as exact ratios.

A finite binary64 number is a sign, a natural number below `2 ^ 53` and a power of two.  Every
operation here computes its exact result as a ratio of natural numbers and rounds that once, to the
nearest number and to an even one in the middle; no machine arithmetic is involved.  The smallest
power is `2 ^ -1074`, and the numbers that would need one above `2 ^ 971` do not exist.
-/
import RegoSyntax.Number.Word

namespace RegoSyntax

/-- The number `± mantissa * 2 ^ exponent`. -/
structure Binary64 where
  negative : Bool
  mantissa : Nat
  exponent : Int
deriving DecidableEq, Repr, Inhabited

namespace Binary64

/-- The power of two of the last place of the smallest numbers. -/
def minExponent : Int := -1074

/-- The power of two of the last place of the largest numbers. -/
def maxExponent : Int := 971

/-- The magnitudes `num * 2 ^ e` as a numerator and a denominator. -/
def scale (num : Nat) (e : Int) : Nat × Nat :=
  match e with
  | .ofNat n => (num * Nat.pow 2 n, 1)
  | .negSucc n => (num, Nat.pow 2 (n + 1))

/-- The quotient to the nearest natural number; halves go to the even one. -/
def roundDiv (num den : Nat) : Nat :=
  let q := num / den
  let r := num % den
  if 2 * r < den then q
  else if 2 * r > den then q + 1
  else if q % 2 == 0 then q else q + 1

/-- The quotient in units of `2 ^ e`, rounded. -/
def roundAt (num den : Nat) (e : Int) : Nat :=
  match e with
  | .ofNat n => roundDiv num (den * Nat.pow 2 n)
  | .negSucc n => roundDiv (num * Nat.pow 2 (n + 1)) den

/-- Whether a quotient has 53 digits in front of the place `2 ^ e`, or more: it is at least `2 ^ 52` in
units of it. -/
def fills (num den : Nat) (e : Int) : Bool :=
  match e with
  | .ofNat n => den * Nat.pow 2 n * Nat.pow 2 52 ≤ num
  | .negSucc n => den * Nat.pow 2 52 ≤ num * Nat.pow 2 (n + 1)

/-- The power of two of the last place of a number close to `num / den`.  The logarithms leave two
places to choose from: the quotient is below `2 ^ 54` in units of the higher one. -/
def placeOf (num den : Nat) : Int :=
  let guess : Int := (num.log2 : Int) - (den.log2 : Int) - 53
  max minExponent (if fills num den (guess + 1) then guess + 1 else guess)

/-- The number nearest to `± num / den`; none if it is too large. -/
def ofRatio? (negative : Bool) (num den : Nat) : Option Binary64 :=
  if num == 0 then some ⟨negative, 0, minExponent⟩
  else
    let e := placeOf num den
    let m := roundAt num den e
    let (m, e) := if m == Nat.pow 2 53 then (Nat.pow 2 52, e + 1) else (m, e)
    if e > maxExponent then none else some ⟨negative, m, e⟩

/-- The number nearest to `± digits * 10 ^ e`; none if it is too large.  Powers that decide the
answer alone are not computed. -/
def ofDecimal? (negative : Bool) (digits : Nat) (e : Int) : Option Binary64 :=
  if digits == 0 then some ⟨negative, 0, minExponent⟩
  else
    let size : Int := (Nat.toDigits 10 digits).length
    if size + e > 400 then none
    else if size + e < -400 then some ⟨negative, 0, minExponent⟩
    else
      match e with
      | .ofNat n => ofRatio? negative (digits * Nat.pow 10 n) 1
      | .negSucc n => ofRatio? negative digits (Nat.pow 10 (n + 1))

/-- The magnitude of a number, as a numerator and a denominator. -/
def magnitude (x : Binary64) : Nat × Nat := scale x.mantissa x.exponent

/-- Whether a number is zero, of either sign. -/
def isZero (x : Binary64) : Bool := x.mantissa == 0

/-- Whether two numbers are equal; the two zeros are. -/
def equal (x y : Binary64) : Bool := x == y || (x.isZero && y.isZero)

/-- The product of two numbers; none if it is too large. -/
def mul? (x y : Binary64) : Option Binary64 :=
  let (a, b) := x.magnitude
  let (c, d) := y.magnitude
  ofRatio? (x.negative != y.negative) (a * c) (b * d)

/-- The quotient of a number by one that is not zero; none if it is too large. -/
def div? (x y : Binary64) : Option Binary64 :=
  let (a, b) := x.magnitude
  let (c, d) := y.magnitude
  ofRatio? (x.negative != y.negative) (a * d) (b * c)

/-- The number nearest to an integer; none if it is too large. -/
def ofInt? (n : Int) : Option Binary64 := ofRatio? (n < 0) n.natAbs 1

/-- The integer in front of the point, or the word nearest to it. -/
def toWord (x : Binary64) : Int :=
  let (a, b) := x.magnitude
  Word.saturate (if x.negative then -((a / b : Nat) : Int) else (a / b : Nat))

/-- The same number with the other sign. -/
def neg (x : Binary64) : Binary64 := { x with negative := !x.negative }

end Binary64

end RegoSyntax
