/-
# RegoSyntax.Number.Numeral — number literals taken apart.

A tree keeps a number in the spelling of the source, so reading a literal only has to decide
whether it is one, and whether its magnitude is within bounds.  A `Numeral` is a literal without
its sign, cut at the point and at the exponent.

The magnitude is measured by a binary exponent, which is computed from the place of the first
significant digit: the exponent is added in 64 bits, and the sum is scaled by the binary logarithm of
ten as a floating-point number.  Zero has no such digit and is never too big.
-/
import RegoSyntax.Number.Binary64

namespace RegoSyntax

/-- An unsigned decimal literal: the digits before and behind the point, and the exponent, a word. -/
structure Numeral where
  whole : List Char
  fraction : List Char
  exponent : Int
deriving DecidableEq, Repr

namespace Numeral

/-- The greatest binary exponent that a number may have, and with a minus sign the least one. -/
def maxBinaryExponent : Int := 100000

/-- The binary logarithm of ten. -/
def log2Ten : Binary64 := ⟨false, 0x1A934F0979A371, -51⟩

/-- The number that a sequence of digits denotes. -/
def digitsValue (s : List Char) : Nat := s.foldl (fun n c => n * 10 + (c.toNat - '0'.toNat)) 0

/-- An exponent that is no word is taken for one halfway to the limit on its side. -/
def wordOfExponent (e : Int) : Int :=
  if Word.holds e then e else if e < 0 then Word.least / 2 else Word.greatest / 2

/-- A signed exponent: an optional sign and at least one digit. -/
def exponent? (s : List Char) : Option Int :=
  let (negative, digits) := match s with
    | '-' :: digits => (true, digits)
    | '+' :: digits => (false, digits)
    | digits => (false, digits)
  if digits.isEmpty || !digits.all Char.isDigit then none
  else some (wordOfExponent (if negative then -(digitsValue digits : Int) else digitsValue digits))

/-- Whether a character starts an exponent. -/
def isExponentMark (c : Char) : Bool := c == 'e' || c == 'E'

/-- Cut an unsigned literal into its parts.  There is one point at most, and a digit in front of it
or behind it. -/
def ofDigits? (s : List Char) : Option Numeral :=
  let mantissa := s.takeWhile (!isExponentMark ·)
  let whole := mantissa.takeWhile (· != '.')
  let fraction := (mantissa.dropWhile (· != '.')).drop 1
  if (whole.isEmpty && fraction.isEmpty) || !whole.all Char.isDigit || !fraction.all Char.isDigit
  then none
  else
    match s.dropWhile (!isExponentMark ·) with
    | [] => some ⟨whole, fraction, 0⟩
    | _ :: e => (exponent? e).map fun e => ⟨whole, fraction, e⟩

/-- The parts of a literal, whatever its sign. -/
def ofText? (s : String) : Option Numeral :=
  match s.toList with
  | '-' :: digits => ofDigits? digits
  | digits => ofDigits? digits

/-- Whether a digit is the digit zero. -/
def isZeroDigit (c : Char) : Bool := c == '0'

/-- Where the first significant digit of the mantissa stands: the number of digits from there to
the point, or minus the number of zeros behind the point.  Zero has no significant digit. -/
def place? (n : Numeral) : Option Int :=
  match n.whole.dropWhile isZeroDigit with
  | [] =>
    if n.fraction.all isZeroDigit then none
    else some (-((n.fraction.takeWhile isZeroDigit).length : Int))
  | digits => some digits.length

/-- What a decimal exponent is as a binary one, as far as floating-point numbers tell. -/
def scaled (decimal : Int) : Int :=
  match (Binary64.ofInt? decimal).bind (·.mul? log2Ten) with
  | some x => x.toWord
  | none => if decimal < 0 then Word.least else Word.greatest

/-- The binary exponent of a number, roughly; that of zero is zero. -/
def binaryExponent (n : Numeral) : Int :=
  match n.place? with
  | none => 0
  | some p => scaled (Word.saturate (p + n.exponent))

/-- Whether the magnitude of a number is within bounds. -/
def inBounds (n : Numeral) : Bool := Word.abs n.binaryExponent ≤ maxBinaryExponent

/-- Whether a literal starts with a zero that could be left out: one that no point and no exponent
follows. -/
def hasLeadingZero (literal : List Char) : Bool :=
  match literal with
  | '0' :: c :: rest => !(c == '.' || (isExponentMark c && !rest.isEmpty))
  | _ => false

end Numeral

end RegoSyntax
