/-
# RegoSyntax.Number.Shortest — the fewest digits that read back.

A floating-point number stands for all reals that round to it.  `Binary64.shortest` finds a decimal
in that interval with as few digits as possible, and of those the one nearest to the number: the
grids of one, two, three, … digits are tried in turn, and on each grid only the two neighbours of
the number can be the answer.  Seventeen digits always suffice.

`Decimal.render` writes such a decimal.  Where it uses an exponent is up to its caller.
-/
import RegoSyntax.Number.Binary64

namespace RegoSyntax

/-- The number `digits * 10 ^ exponent`. -/
structure Decimal where
  digits : Nat
  exponent : Int
deriving DecidableEq, Repr, Inhabited

namespace Decimal

/-- Take zeros off the end of the digits, at most `fuel` of them. -/
def stripZeros : (fuel : Nat) → Decimal → Decimal
  | 0, d => d
  | fuel + 1, d =>
    if d.digits != 0 && d.digits % 10 == 0 then stripZeros fuel ⟨d.digits / 10, d.exponent + 1⟩
    else d

end Decimal

namespace Binary64

/-- The reals that round to a number, in units of a quarter of its last place: the number itself
and the ends of the interval.  Below a power of two the next number is half as far. -/
def roundingInterval (x : Binary64) : Nat × Nat × Nat :=
  let v := 4 * x.mantissa
  let below := if x.mantissa == Nat.pow 2 52 && x.exponent > minExponent then 1 else 2
  (v - below, v, v + 2)

/-- The decimal nearest to `v` on the grid of `10 ^ e` among those that lie between `lo` and `hi`;
all three are over the denominator `den`.  The ends count if `closed`. -/
def nearestOnGrid (lo v hi den : Nat) (closed : Bool) (e : Int) : Option Decimal :=
  /- everything in units of the grid: `v / unit` -/
  let (lo, v, hi, unit) := match e with
    | .ofNat n => (lo, v, hi, den * Nat.pow 10 n)
    | .negSucc n =>
      let p := Nat.pow 10 (n + 1)
      (lo * p, v * p, hi * p, den)
  let down := v / unit
  let up := down + 1
  let holds (d : Nat) : Bool :=
    if closed then lo ≤ d * unit && d * unit ≤ hi else lo < d * unit && d * unit < hi
  let toDown := v - down * unit
  let toUp := up * unit - v
  match holds down, holds up with
  | true, true =>
    if toDown < toUp || (toDown == toUp && down % 2 == 0) then some ⟨down, e⟩ else some ⟨up, e⟩
  | true, false => some ⟨down, e⟩
  | false, true => some ⟨up, e⟩
  | false, false => none

/-- The first hit on the grids that start at `10 ^ top` and get finer. -/
def firstHit (lo v hi den : Nat) (closed : Bool) : (grids : Nat) → (top : Int) → Option Decimal
  | 0, _ => none
  | grids + 1, top =>
    match nearestOnGrid lo v hi den closed top with
    | some d => some d
    | none => firstHit lo v hi den closed grids (top - 1)

/-- The shortest decimal that reads back as the magnitude of a number, and the nearest of those. -/
def shortest (x : Binary64) : Decimal :=
  if x.isZero then ⟨0, 0⟩
  else
    let (lo, v, hi) := x.roundingInterval
    let (scaleNum, den) := scale 1 (x.exponent - 2)
    let (lo, v, hi) := (lo * scaleNum, v * scaleNum, hi * scaleNum)
    /- a power of ten above the number: each binary digit is less than a third of a decimal one -/
    let bits : Int := (v.log2 : Int) - (den.log2 : Int) + 1
    let top : Int := if bits > 0 then bits / 3 + 1 else bits * 3 / 10 + 2
    match firstHit lo v hi den (x.mantissa % 2 == 0) 400 top with
    | some d => d.stripZeros 400
    | none => ⟨0, 0⟩

end Binary64

/-! ## Writing decimals -/

/-- Which decimals are written without an exponent: those whose point stands at most `maxPoint`
places behind the first digit, and those with fewer than `maxZeros` zeros right behind the point.
Without limits no decimal has an exponent. -/
structure DecimalFormat where
  maxPoint : Option Nat
  maxZeros : Option Nat

namespace Decimal

/-- The digits of a decimal with a point `point` places behind the first one, and with at least
one digit on both sides of it. -/
def positional (digits : List Char) (point : Int) : String :=
  match point with
  | .ofNat 0 => "0." ++ String.ofList digits
  | .negSucc n => "0." ++ String.ofList (List.replicate (n + 1) '0' ++ digits)
  | .ofNat n =>
    if digits.length ≤ n then
      String.ofList (digits ++ List.replicate (n - digits.length) '0') ++ ".0"
    else String.ofList (digits.take n) ++ "." ++ String.ofList (digits.drop n)

/-- The digits of a decimal with an exponent: one digit before the point. -/
def scientific (digits : List Char) (point : Int) : String :=
  (match digits with
    | [] => "0"
    | [d] => d.toString
    | d :: ds => d.toString ++ "." ++ String.ofList ds) ++ s!"e{point - 1}"

/-- The text of a decimal. -/
def render (fmt : DecimalFormat) (d : Decimal) : String :=
  if d.digits == 0 then "0.0"
  else
    let digits := Nat.toDigits 10 d.digits
    let point : Int := digits.length + d.exponent
    let tooLarge := fmt.maxPoint.any fun n => point > n
    let tooSmall := fmt.maxZeros.any fun n => -point ≥ n
    if tooLarge || tooSmall then scientific digits point else positional digits point

end Decimal

namespace Binary64

/-- The text of a number: its shortest decimal in a format. -/
def render (fmt : DecimalFormat) (x : Binary64) : String :=
  (if x.negative then "-" else "") ++ x.shortest.render fmt

end Binary64

/-- Data formats write numbers of up to sixteen places before the point, and of up to four zeros
behind it, without an exponent. -/
def DecimalFormat.data : DecimalFormat := ⟨some 16, some 5⟩

/-- Messages write all numbers without an exponent. -/
def DecimalFormat.plain : DecimalFormat := ⟨none, none⟩

end RegoSyntax
