/-
# RegoSyntax.Yaml.Resolve — what the text of a scalar stands for.

A plain scalar stands for nothing, a truth value or a number if it is spelled like one; all others
are text.  A tag of the core schema settles the kind, and the text has to be of that kind then.

Integers are those of 64 bits, signed or not.  `Resolved.wide` are the larger ones up to 128 bits,
which no reader takes; numbers beyond these are real.
-/
import RegoSyntax.Number.Numeral
import RegoSyntax.Yaml.Scalar
import RegoSyntax.Yaml.Datum

namespace RegoSyntax.Yaml

/-- What a scalar stands for. -/
inductive Resolved where
  | null
  | boolean (b : Bool)
  | integer (n : Int)
  | wide (n : Int)
  | real (x : Real)
  | string (s : String)
deriving DecidableEq, Repr

/-! ## Words -/

/-- The spellings of nothing. -/
def isNull (s : String) : Bool := s.isEmpty || ["null", "Null", "NULL", "~"].contains s

/-- The truth value that a text spells. -/
def boolean? (s : String) : Option Bool :=
  if ["true", "True", "TRUE"].contains s then some true
  else if ["false", "False", "FALSE"].contains s then some false
  else none

/-! ## Integers -/

/-- The value of a character as a digit in a base. -/
def digitValue? (base : Nat) (c : Char) : Option Nat :=
  let value := if c.isDigit then some (c.toNat - '0'.toNat)
    else if 'a' ≤ c && c ≤ 'z' then some (c.toNat - 'a'.toNat + 10)
    else if 'A' ≤ c && c ≤ 'Z' then some (c.toNat - 'A'.toNat + 10)
    else none
  value.filter (· < base)

/-- The number that digits of a base spell; there is at least one. -/
def natural? (base : Nat) (s : List Char) : Option Nat :=
  if s.isEmpty then none
  else s.foldlM (fun n c => (digitValue? base c).map (n * base + ·)) 0

/-- Whether zeros stand before the digits of a text that is nothing but digits.  Such a text is no
number. -/
def isZeroPadded (s : List Char) : Bool :=
  let digits := match s with
    | '-' :: rest => rest
    | '+' :: rest => rest
    | rest => rest
  digits.length > 1 && digits.head? == some '0' && digits.all Char.isDigit

/-- The number that a text without a minus sign spells. -/
def unsigned? (s : List Char) : Option Nat :=
  let digits := match s with
    | '+' :: rest => rest
    | rest => rest
  match digits with
  | '0' :: 'x' :: rest => natural? 16 rest
  | '0' :: 'o' :: rest => natural? 8 rest
  | '0' :: 'b' :: rest => natural? 2 rest
  | digits => if isZeroPadded s then none else natural? 10 digits

/-- The number that a text with or without a minus sign spells. -/
def integer? (s : List Char) : Option Int :=
  match s with
  | '-' :: '0' :: 'x' :: rest => (natural? 16 rest).map fun n => -(n : Int)
  | '-' :: '0' :: 'o' :: rest => (natural? 8 rest).map fun n => -(n : Int)
  | '-' :: '0' :: 'b' :: rest => (natural? 2 rest).map fun n => -(n : Int)
  | '-' :: digits =>
    if isZeroPadded s then none else (natural? 10 digits).map fun n => -(n : Int)
  | _ => (unsigned? s).map fun n => (n : Int)

/-- Whether a number is within `bits` bits, with or without a sign. -/
def fits (bits : Nat) (n : Int) : Bool :=
  -(Nat.pow 2 (bits - 1) : Int) ≤ n && n < Nat.pow 2 bits

/-- The integer that a text spells, of a size that integers have. -/
def resolveInteger? (s : String) : Option Resolved :=
  (integer? s.toList).bind fun n =>
    if fits 64 n then some (.integer n) else if fits 128 n then some (.wide n) else none

/-! ## Real numbers -/

/-- The finite number that a decimal literal with an optional minus sign spells. -/
def decimal? (s : List Char) : Option Binary64 :=
  let (negative, digits) := match s with
    | '-' :: rest => (true, rest)
    | rest => (false, rest)
  (Numeral.ofDigits? digits).bind fun n =>
    Binary64.ofDecimal? negative (Numeral.digitsValue (n.whole ++ n.fraction))
      (n.exponent - (n.fraction.length : Int))

/-- The real number that a text spells. -/
def real? (s : String) : Option Real :=
  let (positive, digits) := match s.toList with
    | '+' :: rest => (true, rest)
    | rest => (false, rest)
  if positive && (digits.head? == some '-' || digits.head? == some '+') then none
  else if [".inf", ".Inf", ".INF"].contains (String.ofList digits) then some (.infinite false)
  else if ["-.inf", "-.Inf", "-.INF"].contains s then some (.infinite true)
  else if [".nan", ".NaN", ".NAN"].contains s then some .notNumber
  else (decimal? digits).map .finite

/-! ## Scalars -/

/-- What a plain scalar stands for. -/
def resolvePlain (s : String) : Resolved :=
  if isNull s then .null
  else
    match boolean? s with
    | some b => .boolean b
    | none =>
      match resolveInteger? s with
      | some r => r
      | none =>
        match if isZeroPadded s.toList then none else real? s with
        | some x => .real x
        | none => .string s

/-- What a scalar stands for, if its tag does not matter. -/
def resolveStyled (style : Style) (s : String) : Resolved :=
  if style == .plain then resolvePlain s else .string s

/-- The tags that settle the kind of a scalar. -/
inductive CoreTag where
  | boolean
  | integer
  | real
  | null
deriving DecidableEq, Repr

namespace CoreTag

/-- The kind that a tag settles. -/
def ofTag? : String → Option CoreTag
  | "tag:yaml.org,2002:bool" => some boolean
  | "tag:yaml.org,2002:int" => some integer
  | "tag:yaml.org,2002:float" => some real
  | "tag:yaml.org,2002:null" => some null
  | _ => none

/-- How messages call the kind that a tag settles. -/
def expected : CoreTag → String
  | boolean => "a boolean"
  | integer => "an integer"
  | real => "a float"
  | null => "null"

/-- What a text stands for as one of a kind. -/
def resolve? (t : CoreTag) (s : String) : Option Resolved :=
  match t with
  | boolean => (boolean? s).map .boolean
  | integer => resolveInteger? s
  | real => (real? s).map .real
  | null => if !s.isEmpty && isNull s then some .null else none

end CoreTag

/-- Whether a tag is one of the document's own. -/
def isOwnTag (tag : String) : Bool := tag.toList.head? == some '!'

/-- What a scalar stands for; or the kind that its tag says and its text is not of. -/
def resolveScalar (tag : Option String) (style : Style) (s : String) : Except CoreTag Resolved :=
  match tag with
  | none => .ok (resolveStyled style s)
  | some t =>
    match CoreTag.ofTag? t with
    | some kind =>
      match kind.resolve? s with
      | some r => .ok r
      | none => .error kind
    | none => .ok (if isOwnTag t then resolveStyled style s else .string s)

end RegoSyntax.Yaml
