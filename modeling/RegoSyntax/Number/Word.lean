/-
# RegoSyntax.Number.Word — whole numbers in 64 bits.

A word is given by its value, an integer that 64 bits with a sign can hold.  Two things are done with
words here that integers do not do: a result that is no word is replaced by the nearest word, and the
absolute value of the least word, which is no word, wraps around to the least word itself.
-/

namespace RegoSyntax.Word

/-- The least word. -/
def least : Int := -9223372036854775808

/-- The greatest word. -/
def greatest : Int := 9223372036854775807

/-- Whether an integer is a word. -/
def holds (n : Int) : Bool := least ≤ n && n ≤ greatest

/-- The word nearest to an integer. -/
def saturate (n : Int) : Int := max least (min n greatest)

/-- The absolute value of a word. -/
def abs (n : Int) : Int := if n == least then least else n.natAbs

end RegoSyntax.Word
