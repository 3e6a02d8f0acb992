/-
# RegoSyntax.Text.Words — text cut at blanks and at marks.

Blanks here are the characters with the Unicode property `White_Space`, of which the syntax itself
knows only a few.
-/

namespace RegoSyntax.Text

/-- Whether a character is a blank. -/
def isBlank (c : Char) : Bool :=
  let n := c.toNat
  (9 ≤ n && n ≤ 13) || n == 32 || n == 0x85 || n == 0xA0 || n == 0x1680 ||
    (0x2000 ≤ n && n ≤ 0x200A) || n == 0x2028 || n == 0x2029 || n == 0x202F || n == 0x205F ||
    n == 0x3000

/-- A text without the blanks at its ends. -/
def trim (s : String) : String :=
  String.ofList ((s.toList.dropWhile isBlank).reverse.dropWhile isBlank).reverse

/-- The pieces of a text between the characters that satisfy `f`: always one more than there are
such characters. -/
def pieces (f : Char → Bool) : List Char → List (List Char)
  | [] => [[]]
  | c :: cs =>
    if f c then [] :: pieces f cs
    else
      match pieces f cs with
      | [] => [[c]]
      | w :: ws => (c :: w) :: ws

/-- The words of a text: its pieces between blanks, without the empty ones. -/
def words (s : String) : List String :=
  ((pieces isBlank s.toList).filter (!·.isEmpty)).map String.ofList

end RegoSyntax.Text
