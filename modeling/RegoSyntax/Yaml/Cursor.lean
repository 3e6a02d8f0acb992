/-
# RegoSyntax.Yaml.Cursor — a place in a YAML text.

A `Cursor` is what is left of a text, with the mark of its first character.  There are five line
breaks besides the pair of carriage return and line feed, and a break is kept in a scalar as a line
feed unless it is one of the two Unicode separators.
-/
import RegoSyntax.Yaml.Problem

namespace RegoSyntax.Yaml

/-! ## Character classes -/

/-- The characters that end a line. -/
def isBreak (c : Char) : Bool :=
  c == '\n' || c == '\r' || c == '\u0085' || c == '\u2028' || c == '\u2029'

/-- The blanks within a line. -/
def isBlank (c : Char) : Bool := c == ' ' || c == '\t'

/-- The characters of names, of anchors and of handles. -/
def isNameChar (c : Char) : Bool := c.isAlphanum || c == '_' || c == '-'

/-- The value of a hexadecimal digit. -/
def hexValue? (c : Char) : Option Nat :=
  if c.isDigit then some (c.toNat - '0'.toNat)
  else if 'a' ≤ c && c ≤ 'f' then some (c.toNat - 'a'.toNat + 10)
  else if 'A' ≤ c && c ≤ 'F' then some (c.toNat - 'A'.toNat + 10)
  else none

/-- Whether a line ends here: at a break or at the end of the text. -/
def endsLine (c : Option Char) : Bool := c.all isBreak

/-- Whether a word ends here: at a blank, at a break or at the end of the text. -/
def endsWord (c : Option Char) : Bool := c.all fun c => isBlank c || isBreak c

/-! ## Cursors -/

/-- What is left of a text, and where it starts. -/
structure Cursor where
  rest : List Char
  mark : Mark
deriving Inhabited

namespace Cursor

/-- The start of a text. -/
def start (text : String) : Cursor := ⟨text.toList, {}⟩

/-- The character `n` places ahead, if the text goes on that far. -/
def at? (p : Cursor) (n : Nat) : Option Char := p.rest[n]?

/-- The next character. -/
def peek (p : Cursor) : Option Char := p.at? 0

/-- Whether the next character is this one. -/
def sees (p : Cursor) (c : Char) : Bool := p.peek == some c

/-- The column of the next character. -/
def column (p : Cursor) : Nat := p.mark.column

/-- Step over `n` characters of a line. -/
def skip (p : Cursor) (n : Nat) : Cursor :=
  let n := min n p.rest.length
  ⟨p.rest.drop n,
   { p.mark with index := p.mark.index + n, column := p.mark.column + n }⟩

/-- How many of the next characters satisfy `f`. -/
def run (p : Cursor) (f : Char → Bool) : Nat := (p.rest.takeWhile f).length

/-- Step over characters of a line that satisfy `f`. -/
def skipWhile (p : Cursor) (f : Char → Bool) : Cursor := p.skip (p.run f)

/-- Step over the next `n` characters, which are a line break. -/
def newLine (p : Cursor) (n : Nat) : Cursor :=
  ⟨p.rest.drop n, { index := p.mark.index + n, line := p.mark.line + 1, column := 0 }⟩

/-- Step over a line break, if there is one, and say what of it a scalar keeps. -/
def takeBreak (p : Cursor) : List Char × Cursor :=
  match p.rest with
  | '\r' :: '\n' :: _ => (['\n'], p.newLine 2)
  | c :: _ =>
    if c == '\n' || c == '\r' || c == '\u0085' then (['\n'], p.newLine 1)
    else if isBreak c then ([c], p.newLine 1)
    else ([], p)
  | [] => ([], p)

/-- Step over a line break, if there is one. -/
def skipBreak (p : Cursor) : Cursor := p.takeBreak.2

/-- Step over the blanks and the comment at the end of a line. -/
def skipLineEnd (p : Cursor) : Cursor :=
  let p := p.skipWhile isBlank
  if p.sees '#' then p.skipWhile (!isBreak ·) else p

/-- Whether three equal characters stand here as a word of their own, at the start of a line. -/
def seesIndicator (p : Cursor) (c : Char) : Bool :=
  p.column == 0 && p.at? 0 == some c && p.at? 1 == some c && p.at? 2 == some c && endsWord (p.at? 3)

/-- Whether a document starts or ends here. -/
def atDocumentIndicator (p : Cursor) : Bool := p.seesIndicator '-' || p.seesIndicator '.'

/-- A fault here, met while reading something that started at a mark. -/
def fault (p : Cursor) (fault : Fault) (activity : Activity) (start : Mark) : FormError :=
  { fault, mark := p.mark, context := some (activity, start) }

end Cursor

end RegoSyntax.Yaml
