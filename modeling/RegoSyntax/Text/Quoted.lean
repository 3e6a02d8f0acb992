/-
# RegoSyntax.Text.Quoted — text between quotes.

Two ways to write a text so that it stands on one line and can be told from what is around it.
`Quoted.json` is the string syntax of JSON: it escapes the quote, the backslash and the control
characters and nothing else.  `Quoted.display` is meant for messages: it escapes every character
that would not be seen as itself, so that text which looks alike is alike.
-/
import RegoSyntax.Text.Printable

namespace RegoSyntax.Quoted

/-- The hexadecimal digits of a number, without leading zeros. -/
def hex (n : Nat) : String := String.ofList (Nat.toDigits 16 n)

/-- The hexadecimal digits of a number, filled up with zeros to `width` digits. -/
def paddedHex (width n : Nat) : String :=
  let digits := Nat.toDigits 16 n
  String.ofList (List.replicate (width - digits.length) '0' ++ digits)

/-! ## JSON -/

/-- A character inside a JSON string. -/
def jsonChar (c : Char) : String :=
  match c with
  | '"' => "\\\""
  | '\\' => "\\\\"
  | '\n' => "\\n"
  | '\r' => "\\r"
  | '\t' => "\\t"
  | '\x08' => "\\b"
  | '\x0c' => "\\f"
  | c => if c.toNat < 0x20 then "\\u" ++ paddedHex 4 c.toNat else c.toString

/-- A text as a JSON string. -/
def json (s : String) : String := "\"" ++ String.join (s.toList.map jsonChar) ++ "\""

/-! ## Messages -/

/-- A character of a text between `quote`s, in a message. -/
def displayedChar (quote c : Char) : String :=
  match c with
  | '\x00' => "\\0"
  | '\t' => "\\t"
  | '\r' => "\\r"
  | '\n' => "\\n"
  | '\\' => "\\\\"
  | c =>
    if c == quote then "\\" ++ c.toString
    else if Text.isPrintable c then c.toString
    else "\\u\x7b" ++ hex c.toNat ++ "\x7d"

/-- A text between double quotes, in a message. -/
def display (s : String) : String :=
  "\"" ++ String.join (s.toList.map (displayedChar '"')) ++ "\""

/-- A character between single quotes, in a message. -/
def displayChar (c : Char) : String := "'" ++ displayedChar '\'' c ++ "'"

end RegoSyntax.Quoted
