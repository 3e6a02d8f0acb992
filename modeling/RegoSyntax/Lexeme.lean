/-
# RegoSyntax.Lexeme — what the next token of a text is.

The lexical grammar as a function on lists of characters: `Lexeme.next s` says what kind of token
a non-empty text starts with, how many of its characters that token has, and which lexical faults
lie in it.  Nothing here knows of rows, columns, byte offsets or keyword tables: those are laid
over the lexemes by `Scanner`, so they cannot influence where one token ends and the next begins.

A fault never stops a token.  It is recorded with the number of characters read when it was
noticed, and the token goes on as if the offending text had been legal.
-/
import RegoSyntax.Token

namespace RegoSyntax

/-- A cause for which a token is not legal. -/
inductive LexicalError where
  | missingExponent
  | malformedNumber
  | unterminatedString
  | illegalEscape
  | unterminatedRawString
  | loneBang
  | nullCharacter
  | illegalCharacter (c : Char)
deriving DecidableEq, Repr

/-- The wording of a lexical error. -/
def LexicalError.message : LexicalError → String
  | missingExponent => "expected exponent"
  | malformedNumber => "illegal number format"
  | unterminatedString => "non-terminated string"
  | illegalEscape => "illegal escape sequence"
  | unterminatedRawString => "non-terminated raw string"
  | loneBang => "illegal ! character"
  | nullCharacter => "illegal null character"
  | illegalCharacter c => "illegal " ++ c.toString ++ " character"

/-- A lexical error and how many characters of the token had been read when it was noticed. -/
structure Fault where
  after : Nat
  cause : LexicalError
deriving DecidableEq, Repr

/-- The first token of a text: its kind (before any word is looked up in a keyword table), its
length in characters, and its faults in the order in which they were noticed. -/
structure Lexeme where
  kind : Token
  size : Nat
  faults : List Fault := []
deriving DecidableEq, Repr

namespace Lexeme

/-! ## Character classes -/

/-- The characters that may start a word. -/
def isLetter (c : Char) : Bool := c.isAlpha || c == '_'

/-- The characters that may continue a word. -/
def isWordChar (c : Char) : Bool := isLetter c || c.isDigit

/-- The blanks between tokens; each of them is a token of its own. -/
def isBlank (c : Char) : Bool := c == ' ' || c == '\t' || c == '\n' || c == '\r'

/-- The digits of a `\u` escape. -/
def isHexDigit (c : Char) : Bool :=
  c.isDigit || ('a' ≤ c && c ≤ 'f') || ('A' ≤ c && c ≤ 'F')

/-- How many characters at the start of `s` satisfy `p`. -/
def run (p : Char → Bool) (s : List Char) : Nat := (s.takeWhile p).length

/-! ## Numbers -/

/-- The length of a fraction.  A point before a digit starts one; a point before a letter belongs
to what follows (`5.foo`); any other point ends the number (`5.`). -/
def fractionSize : List Char → Nat
  | '.' :: s =>
    match s with
    | c :: _ => if c.isDigit then 1 + run Char.isDigit s else if isLetter c then 0 else 1
    | [] => 1
  | _ => 0

/-- The length of the sign of an exponent. -/
def signSize : List Char → Nat
  | c :: _ => if c == '+' || c == '-' then 1 else 0
  | [] => 0

/-- The length of an exponent, and whether it lacks its digits. -/
def exponentSize : List Char → Nat × Bool
  | c :: s =>
    if c == 'e' || c == 'E' then
      let sign := signSize s
      let digits := run Char.isDigit (s.drop sign)
      (1 + sign + digits, digits == 0)
    else (0, false)
  | [] => (0, false)

/-- A number: digits, a fraction, an exponent.  Letters and digits right after it make it
malformed and are read as a part of it, so that `0a2b` is one token. -/
def number (s : List Char) : Lexeme :=
  let digits := run Char.isDigit s
  let mantissa := digits + fractionSize (s.drop digits)
  let (expSize, bare) := exponentSize (s.drop mantissa)
  let size := mantissa + expSize
  let tail := run isWordChar (s.drop size)
  { kind := .number
    size := size + tail
    faults := (if bare then [⟨size, .missingExponent⟩] else []) ++
      (if tail != 0 then [⟨size, .malformedNumber⟩] else []) }

/-! ## Strings -/

/-- Where the reader of a quoted string stands: in plain text, behind a backslash, or before that
many more digits of a `\u` escape. -/
inductive EscapeState where
  | plain
  | escape
  | hex (left : Nat)
deriving DecidableEq, Repr

/-- The characters that may follow a backslash. -/
def isEscapeLetter (c : Char) : Bool := "\\\"/bfnrtu".toList.contains c

/-- Whether the next character (`none` at the end of the text) cannot continue the escape that the
reader is in. -/
def EscapeState.refuses : EscapeState → Option Char → Bool
  | plain, _ => false
  | escape, c => !c.any isEscapeLetter
  | hex _, c => !c.any isHexDigit

/-- Where the reader stands behind a character that it did not refuse. -/
def EscapeState.next : EscapeState → Char → EscapeState
  | plain, c => if c == '\\' then escape else plain
  | escape, c => if c == 'u' then hex 4 else plain
  | hex left, _ => if left ≤ 1 then plain else hex (left - 1)

/-- The rest of a quoted string of which `n` characters have been read: the total length and the
faults.  A line break or the end of the text ends an unterminated string and is not part of it.
A character that cannot continue an escape is read again as plain text. -/
def quotedRest (state : EscapeState) (n : Nat) : List Char → Nat × List Fault
  | [] =>
    (n, (if state.refuses none then [⟨n, .illegalEscape⟩] else []) ++ [⟨n, .unterminatedString⟩])
  | c :: s =>
    let refused := state.refuses (some c)
    let faults := if refused then [⟨n, .illegalEscape⟩] else []
    let state := if refused then .plain else state
    if state == .plain && c == '"' then (n + 1, faults)
    else if state == .plain && c == '\n' then (n, faults ++ [⟨n, .unterminatedString⟩])
    else
      let (size, more) := quotedRest (state.next c) (n + 1) s
      (size, faults ++ more)

/-- A quoted string, whose opening quote stands before `s`. -/
def quoted (s : List Char) : Lexeme :=
  let (size, faults) := quotedRest .plain 1 s
  { kind := .string, size, faults }

/-- A raw string, whose opening backtick stands before `s`.  It may run over several lines. -/
def raw (s : List Char) : Lexeme :=
  let body := run (· != '`') s
  if body < s.length then { kind := .string, size := body + 2 }
  else { kind := .string, size := body + 1, faults := [⟨body + 1, .unterminatedRawString⟩] }

theorem raw_kind (s : List Char) : (raw s).kind = .string := by
  unfold raw
  dsimp only
  split <;> rfl

/-! ## Everything else -/

/-- A comment, whose `#` stands before `s`, runs up to the end of its line. -/
def comment (s : List Char) : Lexeme :=
  { kind := .comment, size := 1 + run (· != '\n') s }

/-- An operator of two characters where `c` follows, of one where it does not. -/
def either (c : Char) (long short : Token) : List Char → Lexeme
  | d :: _ => if d == c then ⟨long, 2, []⟩ else ⟨short, 1, []⟩
  | [] => ⟨short, 1, []⟩

theorem either_kind (c : Char) (long short : Token) (s : List Char) :
    (either c long short s).kind = long ∨ (either c long short s).kind = short := by
  unfold either
  split
  · split
    · exact .inl rfl
    · exact .inr rfl
  · exact .inr rfl

theorem either_faults (c : Char) (long short : Token) (s : List Char) :
    (either c long short s).faults = [] := by
  unfold either
  split
  · split <;> rfl
  · rfl

/-- A character that starts no token is a token of its own, and illegal. -/
def illegal (cause : LexicalError) : Lexeme := ⟨.illegal, 1, [⟨1, cause⟩]⟩

/-- Punctuation, comments and strings: the token whose first character is `c`, before `s`. -/
def punctuation (c : Char) (s : List Char) : Lexeme :=
  match c with
  | '#' => comment s
  | '"' => quoted s
  | '`' => raw s
  | '[' => ⟨.lbrack, 1, []⟩
  | ']' => ⟨.rbrack, 1, []⟩
  | '{' => ⟨.lbrace, 1, []⟩
  | '}' => ⟨.rbrace, 1, []⟩
  | '(' => ⟨.lparen, 1, []⟩
  | ')' => ⟨.rparen, 1, []⟩
  | ',' => ⟨.comma, 1, []⟩
  | ';' => ⟨.semicolon, 1, []⟩
  | '.' => ⟨.dot, 1, []⟩
  | '+' => ⟨.plus, 1, []⟩
  | '-' => ⟨.minus, 1, []⟩
  | '*' => ⟨.star, 1, []⟩
  | '/' => ⟨.slash, 1, []⟩
  | '%' => ⟨.percent, 1, []⟩
  | '&' => ⟨.amp, 1, []⟩
  | '|' => ⟨.bar, 1, []⟩
  | '=' => either '=' .equal .unify s
  | ':' => either '=' .assign .colon s
  | '<' => either '=' .lte .lt s
  | '>' => either '=' .gte .gt s
  | '!' => if s.head? == some '=' then ⟨.neq, 2, []⟩ else illegal .loneBang
  | '\x00' => illegal .nullCharacter
  | c => illegal (.illegalCharacter c)

/-- The first token of a text.  Only the empty text has an empty token, which marks its end. -/
def next : List Char → Lexeme
  | [] => ⟨.eof, 0, []⟩
  | c :: s =>
    if isBlank c then ⟨.whitespace, 1, []⟩
    else if isLetter c then ⟨.ident, 1 + run isWordChar s, []⟩
    else if c.isDigit then number (c :: s)
    else punctuation c s

end Lexeme

end RegoSyntax
