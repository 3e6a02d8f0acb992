/-
# RegoSyntax.Scanner — where the tokens of a source text stand.

A `Cursor` is a place in a text: what is still to be read, the byte offset of its first character,
and that character's row, column and the tabs before it on its line.  `Cursor.advance` steps over
one character; all bookkeeping is there, and a token is stepped over by repeating it.

A `Scanner` is a cursor together with the whole source and the table of the words that are
reserved at this point.  The table decides only whether an identifier is a keyword: positions,
extents and faults come from `Lexeme` alone.
-/
import RegoSyntax.Keyword
import RegoSyntax.Lexeme
import RegoSyntax.Text.Quoted

namespace RegoSyntax

/-- The extent of a token, in bytes, and the place of its first character.  Rows and columns count
from one and columns count characters; `tabs` are the columns of the tabs on the line up to and
including the first character. -/
structure Position where
  offset : Nat
  stop : Nat
  row : Nat
  col : Nat
  tabs : List Nat
deriving DecidableEq, Repr, Inhabited

/-! ## Cursors -/

/-- A place in a text: what is still to be read and where its first character stands. -/
structure Cursor where
  rest : List Char
  offset : Nat
  row : Nat
  col : Nat
  tabs : List Nat
deriving DecidableEq, Repr, Inhabited

namespace Cursor

/-- Account for the character the cursor has come to.  A line break already belongs to the row it
opens, in column zero; at the end of the text the place of the last character is kept. -/
def arrive (p : Cursor) : Cursor :=
  match p.rest with
  | [] => p
  | c :: _ =>
    if c == '\n' then { p with row := p.row + 1, col := 0, tabs := [] }
    else
      let col := p.col + 1
      { p with col, tabs := if c == '\t' then p.tabs ++ [col] else p.tabs }

/-- Step over one character, if there is one. -/
def advance (p : Cursor) : Cursor :=
  match p.rest with
  | [] => p
  | c :: s => arrive { p with rest := s, offset := p.offset + c.utf8Size }

/-- Step over `n` characters, or as many as there are. -/
def advanceBy : Nat → Cursor → Cursor
  | 0, p => p
  | n + 1, p => advanceBy n p.advance

/-- The first character of a text that opens with a byte-order mark is the one behind it. -/
def start (text : List Char) : Cursor :=
  match text with
  | '\uFEFF' :: s => arrive { rest := s, offset := '\uFEFF'.utf8Size, row := 1, col := 0, tabs := [] }
  | s => arrive { rest := s, offset := 0, row := 1, col := 0, tabs := [] }

/-- The empty extent at a cursor; the place of a lexical error, which names no tabs. -/
def point (p : Cursor) : Position :=
  { offset := p.offset, stop := p.offset, row := p.row, col := p.col, tabs := [] }

end Cursor

/-! ## Text by byte range -/

/-- The text between two byte offsets.  It is empty if the range is not a range of the text, if it
starts at the very end, or if one of its ends lies inside a character. -/
def textBetween (source : String) (start stop : Nat) : String :=
  if start < source.utf8ByteSize && start ≤ stop && stop ≤ source.utf8ByteSize &&
      String.Pos.Raw.isValid source ⟨start⟩ && String.Pos.Raw.isValid source ⟨stop⟩ then
    String.Pos.Raw.extract source ⟨start⟩ ⟨stop⟩
  else ""

/-! ## Scanners -/

/-- A lexical error where it was noticed. -/
structure ScanError where
  cause : LexicalError
  position : Position
deriving DecidableEq, Repr

/-- A token as it was read: its kind, its extent, the end of its literal text (which starts where
the token does) and the errors in it. -/
structure Scanned where
  token : Token
  position : Position
  literalStop : Nat
  errors : List ScanError
deriving DecidableEq, Repr

/-- A source, a place in it, and the words that are reserved from there on. -/
structure Scanner where
  source : String
  cursor : Cursor
  keywords : KeywordTable

namespace Scanner

/-- A scanner at the start of a source, with the base words reserved. -/
def new (source : String) : Scanner :=
  { source, cursor := .start source.toList, keywords := .base }

/-- The kind of a token once its word has been looked up. -/
def classify (keywords : KeywordTable) (kind : Token) (text : List Char) : Token :=
  if kind == .ident then (keywords.get? (String.ofList text)).getD .ident else kind

/-- Read the next token.  At the end of the source the answer is `eof`, again and again.  The
literal text of a comment ends before the carriage return of its line. -/
def scan (s : Scanner) : Scanned × Scanner :=
  let here := s.cursor
  let lexeme := Lexeme.next here.rest
  let text := here.rest.take lexeme.size
  let after := here.advanceBy lexeme.size
  let stop := after.offset
  ({ token := classify s.keywords lexeme.kind text
     position := { here.point with stop, tabs := here.tabs }
     literalStop :=
       if lexeme.kind == .comment && text.getLast? == some '\r' then stop - 1 else stop
     errors := lexeme.faults.map fun f => ⟨f.cause, (here.advanceBy f.after).point⟩ },
   { s with cursor := after })

/-- Read tokens up to and including the end of the source.  The list is cut off after `fuel`
tokens; there is at most one per character, and the end. -/
def scanUpTo : (fuel : Nat) → Scanner → List Scanned × Scanner
  | 0, s => ([], s)
  | fuel + 1, s =>
    let (scanned, s) := s.scan
    if scanned.token == .eof then ([scanned], s)
    else
      let (more, s) := scanUpTo fuel s
      (scanned :: more, s)

/-- Read all tokens that are left, up to and including the end of the source. -/
def scanAll (s : Scanner) : List Scanned × Scanner := scanUpTo (s.cursor.rest.length + 1) s

/-! ### Reserved words -/

/-- A scanner at the same place that also reserves the words of a table. -/
def withKeywords (s : Scanner) (t : KeywordTable) : Scanner :=
  { s with keywords := s.keywords.extend t }

/-- A scanner at the same place that reserves no word of a table. -/
def withoutKeywords (s : Scanner) (t : KeywordTable) : Scanner :=
  { s with keywords := s.keywords.removeAll t }

/-- Reserve one word from here on. -/
def addKeyword (s : Scanner) (word : String) (kind : Token) : Scanner :=
  { s with keywords := s.keywords.insert word kind }

/-- The source text in a byte range. -/
def text (s : Scanner) (start stop : Nat) : String := textBetween s.source start stop

/-- A short account of where a scanner stands. -/
def describe (s : Scanner) : String :=
  let next := match s.cursor.rest with
    | c :: _ => "Some(" ++ Quoted.displayChar c ++ ")"
    | [] => "None"
  s!"<scanner pos={s.cursor.offset} row={s.cursor.row} col={s.cursor.col} curr=" ++ next ++ ">"

/-- The number of bytes of the source, its byte-order mark included. -/
def byteLength (s : Scanner) : Nat := s.source.utf8ByteSize

end Scanner

end RegoSyntax
