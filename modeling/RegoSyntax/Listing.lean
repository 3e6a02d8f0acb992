/-
# RegoSyntax.Listing — the tokens of a source, one a line.

For looking at how a source is cut into tokens: every token but the blanks, with its place, its
kind and its text.  Lexical errors are listed before the token they are in.  All future words are
reserved, as in the current dialect.
-/
import RegoSyntax.Scanner
import RegoSyntax.Text.Quoted

namespace RegoSyntax.Listing

/-- The line of a lexical error. -/
def errorLine (e : ScanError) : String :=
  s!"  {e.position.row}:{e.position.col}  error: " ++ e.cause.message

/-- The line of a token. -/
def tokenLine (s : Scanner) (t : Scanned) : String :=
  s!"  {t.position.row}:{t.position.col}  " ++ t.token.label ++ " " ++
    Quoted.display (s.text t.position.offset t.literalStop)

/-- The lines of a token: those of its errors, and its own unless it is a blank. -/
def lines (s : Scanner) (t : Scanned) : List String :=
  t.errors.map errorLine ++ if t.token == .whitespace then [] else [tokenLine s t]

/-- The tokens of a source, under a title that counts them. -/
def ofSource (name source : String) : String :=
  let s := (Scanner.new source).withKeywords .future
  let tokens := s.scanAll.1.filter (·.token != .eof)
  let count := (tokens.filter (·.token != .whitespace)).length
  s!"Tokens for '" ++ name ++ s!"' ({count} tokens):\n" ++
    String.join ((tokens.flatMap (lines s)).map (· ++ "\n"))

end RegoSyntax.Listing
