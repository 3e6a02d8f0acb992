/-
# RegoSyntax.Diagnostic — parse errors as a reader sees them.

A diagnostic is a message with a place, hints and a snippet of the source.  The snippet is the line
around the place, found in the bytes of the source, which need not be text; under it a caret stands
below the error.  Messages already contain the hints.
-/
import RegoSyntax.Location
import RegoSyntax.Tree.Render
import RegoSyntax.Text.Utf8

namespace RegoSyntax

/-! ## Snippets -/

/-- A line of the source and the byte in it that an error points at. -/
structure Snippet where
  line : String
  index : Nat
deriving DecidableEq

namespace Snippet

/-- The bytes that end a line. -/
def isLineEnd (b : UInt8) : Bool := b == 10 || b == 13

/-- The bytes that an error does not point at. -/
def isBlankByte (b : UInt8) : Bool := b == 32 || b == 9 || b == 10 || b == 12 || b == 13

/-- A place in a sequence of bytes: what is before it, nearest byte first, the byte there, and what
is behind it. -/
structure Focus where
  before : List UInt8
  byte : UInt8
  after : List UInt8

namespace Focus

/-- The byte at `n`, or the last one. -/
def at? (n : Nat) : List UInt8 → Option Focus
  | [] => none
  | b :: bs => some (go n [] b bs)
where
  go : Nat → List UInt8 → UInt8 → List UInt8 → Focus
    | n + 1, before, b, c :: bs => go n (b :: before) c bs
    | _, before, b, bs => ⟨before, b, bs⟩

/-- Step back over blanks, to the nearest byte that is none, or to the first. -/
def skipBlanks : List UInt8 → UInt8 → List UInt8 → Focus
  | a :: before, b, after => if isBlankByte b then skipBlanks before a (b :: after) else ⟨a :: before, b, after⟩
  | [], b, after => ⟨[], b, after⟩

end Focus

/-- The line around a byte offset.  Blanks at the offset are skipped backwards first, so that an
error at a line break points at the end of the line before it.  The empty source has no lines. -/
def find? (source : List UInt8) (offset : Nat) : Option Snippet :=
  (Focus.at? offset source).map fun f =>
    let f := Focus.skipBlanks f.before f.byte f.after
    if isLineEnd f.byte then ⟨"", 0⟩
    else
      let head := f.before.takeWhile (!isLineEnd ·)
      let tail := f.after.takeWhile (!isLineEnd ·)
      ⟨Text.decodeLossy (head.reverse ++ f.byte :: tail), head.length⟩

/-- The line without the tabs at its start, and a caret below the byte. -/
def lines (s : Snippet) : String × String :=
  let tabs := (s.line.toList.takeWhile (· == '\t')).length
  (String.ofList (s.line.toList.drop tabs),
   String.ofList (List.replicate (s.index - tabs) ' ') ++ "^")

end Snippet

/-! ## Diagnostics -/

/-- A parse error. -/
structure Diagnostic where
  message : String
  location : Option Location := none
  snippet : Option Snippet := none
  hints : List String := []
deriving DecidableEq

namespace Diagnostic

/-- The code of every parse error. -/
def code : String := "parse-error"

/-- A message with hints behind it. -/
def withHints (message : String) : List String → String
  | [] => message
  | [hint] => message ++ " (hint: " ++ hint ++ ")"
  | hints => message ++ " (hints: " ++ joinWith ", " hints ++ ")"

/-- An error with hints. -/
def hinted (d : Diagnostic) (hints : List String) : Diagnostic :=
  { d with message := withHints d.message hints, hints }

/-- An error with a snippet of the source around its place. -/
def illustrated (d : Diagnostic) (source : List UInt8) : Diagnostic :=
  match d.location with
  | some l => { d with snippet := Snippet.find? source l.offset }
  | none => d

/-- The text of an error. -/
def render (d : Diagnostic) : String :=
  (match d.location with
    | some l => l.render ++ ": "
    | none => "") ++
  code ++ ": " ++ d.message ++
  match d.snippet with
  | some s => "\n\t" ++ s.lines.1 ++ "\n\t" ++ s.lines.2
  | none => ""

/-- The text of a list of errors. -/
def renderAll : List Diagnostic → String
  | [] => "no error(s)"
  | [d] => "1 error occurred: " ++ d.render
  | ds => s!"{ds.length} errors occurred:" ++ String.join (ds.map fun d => "\n" ++ d.render)

end Diagnostic

end RegoSyntax
