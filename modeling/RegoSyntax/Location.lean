/-
# RegoSyntax.Location — where a syntax node stands in its source.

A location names the file, the row and column of the node's first character, its byte offset, the
source text that the node covers and the columns of the tabs before it on its line.  Rows and
columns count from one, columns count characters, offsets count bytes.
-/
import RegoSyntax.Text.Quoted

namespace RegoSyntax

/-- The place of a syntax node and the text it covers.  A source without a name has the empty
file name. -/
structure Location where
  file : String := ""
  row : Nat := 0
  col : Nat := 0
  offset : Nat := 0
  text : String := ""
  tabs : List Nat := []
deriving DecidableEq, Inhabited

namespace Location

/-- The byte offset just behind the covered text. -/
def stop (l : Location) : Nat := l.offset + l.text.utf8ByteSize

/-- How messages refer to a place: by file and row, or by row and column in a source without a
name. -/
def render (l : Location) : String :=
  if l.file.isEmpty then s!"{l.row}:{l.col}" else s!"{l.file}:{l.row}"

/-- The full account of a place, with the covered text quoted. -/
def describe (l : Location) : String :=
  s!"{l.row}:{l.col}@{l.offset} " ++ Quoted.display l.text

end Location

end RegoSyntax
