/-
# RegoSyntax.Metadata.Block — blocks of metadata comments.

A block opens at a comment that starts with `METADATA`, and consists of the comments on the lines
below it that start in the first column:

    # METADATA
    # title: Allow admins
    # authors:
    # - Jane Doe <jane@example.com>

Without their marks, these comments are a YAML document.  Each block is decoded on its own and gives
annotations or one error.
-/
import RegoSyntax.Metadata.Contents

namespace RegoSyntax.Metadata

/-! ## Grouping -/

/-- A block: the place of the comment that opens it, and the comments below. -/
structure Block where
  opener : Location
  comments : List Comment := []

namespace Block

/-- The word that opens a block. -/
def marker : String := "METADATA"

/-- Whether a comment opens a block. -/
def isOpener (c : Comment) : Bool := marker.toList.isPrefixOf (c.text.toList.dropWhile Text.isBlank)

/-- Whether a comment belongs to the block of the comment before it. -/
def isNext (before c : Comment) : Bool :=
  c.location.row == before.location.row + 1 && c.location.col == 1

/-- A block with one more comment. -/
def add (b : Block) (c : Comment) : Block := { b with comments := b.comments ++ [c] }

/-- The block that a comment opens, with that comment. -/
def open? (c : Comment) : Option (Block × Comment) :=
  if isOpener c then some ({ opener := c.location }, c) else none

/-- The blocks among comments, with the block that is open and the comment that was last. -/
def group : Option (Block × Comment) → List Comment → List Block
  | none, [] => []
  | some (b, _), [] => [b]
  | none, c :: rest => group (open? c) rest
  | some (b, before), c :: rest =>
    if isNext before c then group (some (b.add c, c)) rest else b :: group (open? c) rest

/-- The blocks among comments. -/
def all (comments : List Comment) : List Block := group none comments

/-! ## Text -/

/-- The text of a comment without the blank that sets it off from its mark. -/
def line (c : Comment) : String :=
  match c.text.toList with
  | ' ' :: rest => String.ofList rest
  | _ => c.text

/-- The document that a block contains. -/
def document (b : Block) : String := String.join (b.comments.map fun c => line c ++ "\n")

/-- A line without the carriage return at its end. -/
def withoutReturn (s : String) : String :=
  if s.toList.getLast? == some '\r' then String.ofList s.toList.dropLast else s

/-- A block as comment lines of one form. -/
def text (b : Block) : String :=
  joinWith "\n" (("# " ++ marker) :: b.comments.map fun c => "# " ++ withoutReturn (line c))

/-! ## Hints -/

/-- A character as hints show it: all but printable ASCII by number. -/
def quotedChar (c : Char) : String :=
  let n := c.toNat
  if c == '\'' then "'\\''"
  else if c == '\\' then "'\\\\'"
  else if 0x20 ≤ n && n ≤ 0x7E then "'" ++ c.toString ++ "'"
  else if n < 0x80 then "'\\x" ++ Quoted.paddedHex 2 n ++ "'"
  else if n < 0x10000 then "'\\u" ++ Quoted.paddedHex 4 n ++ "'"
  else "'\\U" ++ Quoted.paddedHex 8 n ++ "'"

/-- The characters right behind the colons of a comment; none if a blank or the end of the text is
behind one of them. -/
def strayCharacters : List (List Char) → List Char
  | [] => []
  | [[]] => []
  | piece :: rest =>
    let c := piece.head?.getD Text.replacement
    if Yaml.isBlank c then []
    else
      match rest with
      | [] => [c]
      | rest =>
        match strayCharacters rest with
        | [] => []
        | cs => c :: cs

/-- The hint for a comment that has other characters than blanks behind all of its colons. -/
def separatorHint (c : Comment) : String :=
  match strayCharacters ((Text.pieces (· == ':') c.text.toList).drop 1) with
  | [] => ""
  | cs =>
    s!"\n  Hint: on line {c.location.row}, symbol(s) [" ++ joinWith " " (cs.map quotedChar) ++
      "] immediately following a key/value separator ':' is not a legal yaml space character"

/-! ## Decoding -/

/-- How the fields of a block are read from its document. -/
abbrev Reader := String → Except Yaml.DecodeError Record

/-- What is wrong with a block. -/
inductive Problem where
  | blank
  | form (e : Yaml.DecodeError)
  | content (e : ContentProblem)

/-- The wording of a problem.  Where the text cannot be read, all comments with stray characters are
pointed out. -/
def message (b : Block) : Problem → String
  | .blank => "expected METADATA block, found whitespace"
  | .form e => e.message ++ String.join (b.comments.map separatorHint)
  | .content e => e.message

/-- The place of a problem: the comment with the line that cannot be read, or the opener. -/
def place (b : Block) : Problem → Location
  | .form e =>
    let index := match e.mark? with
      | some mark => min mark.line (b.comments.length - 1)
      | none => 0
    match b.comments[index]? with
    | some c => c.location
    | none => b.opener
  | _ => b.opener

/-- The annotations of a block. -/
def decode (b : Block) (read : Reader := Record.ofText) : Except Problem Annotations :=
  if b.document.toList.all Text.isBlank then .error .blank
  else
    match read b.document with
    | .error e => .error (.form e)
    | .ok r =>
      match r.annotations with
      | .error e => .error (.content e)
      | .ok a =>
        .ok { a with location := some { b.opener with text := b.text }, comments := b.comments }

end Block

end RegoSyntax.Metadata
