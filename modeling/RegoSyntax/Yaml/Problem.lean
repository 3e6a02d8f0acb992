/-
# RegoSyntax.Yaml.Problem — what can be wrong with the form of a YAML text.

An error names what was found, and where; most of them also name what was being read, and where
that started.  The wording is in one place, and so is the way the two are put together.
-/

namespace RegoSyntax.Yaml

/-! ## Places -/

/-- A place in a text: the number of characters before it, and its line and column, all from
zero. -/
structure Mark where
  index : Nat := 0
  line : Nat := 0
  column : Nat := 0
deriving DecidableEq, Repr, Inhabited

namespace Mark

/-- Whether a place is the very start, which messages leave out. -/
def isStart (m : Mark) : Bool := m.line == 0 && m.column == 0

/-- How messages speak of a place: lines and columns count from one. -/
def render (m : Mark) : String := s!"line {m.line + 1} column {m.column + 1}"

/-- A place as the end of a message. -/
def suffix (m : Mark) : String := if m.isStart then "" else " at " ++ m.render

end Mark

/-! ## Faults -/

/-- What is wrong at a place. -/
inductive Fault where
  /- in the text -/
  | controlCharacter
  | noTokenStart
  | strayColon
  | tabInIndent
  | tabForIndent
  | missingColon
  | entryNotAllowed
  | keyNotAllowed
  | valueNotAllowed
  | unknownDirective
  | missingDirectiveName
  | strayInDirectiveName
  | missingLineEnd
  | missingVersionPoint
  | longVersion
  | missingVersion
  | missingBlank
  | missingBlankOrBreak
  | missingName
  | missingAngle
  | missingBang
  | missingUri
  | missingOctet
  | badLeadingOctet
  | badTrailingOctet
  | zeroIndent
  | documentInside
  | endInside
  | unknownEscape
  | missingHexDigit
  | badCharacterCode
  /- in the structure -/
  | missingDocumentStart
  | repeatedVersion
  | repeatedHandle
  | unsupportedVersion
  | unknownHandle
  | missingContent
  | missingEntry
  | missingKey
  | openSequence
  | openMapping
deriving DecidableEq, Repr

/-- The wording of a fault. -/
def Fault.message : Fault → String
  | controlCharacter => "control characters are not allowed"
  | noTokenStart => "found character that cannot start any token"
  | strayColon => "found unexpected ':'"
  | tabInIndent => "found a tab character that violates indentation"
  | tabForIndent => "found a tab character where an indentation space is expected"
  | missingColon => "could not find expected ':'"
  | entryNotAllowed => "block sequence entries are not allowed in this context"
  | keyNotAllowed => "mapping keys are not allowed in this context"
  | valueNotAllowed => "mapping values are not allowed in this context"
  | unknownDirective => "found unknown directive name"
  | missingDirectiveName => "could not find expected directive name"
  | strayInDirectiveName => "found unexpected non-alphabetical character"
  | missingLineEnd => "did not find expected comment or line break"
  | missingVersionPoint => "did not find expected digit or '.' character"
  | longVersion => "found extremely long version number"
  | missingVersion => "did not find expected version number"
  | missingBlank => "did not find expected whitespace"
  | missingBlankOrBreak => "did not find expected whitespace or line break"
  | missingName => "did not find expected alphabetic or numeric character"
  | missingAngle => "did not find the expected '>'"
  | missingBang => "did not find expected '!'"
  | missingUri => "did not find expected tag URI"
  | missingOctet => "did not find URI escaped octet"
  | badLeadingOctet => "found an incorrect leading UTF-8 octet"
  | badTrailingOctet => "found an incorrect trailing UTF-8 octet"
  | zeroIndent => "found an indentation indicator equal to 0"
  | documentInside => "found unexpected document indicator"
  | endInside => "found unexpected end of stream"
  | unknownEscape => "found unknown escape character"
  | missingHexDigit => "did not find expected hexdecimal number"
  | badCharacterCode => "found invalid Unicode character escape code"
  | missingDocumentStart => "did not find expected <document start>"
  | repeatedVersion => "found duplicate %YAML directive"
  | repeatedHandle => "found duplicate %TAG directive"
  | unsupportedVersion => "found incompatible YAML document"
  | unknownHandle => "found undefined tag handle"
  | missingContent => "did not find expected node content"
  | missingEntry => "did not find expected '-' indicator"
  | missingKey => "did not find expected key"
  | openSequence => "did not find expected ',' or ']'"
  | openMapping => "did not find expected ',' or '\x7d'"

/-- What is being read when a fault is met. -/
inductive Activity where
  | token
  | simpleKey
  | directive
  | versionDirective
  | tagDirective
  | handle
  | directiveHandle
  | directiveHandleEnd
  | directiveUri
  | tag
  | tagUri
  | anchor
  | aliasName
  | blockScalar
  | quotedScalar
  | escape
  | plainScalar
  | node
  | blockNode
  | flowNode
  | blockSequence
  | blockMapping
  | flowSequence
  | flowMapping
deriving DecidableEq, Repr

/-- The wording of an activity. -/
def Activity.message : Activity → String
  | token => "while scanning for the next token"
  | simpleKey => "while scanning a simple key"
  | directive => "while scanning a directive"
  | versionDirective => "while scanning a %YAML directive"
  | tagDirective => "while scanning a %TAG directive"
  | handle => "while scanning a tag"
  | directiveHandle => "while scanning a tag directive"
  | directiveHandleEnd => "while parsing a tag directive"
  | directiveUri => "while parsing a %TAG directive"
  | tag => "while scanning a tag"
  | tagUri => "while parsing a tag"
  | anchor => "while scanning an anchor"
  | aliasName => "while scanning an alias"
  | blockScalar => "while scanning a block scalar"
  | quotedScalar => "while scanning a quoted scalar"
  | escape => "while parsing a quoted scalar"
  | plainScalar => "while scanning a plain scalar"
  | node => "while parsing a node"
  | blockNode => "while parsing a block node"
  | flowNode => "while parsing a flow node"
  | blockSequence => "while parsing a block collection"
  | blockMapping => "while parsing a block mapping"
  | flowSequence => "while parsing a flow sequence"
  | flowMapping => "while parsing a flow mapping"

/-- An error in the form of a text.  A control character is found before lines are told apart: its
place is a byte offset. -/
structure FormError where
  fault : Fault
  mark : Mark := {}
  offset : Nat := 0
  context : Option (Activity × Mark) := none
deriving DecidableEq, Repr

namespace FormError

/-- The place of the fault, as the end of a message. -/
def place (e : FormError) : String :=
  if e.mark.isStart && e.offset != 0 then s!" at position {e.offset}" else e.mark.suffix

/-- The wording of an error.  The place of the context is left out where it is the place of the
fault. -/
def message (e : FormError) : String :=
  e.fault.message ++ e.place ++
    match e.context with
    | none => ""
    | some (activity, mark) =>
      let same := mark.line == e.mark.line && mark.column == e.mark.column
      ", " ++ activity.message ++ if same then "" else mark.suffix

end FormError

end RegoSyntax.Yaml
