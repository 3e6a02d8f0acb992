/-
# RegoSyntax.Parse.Primary — primary terms.

A primary term is a scalar, a variable, a collection or a term in parentheses, with the reference
or call that it continues into.  What reading one gave is remembered by its offset: the parser
returns often, and reads the same term again.
-/
import RegoSyntax.Json.Reader
import RegoSyntax.Number.Numeral
import RegoSyntax.Parse.Collection
import RegoSyntax.Parse.Path

namespace RegoSyntax.Parse

/-! ## Scalars and variables -/

/-- A value that the current token denotes, at its place. -/
def here (v : Value) : Parse Term := do return ⟨v, some (← location)⟩

/-- Step from a sign or a point to the number behind it; a sign may come before a point. -/
def signMark (mark : Token) (following : List Token) : Parse Bool := do
  if (← token) == mark then
    scan
    if following.contains (← token) then return true
    else
      unexpected .number
      fail
  else return false

/-- A number, with its sign and with the point that it may start with. -/
def number : Parse Term := do
  let place ← location
  let negative ← signMark .minus [.number, .dot]
  let pointed ← signMark .dot [.number]
  let literal := (← look).literal
  if !pointed && Numeral.hasLeadingZero literal.toList then
    unexpected .numberWithoutLeadingZero
    fail
  let spelling := (if negative then "-" else "") ++ (if pointed then "." else "") ++ literal
  match Numeral.ofText? spelling with
  | none =>
    unexpected .invalidFloat
    fail
  | some n =>
    if n.inBounds then return ⟨.number spelling, some place⟩
    else
      reportHere .numberTooBig
      fail

/-- The text of a raw string: what is between its backticks. -/
def rawText? (literal : List Char) : Option String :=
  match literal with
  | '`' :: rest => if rest.getLast? == some '`' then some (String.ofList rest.dropLast) else none
  | _ => none

/-- A string.  Raw strings are taken as they are, quoted ones are those of JSON. -/
def string : Parse Term := do
  let literal := (← look).literal
  if literal.toList.head? == some '`' then
    here (.string (← ofOption (rawText? literal.toList)))
  else if literal == "\"\"" then here (.string "")
  else
    match JsonText.stringOf? literal with
    | some s => here (.string s)
    | none =>
      reportHere (.illegalString literal)
      fail

/-- The spelling of a wildcard. -/
def wildcard : String := "_"

/-- The current token as a variable.  A wildcard gets a name of its own. -/
def variableHere : Parse Term := do
  let literal := (← look).literal
  here (.var (← if literal == wildcard then do freshWildcard (← offset) else pure literal))

/-! ## Parentheses -/

/-- A term in parentheses.  Its text includes them. -/
def parenthesized (g : Grammar) : Parse Term := do
  let start ← offset
  scan
  let t ← g (.compound true)
  if (← token) == .rparen then
    let covered ← text start (← look).stop
    return { t with location := t.location.map ({ · with text := covered }) }
  else
    reportHere .unterminatedExpression
    fail

/-! ## Primary terms -/

/-- What a primary term starts with: everything up to the reference that it may continue into. -/
def head (g : Grammar) : Parse Term := do
  match ← token with
  | .nullKw => here .null
  | .trueKw => here (.boolean true)
  | .falseKw => here (.boolean false)
  | .minus | .dot | .number => number
  | .string => string
  | .ident | .containsKw => variableHere
  | .lbrack => array g
  | .lbrace => braced g
  | .lparen => parenthesized g
  | _ =>
    unexpected
    fail

/-- What an earlier reading of a primary term at the current offset gave, if it is remembered and to
be taken up again. -/
def remembered : Parse (Option MemoEntry) := do
  let r ← reading
  match r.memo.lookup r.look.offset with
  | some e => return if ← ask (.recall ⟨e, r.look, r.failures.isEmpty⟩) then some e else none
  | none => return none

/-- Take up again what an earlier reading gave. -/
def replay (e : MemoEntry) : Parse Term := do
  modify fun r =>
    { r with
      look := e.after
      failures := r.failures ++ e.failures
      comments := r.comments ++ e.comments }
  ofOption e.term

/-- Remember what reading from a place up to here gave. -/
def remember (start : Snapshot) (term : Option Term) : Parse Unit := modify fun r =>
  { r with
    memo := r.memo.push
      { before := start.look, clean := start.failures == 0, term, after := r.look
        failures := r.failures.extract start.failures r.failures.size
        comments := r.comments.extract start.comments r.comments.size } }

/-- Read a primary term afresh. -/
def freshTerm (g : Grammar) : Parse Term := do
  let start ← save
  let t ← attempt do
    let t ← head g
    finish g t false
  remember start t
  ofOption t

/-- A primary term, remembered or read afresh. -/
def term (g : Grammar) : Parse Term := nested do
  match ← remembered with
  | some e => replay e
  | none => freshTerm g

end RegoSyntax.Parse
