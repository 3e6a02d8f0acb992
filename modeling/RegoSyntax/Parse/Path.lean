/-
# RegoSyntax.Parse.Path — references and calls.

A term may be continued, with no blank in between, by `.x`, `[t]` or `(t, …)`.  The continuations
make it a reference or a call: `a.b[c](d).e` is a reference whose head is the call `a.b[c](d)`.  A
blank ends the chain, so `f (x)` is no call.
-/
import RegoSyntax.Parse.Production

namespace RegoSyntax.Parse

/-! ## Calls -/

/-- The name whose call without arguments is the empty set. -/
def setConstructor : String := "set"

/-- Whether an operator is the name of the empty set. -/
def isSetConstructor (operator : Term) : Bool :=
  match operator.value with
  | .ref [head] => head.value.isVarNamed setConstructor
  | _ => false

/-- The call of an operator, from the opening parenthesis on.  Its text starts at `start`. -/
def call (g : Grammar) (operator : Term) (start : Nat) : Parse Term := nested do
  let place := operator.place
  scan
  if (← token) == .rparen then
    let stop := (← look).stop
    scanBlank
    placed (.ofValue (if isSetConstructor operator then .set [] else .call [operator]))
      place start stop
  else
    let terms ← g (.elements .rparen [operator])
    let stop := (← look).stop
    scanBlank
    placed (.ofValue (.call terms)) place start stop

/-! ## References -/

/-- Whether a reference may start with a value. -/
def canHeadRef : Value → Bool
  | .var _ | .array _ | .object _ | .set _ | .call _ => true
  | .arrayComprehension .. | .objectComprehension .. | .setComprehension .. => true
  | _ => false

/-- A reference of which the head has been read. -/
def reference (g : Grammar) (head : Term) (start : Nat) : Parse Term := nested do
  if !canHeadRef head.value then
    report head.place (.illegalRefHead head.value.kind)
  g (.segments head.place start [head])

/-- A segment behind a point. -/
def namedSegment : Parse Term := do
  scanBlank
  if (← token) == .ident || (← isRefKeyword) then
    let l ← look
    scanBlank
    return ⟨.string l.literal, some l.location⟩
  else
    unexpected (.token .ident)
    fail

/-- A segment between brackets. -/
def bracketSegment (g : Grammar) : Parse Term := do
  scan
  let t ← g (.compound true)
  if (← token) == .rbrack then
    scanBlank
    return t
  else
    unexpected (.token .rbrack)
    fail

/-- A reference that ends at the last token. -/
def endReference (place : Location) (start : Nat) (path : Ref) : Parse Term := do
  placed (.ofValue (.ref path)) place start (← lastStop)

/-- The rest of a reference: its path so far is the operator of a call, or is continued by a
segment, or is all of it. -/
def segments (g : Grammar) (place : Location) (start : Nat) (path : Ref) : Parse Term := do
  match ← token with
  | .dot =>
    let t ← namedSegment
    g (.segments place start (path ++ [t]))
  | .lbrack =>
    let t ← bracketSegment g
    g (.segments place start (path ++ [t]))
  | .lparen =>
    let operator ← placed (.ofValue (.ref path)) place start (← offset)
    let c ← call g operator start
    match ← token with
    | .whitespace => do
      scan
      return c
    | .dot | .lbrack => g (.reference c start)
    | _ => return c
  | .whitespace =>
    let t ← endReference place start path
    scan
    return t
  | _ => endReference place start path

/-- Whether a variable on its own is a reference. -/
def isRoot (v : Value) : Bool := v.isVarNamed dataRoot || v.isVarNamed inputRoot

/-- Go on behind a term: into a reference or a call, if one follows directly.  The roots of
documents are references even on their own.  In the head of a rule, blanks may come before. -/
def finish (g : Grammar) (head : Term) (skipBlanks : Bool) : Parse Term := do
  let start ← offset
  advance skipBlanks
  match ← token with
  | .lparen | .dot | .lbrack => g (.reference head start)
  | kind =>
    if kind == .whitespace then scan
    return if isRoot head.value then ⟨.ref [head], head.location⟩ else head

end RegoSyntax.Parse
