/-
# RegoSyntax.Parse.Collection — arrays, sets, objects and comprehensions.

What `[` and `{` open is decided by the first element.  It is read as a primary term; if the token
behind it does not settle the matter, the parser returns and reads it again, with operators.  A bar
behind the first element may start the query of a comprehension or be the union operator of an
element; the comprehension is preferred unless its query stops at a comma.
-/
import RegoSyntax.Parse.Production

namespace RegoSyntax.Parse

/-- A term that spans from where it started to the end of the current token. -/
def bracketed (x : Parse Value) : Parse Term := nested do
  let place ← location
  let v ← x
  placed (.ofValue v) place place.offset (← look).stop

/-- Read past a comma behind an opening bracket.  What follows is no comprehension then. -/
def leadingComma : Parse Bool := do
  if (← token) == .comma then
    scan
    return true
  else return false

/-- The elements of a list up to its closing token, which stays the current one.  A comma may
stand before it. -/
def elements (g : Grammar) (stop : Token) (read : List Term) : Parse (List Term) := do
  if (← token) == stop then return read
  let t ← g (.compound false)
  let read := read ++ [t]
  let kind ← token
  if kind == stop then return read
  else if kind == .comma then
    scan
    g (.elements stop read)
  else
    unexpected (.separatorOr stop)
    fail

/-- The entries of an object up to its closing token, which stays the current one. -/
def pairs (g : Grammar) (stop : Token) (read : List (Term × Term)) :
    Parse (List (Term × Term)) := do
  if (← token) == stop then return read
  let k ← g (.compound false)
  if (← token) != .colon then
    unexpected (.quotedToken .colon)
    fail
  scan
  let v ← g (.compound false)
  let read := read ++ [(k, v)]
  let kind ← token
  if kind == stop then return read
  else if kind == .comma then
    scan
    g (.pairs stop read)
  else
    unexpected (.separatorOr stop)
    fail

/-! ## Arrays -/

/-- The elements of an array whose first element starts at a place. -/
def arrayFrom (g : Grammar) (start : Snapshot) : Parse Value := do
  restore start
  return .array (← g (.elements .rbrack []))

/-- What stands between brackets. -/
def arrayElements (g : Grammar) : Parse Value := do
  scan
  if (← token) == .rbrack then return .array []
  let plain ← leadingComma
  let start ← save
  let head ← g .term
  match ← token with
  | .rbrack => return .array [head]
  | .comma =>
    scan
    return .array (← g (.elements .rbrack [head]))
  | .bar =>
    if plain then arrayFrom g start
    else
      scan
      match ← attempt (g (.body .rbrack)) with
      | some b => return .arrayComprehension head b
      | none => if (← token) == .comma then arrayFrom g start else fail
  | _ => arrayFrom g start

/-- An array, or an array comprehension. -/
def array (g : Grammar) : Parse Term := bracketed (arrayElements g)

/-! ## Sets -/

/-- The elements of a set whose first element starts at a place. -/
def setFrom (g : Grammar) (start : Snapshot) : Parse Value := do
  restore start
  return .set (← g (.elements .rbrace []))

/-- The rest of a set of which the first element has been read, or of a set comprehension. -/
def set (g : Grammar) (start : Snapshot) (head : Term) (plain : Bool) : Parse Value := nested do
  match ← token with
  | .rbrace => return .set [head]
  | .comma =>
    scan
    return .set (← g (.elements .rbrace [head]))
  | .bar =>
    if plain then setFrom g start
    else
      scan
      match ← attempt (g (.body .rbrace)) with
      | some b => return .setComprehension head b
      | none => if (← token) == .comma then setFrom g start else fail
  | _ => fail

/-! ## Objects -/

/-- The rest of an object of which the first entry has been read, or of an object
comprehension. -/
def objectRest (g : Grammar) (key value : Term) (plain : Bool) : Parse Value := nested do
  match ← token with
  | .rbrace => return .object [(key, value)]
  | .bar =>
    if plain then
      unexpected .unterminatedObject
      fail
    else
      scan
      return .objectComprehension key value (← g (.body .rbrace))
  | .comma =>
    scan
    return .object (← g (.pairs .rbrace [(key, value)]))
  | _ => fail

/-- Report an object that does not end, at the current token. -/
def unterminatedObject : Parse Value := do
  unexpected .unterminatedObject
  fail

/-- Read the value of the first entry again, with operators, and what is behind it. -/
def objectFrom (g : Grammar) (start : Snapshot) (key : Term) : Parse Value := do
  restore start
  let value ← g (.compound false)
  match ← token with
  | .rbrace | .comma => objectRest g key value true
  | _ => unterminatedObject

/-- The rest of an object of which the first key has been read, or of an object comprehension.
The value is read as a primary term first. -/
def object (g : Grammar) (key : Term) (plain : Bool) : Parse Value := nested do
  scan
  let start ← save
  let value ← g .term
  if plain then objectFrom g start key
  else
    match ← token with
    | .rbrace | .comma =>
      match ← attempt (objectRest g key value false) with
      | some v => return v
      | none =>
        restore start
        unterminatedObject
    | .bar =>
      match ← attempt (objectRest g key value false) with
      | some v => return v
      | none => objectFrom g start key
    | _ => objectFrom g start key

/-! ## Braces -/

/-- What stands between braces: the token behind the first element tells a set from an object. -/
def bracedElements (g : Grammar) : Parse Value := do
  scan
  if (← token) == .rbrace then return .object []
  let plain ← leadingComma
  let start ← save
  let head ← g .term
  let kind ← token
  if kind == .rbrace || kind == .comma || (kind == .bar && !plain) then set g start head plain
  else if kind == .colon then object g head plain
  else
    restore start
    let head ← g (.compound false)
    match ← token with
    | .rbrace | .comma => set g start head true
    | .colon => object g head plain
    | _ =>
      unexpected .unterminatedSet
      fail

/-- A set, an object, or a comprehension of one of them. -/
def braced (g : Grammar) : Parse Term := bracketed (bracedElements g)

end RegoSyntax.Parse
