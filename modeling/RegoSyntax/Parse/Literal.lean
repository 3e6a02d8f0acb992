/-
# RegoSyntax.Parse.Literal — queries and their literals.

A query is a sequence of literals, with a semicolon or a line break between any two.  A literal is
an expression, which may be negated and may have replacements behind it; a declaration (`some`); or
a quantified query (`every`).

Where a word would have to be imported first, its literal reads as something else: `every` as a
variable, `some x in xs` as a declaration that goes on strangely.  Such a literal is read again with
all words reserved; if that works, the next error comes with a hint.
-/
import RegoSyntax.Parse.Primary

namespace RegoSyntax.Parse

/-! ## Expressions -/

/-- A term with operators, or a call of an assignment or a unification. -/
def expression (g : Grammar) : Parse Expr := do
  let left ← g (.compound true)
  let kind ← token
  if kind == .assign || kind == .unify then
    let place ← location
    scan
    let right ← g (.compound true)
    let op : Term := ⟨.ref [⟨.var kind.name, some place⟩], some place⟩
    return .ofTerms (.call [op, left, right])
  else
    match left.value with
    | .call terms => return .ofTerms (.call terms)
    | _ => return .ofTerm left

/-! ## Replacements -/

/-- Report what cannot be replaced. -/
def checkTarget (target : Term) : Parse Unit :=
  match target.value with
  | .ref _ | .var _ => pure ()
  | _ => unexpected .withTarget

/-- The value that a target is replaced by, behind the target. -/
def replacedBy (g : Grammar) (place : Location) (target : Term) : Parse With := do
  if (← token) != .asKw then
    unexpected .asKeyword
    fail
  scan
  let value ← g (.compound true)
  return ⟨target, value, some (← upToLastStop place)⟩

/-- One replacement, from its keyword on. -/
def replacement (g : Grammar) : Parse With := do
  let place ← location
  scan
  if (← token) != .ident then
    unexpected .ident
    fail
  let target ← g .term
  checkTarget target
  replacedBy g place target

/-- One replacement or more. -/
def replacements (g : Grammar) (read : List With) : Parse (List With) := do
  let read := read ++ [← replacement g]
  if (← token) == .withKw then g (.replacements read) else return read

/-- The replacements of a literal, if there are any. -/
def replaced (g : Grammar) (e : Expr) : Parse Expr := do
  if (← token) == .withKw then return { e with withs := ← g (.replacements []) } else return e

/-! ## Declarations -/

/-- How many terms a call of a membership operator has. -/
def memberArity? (name : String) : Option Nat :=
  if name == memberName then some 3
  else if name == memberWithKeyName then some 4
  else none

/-- The text of the operator of a call. -/
def operatorName (terms : List Term) : String := (terms.head?.map Term.render).getD ""

/-- Whether a term is a membership. -/
def isMembership (t : Term) : Bool :=
  match t.value with
  | .call terms => (memberArity? (operatorName terms)).isSome
  | _ => false

/-- The declaration of a membership that has been read. -/
def declaredMembership (g : Grammar) (place : Location) (t : Term) (terms : List Term) :
    Parse Expr := do
  match memberArity? (operatorName terms) with
  | none =>
    unexpected .membership
    fail
  | some n =>
    if terms.length == n then
      replaced g ((Expr.ofTerms (.some [t] (some place))).placed place)
    else
      unexpected .illegalDomain
      fail

/-- The variables of a declaration, each behind the token that precedes it. -/
def symbols (g : Grammar) (read : List Term) : Parse (List Term) := do
  scan
  if (← token) != .ident then
    unexpected .var
    fail
  let read := read ++ [← variableHere]
  scan
  if (← token) == .comma then g (.symbols read) else return read

/-- If the declaration at a place would be a membership with all words reserved, say so with the
next error. -/
def suggestIn (g : Grammar) (start : Snapshot) : Parse Unit := do
  if (← env).suggestImports then
    scan
    let t ← withFutureKeywords (attempt (g (.compound true)))
    restore start
    if t.any isMembership then hint .importIn

/-- The declaration of variables, from the keyword on. -/
def declaredSymbols (g : Grammar) (place : Location) (start : Snapshot) : Parse Expr := do
  restore start
  suggestIn g start
  let read ← g (.symbols [])
  return (Expr.ofTerms (.some read (some place))).placed place

/-- A declaration.  A membership is tried first. -/
def declaration (g : Grammar) : Parse Expr := do
  let place ← location
  let start ← save
  scan
  match ← attempt (g (.compound true)) with
  | some t =>
    match t.value with
    | .call terms => declaredMembership g place t terms
    | _ => declaredSymbols g place start
  | none => declaredSymbols g place start

/-! ## Quantified queries -/

/-- The key, the value and the domain of a quantified query, or what is wrong with the terms they
should be. -/
def quantifiedTerms (terms : List Term) : Except Note (Option Term × Term × Term) :=
  match memberArity? (operatorName terms), terms with
  | some 3, [_, value, domain] =>
    if value.value.isVar then .ok (none, value, domain) else .error .valueVariable
  | some 4, [_, key, value, domain] =>
    if !key.value.isVar then .error .keyVariable
    else if !value.value.isVar then .error .valueVariable
    else .ok (some key, value, domain)
  | some _, _ => .error .illegalDomain
  | none, _ => .error .everyShape

/-- The key, the value and the domain of a quantified query, or what is wrong with the term they
should be in. -/
def quantified (t : Term) : Except Note (Option Term × Term × Term) :=
  match t.value with
  | .call terms => quantifiedTerms terms
  | _ => .error .everyShape

/-- The query of a quantified query, from its opening brace on. -/
def quantifiedQuery (g : Grammar) (place : Location) (key : Option Term) (value domain : Term) :
    Parse Expr := do
  if (← token) != .lbrace then
    unexpected .missingBody
    fail
  scan
  let b ← g (.body .rbrace)
  scan
  replaced g ((Expr.ofTerms (.every key value domain b (some place))).placed place)

/-- A quantified query. -/
def quantifier (g : Grammar) : Parse Expr := do
  let place ← location
  scan
  let t ← g (.compound true)
  match quantified t with
  | .error note =>
    unexpected note
    fail
  | .ok (key, value, domain) => quantifiedQuery g place key value domain

/-! ## Literals -/

/-- The word that starts a quantified query. -/
def everyWord : String := Token.everyKw.name

/-- Whether an expression is that word, read as a variable. -/
def isEveryVar (e : Expr) : Bool := e.term?.any (·.value.isVarNamed everyWord)

/-- Whether an expression is a quantified query. -/
def isQuantifier (e : Expr) : Bool :=
  match e.terms with
  | .every .. => true
  | _ => false

/-- If the literal at a place would be a quantified query with all words reserved, say so with the
next error. -/
def suggestEvery (g : Grammar) (start : Snapshot) (e : Expr) : Parse Unit := do
  if (← env).suggestImports && isEveryVar e then
    let q ← probe start (withFutureKeywords (quantifier g))
    if q.any isQuantifier then hint .importEvery

/-- An expression with its sign and its replacements. -/
def plainLiteral (g : Grammar) (negated : Bool) : Parse Expr := do
  let start ← save
  let e ← expression g
  let e ← replaced g { e with negated }
  suggestEvery g start e
  return e

/-- Whether a literal is negated here.  The word is no sign where a reference goes on behind it. -/
def negation : Parse Bool := do
  if (← token) != .notKw then return false
  if continuesRef (← peekBlank) then return false
  scan
  return true

/-- A literal, at no place yet. -/
def unplacedLiteral (g : Grammar) : Parse Expr := do
  if ← startsRefWithKeyword then plainLiteral g false
  else
    let negated ← negation
    match ← token with
    | .someKw =>
      if negated then
        unexpected .negatedSome
        fail
      else declaration g
    | .everyKw =>
      if negated then
        unexpected .negatedEvery
        fail
      else quantifier g
    | _ => plainLiteral g negated

/-- A literal. -/
def literal (g : Grammar) : Parse Expr := do
  let place ← location
  let e ← unplacedLiteral g
  return e.placed (← upToLastStop place)

/-! ## Queries -/

/-- The literals of a query up to its closing token, which stays the current one. -/
def literals (g : Grammar) (oneLine : Bool) (stop : Token) (read : Body) : Parse Body := do
  let e ← g .literal
  let read := Body.push read e
  let kind ← token
  if kind == .semicolon then
    scan
    g (.literals oneLine stop read)
  else if kind == stop || oneLine then return read
  else if (← look).skippedNewline then g (.literals oneLine stop read)
  else
    if ← noFailures then unexpected (.literalSeparatorOr stop)
    fail

/-- A query, which has a literal at least. -/
def query (g : Grammar) (oneLine : Bool) (stop : Token) : Parse Body := do
  if (← token) == stop then
    reportHere .emptyBody
    fail
  else g (.literals oneLine stop [])

/-- A query between braces or behind the bar of a comprehension. -/
def body (g : Grammar) (stop : Token) : Parse Body := nested (query g false stop)

end RegoSyntax.Parse
