/-
# RegoSyntax.Parse.Definition — rules.

```text
rule  = [ "default" ] head [ body ] [ else ] { "{" query "}" }
head  = ref [ "(" args ")" ] [ "contains" key | ( ":=" | "=" ) value ]
body  = "if" literal | [ "if" ] "{" query "}"
else  = "else" [ ( ":=" | "=" ) value ] [ body ] [ else ]
```

Several bodies behind one head (`p { a } { b }`) define a rule each, all with that head.  A text
that starts like a rule and is none may still be a query, so most ways to fail here leave no error.
-/
import RegoSyntax.Parse.Literal
import RegoSyntax.Tree.Constant
import RegoSyntax.Tree.Ground

namespace RegoSyntax.Parse

/-! ## What rules are made up of -/

/-- The term `true` at a place. -/
def trueTerm (place : Location) : Term := ⟨.boolean true, some place⟩

/-- The body that holds always, made up at a place. -/
def trueBody (place : Location) : Body :=
  Body.push [] { (Expr.ofTerm (trueTerm place)).placed place with generated := true }

/-- A head in which every wildcard argument has a fresh name, so that rules with one head do not
share wildcards.  The head is for what stands at an offset. -/
def renewed (h : Head) (stands : Nat) : Parse Head := do
  let args ← h.args.mapM fun t =>
    match t.value with
    | .var name =>
      if isWildcardName name then do return { t with value := .var (← freshWildcard stands) }
      else return t
    | _ => return t
  return { h with args }

/-! ## Heads -/

/-- The head that a term stands for. -/
def headOf (t : Term) : Parse Head :=
  match t.value with
  | .var name => return .ofVar name t.location
  | .ref path => return .ofRef path
  | .call (op :: args) =>
    match op.value with
    | .var _ => return { Head.ofRef [op] with args }
    | .ref path =>
      if (Ref.headVar? path).isSome then return { Head.ofRef path with args }
      else do
        unexpected (.invalidHead (Ref.render path))
        fail
    | _ => fail
  | _ => fail

/-- The term behind a sign in a head.  Where there is none, a note says what was expected. -/
def headPart (g : Grammar) (note : Note) : Parse (Option Term) := do
  scan
  let t ← attempt (g (.compound true))
  if t.isNone then unexpected note
  return t

/-- What a value behind `:=` would be the value of. -/
def valueNote (h : Head) (isDefault : Bool) (name : String) : Note :=
  if !h.args.isEmpty then .functionValue name
  else if h.key.isSome then .partialRuleValue name
  else if isDefault then .defaultRuleValue name
  else .assignedRuleValue name

/-- A head with a value if it needs one: `true` where nothing was written.  A path of two segments
without arguments may still turn out to end in a key. -/
def valued (h : Head) (place : Location) : Head :=
  if h.value.isNone && h.key.isNone && (h.reference.length != 2 || !h.args.isEmpty) then
    { h with generatedValue := true, value := some (trueTerm place) }
  else h

/-- A head with the key or the value that is written behind it. -/
def headRest (g : Grammar) (isDefault : Bool) (place : Location) (h : Head) : Parse Head := do
  let name := Ref.render h.reference
  match ← token with
  | .containsKw =>
    if !h.args.isEmpty then unexpected (.containsOnFunction name)
    return { h with key := ← headPart g (.ruleKey name), keywords := [.containsKw] }
  | .unify => return valued { h with value := ← headPart g (.ruleValue name) } place
  | .assign =>
    return valued
      { h with assign := true, value := ← headPart g (valueNote h isDefault name) } place
  | _ => return valued h place

/-- The head of a rule. -/
def ruleHead (g : Grammar) (isDefault : Bool) : Parse Head := do
  let place ← location
  let name ← variableHere
  match ← attempt (finish g name true) with
  | none =>
    unexpected .headName
    fail
  | some t =>
    let h ← headOf t
    let h ← headRest g isDefault place h
    return { h with location := some (← upToLastStop place) }

/-- Whether a head was written with `contains`. -/
def usesContains (h : Head) : Bool := h.keywords.contains .containsKw

/-- The name of the variable a path starts with. -/
def headName (r : Ref) : Parse String := ofOption (Ref.headVar? r)

/-- A head whose path has two segments, in the light of what follows it.  Before `if` the path is
taken whole.  In the older syntax, without arguments, its last segment is the key: `p[x]` defines
members `x` of `p`, and `p[x] = v` the value at each key. -/
def resolved (h : Head) (place : Location) (hasIf : Bool) : Parse Head := do
  match h.reference with
  | [base, key] =>
    if usesContains h then return h
    else if hasIf then
      if h.value.isNone then return { h with generatedValue := true, value := some (trueTerm place) }
      else return { h with name := some (← headName h.reference) }
    else if h.args.isEmpty then
      let name ← headName h.reference
      return { h with
        name := some name
        key := some key
        reference := if h.value.isNone then [base] else h.reference }
    else return h
  | _ => return h

/-! ## Default rules -/

/-- Report every problem of a list at a place, and fail if there is one. -/
def rejectFor (place : Location) (problems : List Problem) : Parse Unit := do
  problems.forM (report place)
  if problems.isEmpty then pure () else fail

/-- What is wrong with the arguments of a default rule; `seen` are the names before them. -/
def argumentProblems (seen : List String) : List Term → List Problem
  | [] => []
  | t :: ts =>
    match t.value with
    | .var name =>
      if isWildcardName name then argumentProblems seen ts
      else if seen.contains name then .defaultArgumentRepeated name :: argumentProblems seen ts
      else argumentProblems (name :: seen) ts
    | v => .defaultArgumentContains v.kind :: argumentProblems seen ts

/-- The default rule of a head, whose value has to be constant and whose arguments have to be
distinct variables. -/
def defaultRule (h : Head) (place : Location) : Parse Rule := do
  let place ← upToLastStop place
  match h.value with
  | none => rejectFor place [.defaultWithoutValue]
  | some v => rejectFor place (v.evaluatedKinds.map .defaultValueContains)
  rejectFor place (argumentProblems [] h.args)
  return { Rule.new h (trueBody place) with
    isDefault := true, generatedBody := true, location := some place }

/-! ## Bodies -/

/-- A query in braces, from the opening brace on. -/
def bracedBody (g : Grammar) : Parse Body := do
  scan
  let b ← g (.body .rbrace)
  scan
  return b

/-- Whether an expression is a set: behind `if` it is read as a body in braces instead. -/
def isSet (e : Expr) : Bool :=
  e.term?.any fun t =>
    match t.value with
    | .set _ => true
    | _ => false

/-- The body behind `if`: one literal, or a query in braces. -/
def ifBody (g : Grammar) : Parse Body := do
  scan
  let start ← save
  match (← attempt (g .literal)).filter (!isSet ·) with
  | some e => return .push [] e
  | none =>
    restore start
    bracedBody g

/-! ## Alternatives -/

/-- The head of an alternative: the head of its rule, without what was written behind it. -/
def alternativeHead (h : Head) (place : Location) : Parse Head := do
  let h ← renewed { h with generatedValue := false, keywords := [] } place.offset
  return { h with location := some place }

/-- The value of an alternative, behind its keyword.  Its head stretches up to there. -/
def alternativeValue (g : Grammar) (h : Head) (place : Location) : Parse Head := do
  match ← token with
  | .lbrace | .ifKw => return { h with generatedValue := true, value := some (trueTerm place) }
  | .assign | .unify =>
    let assign := (← token) == .assign
    scan
    let v ← g (.compound true)
    return { h with assign, value := some v, location := some (← upToLastStop place) }
  | _ =>
    unexpected .elseValueOrBody
    fail

/-- The body of an alternative behind `if`, and whether it belongs to the alternative as a
whole. -/
def alternativeIfBody (g : Grammar) : Parse (Body × Bool) := do
  scan
  match ← token with
  | .lbrace => return (← bracedBody g, false)
  | .eof =>
    unexpected .ruleBody
    fail
  | _ => return (Body.push [] (← g .literal), true)

/-- The alternative behind a body. -/
def furtherAlternative (g : Grammar) (h : Head) : Parse (Option Rule) := do
  if (← token) == .elseKw then return some (← g (.alternative h)) else return none

/-- The rule that is to apply where the rules before it do not, from the keyword on.  A body that
is one literal, or none at all, is moved to where the alternative stands. -/
def alternative (g : Grammar) (h : Head) : Parse Rule := do
  let start ← location
  let own ← alternativeHead h start
  scan
  let own ← alternativeValue g own start
  match ← token with
  | .ifKw =>
    let (b, moved) ← alternativeIfBody g
    let next ← furtherAlternative g h
    let place ← upToLastStop start
    return { Rule.new { own with keywords := [.ifKw] } (if moved then b.relocate place else b) with
      elseRule := next, location := some place }
  | .lbrace =>
    let b ← bracedBody g
    let next ← furtherAlternative g h
    let place ← upToLastStop start
    return { Rule.new own b with elseRule := next, location := some place }
  | _ =>
    let place ← upToLastStop start
    return { Rule.new own ((trueBody start).relocate place) with
      generatedBody := true, location := some place }

/-- The alternative of a rule with a head, if there is one.  The keyword starts none where a
reference goes on behind it. -/
def alternative? (g : Grammar) (h : Head) : Parse (Option Rule) := do
  if (← token) != .elseKw then return none
  if ← startsRefWithKeyword then return none
  if h.reference.length > 1 && !Ref.isGround h.reference then
    reportHere .elseWithVariables
    fail
  if h.key.isSome then
    reportHere .elseOnMultiValue
    fail
  return some (← g (.alternative h))

/-! ## Rules -/

/-- Further bodies behind a rule, each of which makes a rule with the same head. -/
def siblings (g : Grammar) (first : Rule) (read : List Rule) : Parse (List Rule) := do
  if (← token) != .lbrace then return read
  if first.elseRule.isSome then
    reportHere .expectedElse
    fail
  let place ← location
  let b ← bracedBody g
  let place ← upToLastStop place
  let h ← renewed first.head place.offset
  g (.siblings first (read ++ [{ Rule.new (h.relocate place) b with location := some place }]))

/-- The rules of a head and a body: with the alternatives, and with further bodies. -/
def rulesFrom (g : Grammar) (h : Head) (b : Body) (place : Location) : Parse (List Rule) := do
  let next ← alternative? g h
  let rule := { Rule.new h b with elseRule := next, location := some (← upToLastStop place) }
  g (.siblings rule [rule])

/-- The rules of a head that is no default. -/
def definedRules (g : Grammar) (h : Head) (place : Location) : Parse (List Rule) := do
  let kind ← token
  let h ← resolved h place (kind == .ifKw)
  match kind with
  | .ifKw =>
    let b ← ifBody g
    rulesFrom g { h with keywords := h.keywords ++ [.ifKw] } b place
  | .lbrace =>
    let b ← bracedBody g
    rulesFrom g h b place
  | _ =>
    if usesContains h then
      return [{ Rule.new h (trueBody place) with generatedBody := true, location := h.location }]
    else fail

/-- The rules of one head.  It starts with an identifier, or with a keyword that a reference goes
on behind. -/
def rules (g : Grammar) : Parse (List Rule) := do
  let place ← location
  let _ ← startsRefWithKeyword
  let isDefault := (← token) == .defaultKw
  if isDefault then
    scan
    let _ ← startsRefWithKeyword
  if (← token) != .ident then fail
  let h ← ruleHead g isDefault
  if isDefault then return [← defaultRule h place] else definedRules g h place

end RegoSyntax.Parse
