/-
# RegoSyntax.Tree — terms, expressions and queries.

The value-producing part of the syntax tree.  A `Term` is a value with the place where it was
read; values contain terms, and through comprehensions whole queries.  A query (`Body`) is a list
of expressions, numbered by position.

Locations are optional because terms can be made up by the parser or by a caller.  They carry no
meaning: equality of trees (`RegoSyntax.Tree.Equality`) does not look at them.
-/
import RegoSyntax.Location

namespace RegoSyntax

mutual

/-- A value and where it stands. -/
structure Term where
  value : Value
  location : Option Location

/-- What a term denotes. -/
inductive Value where
  | null
  | boolean (b : Bool)
  /-- a number in the spelling of the source (`1e3`, `0.50`, `-.5`) -/
  | number (spelling : String)
  | string (s : String)
  /-- a variable; the wildcard `_` has a name of its own at each occurrence -/
  | var (name : String)
  /-- a head and the segments of the path behind it -/
  | ref (path : List Term)
  | array (elements : List Term)
  /-- keys with their values, in the order of the source -/
  | object (pairs : List (Term × Term))
  | set (elements : List Term)
  /-- an operator and its arguments -/
  | call (terms : List Term)
  | arrayComprehension (element : Term) (body : List Expr)
  | objectComprehension (key value : Term) (body : List Expr)
  | setComprehension (element : Term) (body : List Expr)

/-- What an expression consists of. -/
inductive ExprTerms where
  | term (t : Term)
  /-- a call at the top of an expression, operator first (`x = 1` is `eq`, `x`, `1`) -/
  | call (terms : List Term)
  /-- a declaration: either variables, or a single membership call (`some x in xs`) -/
  | some (symbols : List Term) (location : Option Location)
  /-- a quantified query -/
  | every (key : Option Term) (value domain : Term) (body : List Expr) (location : Option Location)

/-- A replacement `with target as value`. -/
structure With where
  target : Term
  value : Term
  location : Option Location

/-- One literal of a query.  `index` is its position in the query around it, and `generated` says
that the parser made it up. -/
structure Expr where
  index : Nat
  generated : Bool
  negated : Bool
  terms : ExprTerms
  withs : List With
  location : Option Location

end

/-- A conjunction of expressions. -/
abbrev Body := List Expr

/-- A path: a head term and the segments behind it. -/
abbrev Ref := List Term

instance : Inhabited Value := ⟨.null⟩
instance : Inhabited Term := ⟨⟨.null, none⟩⟩

/-! ## Names with a meaning of their own -/

/-- The character with which the names of wildcards start.  No identifier starts with it. -/
def wildcardMark : Char := '$'

/-- The document that holds all packages. -/
def dataRoot : String := "data"

/-- The document that is given to a query. -/
def inputRoot : String := "input"

/-- The operator of `x in xs`. -/
def memberName : String := "internal.member_2"

/-- The operator of `k, x in xs`. -/
def memberWithKeyName : String := "internal.member_3"

/-! ## Values -/

namespace Value

/-- The kind of a value, as messages call it. -/
def kind : Value → String
  | null => "null"
  | boolean _ => "boolean"
  | number _ => "number"
  | string _ => "string"
  | var _ => "var"
  | ref _ => "ref"
  | array _ => "array"
  | object _ => "object"
  | set _ => "set"
  | call _ => "call"
  | arrayComprehension .. => "arraycomprehension"
  | objectComprehension .. => "objectcomprehension"
  | setComprehension .. => "setcomprehension"

/-- The name of a variable. -/
def varName? : Value → Option String
  | var name => some name
  | _ => none

/-- The path of a reference. -/
def ref? : Value → Option Ref
  | ref path => some path
  | _ => none

/-- The operator and arguments of a call. -/
def call? : Value → Option (List Term)
  | call terms => some terms
  | _ => none

/-- The text of a string. -/
def string? : Value → Option String
  | string s => some s
  | _ => none

/-- Whether a value is a variable. -/
def isVar (v : Value) : Bool := v.varName?.isSome

/-- Whether a value is the variable of this name. -/
def isVarNamed (v : Value) (name : String) : Bool := v.varName? == some name

end Value

/-- Whether a name stands for a wildcard. -/
def isWildcardName (name : String) : Bool := name.toList.head? == some wildcardMark

/-! ## Terms -/

namespace Term

/-- A term without a place. -/
def ofValue (v : Value) : Term := ⟨v, none⟩

/-- The same value at another place. -/
def placed (t : Term) (l : Location) : Term := { t with location := some l }

/-- The place of a term; the default place if it has none. -/
def place (t : Term) : Location := t.location.getD {}

end Term

/-! ## References -/

namespace Ref

/-- The name of the head of a reference, if the head is a variable. -/
def headVar? (r : Ref) : Option String := r.head?.bind (·.value.varName?)

end Ref

/-! ## Expressions and bodies -/

namespace Expr

/-- An expression that is not negated and has no replacements, at no place yet. -/
def ofTerms (terms : ExprTerms) : Expr :=
  { index := 0, generated := false, negated := false, terms, withs := [], location := none }

/-- The expression that consists of a term. -/
def ofTerm (t : Term) : Expr := ofTerms (.term t)

/-- The same expression at another place. -/
def placed (e : Expr) (l : Location) : Expr := { e with location := some l }

/-- The operator of a call. -/
def operator? (e : Expr) : Option Term :=
  match e.terms with
  | .call terms => terms.head?
  | _ => none

/-- The term of an expression that is one. -/
def term? (e : Expr) : Option Term :=
  match e.terms with
  | .term t => some t
  | _ => none

end Expr

namespace Body

/-- Number expressions from `n` on. -/
def numberFrom : Nat → List Expr → Body
  | _, [] => []
  | n, e :: es => { e with index := n } :: numberFrom (n + 1) es

/-- The body of a list of expressions, each numbered by its position. -/
def ofList (es : List Expr) : Body := numberFrom 0 es

/-- The body with one more expression at its end. -/
def push (b : Body) (e : Expr) : Body := b ++ [{ e with index := b.length }]

end Body

end RegoSyntax
