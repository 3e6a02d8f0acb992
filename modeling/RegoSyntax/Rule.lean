/-
# RegoSyntax.Rule — rule definitions.

Every rule has a normalized head, however it was written:

| source               | reference | key | value        | args |
|----------------------|-----------|-----|--------------|------|
| `p := 1`             | `p`       | -   | `1`          | -    |
| `p contains x`       | `p`       | `x` | -            | -    |
| `p[x] { ... }`       | `p`       | `x` | -            | -    |
| `p[x] if { ... }`    | `p[x]`    | -   | `true` (gen) | -    |
| `f(x) := y`          | `f`       | -   | `y`          | `x`  |
| `a.b.c if { ... }`   | `a.b.c`   | -   | `true` (gen) | -    |

The marks on what the parser made up, and the record of which keywords a head was written with,
are kept for tools; they do not count when two rules are compared.
-/
import RegoSyntax.Tree.Render
import RegoSyntax.Tree.Equality
import RegoSyntax.Tree.Walk

namespace RegoSyntax

/-- A keyword that a head can be written with or without. -/
inductive HeadKeyword where
  | ifKw
  | containsKw
deriving DecidableEq, Repr

/-- The left-hand side of a rule.  `name` is the single-word form, kept for heads that are one
variable and for `p[x]` heads in the older syntax; `assign` says that the value was written with
`:=`; `generatedValue` says that the value was made up. -/
structure Head where
  name : Option String
  reference : Ref
  args : List Term
  key : Option Term
  value : Option Term
  assign : Bool
  generatedValue : Bool
  keywords : List HeadKeyword
  location : Option Location

/-- A rule, and the rules that apply in its stead where it does not.  `generatedBody` says that
the body was made up. -/
structure Rule where
  isDefault : Bool
  head : Head
  body : Body
  elseRule : Option Rule
  generatedBody : Bool
  location : Option Location

/-! ## Heads -/

namespace Head

/-- The head of a path, with nothing else. -/
def ofRef (r : Ref) : Head :=
  { name := none, reference := r, args := [], key := none, value := none, assign := false,
    generatedValue := false, keywords := [], location := none }

/-- The head of a single variable. -/
def ofVar (name : String) (l : Option Location) : Head :=
  { ofRef [⟨.var name, l⟩] with name := some name, location := l }

/-- A function has arguments. -/
def isFunction (h : Head) : Bool := !h.args.isEmpty

/-- A multi-value rule has a key and no value. -/
def isMultiValue (h : Head) : Bool := h.key.isSome && h.value.isNone

/-- A head with every node of it at one place. -/
def relocate (h : Head) (l : Location) : Head :=
  { h with
    location := some l
    reference := h.reference.map (·.relocate l)
    args := h.args.map (·.relocate l)
    key := h.key.map (·.relocate l)
    value := h.value.map (·.relocate l) }

/-- Heads are the same when they define the same document in the same way. -/
def same (a b : Head) : Bool :=
  a.name == b.name && a.reference.same b.reference && sameTerms a.args b.args &&
    sameOptions Term.same a.key b.key && sameOptions Term.same a.value b.value &&
    a.assign == b.assign

/-- The text of a head. -/
def render (h : Head) : String :=
  h.reference.render ++
    (if h.args.isEmpty then "" else "(" ++ joinWith ", " (renderTerms h.args) ++ ")") ++
    match h.key, h.value with
    | _, some v => (if h.assign then " := " else " = ") ++ v.render
    | some k, none => " contains " ++ k.render
    | none, none => ""

end Head

/-! ## Rules -/

namespace Rule

/-- A rule of a head and a body, with nothing else. -/
def new (head : Head) (body : Body) : Rule :=
  { isDefault := false, head, body, elseRule := none, generatedBody := false, location := none }

/-- The number of rules behind a rule in its chain of alternatives. -/
def elseCount : Rule → Nat
  | ⟨_, _, _, none, _, _⟩ => 0
  | ⟨_, _, _, some r, _, _⟩ => r.elseCount + 1

/-- Rules are the same when their heads, bodies and alternatives are. -/
def same : Rule → Rule → Bool
  | ⟨d, h, b, none, _, _⟩, ⟨e, g, c, none, _, _⟩ => d == e && h.same g && b.same c
  | ⟨d, h, b, some r, _, _⟩, ⟨e, g, c, some s, _, _⟩ =>
    d == e && h.same g && b.same c && r.same s
  | _, _ => false

/-- The text of a body between braces. -/
def renderBraced (b : Body) : String := " \x7b " ++ b.render ++ " \x7d"

/-- The text of an alternative: its value, where it was written, and its body. -/
def renderElse : Rule → String
  | ⟨_, h, b, next, _, _⟩ =>
    " else" ++
      (match h.value with
        | some v =>
          if h.generatedValue then "" else (if h.assign then " := " else " = ") ++ v.render
        | none => "") ++
      renderBraced b ++
      match next with
      | none => ""
      | some r => r.renderElse

/-- The text of a rule. -/
def render (r : Rule) : String :=
  if r.isDefault then "default " ++ r.head.render
  else
    r.head.render ++ renderBraced r.body ++
      match r.elseRule with
      | none => ""
      | some e => e.renderElse

end Rule

end RegoSyntax
