/-
# RegoSyntax.Tree.Render — trees as source text.

Every node has a text close to the source syntax.  Messages quote it (`rule head ref p.q invalid`)
and listings show it.  Operators are shown as calls (`plus(1, 2)`); the membership operators are
shown infix only inside a `some` declaration.
-/
import RegoSyntax.Tree

namespace RegoSyntax

/-- Whether a text can be written as a path segment behind a point. -/
def isBareSegment (s : String) : Bool :=
  match s.toList with
  | [] => false
  | c :: cs => (c.isAlpha || c == '_') && cs.all fun c => c.isAlphanum || c == '_'

/-- Put a separator between texts. -/
def joinWith (sep : String) : List String → String
  | [] => ""
  | [s] => s
  | s :: rest => s ++ sep ++ joinWith sep rest

mutual

/-- The text of a term is the text of its value. -/
def Term.render : Term → String
  | ⟨value, _⟩ => value.render

/-- The text of a value. -/
def Value.render : Value → String
  | .null => "null"
  | .boolean b => if b then "true" else "false"
  | .number spelling => spelling
  | .string s => Quoted.json s
  | .var name => name
  | .ref path => renderRef path
  | .array elements => "[" ++ joinWith ", " (renderTerms elements) ++ "]"
  | .object pairs => "\x7b" ++ joinWith ", " (renderPairs pairs) ++ "\x7d"
  | .set elements =>
    if elements.isEmpty then "set()"
    else "\x7b" ++ joinWith ", " (renderTerms elements) ++ "\x7d"
  | .call terms => renderCall terms
  | .arrayComprehension element body => "[" ++ element.render ++ " | " ++ renderBody body ++ "]"
  | .objectComprehension key value body =>
    "\x7b" ++ key.render ++ ": " ++ value.render ++ " | " ++ renderBody body ++ "\x7d"
  | .setComprehension element body =>
    "\x7b" ++ element.render ++ " | " ++ renderBody body ++ "\x7d"

/-- The texts of several terms. -/
def renderTerms : List Term → List String
  | [] => []
  | t :: ts => t.render :: renderTerms ts

/-- The texts of the entries of an object. -/
def renderPairs : List (Term × Term) → List String
  | [] => []
  | (k, v) :: ps => (k.render ++ ": " ++ v.render) :: renderPairs ps

/-- The text of a path: its head, then each segment in the shortest form that it allows. -/
def renderRef : List Term → String
  | [] => ""
  | t :: ts => t.render ++ renderSegments ts

/-- The texts of the segments behind the head of a path. -/
def renderSegments : List Term → String
  | [] => ""
  | ⟨.string s, _⟩ :: ts =>
    (if isBareSegment s then "." ++ s else "[" ++ Quoted.json s ++ "]") ++ renderSegments ts
  | t :: ts => "[" ++ t.render ++ "]" ++ renderSegments ts

/-- The text of an operator applied to arguments. -/
def renderCall : List Term → String
  | [] => ""
  | op :: args => op.render ++ "(" ++ joinWith ", " (renderTerms args) ++ ")"

/-- The text of a query. -/
def renderBody : List Expr → String
  | [] => ""
  | [e] => e.render
  | e :: es => e.render ++ "; " ++ renderBody es

/-- The text of an expression. -/
def Expr.render : Expr → String
  | ⟨_, _, negated, terms, withs, _⟩ =>
    (if negated then "not " else "") ++ terms.render ++ renderWiths withs

/-- The text of what an expression consists of. -/
def ExprTerms.render : ExprTerms → String
  | .term t => t.render
  | .call terms => renderCall terms
  | .some symbols _ => "some " ++ renderSymbols symbols
  | .every key value domain body _ =>
    "every " ++ renderKey key ++ value.render ++ " in " ++ domain.render ++
      " \x7b " ++ renderBody body ++ " \x7d"

/-- The text of what a `some` declares.  A membership call is shown infix. -/
def renderSymbols : List Term → String
  | [⟨.call (op :: arg :: args), _⟩] =>
    let name := op.render
    let texts := arg.render :: renderTerms args
    if name == memberName || name == memberWithKeyName then
      joinWith ", " texts.dropLast ++ " in " ++ texts.getLast?.getD ""
    else name ++ "(" ++ joinWith ", " texts ++ ")"
  | [] => ""
  | [t] => t.render
  | t :: u :: ts => joinWith ", " (t.render :: u.render :: renderTerms ts)

/-- The text of the key of a quantified query, with the comma behind it. -/
def renderKey : Option Term → String
  | none => ""
  | some k => k.render ++ ", "

/-- The text of the replacements of an expression. -/
def renderWiths : List With → String
  | [] => ""
  | w :: ws => " " ++ w.render ++ renderWiths ws

/-- The text of a replacement. -/
def With.render : With → String
  | ⟨target, value, _⟩ => "with " ++ target.render ++ " as " ++ value.render

end

/-! ## The texts of terms -/

section

variable (l : Option Location)

theorem Term.render_string (s : String) : Term.render ⟨.string s, l⟩ = Quoted.json s := rfl

theorem Term.render_var (name : String) : Term.render ⟨.var name, l⟩ = name := rfl

theorem Term.render_ref (t : Term) (ts : List Term) :
    Term.render ⟨.ref (t :: ts), l⟩ = t.render ++ renderSegments ts := rfl

theorem Term.render_call (op : Term) (args : List Term) :
    Term.render ⟨.call (op :: args), l⟩ = op.render ++ "(" ++ joinWith ", " (renderTerms args) ++ ")" :=
  rfl

theorem Term.render_array (ts : List Term) :
    Term.render ⟨.array ts, l⟩ = "[" ++ joinWith ", " (renderTerms ts) ++ "]" := rfl

theorem Term.render_set_nil : Term.render ⟨.set [], l⟩ = "set()" := rfl

theorem Term.render_set (t : Term) (ts : List Term) :
    Term.render ⟨.set (t :: ts), l⟩ = "\x7b" ++ joinWith ", " (renderTerms (t :: ts)) ++ "\x7d" := rfl

theorem Term.render_object (ps : List (Term × Term)) :
    Term.render ⟨.object ps, l⟩ = "\x7b" ++ joinWith ", " (renderPairs ps) ++ "\x7d" := rfl

theorem Term.render_arrayComprehension (t : Term) (b : List Expr) :
    Term.render ⟨.arrayComprehension t b, l⟩ = "[" ++ t.render ++ " | " ++ renderBody b ++ "]" := rfl

theorem Term.render_setComprehension (t : Term) (b : List Expr) :
    Term.render ⟨.setComprehension t b, l⟩ =
      "\x7b" ++ t.render ++ " | " ++ renderBody b ++ "\x7d" := rfl

theorem Term.render_objectComprehension (k v : Term) (b : List Expr) :
    Term.render ⟨.objectComprehension k v b, l⟩ =
      "\x7b" ++ k.render ++ ": " ++ v.render ++ " | " ++ renderBody b ++ "\x7d" := rfl

end

/-- The text of a path. -/
def Ref.render (r : Ref) : String := renderRef r

/-- The text of a query. -/
def Body.render (b : Body) : String := renderBody b

end RegoSyntax
