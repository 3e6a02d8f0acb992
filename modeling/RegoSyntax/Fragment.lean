/-
# RegoSyntax.Fragment — sources that are one piece of syntax.

For callers that expect a single result: one query, expression, term or reference.  Anything else is
an error.  No rules are read where a query is
expected, so `p = 1` is an expression there.
-/
import RegoSyntax.Parsed

namespace RegoSyntax

namespace Fragment

/-- What a source can be instead of the expected piece of syntax. -/
inductive Mismatch where
  | notBody (found : Statement)
  | noBody
  | notOneExpr (found : Body)
  | notTerm (found : Expr)
  | notRef (found : Value)

/-- The wording of a mismatch. -/
def Mismatch.message : Mismatch → String
  | notBody found => "expected body but got " ++ found.render
  | noBody => "empty body"
  | notOneExpr found => "expected exactly one expression but got: " ++ found.render
  | notTerm found => "expected term but got " ++ found.render
  | notRef found => "expected ref but got " ++ found.render

/-- The error of a mismatch, which has no place. -/
def reject {α : Type} (m : Mismatch) : Checked α := .error [{ message := m.message }]

/-- The literals of statements that are all queries. -/
def literals : List Statement → Checked (List Expr)
  | [] => .ok []
  | .body b :: rest => do return b ++ (← literals rest)
  | found :: _ => reject (.notBody found)

/-- The query that a source is.  Several queries make one. -/
def body (source : String) : Checked Body := do
  let (read, _) ← (parseSyntax source "" { skipRules := true }).checked
  match ← literals read with
  | [] => reject .noBody
  | es => return .ofList es

/-- The expression that a source is. -/
def expr (source : String) : Checked Expr := do
  match ← body source with
  | [e] => return e
  | b => reject (.notOneExpr b)

/-- The term that a source is. -/
def term (source : String) : Checked Term := do
  let e ← expr source
  match e.terms with
  | .term t => return t
  | _ => reject (.notTerm e)

/-- The reference that a source is.  Of the variables on their own, only the roots of documents
are references. -/
def ref (source : String) : Checked Ref := do
  let t ← term source
  match t.value with
  | .ref r => return r
  | v => reject (.notRef v)

end Fragment

end RegoSyntax
