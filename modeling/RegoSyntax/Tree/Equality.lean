/-
# RegoSyntax.Tree.Equality — when two trees are the same tree.

Two trees are the same when they were written the same way, up to where: locations do not count,
nor do the position of an expression in its query and the mark on expressions that the parser made
up, all of which follow from the rest.
-/
import RegoSyntax.Tree

namespace RegoSyntax

mutual

/-- Terms are the same when their values are. -/
def Term.same : Term → Term → Bool
  | ⟨v, _⟩, ⟨w, _⟩ => v.same w

/-- Values are the same when they have one shape, with the same parts. -/
def Value.same : Value → Value → Bool
  | .null, .null => true
  | .boolean a, .boolean b => a == b
  | .number a, .number b => a == b
  | .string a, .string b => a == b
  | .var a, .var b => a == b
  | .ref a, .ref b => sameTerms a b
  | .array a, .array b => sameTerms a b
  | .object a, .object b => samePairs a b
  | .set a, .set b => sameTerms a b
  | .call a, .call b => sameTerms a b
  | .arrayComprehension t b, .arrayComprehension u c => t.same u && sameBodies b c
  | .objectComprehension k v b, .objectComprehension l w c =>
    k.same l && v.same w && sameBodies b c
  | .setComprehension t b, .setComprehension u c => t.same u && sameBodies b c
  | _, _ => false

/-- Lists of terms are the same when they are so element by element. -/
def sameTerms : List Term → List Term → Bool
  | [], [] => true
  | t :: ts, u :: us => t.same u && sameTerms ts us
  | _, _ => false

/-- Objects are the same when they list the same entries in the same order. -/
def samePairs : List (Term × Term) → List (Term × Term) → Bool
  | [], [] => true
  | (k, v) :: ps, (l, w) :: qs => k.same l && v.same w && samePairs ps qs
  | _, _ => false

/-- Queries are the same when they are so expression by expression. -/
def sameBodies : List Expr → List Expr → Bool
  | [], [] => true
  | e :: es, f :: fs => e.same f && sameBodies es fs
  | _, _ => false

/-- Expressions are the same when they have the same sign, terms and replacements. -/
def Expr.same : Expr → Expr → Bool
  | ⟨_, _, n, t, w, _⟩, ⟨_, _, m, u, x, _⟩ => n == m && t.same u && sameWiths w x

/-- Two expressions consist of the same. -/
def ExprTerms.same : ExprTerms → ExprTerms → Bool
  | .term t, .term u => t.same u
  | .call a, .call b => sameTerms a b
  | .some a _, .some b _ => sameTerms a b
  | .every k v d b _, .every l w e c _ =>
    sameKeys k l && v.same w && d.same e && sameBodies b c
  | _, _ => false

/-- The keys of two quantified queries are the same, or both are absent. -/
def sameKeys : Option Term → Option Term → Bool
  | none, none => true
  | some k, some l => k.same l
  | _, _ => false

/-- Lists of replacements are the same when they are so one by one. -/
def sameWiths : List With → List With → Bool
  | [], [] => true
  | w :: ws, x :: xs => w.same x && sameWiths ws xs
  | _, _ => false

/-- Replacements are the same when they replace the same by the same. -/
def With.same : With → With → Bool
  | ⟨t, v, _⟩, ⟨u, w, _⟩ => t.same u && v.same w

end

namespace Ref

/-- Whether paths are the same. -/
def same (a b : Ref) : Bool := sameTerms a b

/-- Whether a path starts with all of `init`. -/
def startsWith : Ref → Ref → Bool
  | _, [] => true
  | t :: ts, u :: us => t.same u && startsWith ts us
  | [], _ :: _ => false

end Ref

/-- Whether queries are the same. -/
def Body.same (a b : Body) : Bool := sameBodies a b

/-- Whether both are absent, or both present and the same. -/
def sameOptions {α : Type} (same : α → α → Bool) : Option α → Option α → Bool
  | none, none => true
  | some a, some b => same a b
  | _, _ => false

end RegoSyntax
