/-
# RegoSyntax.Tree.Constant — values that need no evaluation.

The value of a default rule has to be known without evaluating anything, so references, variables
and calls may not occur in it.  Comprehensions are exempt, with all that is in them.
-/
import RegoSyntax.Tree

namespace RegoSyntax

mutual

/-- The kinds of the references, variables and calls in a term, in the order of the source.  What
is inside of them, or in a comprehension, does not count. -/
def Term.evaluatedKinds : Term → List String
  | ⟨v, _⟩ => v.evaluatedKinds

/-- The kinds of the references, variables and calls in a value. -/
def Value.evaluatedKinds : Value → List String
  | .ref ts => [(Value.ref ts).kind]
  | .var name => [(Value.var name).kind]
  | .call ts => [(Value.call ts).kind]
  | .array ts | .set ts => evaluatedKindsOf ts
  | .object ps => evaluatedKindsOfPairs ps
  | _ => []

/-- The kinds of the references, variables and calls in several terms. -/
def evaluatedKindsOf : List Term → List String
  | [] => []
  | t :: ts => t.evaluatedKinds ++ evaluatedKindsOf ts

/-- The kinds of the references, variables and calls in the entries of an object. -/
def evaluatedKindsOfPairs : List (Term × Term) → List String
  | [] => []
  | (k, v) :: ps => k.evaluatedKinds ++ v.evaluatedKinds ++ evaluatedKindsOfPairs ps

end

end RegoSyntax
