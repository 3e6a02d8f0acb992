/-
# RegoSyntax.Tree.Ground — values without variables.

A value is ground when evaluating it needs no bindings.  The head of a reference names a document
or a rule and does not count, so `data.x` is ground and `p[x]` is not.  A comprehension is ground
when no variable at all occurs in it, the heads of its references included.
-/
import RegoSyntax.Tree.Walk

namespace RegoSyntax

/-- Whether a node is a variable. -/
def Visit.isVar : Visit → Bool
  | .value v => v.isVar
  | _ => false

/-- Whether a variable occurs anywhere in a value. -/
def Value.mentionsVar (v : Value) : Bool := v.walk.any Visit.isVar

mutual

/-- Whether the value of a term is ground. -/
def Term.isGround : Term → Bool
  | ⟨v, _⟩ => v.isGround

/-- Whether a value is ground. -/
def Value.isGround : Value → Bool
  | .null | .boolean _ | .number _ | .string _ => true
  | .var _ => false
  | .ref [] => true
  | .ref (_ :: ts) => areGround ts
  | .array ts | .set ts | .call ts => areGround ts
  | .object ps => arePairsGround ps
  | .arrayComprehension t b => !(Value.arrayComprehension t b).mentionsVar
  | .objectComprehension k v b => !(Value.objectComprehension k v b).mentionsVar
  | .setComprehension t b => !(Value.setComprehension t b).mentionsVar

/-- Whether all of several terms are ground. -/
def areGround : List Term → Bool
  | [] => true
  | t :: ts => t.isGround && areGround ts

/-- Whether all keys and values of an object are ground. -/
def arePairsGround : List (Term × Term) → Bool
  | [] => true
  | (k, v) :: ps => k.isGround && v.isGround && arePairsGround ps

end

/-- Whether a path is ground: its head does not count. -/
def Ref.isGround (r : Ref) : Bool := areGround r.tail

end RegoSyntax
