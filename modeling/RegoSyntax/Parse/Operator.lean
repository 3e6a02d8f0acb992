/-
# RegoSyntax.Parse.Operator — terms with operators.

Loosest first: membership (`x in xs` and `k, x in xs`), relations, union, intersection, sums,
products.  Every tier associates to the left and makes calls, whose operator is a reference named
after the token.  A call made of an operator stands where its left operand does, and its text
reaches from there to the end of the right operand.

An operator without a right operand is no error of the tier: the left operand is the answer then,
and the errors that the operand left are there to be seen.
-/
import RegoSyntax.Parse.Production

namespace RegoSyntax.Parse

/-- The root and the names of the operators of membership. -/
def memberRoot : String := "internal"

/-- The name, below its root, of the operator of membership with `n` operands. -/
def memberSegment (n : Nat) : String := s!"member_{n}"

/-- One of several operators, if the current token is one. -/
def operator (kinds : List Token) : Parse Term := do
  let kind ← token
  if kinds.contains kind then
    let place ← location
    scan
    return ⟨.ref [⟨.var kind.name, some place⟩], some place⟩
  else fail

/-- The operator of membership with `n` operands, if the current token is one. -/
def memberOperator (n : Nat) : Parse Term := do
  if (← token) == .inKw then
    let place ← location
    scan
    return ⟨.ref [⟨.var memberRoot, some place⟩, ⟨.string (memberSegment n), some place⟩], some place⟩
  else fail

/-- The call of an operator on operands that have just been read. -/
def operatorCall (op left : Term) (others : List Term) (start : Nat) : Parse Term := do
  placed (.ofValue (.call (op :: left :: others))) left.place start (← lastStop)

/-! ## The tiers below membership -/

/-- An operand of a tier. -/
def operand (g : Grammar) (tier : Tier) (start : Nat) : Parse Term :=
  match tier.tighter? with
  | some tier => g (.operation tier none start)
  | none => g .term

/-- The operation of one operator of a tier on a left operand.  Without a right operand it
fails. -/
def applied (g : Grammar) (tier : Tier) (left : Term) (start : Nat) : Parse Term := do
  let op ← operator tier.operators
  let right ← operand g tier (← offset)
  operatorCall op left [right] start

/-- An operation of a tier: an operand, and operators with further operands. -/
def operation (g : Grammar) (tier : Tier) (left : Option Term) (start : Nat) : Parse Term := nested do
  let left ← match left with
    | some t => pure t
    | none => operand g tier start
  match ← attempt (applied g tier left start) with
  | some c =>
    if tier.operators.contains (← token) then g (.operation tier (some c) start) else return c
  | none => return left

/-! ## Membership -/

/-- An operand of membership. -/
def memberOperand (g : Grammar) (start : Nat) : Parse Term := g (.operation .relation none start)

/-- The membership of a key and a value, behind the key.  It fails if there is none. -/
def keyedMember (g : Grammar) (key : Term) (start : Nat) : Parse Term := do
  scan
  let value ← memberOperand g start
  let op ← memberOperator 3
  let domain ← memberOperand g (← offset)
  operatorCall op key [value, domain] start

/-- The membership of a value, behind the value.  It fails if there is none. -/
def member (g : Grammar) (value : Term) (start : Nat) : Parse Term := do
  let op ← memberOperator 2
  let domain ← memberOperand g (← offset)
  operatorCall op value [domain] start

/-- A membership of a key and a value where a comma follows; where there is none, the parser is
back at the comma. -/
def keyedMember? (g : Grammar) (keyed : Bool) (key : Term) (start : Nat) : Parse (Option Term) := do
  if keyed && (← token) == .comma then
    let comma ← save
    match ← attempt (keyedMember g key start) with
    | some c => return some c
    | none =>
      restore comma
      return none
  else return none

/-- Go on behind a membership, whose value may be the left operand of another one. -/
def memberChain (g : Grammar) (keyed : Bool) (c : Term) (start : Nat) : Parse Term := do
  if (← token) == .inKw then g (.membership keyed (some c) start) else return c

/-- A membership, or a single operand. -/
def membership (g : Grammar) (keyed : Bool) (left : Option Term) (start : Nat) : Parse Term := nested do
  let left ← match left with
    | some t => pure t
    | none => memberOperand g start
  match ← keyedMember? g keyed left start with
  | some c => memberChain g keyed c start
  | none =>
    let _ ← startsRefWithKeyword
    match ← attempt (member g left start) with
    | some c => memberChain g keyed c start
    | none => return left

/-- A term with operators. -/
def compound (g : Grammar) (keyed : Bool) : Parse Term := nested do
  g (.membership keyed none (← offset))

end RegoSyntax.Parse
