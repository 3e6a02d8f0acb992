/-
# RegoSyntax.Parse.Production — the productions that the grammar comes back to.

The grammar is recursive: a term contains queries, a query contains terms.  A `Production` names a
point of the grammar that can be reached again from below, with what has been read up to there, and
its type says what reading it gives.  Every rule of the grammar is a plain function of a `Grammar`,
which it asks for the productions below it; so a rule is understood, and reasoned about, without
the recursion.  `RegoSyntax.Parse.Grammar` ties the rules together.

Loops are productions too: the elements read so far are part of the production.
-/
import RegoSyntax.Rule
import RegoSyntax.Parse.Basic

namespace RegoSyntax

/-! ## Operators -/

/-- The tiers of binary operators below membership, loosest first. -/
inductive Tier where
  | relation
  | union
  | intersection
  | sum
  | product
deriving DecidableEq, Repr

namespace Tier

/-- The operators of a tier. -/
def operators : Tier → List Token
  | relation => [.equal, .neq, .lt, .gt, .lte, .gte]
  | union => [.bar]
  | intersection => [.amp]
  | sum => [.plus, .minus]
  | product => [.star, .slash, .percent]

/-- The next tighter tier.  The operands of the tightest one are primary terms. -/
def tighter? : Tier → Option Tier
  | relation => some union
  | union => some intersection
  | intersection => some sum
  | sum => some product
  | product => none

end Tier

/-! ## Productions -/

/-- A point of the grammar that can be reached again, by what reading it gives. -/
inductive Production : Type → Type where
  /-- a primary term with the reference or call that it continues into -/
  | term : Production Term
  /-- a reference of which the head has been read; its text starts at `start` -/
  | reference (head : Term) (start : Nat) : Production Term
  /-- the rest of a reference at a place -/
  | segments (place : Location) (start : Nat) (path : Ref) : Production Term
  /-- the rest of a list of terms -/
  | elements (stop : Token) (read : List Term) : Production (List Term)
  /-- the rest of the entries of an object -/
  | pairs (stop : Token) (read : List (Term × Term)) : Production (List (Term × Term))
  /-- a term with operators; if it is `keyed`, a comma may start `k, x in xs` -/
  | compound (keyed : Bool) : Production Term
  /-- a membership, or its rest if there is a left operand already -/
  | membership (keyed : Bool) (left : Option Term) (start : Nat) : Production Term
  /-- an operation of a tier, or its rest if there is a left operand already -/
  | operation (tier : Tier) (left : Option Term) (start : Nat) : Production Term
  /-- a query up to a closing token -/
  | body (stop : Token) : Production Body
  /-- the rest of a query; a query on one line ends at the first line break -/
  | literals (oneLine : Bool) (stop : Token) (read : Body) : Production Body
  /-- one literal of a query -/
  | literal : Production Expr
  /-- the rest of the replacements of a literal -/
  | replacements (read : List With) : Production (List With)
  /-- the rest of the variables of a declaration -/
  | symbols (read : List Term) : Production (List Term)
  /-- an alternative of a rule with this head -/
  | alternative (head : Head) : Production Rule
  /-- the rest of the rules that share the head of a rule -/
  | siblings (first : Rule) (read : List Rule) : Production (List Rule)

/-- A way to read every production. -/
abbrev Grammar : Type 1 := ⦃α : Type⦄ → Production α → Parse α

end RegoSyntax
