/-
# RegoSyntax.Depth — a ceiling on nesting.

A counter of how many productions are under way.  Entering one beyond the ceiling is refused and
not counted, so every success is matched by one later `leave`.  The ceiling zero disables the
check.
-/

namespace RegoSyntax

/-- The number of productions under way and the most there may be. -/
structure DepthLimit where
  depth : Nat
  max : Nat
deriving DecidableEq, Repr

namespace DepthLimit

/-- The ceiling where none is chosen. -/
def defaultMax : Nat := 100000

/-- A counter at zero. -/
def new (max : Nat) : DepthLimit := ⟨0, max⟩

/-- Count one more production, unless that is one too many. -/
def enter? (d : DepthLimit) : Option DepthLimit :=
  if d.max > 0 && d.depth + 1 > d.max then none else some { d with depth := d.depth + 1 }

/-- Count one production less. -/
def leave (d : DepthLimit) : DepthLimit := { d with depth := d.depth - 1 }

end DepthLimit

end RegoSyntax
