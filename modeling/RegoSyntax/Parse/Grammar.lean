/-
# RegoSyntax.Parse.Grammar — the rules of the grammar tied together.

`rule` says what each production reads in terms of the productions below it.  `grammar n` follows
the rules to a depth of `n` productions.  A chain of productions under way that takes no token is
short, and there are no more tokens than bytes, so a depth that grows with the size of the source is
never reached.
-/
import RegoSyntax.Parse.Definition
import RegoSyntax.Parse.Operator

namespace RegoSyntax.Parse

/-- What a production reads, in terms of the productions below it. -/
def rule (g : Grammar) : Grammar := fun _ p =>
  match p with
  | .term => term g
  | .reference head start => reference g head start
  | .segments place start path => segments g place start path
  | .elements stop read => elements g stop read
  | .pairs stop read => pairs g stop read
  | .compound keyed => compound g keyed
  | .membership keyed left start => membership g keyed left start
  | .operation tier left start => operation g tier left start
  | .body stop => body g stop
  | .literals oneLine stop read => literals g oneLine stop read
  | .literal => literal g
  | .replacements read => replacements g read
  | .symbols read => symbols g read
  | .alternative head => alternative g head
  | .siblings first read => siblings g first read

/-- The grammar, followed to a depth of `n` productions. -/
def grammar : Nat → Grammar
  | 0 => fun _ _ => fail
  | n + 1 => rule (grammar n)

/-- A bound on the productions that are under way at once between one token and the next. -/
def chainLength : Nat := 32

/-- A depth of productions that a source of `n` bytes does not reach. -/
def depthFor (n : Nat) : Nat := chainLength * (n + 2)

end RegoSyntax.Parse
