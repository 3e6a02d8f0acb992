/-
# RegoSyntax.Parsed — everything that parsing a source gives.

Parsing never fails as a whole: it gives the statements up to the first error, the comments met on
the way, and the errors.  Options that do not fit together are an error without a place.  Callers
that want no less than all statements take a `Checked` result.

Comments are collected here and left alone, whatever is in them.
-/
import RegoSyntax.Parser

namespace RegoSyntax

/-- What parsing a source gives.  `advice` are hints that no error has taken: they go with the next
one, if there is one. -/
structure Parsed where
  statements : List Statement := []
  comments : List Comment := []
  errors : List Diagnostic := []
  advice : List String := []

/-- A result, or the errors that stand in its way. -/
abbrev Checked (α : Type) : Type := Except (List Diagnostic) α

/-- How an error is shown: with its hints, and with the line of the source that it is in. -/
def Failure.diagnostic (f : Failure) (source : List UInt8) : Diagnostic :=
  let d : Diagnostic := { message := f.problem.message, location := some f.location }
  (d.hinted (f.hints.map Hint.message)).illustrated source

namespace Parsed

/-- Whether there are errors. -/
def hasErrors (p : Parsed) : Bool := !p.errors.isEmpty

/-- What a run gives for a source. -/
def ofRun (source : String) (r : Run) : Parsed :=
  let bytes := source.toUTF8.toList
  { statements := r.statements
    comments := r.state.comments.toList
    errors := r.state.failures.toList.map (·.diagnostic bytes)
    advice := r.state.look.hints.map Hint.message }

/-- The statements and comments of a source without errors. -/
def checked (p : Parsed) : Checked (List Statement × List Comment) :=
  if p.hasErrors then .error p.errors else .ok (p.statements, p.comments)

end Parsed

/-- Parse a source, without a look at its comments. -/
def parseSyntax (source file : String) (o : Options) : Parsed :=
  match o.negotiate with
  | .error problem => { errors := [{ message := problem.message }] }
  | .ok words => .ofRun source (Task.new source file o words).run

end RegoSyntax
