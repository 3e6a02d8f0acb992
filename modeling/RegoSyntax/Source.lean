/-
# RegoSyntax.Source — parsing a whole source.

The statements of a source and, on demand, the annotations that are decoded from its comments.
Annotations come behind all other statements, and their errors behind all other errors.
-/
import RegoSyntax.Metadata.Block
import RegoSyntax.Parsed

namespace RegoSyntax

namespace Parsed

/-- A result with the errors of a source added.  The first one takes the hints that are left. -/
def addErrors (p : Parsed) (source : List UInt8) : List Diagnostic → Parsed
  | [] => p
  | d :: ds =>
    { p with
      errors := p.errors ++ (d.hinted p.advice :: ds).map (·.illustrated source)
      advice := [] }

/-- The error of a block that cannot be decoded. -/
def blockError (b : Metadata.Block) (problem : Metadata.Block.Problem) : Diagnostic :=
  { message := b.message problem, location := some (b.place problem) }

/-- A result with the annotations that its comments contain. -/
def annotated (p : Parsed) (source : List UInt8)
    (read : Metadata.Block.Reader := Metadata.Record.ofText) : Parsed :=
  let decoded := (Metadata.Block.all p.comments).map fun b => (b.decode read).mapError (blockError b)
  let annotations := decoded.filterMap fun
    | .ok a => some (.annotations a)
    | .error _ => none
  let errors := decoded.filterMap fun
    | .ok _ => none
    | .error d => some d
  { p with statements := p.statements ++ annotations }.addErrors source errors

end Parsed

/-- Parse a source. -/
def parse (source file : String) (o : Options)
    (read : Metadata.Block.Reader := Metadata.Record.ofText) : Parsed :=
  let p := parseSyntax source file o
  if o.annotations then p.annotated source.toUTF8.toList read else p

/-- Parse a source that has to be without errors. -/
def parseStatements (source file : String) (o : Options) :
    Checked (List Statement × List Comment) :=
  (parse source file o).checked

end RegoSyntax
