/-
# RegoSyntax.Parser — from a source to its statements.

A source is read statement by statement.  At each one the kinds are tried in turn — package, import,
rules, query — and the parser returns in between.  The first attempt that leaves an error ends the
run; so does a text that is none of them.

A `Run` is the state between two statements, and `Run.step` reads the next one, so that a whole
parse is the iteration of a plain function.
-/
import RegoSyntax.Negotiation
import RegoSyntax.Parse.Clause
import RegoSyntax.Parse.Grammar

namespace RegoSyntax

namespace Parse

/-- Try one reading from a place.  If it fails without an error there is another one to try. -/
def orElse {α : Type} (start : Snapshot) (x y : Parse α) : Parse α := do
  match ← attempt x with
  | some a => return a
  | none =>
    if ← noFailures then
      restore start
      y
    else fail

/-- An import clause, and the words it reserves. -/
def importStatement (g : Grammar) (allowed : KeywordTable) : Parse Import := do
  let i ← importClause g
  applyImport i allowed
  return i

/-- A query on one line. -/
def queryStatement (g : Grammar) : Parse (List Statement) := do
  return [.body (← query g true .eof)]

/-- The rules of one head, as statements, or else a query. -/
def definitionStatement (g : Grammar) (skipRules : Bool) (start : Snapshot) :
    Parse (List Statement) :=
  if skipRules then queryStatement g
  else orElse start (do return (← rules g).map .rule) (queryStatement g)

/-- The next statement; a rule clause may give several. -/
def statement (g : Grammar) (skipRules : Bool) (allowed : KeywordTable) :
    Parse (List Statement) := do
  let start ← save
  orElse start (do return [.package (← package g)])
    (orElse start (do return [.importClause (← importStatement g allowed)])
      (definitionStatement g skipRules start))

end Parse

/-! ## Runs -/

/-- What a run reads, and how. -/
structure Task where
  source : String
  env : Env
  settings : Settings
  skipRules : Bool
  words : Negotiated

namespace Task

/-- The task of parsing a source under options that fit together. -/
def new (source file : String) (o : Options) (words : Negotiated) : Task :=
  { source, skipRules := o.skipRules, words
    settings := { maxDepth := o.maxDepth, recalls := fun _ => true }
    env :=
      { file, version := o.effectiveVersion, capabilities := o.effectiveCapabilities
        suggestImports := o.suggestImports } }

/-- The grammar, deep enough for the source. -/
def grammar (t : Task) : Grammar := Parse.grammar (Parse.depthFor t.source.utf8ByteSize)

/-- The next statement. -/
def statement (t : Task) : Parse (List Statement) :=
  Parse.statement t.grammar t.skipRules t.words.allowed

/-- The state before the first token. -/
def opening (t : Task) : ParseState :=
  let s := ParseState.start t.source t.env.file
  { s with look := { s.look with scanner := s.look.scanner.withKeywords t.words.selected } }

/-- The state at the first token. -/
def start (t : Task) : ParseState := (Parse.scan.run t.env t.settings t.opening).2

end Task

/-- The state between two statements: what has been read, and where the parser stands. -/
structure Run where
  statements : List Statement
  state : ParseState

namespace Run

/-- Nothing has been read. -/
def start (t : Task) : Run := ⟨[], t.start⟩

/-- Whether everything has been read. -/
def atEnd (r : Run) : Bool := r.state.look.token == .eof

/-- Read the next statement, and say whether there was one.  Where nothing can be read, the state is
what the attempt left. -/
def step (t : Task) (r : Run) : Run × Bool :=
  if r.atEnd then (r, false)
  else
    match t.statement.run t.env t.settings r.state with
    | (some read, s) => (⟨r.statements ++ read, s⟩, true)
    | (none, s) => (⟨r.statements, s⟩, false)

/-- Read statements until there is none.  Every statement takes a token, so one step more than
there are bytes suffices. -/
def finish (t : Task) : (fuel : Nat) → Run → Run
  | 0, r => r
  | fuel + 1, r =>
    let (r, more) := r.step t
    if more then finish t fuel r else r

end Run

/-- Read the whole source of a task. -/
def Task.run (t : Task) : Run := (Run.start t).finish t (t.source.utf8ByteSize + 1)

end RegoSyntax
