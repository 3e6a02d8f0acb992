/-
# RegoSyntax.Command — the command line.

The commands are functions of their arguments and of a way to read files, and answer with what is
to be printed.  Options of `parse` may stand before, between and behind the names of files.
-/
import RegoSyntax.Files
import RegoSyntax.Json.Capabilities
import RegoSyntax.Listing
import RegoSyntax.Source

namespace RegoSyntax

/-- What keeps a command from its work. -/
inductive CommandError where
  | unreadable (path : String) (failure : ReadFailure)
  | unreadableCapabilities (path : String) (failure : ReadFailure)
  | invalidCapabilities (e : JsonText.ReadError)
  | missingValue (flag : String)
  | invalidDepth (value : String)
  | unknownOption (flag : String)
  | missingPath
deriving DecidableEq

namespace CommandError

/-- The wording of an error. -/
def message : CommandError → String
  | unreadable path .notFound => "cannot find file '" ++ path ++ "'"
  | unreadable path .denied => "permission denied reading '" ++ path ++ "'"
  | unreadable path .notText => "'" ++ path ++ "' contains invalid UTF-8 data"
  | unreadable path failure => "error reading '" ++ path ++ "': " ++ failure.systemText
  | unreadableCapabilities path failure =>
    "failed to read capabilities file " ++ path ++ ": " ++ failure.systemText
  | invalidCapabilities e => "invalid capabilities document: " ++ e.message
  | missingValue flag => "missing value for " ++ flag
  | invalidDepth value => "invalid value for --max-depth: '" ++ value ++ "'"
  | unknownOption flag => "unknown option '" ++ flag ++ "'"
  | missingPath => "missing file path"

end CommandError

/-- A call of `parse`: the options of every parse, and the files to read. -/
structure ParseCommand where
  options : Options := {}
  files : List String := []

namespace ParseCommand

/-! ## Arguments -/

/-- The largest ceiling on nesting that can be given. -/
def largestDepth : Nat := Nat.pow 2 64 - 1

/-- A ceiling on nesting: digits, with an optional plus sign before them. -/
def depth? (text : String) : Option Nat :=
  let digits := match text.toList with
    | '+' :: rest => rest
    | rest => rest
  if digits.isEmpty || !digits.all Char.isDigit then none
  else
    let n := Numeral.digitsValue digits
    if n ≤ largestDepth then some n else none

/-- The option that takes its value from the same argument. -/
def futureWord? (arg : String) : Option String :=
  let flag := "--future=".toList
  if flag.isPrefixOf arg.toList then some (String.ofList (arg.toList.drop flag.length)) else none

/-- One more word to reserve. -/
def addFuture (c : ParseCommand) (word : String) : ParseCommand :=
  { c with options := { c.options with futureKeywords := c.options.futureKeywords ++ [word] } }

/-- How capabilities are read from a document. -/
abbrev Decoder := String → Except JsonText.ReadError Capabilities

/-- Read the capabilities that an option names. -/
def loadCapabilities (read : FileReader) (decode : Decoder) (path : String) :
    Except CommandError Capabilities :=
  match read path with
  | .error failure => .error (.unreadableCapabilities path failure)
  | .ok text =>
    match decode text with
    | .error e => .error (.invalidCapabilities e)
    | .ok c => .ok c

/-- What an option with a value changes. -/
def applyValue (read : FileReader) (decode : Decoder) (c : ParseCommand) (flag value : String) :
    Except CommandError ParseCommand :=
  match flag with
  | "--future" => .ok (c.addFuture value)
  | "--capabilities" => do
    let capabilities ← loadCapabilities read decode value
    return { c with options := { c.options with capabilities := some capabilities } }
  | _ =>
    match depth? value with
    | some maxDepth => .ok { c with options := { c.options with maxDepth } }
    | none => .error (.invalidDepth value)

/-- Whether an option takes the argument behind it as its value. -/
def takesValue (flag : String) : Bool := ["--future", "--capabilities", "--max-depth"].contains flag

/-- What an argument that stands on its own changes. -/
def apply (c : ParseCommand) (arg : String) : Except CommandError ParseCommand :=
  match arg with
  | "--v0" => .ok { c with options := { c.options with version := some .v0 } }
  | "--v0v1" => .ok { c with options := { c.options with version := some .v0CompatV1 } }
  | "--all-future" => .ok { c with options := { c.options with allFutureKeywords := true } }
  | "--annotations" => .ok { c with options := { c.options with annotations := true } }
  | "--skip-rules" => .ok { c with options := { c.options with skipRules := true } }
  | _ =>
    match futureWord? arg with
    | some word => .ok (c.addFuture word)
    | none =>
      if arg.toList.head? == some '-' then .error (.unknownOption arg)
      else .ok { c with files := c.files ++ [arg] }

/-- Take in arguments one after the other. -/
def applyAll (read : FileReader) (decode : Decoder) (c : ParseCommand) :
    List String → Except CommandError ParseCommand
  | [] => .ok c
  | arg :: rest =>
    if takesValue arg then
      match rest with
      | [] => .error (.missingValue arg)
      | value :: rest =>
        match c.applyValue read decode arg value with
        | .ok c => applyAll read decode c rest
        | .error e => .error e
    else
      match c.apply arg with
      | .ok c => applyAll read decode c rest
      | .error e => .error e

/-- The call that arguments stand for.  It needs a file to read. -/
def ofArgs (read : FileReader) (args : List String) (decode : Decoder := Capabilities.ofJson) :
    Except CommandError ParseCommand := do
  let c ← applyAll read decode {} args
  if c.files.isEmpty then throw .missingPath
  return c

end ParseCommand

/-! ## Reports -/

/-- What parsing one file gave. -/
structure Report where
  path : String
  result : Except CommandError Parsed

namespace Report

/-- Whether a file could not be read or has errors. -/
def hasErrors (r : Report) : Bool :=
  match r.result with
  | .ok p => p.hasErrors
  | .error _ => true

/-- A text with blanks before it up to a width. -/
def padLeft (width : Nat) (s : String) : String := "".pushn ' ' (width - s.length) ++ s

/-- A text with blanks behind it up to a width. -/
def padRight (width : Nat) (s : String) : String := s ++ "".pushn ' ' (width - s.length)

/-- The line of a statement: its row, its kind and its text. -/
def statementLine (s : Statement) : String :=
  let row := (s.location?.map (·.row)).getD 0
  "  " ++ padLeft 4 (toString row) ++ "  " ++ padRight 11 s.kind ++ " " ++ s.render ++ "\n"

/-- The text of a report: a summary, the statements, and the errors if there are any. -/
def render (r : Report) : String :=
  match r.result with
  | .error e => r.path ++ ": error: " ++ e.message ++ "\n"
  | .ok p =>
    r.path ++ s!": {p.statements.length} statements, {p.comments.length} comments\n" ++
      String.join (p.statements.map statementLine) ++
      if p.hasErrors then Diagnostic.renderAll p.errors ++ "\n" else ""

end Report

/-- The text of a file. -/
def readSource (read : FileReader) (path : String) : Except CommandError String :=
  match read path with
  | .ok text => .ok text
  | .error failure => .error (.unreadable path failure)

/-- Parse the files of a call, each on its own, in their order. -/
def ParseCommand.reports (read : FileReader) (c : ParseCommand) : List Report :=
  c.files.map fun path =>
    { path, result := (readSource read path).map fun source => parse source path c.options }

/-- List the tokens of a file. -/
def lexFile (read : FileReader) (path : String) : Except CommandError String :=
  (readSource read path).map (Listing.ofSource path)

/-! ## The program -/

/-- How a run of the program ends: its exit code and what it prints. -/
structure Outcome where
  code : Nat := 0
  stdout : String := ""
  stderr : String := ""
deriving DecidableEq

namespace Outcome

/-- The name and version of the program. -/
def versionLine : String := "rego 0.1.0-alpha.1\n"

/-- The reminder of how `parse` is called. -/
def parseUsage : String := "Usage: rego parse [options] <file.rego>...\n"

/-- The reminder of how `lex` is called. -/
def lexUsage : String := "Usage: rego lex <file.rego>\n"

/-- The help text. -/
def usage : String := String.join <| List.map (· ++ "\n")
  ["Rego policy parser",
   "",
   "Usage: rego <command> [options]",
   "",
   "Commands:",
   "  parse <file.rego>...  Parse files and list their statements",
   "  lex <file.rego>       Tokenize a file and display tokens",
   "  help                  Show this help message",
   "  version               Show version information",
   "",
   "Parse options:",
   "  --v0                  Accept Rego v0 syntax",
   "  --v0v1                Accept v0 syntax that is also valid v1",
   "  --future <kw>         Reserve a future keyword (repeatable)",
   "  --all-future          Reserve every future keyword",
   "  --capabilities <file> Load a capabilities JSON document",
   "  --annotations         Decode METADATA comment blocks",
   "  --skip-rules          Parse queries only, never rules",
   "  --max-depth <n>       Nesting ceiling (0 disables it)",
   "",
   "Logging:",
   "  RUST_LOG=rego_parse=debug rego parse policy.rego",
   "",
   "Examples:",
   "  rego parse policy.rego",
   "  rego parse --v0 --future in legacy.rego",
   "  rego parse --annotations policies/*.rego",
   "  rego lex policy.rego"]

/-- The line of an error. -/
def errorLine (e : CommandError) : String := "error: " ++ e.message ++ "\n"

/-- Run `parse`.  A file with errors makes the run a failure. -/
def ofParse (read : FileReader) (args : List String) : Outcome :=
  match ParseCommand.ofArgs read args with
  | .error e => { code := 1, stderr := errorLine e ++ parseUsage }
  | .ok c =>
    let reports := c.reports read
    { code := if reports.any Report.hasErrors then 1 else 0
      stdout := String.join (reports.map Report.render) }

/-- Run `lex`, which looks at its first argument only. -/
def ofLex (read : FileReader) : List String → Outcome
  | [] => { code := 1, stderr := lexUsage }
  | path :: _ =>
    match lexFile read path with
    | .ok listing => { stdout := listing }
    | .error e => { code := 1, stderr := errorLine e }

/-- Run the program. -/
def ofArgs (read : FileReader) : List String → Outcome
  | [] => { stdout := usage }
  | "parse" :: args => ofParse read args
  | "lex" :: args => ofLex read args
  | "help" :: _ | "--help" :: _ | "-h" :: _ => { stdout := usage }
  | "version" :: _ | "--version" :: _ | "-v" :: _ => { stdout := versionLine }
  | command :: _ => { code := 1, stdout := usage, stderr := "Unknown command: " ++ command ++ "\n\n" }

end Outcome

end RegoSyntax
