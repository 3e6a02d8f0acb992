/-
# RegoSyntax.Parse.Clause — package and import clauses.

Both clauses start with a keyword.  The keyword may also start a reference (`package.x`), so a
point or a bracket right behind it means that there is no clause here.

Two kinds of import change which words are reserved in the rest of the file: `future.keywords` and
`rego.v1`.
-/
import RegoSyntax.Parse.Primary

namespace RegoSyntax.Parse

/-! ## Beginnings -/

/-- Step over the keyword of a clause to the token its path starts with. -/
def clauseKeyword (keyword : Token) : Parse Unit := do
  if (← token) != keyword then fail
  scanBlank
  if continuesRef (← token) then fail
  scan

/-- Report that there is no path here, unless there is an error already. -/
def missingPath {α : Type} : Parse α := do
  if ← noFailures then reportHere .expectedPath
  fail

/-- Segments that have to be strings. -/
def stringSegments : Ref → Parse Unit
  | [] => pure ()
  | t :: ts => do
    if t.value.string?.isSome then stringSegments ts
    else
      report t.place (.pathSegmentNotString t.value.kind)
      fail

/-! ## Packages -/

/-- The path of a package, from the root of all packages, whose own head is a string. -/
def packagePath (r : Ref) : Parse Ref := do
  let head ← ofOption r.head?
  match head.value with
  | .var name =>
    stringSegments r.tail
    return ⟨.var dataRoot, some head.place⟩ :: ⟨.string name, some head.place⟩ :: r.tail
  | v =>
    report head.place (.pathHeadNotVar v.kind)
    fail

/-- A package clause. -/
def package (g : Grammar) : Parse Package := do
  let place ← location
  clauseKeyword .packageKw
  if !(← isIdent) then
    unexpected
    fail
  match ← attempt (g .term) with
  | some t =>
    let path ← match t.value with
      | .var _ => packagePath [t]
      | .ref r => packagePath r
      | _ => do
        unexpected
        fail
    return ⟨path, some (← upToLastStop place)⟩
  | none => missingPath

/-! ## Imports -/

/-- The path of an import, as a term. -/
def importPath (g : Grammar) : Parse (Term × Ref) := do
  match ← withoutFutureKeywords (attempt (g .term)) with
  | some t =>
    match t.value with
    | .var _ => return (⟨.ref [t], t.location⟩, [t])
    | .ref r =>
      stringSegments r.tail
      return (t, r)
    | _ =>
      reportHere .expectedPath
      fail
  | none => missingPath

/-- The roots of the imports that reserve words. -/
def futureRoot : String := "future"
def regoRoot : String := "rego"

/-- The name behind `as`. -/
def importAlias (g : Grammar) : Parse String := do
  scan
  if (← token) != .ident then
    unexpected .var
    fail
  match ← attempt (g .term) with
  | some ⟨.var name, _⟩ => return name
  | _ =>
    unexpected .var
    fail

/-- Report an import without an alias whose last segment is a reserved word, so that nothing could
refer to it. -/
def checkLastSegment (path : Term) (r : Ref) : Parse Unit := do
  let last := (r.getLast?.bind (·.value.string?)).getD ""
  if r.length > 1 && (← env).version.reserves last then
    hint .otherPathOrAlias
    report path.place (.importEndsInKeyword path.render)

/-- An import clause. -/
def importClause (g : Grammar) : Parse Import := do
  let place ← location
  clauseKeyword .importKw
  if !(← isIdent) then
    unexpected .ident
    fail
  let (path, r) ← importPath g
  let root := (r.head?.map Term.render).getD ""
  if !importRoots.contains root then
    hint .updateTooling
    report path.place (.importRoot root)
    fail
  if (← token) == .asKw then
    let localName ← importAlias g
    return ⟨path, some localName, some (← upToLastStop place)⟩
  else
    if root != futureRoot then checkLastSegment path r
    return ⟨path, none, some (← upToLastStop place)⟩

/-! ## Imports that reserve words -/

/-- Reserve words of a table from here on. -/
def reserve (allowed : KeywordTable) (words : List String) : Parse Unit :=
  modifyLook fun l =>
    { l with
      scanner := words.foldl (fun s word =>
        match allowed.get? word with
        | some kind => s.addKeyword word kind
        | none => s) l.scanner }

/-- What `import future.keywords…` reserves, out of the words that are allowed, or what is wrong
with it. -/
def futureWords (i : Import) (r : Ref) (allowed : KeywordTable) : Except Problem (List String) :=
  match r with
  | _ :: ⟨.string "keywords", _⟩ :: rest =>
    if i.localName.isSome then .error .futureImportAlias
    else
      match rest with
      | [] => .ok allowed.words
      | [⟨.string word, _⟩] =>
        if allowed.contains word then .ok [word] else .error (.futureImportUnknown allowed.words)
      | _ => .error .futureImportShape
  | _ => .error .futureImportPath

/-- What `import rego.v1` reserves in a dialect, or what is wrong with it. -/
def regoWords (i : Import) (r : Ref) (env : Env) : Except Problem (List String) :=
  if !env.capabilities.hasFeature Capabilities.regoV1Import &&
      !env.capabilities.hasFeature Capabilities.regoV1 then .error .regoImportUnsupported
  else
    match r with
    | [_, ⟨.string "v1", _⟩] =>
      if env.version == .v1 then .ok []
      else if i.localName.isSome then .error .regoImportAlias
      else .ok KeywordTable.future.words
    | _ => .error (.regoImportPath i.path.render)

/-- Reserve what an import says is to be reserved. -/
def applyImport (i : Import) (allowed : KeywordTable) : Parse Unit := do
  let r := i.path.value.ref?.getD []
  let apply (table : KeywordTable) : Except Problem (List String) → Parse Unit
    | .ok words => reserve table words
    | .error problem => report i.path.place problem
  if Ref.headVar? r == some regoRoot then apply .future (regoWords i r (← env))
  else if Ref.headVar? r == some futureRoot then apply allowed (futureWords i r allowed)

end RegoSyntax.Parse
