/-
# RegoSyntax.Metadata.Record — the fields of a block of metadata.

A block is a mapping with known fields, each of which may be left out and none of which may come
twice.  Fields that are not known are passed over.  The record holds the fields as they were
written; what their contents mean is settled afterwards.
-/
import RegoSyntax.Yaml.Decode

namespace RegoSyntax.Metadata

open Yaml (Decode Node Path Spot Datum)

/-! ## Entries -/

/-- An entry of a list that takes texts and objects. -/
inductive Entry where
  | text (s : String)
  | object (entries : List (Datum × Datum))
  | other (v : Datum)

namespace Entry

/-- How messages call the type of entries. -/
def typeName : String := "RawEntry"

/-- The entry that a value is. -/
def ofValue : Datum → Entry
  | .string s => text s
  | .mapping entries => object entries
  | v => other v

/-- The value of an entry. -/
def value : Entry → Datum
  | text s => .string s
  | object entries => .mapping entries
  | other v => v

/-- Read an entry of a list.  If a key comes twice in it, that is a complaint about the list. -/
def read (list : Spot) (depth : Nat) (path : Path) (n : Node) : Decode Entry := do
  let v ← Yaml.valueOf .free depth path n
  if v.repeatsKeys then Yaml.complain (.noVariant typeName) list
  return ofValue v

end Entry

/-! ## Records -/

/-- The fields of a block. -/
inductive Field where
  | scope
  | title
  | entrypoint
  | description
  | organizations
  | relatedResources
  | authors
  | schemas
  | custom
deriving DecidableEq, Repr

namespace Field

/-- The name of a field. -/
def name : Field → String
  | scope => "scope"
  | title => "title"
  | entrypoint => "entrypoint"
  | description => "description"
  | organizations => "organizations"
  | relatedResources => "related_resources"
  | authors => "authors"
  | schemas => "schemas"
  | custom => "custom"

/-- All fields. -/
def all : List Field :=
  [scope, title, entrypoint, description, organizations, relatedResources, authors, schemas, custom]

/-- The field of a name. -/
def ofName? (s : String) : Option Field := all.find? (·.name == s)

end Field

/-- The contents of a block, field by field. -/
structure Record where
  scope : String := ""
  title : String := ""
  entrypoint : Bool := false
  description : String := ""
  organizations : List String := []
  relatedResources : List Entry := []
  authors : List Entry := []
  schemas : List (List (Datum × Datum)) := []
  custom : List (Datum × Datum) := []

namespace Record

/-- How messages call the type of records. -/
def typeName : String := "struct RawAnnotation"

/-- A text where a text is expected. -/
def readText (path : Path) (n : Node) : Decode String := Yaml.textOf "a string" path n

/-- Read the value of a field. -/
def readField (r : Record) (depth : Nat) (path : Path) (n : Node) : Field → Decode Record
  | .scope => do return { r with scope := ← readText path n }
  | .title => do return { r with title := ← readText path n }
  | .entrypoint => do return { r with entrypoint := ← Yaml.booleanOf path n }
  | .description => do return { r with description := ← readText path n }
  | .organizations => do
    return { r with organizations := ← Yaml.sequenceOf (fun _ _ => readText) depth path n }
  | .relatedResources => do
    return { r with relatedResources := ← Yaml.sequenceOf Entry.read depth path n }
  | .authors => do return { r with authors := ← Yaml.sequenceOf Entry.read depth path n }
  | .schemas => do
    return { r with schemas := ← Yaml.sequenceOf (fun _ => Yaml.mappingOf) depth path n }
  | .custom => do return { r with custom := ← Yaml.mappingOf depth path n }

/-- Read the fields of a record, after those that have been `seen`. -/
def readFields (owner : Spot) (depth : Nat) :
    (seen : List Field) → Record → List (Node × Node) → Decode Record
  | _, r, [] => return r
  | seen, r, (k, v) :: rest => do
    match Field.ofName? (← Yaml.textOf "field identifier" owner.path k) with
    | none => do
      Yaml.ignore v
      readFields owner depth seen r rest
    | some field => do
      if seen.contains field then Yaml.complain (.repeatedField field.name) owner
      let r ← readField r depth (owner.path.ofKey k) v field
      readFields owner depth (field :: seen) r rest

/-- Read a record from the root of a document. -/
def read (root : Node) : Decode Record := do
  let (path, n) ← Yaml.follow .root root
  match n with
  | .mapping mark _ _ entries => do
    let depth ← Yaml.enter Yaml.maxNesting mark
    readFields ⟨mark, path⟩ depth [] {} entries
  | n => if Yaml.isLeftOut n then return {} else Yaml.reject typeName path n

/-- The record that a text is. -/
def ofText (text : String) : Except Yaml.DecodeError Record := Yaml.decode read text

end Record

end RegoSyntax.Metadata
