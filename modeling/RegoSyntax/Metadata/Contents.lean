/-
# RegoSyntax.Metadata.Contents — what the fields of a record mean.

A record becomes annotations field by field.  Related resources and authors can be written short, as
a text, or as an object; schemas are given by reference or in full; custom data is JSON.  JSON has
fewer values than YAML: keys are texts, and all numbers are finite.
-/
import RegoSyntax.Fragment
import RegoSyntax.Metadata.Record
import RegoSyntax.Text.Words

namespace RegoSyntax.Metadata

open Yaml (Datum)

/-! ## JSON -/

/-- What has no counterpart in JSON: a mapping with a key that is no text, reached by a path; an
integer of more than 64 bits; and a real number that is not finite. -/
inductive JsonProblem where
  | keyNotText (path : List String)
  | tooWide (n : Int)
  | notFinite (x : Yaml.Real)
deriving DecidableEq, Repr

/-- The wording of a problem. -/
def JsonProblem.message : JsonProblem → String
  | keyNotText path => "invalid map key type(s): " ++ joinWith "/" path
  | tooWide n => s!"invalid number {n}"
  | notFinite x => "invalid number " ++ x.render

mutual

/-- A value in JSON, without its tags.  Of equal keys the last one counts. -/
def toJson (path : List String) : Datum → Except JsonProblem Json
  | .null => .ok .null
  | .boolean b => .ok (.boolean b)
  | .integer n => if Yaml.fits 64 n then .ok (.integer n) else .error (.tooWide n)
  | .real (.finite x) => .ok (.real x)
  | .real x => .error (.notFinite x)
  | .string s => .ok (.string s)
  | .sequence items => (itemsToJson path 0 items).map .array
  | .mapping entries => (entriesToJson path [] entries).map .object
  | .tagged _ v => toJson path v

/-- The items of a sequence in JSON, which have numbers from `index` on. -/
def itemsToJson (path : List String) (index : Nat) : List Datum → Except JsonProblem (List Json)
  | [] => .ok []
  | v :: vs =>
    match toJson (path ++ [toString index]) v with
    | .error e => .error e
    | .ok j => (itemsToJson path (index + 1) vs).map (j :: ·)

/-- The entries of a mapping in JSON, after the members that are `done`. -/
def entriesToJson (path : List String) (done : List (String × Json)) :
    List (Datum × Datum) → Except JsonProblem (List (String × Json))
  | [] => .ok done
  | (k, v) :: rest =>
    match k.string? with
    | none => .error (.keyNotText path)
    | some key =>
      match toJson (path ++ [key]) v with
      | .error e => .error e
      | .ok j => entriesToJson path (Json.insertMember key j done) rest

end

/-! ## Problems -/

/-- What is wrong with an entry of a list. -/
inductive EntryProblem where
  | emptyReference
  | missingReference
  | emptyAuthor
  | missingAuthor
  | neitherTextNorObject
  | content (e : JsonProblem)
deriving DecidableEq, Repr

/-- The wording of a problem. -/
def EntryProblem.message : EntryProblem → String
  | emptyReference => "ref URL may not be empty string"
  | missingReference => "'ref' value required in object"
  | emptyAuthor => "author is an empty string"
  | missingAuthor => "'name' and/or 'email' values required in object"
  | neitherTextNorObject => "invalid value type, must be string or map"
  | content e => e.message

/-- How messages show an entry: a text as it is, anything else as JSON if it has a counterpart
there. -/
def Entry.describe (e : Entry) : String :=
  match e.value with
  | .string s => s
  | v =>
    match toJson [] v with
    | .ok j => j.render
    | .error _ => v.describe

/-- What is wrong with the contents of a record. -/
inductive ContentProblem where
  | relatedResource (entry : Entry) (reason : EntryProblem)
  | author (entry : Entry) (reason : EntryProblem)
  | documentReference
  | schemaReference (text : String)
  | schemaDefinition (e : JsonProblem)
  | schemaDeclaration (path : String)
  | custom (e : JsonProblem)

/-- The wording of a problem. -/
def ContentProblem.message : ContentProblem → String
  | relatedResource entry reason =>
    "invalid related-resource definition " ++ entry.describe ++ ": " ++ reason.message
  | author entry reason => "invalid author definition " ++ entry.describe ++ ": " ++ reason.message
  | documentReference => "invalid document reference"
  | schemaReference text => "invalid schema reference " ++ Quoted.display text
  | schemaDefinition e => "invalid schema definition: " ++ e.message
  | schemaDeclaration path => "invalid schema declaration for path " ++ Quoted.display path
  | custom e => e.message

/-! ## Related resources and authors -/

/-- The members of an object. -/
def objectMembers (entries : List (Datum × Datum)) : Except EntryProblem (List (String × Json)) :=
  (entriesToJson [] [] entries).mapError .content

/-- The text of a member without blanks at its ends; empty if there is no such text. -/
def memberText (members : List (String × Json)) (key : String) : String :=
  match (Json.member? members key).bind Json.string? with
  | some s => Text.trim s
  | none => ""

/-- The related resource that an entry gives: its address, or an object with one. -/
def relatedResource : Entry → Except EntryProblem RelatedResource
  | .text url => if url.isEmpty then .error .emptyReference else .ok ⟨url, ""⟩
  | .object entries => do
    let members ← objectMembers entries
    let reference := memberText members "ref"
    if reference.isEmpty then throw .missingReference
    return ⟨reference, memberText members "description"⟩
  | .other _ => .error .neitherTextNorObject

/-- The address in a word between angle brackets. -/
def bracketed? (word : String) : Option String :=
  match word.toList with
  | '<' :: rest =>
    if rest.getLast? == some '>' then some (String.ofList rest.dropLast) else none
  | _ => none

/-- The author that a text names, with an address as its last word. -/
def authorOfText (s : String) : Except EntryProblem Author :=
  let words := Text.words s
  match words.getLast? with
  | none => .error .emptyAuthor
  | some last =>
    match bracketed? last with
    | some email => .ok ⟨joinWith " " words.dropLast, email⟩
    | none => .ok ⟨joinWith " " words, ""⟩

/-- The author that an entry gives. -/
def author : Entry → Except EntryProblem Author
  | .text s => authorOfText s
  | .object entries => do
    let members ← objectMembers entries
    let name := memberText members "name"
    let email := memberText members "email"
    if name.isEmpty && email.isEmpty then throw .missingAuthor
    return ⟨name, email⟩
  | .other _ => .error .neitherTextNorObject

/-! ## Schemas -/

/-- The root of all schemas. -/
def schemaRoot : Ref := [.ofValue (.var "schema")]

/-- The reference to a schema that a text is: the root itself or a path from it. -/
def schemaReference (s : String) : Except ContentProblem Ref :=
  match Fragment.term s with
  | .error _ => .error (.schemaReference s)
  | .ok t =>
    match t.value with
    | .var name => if name == "schema" then .ok schemaRoot else .error (.schemaReference s)
    | .ref r => if Ref.startsWith r schemaRoot then .ok r else .error (.schemaReference s)
    | _ => .error (.schemaReference s)

/-- The schema annotation of a path. -/
def schema (key value : Datum) : Except ContentProblem SchemaAnnotation :=
  match key.string? with
  | none => .error .documentReference
  | some key =>
    match Fragment.ref key with
    | .error _ => .error .documentReference
    | .ok path =>
      match value.untagged with
      | .string s => (schemaReference s).map fun r => ⟨path, some r, none⟩
      | .mapping entries =>
        match toJson [] (.mapping entries) with
        | .ok definition => .ok ⟨path, none, some definition⟩
        | .error e => .error (.schemaDefinition e)
      | _ => .error (.schemaDeclaration key)

/-- The schema annotations of a list of mappings.  Only the first entry of each counts. -/
def schemaAnnotations : List (List (Datum × Datum)) → Except ContentProblem (List SchemaAnnotation)
  | [] => .ok []
  | [] :: rest => schemaAnnotations rest
  | ((k, v) :: _) :: rest => do
    let s ← schema k v
    return s :: (← schemaAnnotations rest)

/-! ## Annotations -/

/-- The custom members of a record, in the order of their keys. -/
def customMembers (done : List (String × Json)) :
    List (Datum × Datum) → Except ContentProblem (List (String × Json))
  | [] => .ok done
  | (k, v) :: rest =>
    match k.string? with
    | none => .error (.custom (.keyNotText []))
    | some key =>
      match toJson [key] v with
      | .error e => .error (.custom e)
      | .ok j => customMembers (Json.insertMember key j done) rest

/-- The annotations that a record gives, without their place and their comments. -/
def Record.annotations (r : Record) : Except ContentProblem Annotations := do
  let relatedResources ← r.relatedResources.mapM fun e =>
    (relatedResource e).mapError (.relatedResource e)
  let authors ← r.authors.mapM fun e => (author e).mapError (.author e)
  let schemas ← schemaAnnotations r.schemas
  let custom ← customMembers [] r.custom
  return { scope := r.scope, title := r.title, entrypoint := r.entrypoint
           description := r.description, organizations := r.organizations
           relatedResources, schemas, authors, custom }

end RegoSyntax.Metadata
