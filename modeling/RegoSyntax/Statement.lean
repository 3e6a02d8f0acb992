/-
# RegoSyntax.Statement — what a source file consists of.

A file is a list of statements: package and import clauses, rules, queries that stand on their
own, and the annotations that were decoded from its comments.  Comments themselves are collected
beside the statements.

Annotations are compared with their places and comments, all other statements without.
-/
import RegoSyntax.Rule
import RegoSyntax.Json

namespace RegoSyntax

/-! ## Clauses -/

/-- The clause `package a.b.c`.  Its path starts at the root of all packages: `data.a.b.c`. -/
structure Package where
  path : Ref
  location : Option Location

namespace Package

/-- The text of a package clause.  The segment behind the root is shown as the variable it was
written as. -/
def render (p : Package) : String :=
  let path := match p.path.tail with
    | ⟨.string s, _⟩ :: rest => .ofValue (.var s) :: rest
    | path => path
  "package " ++ Ref.render path

/-- Whether two clauses name the same package. -/
def same (a b : Package) : Bool := a.path.same b.path

end Package

/-- The clause `import data.x.y as z`.  Its path is a reference. -/
structure Import where
  path : Term
  localName : Option String
  location : Option Location

namespace Import

/-- The text of an import clause. -/
def render (i : Import) : String :=
  "import " ++ i.path.render ++
    match i.localName with
    | some name => " as " ++ name
    | none => ""

/-- Whether two clauses import the same under the same name. -/
def same (a b : Import) : Bool := a.path.same b.path && a.localName == b.localName

end Import

/-! ## Comments -/

/-- A comment; `text` is what stands behind its `#`. -/
structure Comment where
  text : String
  location : Location
deriving DecidableEq, Inhabited

namespace Comment

/-- A comment as it stands in the source. -/
def render (c : Comment) : String := "#" ++ c.text

/-- A comment with its place, the text quoted. -/
def describe (c : Comment) : String :=
  "#" ++ Quoted.display c.text ++ s!" @ {c.location.row}:{c.location.col}"

end Comment

/-! ## Annotations -/

/-- A link to documentation. -/
structure RelatedResource where
  reference : String
  description : String
deriving DecidableEq

/-- A schema for the document at a path: a reference to a schema, or the schema itself. -/
structure SchemaAnnotation where
  path : Ref
  schema : Option Ref
  definition : Option Json

namespace SchemaAnnotation

/-- The text of a schema annotation. -/
def render (s : SchemaAnnotation) : String :=
  match s.schema, s.definition with
  | some schema, _ => s.path.render ++ ":" ++ schema.render
  | none, some definition => s.path.render ++ ":" ++ definition.render
  | none, none => s.path.render

/-- Whether two annotations give the same path the same schema. -/
def same (a b : SchemaAnnotation) : Bool :=
  a.path.same b.path && sameOptions Ref.same a.schema b.schema &&
    sameOptions Json.same a.definition b.definition

end SchemaAnnotation

/-- Someone who wrote a policy. -/
structure Author where
  name : String
  email : String
deriving DecidableEq

/-- An author as `Name <email>`, without the part that is missing. -/
def Author.render (a : Author) : String :=
  match a.name.isEmpty, a.email.isEmpty with
  | false, false => a.name ++ " <" ++ a.email ++ ">"
  | true, false => "<" ++ a.email ++ ">"
  | _, true => a.name

/-- The decoded contents of one block of metadata comments.  The members of `custom` are in the
order of their keys; `location` spans the block, and `comments` are the comments it was decoded
from, without the one that opens it. -/
structure Annotations where
  scope : String := ""
  title : String := ""
  entrypoint : Bool := false
  description : String := ""
  organizations : List String := []
  relatedResources : List RelatedResource := []
  schemas : List SchemaAnnotation := []
  authors : List Author := []
  custom : List (String × Json) := []
  location : Option Location := none
  comments : List Comment := []

namespace Annotations

/-- The text of annotations, which leaves out what is empty. -/
def render (a : Annotations) : String :=
  "METADATA" ++
    (if a.scope.isEmpty then "" else " scope=" ++ a.scope) ++
    (if a.title.isEmpty then "" else " title=" ++ Quoted.display a.title) ++
    (if a.entrypoint then " entrypoint" else "") ++
    String.join (a.authors.map fun x => " author=" ++ x.render) ++
    String.join (a.schemas.map fun x => " schema=" ++ x.render)

/-- Whether two lists are the same, element by element. -/
def sameLists {α : Type} (same : α → α → Bool) : List α → List α → Bool
  | [], [] => true
  | a :: as, b :: bs => same a b && sameLists same as bs
  | _, _ => false

/-- Whether two annotations say the same at the same place. -/
def same (a b : Annotations) : Bool :=
  a.scope == b.scope && a.title == b.title && a.entrypoint == b.entrypoint &&
    a.description == b.description && a.organizations == b.organizations &&
    a.relatedResources == b.relatedResources &&
    sameLists SchemaAnnotation.same a.schemas b.schemas &&
    a.authors == b.authors && Json.sameMembers a.custom b.custom &&
    a.location == b.location && a.comments == b.comments

end Annotations

/-! ## Statements -/

/-- An item at the top of a file. -/
inductive Statement where
  | package (p : Package)
  | importClause (i : Import)
  | rule (r : Rule)
  | body (b : Body)
  | annotations (a : Annotations)

namespace Statement

/-- The kind of a statement, as listings call it. -/
def kind : Statement → String
  | package _ => "package"
  | importClause _ => "import"
  | rule _ => "rule"
  | body _ => "body"
  | annotations _ => "annotations"

/-- The place of a statement; that of its first expression for a query. -/
def location? : Statement → Option Location
  | package p => p.location
  | importClause i => i.location
  | rule r => r.location
  | body b => b.head?.bind (·.location)
  | annotations a => a.location

/-- The rule that a statement is. -/
def rule? : Statement → Option Rule
  | rule r => some r
  | _ => none

/-- The query that a statement is. -/
def body? : Statement → Option Body
  | body b => some b
  | _ => none

/-- The text of a statement. -/
def render : Statement → String
  | package p => p.render
  | importClause i => i.render
  | rule r => r.render
  | body b => b.render
  | annotations a => a.render

/-- Whether two statements are the same. -/
def same : Statement → Statement → Bool
  | package a, package b => a.same b
  | importClause a, importClause b => a.same b
  | rule a, rule b => a.same b
  | body a, body b => a.same b
  | annotations a, annotations b => a.same b
  | _, _ => false

end Statement

end RegoSyntax
