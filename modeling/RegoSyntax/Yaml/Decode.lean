/-
# RegoSyntax.Yaml.Decode — reading what is expected from a YAML document.

A caller says what it expects of a node — a text, a truth value, a sequence, a mapping or any value
— and gets it or an error.  A complaint about a node comes with its place: where it starts, and the
path from the root to it.

Aliases are followed where they are met, so a small text can stand for a large tree, or for an
endless one.  Two bounds keep reading finite: on how deep collections are nested, and on how many
aliases are followed.
-/
import RegoSyntax.Yaml.Node
import RegoSyntax.Yaml.Resolve

namespace RegoSyntax.Yaml

/-! ## Places -/

/-- The way from the root of a document to a node.  An alias is a step of its own. -/
inductive Path where
  | root
  | item (parent : Path) (index : Nat)
  | member (parent : Path) (key : String)
  | unknownMember (parent : Path)
  | aliasOf (parent : Path)
deriving DecidableEq, Repr

namespace Path

/-- Whether a path leads nowhere. -/
def isRoot : Path → Bool
  | root => true
  | _ => false

/-- The text of a path. -/
def render : Path → String
  | root => "."
  | item parent index => parent.render ++ s!"[{index}]"
  | member parent key => (if parent.isRoot then "" else parent.render ++ ".") ++ key
  | unknownMember parent => (if parent.isRoot then "" else parent.render ++ ".") ++ "?"
  | aliasOf parent => parent.render

/-- The path to the value of a key. -/
def ofKey (parent : Path) : Node → Path
  | .scalar _ _ _ text _ => member parent text
  | _ => unknownMember parent

end Path

/-- Where a node stands: its start and the path to it. -/
structure Spot where
  mark : Mark
  path : Path
deriving DecidableEq, Repr

/-! ## Errors -/

/-- What was found where something else was expected. -/
inductive Found where
  | scalar (r : Resolved)
  | sequence
  | mapping
deriving DecidableEq, Repr

/-- How messages call what was found. -/
def Found.render : Found → String
  | scalar .null => "unit value"
  | scalar (.boolean b) => if b then "boolean `true`" else "boolean `false`"
  | scalar (.integer n) => s!"integer `{n}`"
  | scalar (.wide n) => s!"integer `{n}` as " ++ if n < 0 then "i128" else "u128"
  | scalar (.real x) => "floating point `" ++ x.display ++ "`"
  | scalar (.string s) => "string " ++ Quoted.display s
  | sequence => "sequence"
  | mapping => "map"

/-- What can be wrong with a node.  An entry of a list that takes several kinds may have no tags of
the document's own, and matches none of the kinds if a key in it comes twice. -/
inductive Complaint where
  | mismatch (found : Found) (expected : String)
  | badTagged (text : String) (kind : CoreTag)
  | repeatedField (name : String)
  | repeatedKey (key : Datum)
  | taggedEntry
  | noVariant (type : String)

/-- How messages call the key that comes twice. -/
def repeatedKeyText : Datum → String
  | .null => "with null key"
  | .boolean b => if b then "with key `true`" else "with key `false`"
  | .integer n => s!"with key {n}"
  | .real x => "with key " ++ x.render
  | .string s => "with key " ++ Quoted.display s
  | _ => "in YAML map"

/-- The wording of a complaint. -/
def Complaint.message : Complaint → String
  | mismatch found expected => "invalid type: " ++ found.render ++ ", expected " ++ expected
  | badTagged text kind =>
    "invalid value: string " ++ Quoted.display text ++ ", expected " ++ kind.expected
  | repeatedField name => "duplicate field `" ++ name ++ "`"
  | repeatedKey key => "duplicate entry " ++ repeatedKeyText key
  | taggedEntry => "untagged and internally tagged enums do not support enum input"
  | noVariant type => "data did not match any variant of untagged enum " ++ type

/-- What keeps a document from being read. -/
inductive DecodeError where
  | complaint (c : Complaint) (spot : Spot)
  | nestedTooDeep (mark : Mark)
  | tooManyAliases
  | broken (b : Breakage)
  | manyDocuments

namespace DecodeError

/-- The wording of an error. -/
def message : DecodeError → String
  | complaint c spot =>
    (if spot.path.render == "." then "" else spot.path.render ++ ": ") ++ c.message ++
      spot.mark.suffix
  | nestedTooDeep mark => "recursion limit exceeded" ++ mark.suffix
  | tooManyAliases => "repetition limit exceeded"
  | broken (.form e) => e.message
  | broken (.unknownAnchor mark) => "unknown anchor" ++ mark.suffix
  | manyDocuments => "deserializing from YAML containing more than one document is not supported"

/-- Where an error is; none if it is about the document as a whole. -/
def mark? : DecodeError → Option Mark
  | complaint _ spot => some spot.mark
  | nestedTooDeep mark => some mark
  | tooManyAliases => none
  | broken (.form e) => some e.mark
  | broken (.unknownAnchor mark) => some mark
  | manyDocuments => none

end DecodeError

/-! ## Following aliases -/

/-- Reading from a document.  The number is that of the aliases that have been followed. -/
abbrev Decode (α : Type) : Type := ReaderT Document (StateT Nat (Except DecodeError)) α

/-- The deepest nesting of collections. -/
def maxNesting : Nat := 128

/-- How many aliases may be followed, for each event of the document. -/
def aliasesPerEvent : Nat := 100

/-- Complain about a node. -/
def complain {α : Type} (c : Complaint) (spot : Spot) : Decode α := throw (.complaint c spot)

/-- The error at the place where the text of a document breaks off. -/
def reachCut {α : Type} : Decode α := do
  throw (.broken ((← read).breakage.getD (.form { fault := .endInside })))

/-- Count one more alias. -/
def countAlias : Decode Unit := do
  let count := (← get) + 1
  set count
  if count > aliasesPerEvent * (← read).eventCount then throw .tooManyAliases

/-- The node that a node stands for, which is neither an alias nor a cut, and the path to it. -/
def follow (path : Path) (n : Node) : Decode (Path × Node) :=
  match n with
  | .cut => reachCut
  | .aliasOf _ number => do
    countAlias
    match (← read).target? number with
    | some target => return (.aliasOf path, target)
    | none => reachCut
  | n => return (path, n)

/-- The depth that is left within a collection. -/
def enter (depth : Nat) (mark : Mark) : Decode Nat :=
  match depth with
  | 0 => throw (.nestedTooDeep mark)
  | depth + 1 => return depth

/-! ## Scalars -/

/-- Complain that a node is not what was expected. -/
def reject {α : Type} (expected : String) (path : Path) (n : Node) : Decode α :=
  let spot := ⟨n.mark, path⟩
  match n with
  | .cut => reachCut
  | .sequence .. => complain (.mismatch .sequence expected) spot
  | .mapping .. => complain (.mismatch .mapping expected) spot
  | .void _ | .aliasOf .. => complain (.mismatch (.scalar .null) expected) spot
  | .scalar _ _ tag text style =>
    match resolveScalar tag style text with
    | .ok r => complain (.mismatch (.scalar r) expected) spot
    | .error kind => complain (.badTagged text kind) spot

/-- Whether nothing stands where a collection was expected, which is an empty one. -/
def isLeftOut : Node → Bool
  | .void _ => true
  | .scalar _ _ _ text style => text.isEmpty && style == .plain
  | _ => false

/-- The text of a scalar, whatever else it could stand for. -/
def textOf (expected : String) (path : Path) (n : Node) : Decode String := do
  let (path, n) ← follow path n
  match n with
  | .scalar _ _ _ text _ => return text
  | n => reject expected path n

/-- Whether a scalar may spell a truth value: a plain one, or a block that is tagged so. -/
def maySpellBoolean (tag : Option String) (style : Style) : Bool :=
  style == .plain || (style == .literal && tag.bind CoreTag.ofTag? == some .boolean)

/-- The truth value of a scalar. -/
def booleanOf (path : Path) (n : Node) : Decode Bool := do
  let (path, n) ← follow path n
  match n with
  | .scalar _ _ tag text style =>
    match if maySpellBoolean tag style then boolean? text else none with
    | some b => return b
    | none => reject "a boolean" path n
  | n => reject "a boolean" path n

/-! ## Sequences -/

/-- Read the items of a sequence, which have numbers from `index` on. -/
def itemsFrom {α : Type} (item : Path → Node → Decode α) (path : Path) :
    (index : Nat) → List Node → Decode (List α)
  | _, [] => return []
  | index, n :: rest => do
    let a ← item (.item path index) n
    return a :: (← itemsFrom item path (index + 1) rest)

/-- A sequence.  An item is read with the place of the sequence and the depth that is left. -/
def sequenceOf {α : Type} (item : Spot → Nat → Path → Node → Decode α) (depth : Nat) (path : Path)
    (n : Node) : Decode (List α) := do
  let (path, n) ← follow path n
  match n with
  | .sequence mark _ _ items => do
    let depth ← enter depth mark
    itemsFrom (item ⟨mark, path⟩ depth) path 0 items
  | n => if isLeftOut n then return [] else reject "a sequence" path n

/-! ## Values -/

/-- How any value is read: with its keys compared and its own tags kept, or as it comes, without
tags. -/
inductive ValueMode where
  | checked
  | free
deriving DecidableEq, Repr

/-- How messages call any value. -/
def ValueMode.expected : ValueMode → String
  | checked => "any YAML value"
  | free => "any value"

/-- Read the entries of a mapping, behind those that are `done`, which are in reverse. -/
def entriesFrom (mode : ValueMode) (part : Path → Node → Decode Datum) (owner : Spot) :
    (done : List (Datum × Datum)) → List (Node × Node) → Decode (List (Datum × Datum))
  | done, [] => return done.reverse
  | done, (k, v) :: rest => do
    let key ← part owner.path k
    if mode == .checked && key.isKeyOf done then complain (.repeatedKey key) owner
    let value ← part (owner.path.ofKey k) v
    entriesFrom mode part owner ((key, value) :: done) rest

/-- The value of what a scalar stands for. -/
def scalarValue (mode : ValueMode) (spot : Spot) : Resolved → Decode Datum
  | .null => return .null
  | .boolean b => return .boolean b
  | .integer n => return .integer n
  | .wide n => complain (.mismatch (.scalar (.wide n)) mode.expected) spot
  | .real x => return .real x
  | .string s => return .string s

/-- The name of a tag of the document's own: the tag without its mark, if there is more to it. -/
def ownTagName? (tag : String) : Option String :=
  match tag.toList with
  | ['!'] => some tag
  | '!' :: name => some (String.ofList name)
  | _ => none

/-- Read a value with the tag that its node has. -/
def taggedWith (mode : ValueMode) (spot : Spot) (tag : Option String) (x : Decode Datum) :
    Decode Datum :=
  match tag.bind ownTagName? with
  | none => x
  | some name => do
    if mode == .free then complain .taggedEntry spot
    return .tagged name (← x)

/-- Any value; `part` reads its parts, unless it is nested too deep to have any. -/
def valueWith (mode : ValueMode) (part : Option (Path → Node → Decode Datum)) (path : Path)
    (n : Node) : Decode Datum := do
  let (path, n) ← follow path n
  let spot := ⟨n.mark, path⟩
  match n with
  | .scalar _ _ tag text style =>
    taggedWith mode spot tag <|
      match resolveScalar tag style text with
      | .ok r => scalarValue mode spot r
      | .error kind => complain (.badTagged text kind) spot
  | .sequence mark _ tag items =>
    taggedWith mode spot tag <|
      match part with
      | none => throw (.nestedTooDeep mark)
      | some part => do return .sequence (← itemsFrom part path 0 items)
  | .mapping mark _ tag entries =>
    taggedWith mode spot tag <|
      match part with
      | none => throw (.nestedTooDeep mark)
      | some part => do return .mapping (← entriesFrom mode part spot [] entries)
  | _ => return .null

/-- Any value, with collections nested up to a depth. -/
def valueOf (mode : ValueMode) : (depth : Nat) → Path → Node → Decode Datum
  | 0 => valueWith mode none
  | depth + 1 => valueWith mode (some (valueOf mode depth))

/-- A mapping of any keys to any values. -/
def mappingOf (depth : Nat) (path : Path) (n : Node) : Decode (List (Datum × Datum)) := do
  let (path, n) ← follow path n
  match n with
  | .mapping mark _ _ entries => do
    let depth ← enter depth mark
    entriesFrom .checked (valueOf .checked depth) ⟨mark, path⟩ [] entries
  | n => if isLeftOut n then return [] else reject "a YAML mapping" path n

/-! ## Documents -/

/-- Pass over a node.  Its aliases are not followed. -/
def ignore (n : Node) : Decode Unit := if n.isWhole then return () else reachCut

/-- Read a text that is one document. -/
def decode {α : Type} (x : Node → Decode α) (text : String) : Except DecodeError α := do
  let d := Document.ofText text
  let (a, _) ← (x d.root).run d 0
  if let some b := d.breakage then throw (.broken b)
  if d.hasMore then throw .manyDocuments
  return a

end RegoSyntax.Yaml
