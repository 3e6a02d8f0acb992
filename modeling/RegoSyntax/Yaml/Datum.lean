/-
# RegoSyntax.Yaml.Datum — the values of a YAML document.

A value is what is left of a node when its spelling does not matter any more.  Mappings may have
keys of any kind; their order counts for texts only.  Integers and real numbers are different
values, and a real number that is not a number is the same as itself.
-/
import RegoSyntax.Json

namespace RegoSyntax.Yaml

/-! ## Real numbers -/

/-- A real number, or one of the three that binary floating point adds. -/
inductive Real where
  | finite (x : Binary64)
  | infinite (negative : Bool)
  | notNumber
deriving DecidableEq, Repr

namespace Real

/-- Whether two numbers are equal. -/
def equal : Real → Real → Bool
  | finite x, finite y => x.equal y
  | x, y => x == y

/-- The spelling of a number in documents. -/
def render : Real → String
  | finite x => x.render .data
  | infinite negative => if negative then "-.inf" else ".inf"
  | notNumber => ".nan"

/-- The spelling of a number in messages about values of another kind. -/
def display : Real → String
  | finite x => x.render .plain
  | infinite negative => if negative then "-inf" else "inf"
  | notNumber => "NaN"

end Real

/-! ## Values -/

/-- A value. -/
inductive Datum where
  | null
  | boolean (b : Bool)
  | integer (n : Int)
  | real (x : Real)
  | string (s : String)
  | sequence (items : List Datum)
  | mapping (entries : List (Datum × Datum))
  | tagged (tag : String) (value : Datum)

instance : Inhabited Datum := ⟨.null⟩

namespace Datum

/-- A tag without the mark that it may be written with. -/
def bareTag (tag : String) : List Char :=
  match tag.toList with
  | '!' :: c :: rest => c :: rest
  | cs => cs

mutual

/-- Whether two values are the same. -/
def same : Datum → Datum → Bool
  | null, null => true
  | boolean a, boolean b => a == b
  | integer a, integer b => a == b
  | real a, real b => a.equal b
  | string a, string b => a == b
  | sequence a, sequence b => sameItems a b
  | mapping a, mapping b => a.length == b.length && isWithin a b
  | tagged s a, tagged t b => bareTag s == bareTag t && a.same b
  | _, _ => false

/-- Whether sequences are the same, item by item. -/
def sameItems : List Datum → List Datum → Bool
  | [], [] => true
  | a :: as, b :: bs => a.same b && sameItems as bs
  | _, _ => false

/-- Whether all entries of a mapping are entries of another one, too. -/
def isWithin : List (Datum × Datum) → List (Datum × Datum) → Bool
  | [], _ => true
  | (k, v) :: rest, entries =>
    (entries.any fun e => k.same e.1 && v.same e.2) && isWithin rest entries

end

/-- Whether a value is a key of a mapping. -/
def isKeyOf (key : Datum) (entries : List (Datum × Datum)) : Bool := entries.any (key.same ·.1)

/-- A value without its tags. -/
def untagged : Datum → Datum
  | tagged _ v => v.untagged
  | v => v

/-- The text of a string, whatever its tags. -/
def string? (v : Datum) : Option String :=
  match v.untagged with
  | string s => some s
  | _ => none

/-- Whether a key comes twice. -/
def hasRepeatedKey : List (Datum × Datum) → Bool
  | [] => false
  | (k, _) :: rest => k.isKeyOf rest || hasRepeatedKey rest

mutual

/-- Whether a key comes twice in a mapping, anywhere in a value. -/
def repeatsKeys : Datum → Bool
  | sequence items => itemsRepeatKeys items
  | mapping entries => hasRepeatedKey entries || entriesRepeatKeys entries
  | tagged _ v => v.repeatsKeys
  | _ => false

/-- Whether a key comes twice in a mapping, anywhere in the items of a sequence. -/
def itemsRepeatKeys : List Datum → Bool
  | [] => false
  | v :: vs => v.repeatsKeys || itemsRepeatKeys vs

/-- Whether a key comes twice in a mapping, anywhere in the entries of another one. -/
def entriesRepeatKeys : List (Datum × Datum) → Bool
  | [] => false
  | (k, v) :: rest => k.repeatsKeys || v.repeatsKeys || entriesRepeatKeys rest

end

/-! ## Full accounts -/

mutual

/-- The full account of a value, which tells values of different kinds apart.  It leaves tags out. -/
def describe : Datum → String
  | null => "Null"
  | boolean b => if b then "Bool(true)" else "Bool(false)"
  | integer n => s!"Number({n})"
  | real x => "Number(" ++ x.render ++ ")"
  | string s => "String(" ++ Quoted.display s ++ ")"
  | sequence items => "Sequence [" ++ joinWith ", " (describeItems items) ++ "]"
  | mapping entries => "Mapping \x7b" ++ joinWith ", " (describeEntries entries) ++ "\x7d"
  | tagged _ v => v.describe

/-- The accounts of the items of a sequence. -/
def describeItems : List Datum → List String
  | [] => []
  | v :: vs => v.describe :: describeItems vs

/-- The accounts of the entries of a mapping.  The kinds of simple keys are left out. -/
def describeEntries : List (Datum × Datum) → List String
  | [] => []
  | (k, v) :: rest =>
    let key := match k with
      | boolean b => if b then "true" else "false"
      | integer n => toString n
      | real x => x.render
      | string s => Quoted.display s
      | k => k.describe
    (key ++ ": " ++ v.describe) :: describeEntries rest

end

end Datum

end RegoSyntax.Yaml
