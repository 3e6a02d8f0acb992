/-
# RegoSyntax.Json — JSON values.

The values that annotations carry for other tools.  Integers are those of 64 bits, signed or not;
all other numbers are binary floating point.  The members of an object are kept in the order of
their keys, each key once, so an object has one representation and one text.
-/
import RegoSyntax.Number.Shortest
import RegoSyntax.Tree.Render

namespace RegoSyntax

/-- A JSON value. -/
inductive Json where
  | null
  | boolean (b : Bool)
  | integer (n : Int)
  | real (x : Binary64)
  | string (s : String)
  | array (elements : List Json)
  | object (members : List (String × Json))

instance : Inhabited Json := ⟨.null⟩

namespace Json

/-- Put a member at its place among members in the order of their keys, over one with its key. -/
def insertMember (key : String) (value : Json) : List (String × Json) → List (String × Json)
  | [] => [(key, value)]
  | m :: ms =>
    if key < m.1 then (key, value) :: m :: ms
    else if key = m.1 then (key, value) :: ms
    else m :: insertMember key value ms

/-- The value of a member. -/
def member? (members : List (String × Json)) (key : String) : Option Json :=
  (members.find? (·.1 == key)).map (·.2)

/-- The text of a string value. -/
def string? : Json → Option String
  | string s => some s
  | _ => none

mutual

/-- The compact text of a value. -/
def render : Json → String
  | null => "null"
  | boolean b => if b then "true" else "false"
  | integer n => toString n
  | real x => x.render .data
  | string s => Quoted.json s
  | array elements => "[" ++ joinWith "," (renderElements elements) ++ "]"
  | object members => "\x7b" ++ joinWith "," (renderMembers members) ++ "\x7d"

/-- The texts of the elements of an array. -/
def renderElements : List Json → List String
  | [] => []
  | v :: vs => v.render :: renderElements vs

/-- The texts of the members of an object. -/
def renderMembers : List (String × Json) → List String
  | [] => []
  | (k, v) :: ms => (Quoted.json k ++ ":" ++ v.render) :: renderMembers ms

end

mutual

/-- Whether two values are the same; real numbers are compared as numbers. -/
def same : Json → Json → Bool
  | null, null => true
  | boolean a, boolean b => a == b
  | integer a, integer b => a == b
  | real a, real b => a.equal b
  | string a, string b => a == b
  | array a, array b => sameElements a b
  | object a, object b => sameMembers a b
  | _, _ => false

/-- Whether arrays are the same, element by element. -/
def sameElements : List Json → List Json → Bool
  | [], [] => true
  | a :: as, b :: bs => a.same b && sameElements as bs
  | _, _ => false

/-- Whether objects are the same, member by member. -/
def sameMembers : List (String × Json) → List (String × Json) → Bool
  | [], [] => true
  | (k, a) :: as, (l, b) :: bs => k == l && a.same b && sameMembers as bs
  | _, _ => false

end

end Json

end RegoSyntax
