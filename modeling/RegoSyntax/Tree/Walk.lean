/-
# RegoSyntax.Tree.Walk — visiting every node of a tree.

Two traversals in the same order, parents before children and children from left to right as they
are stored.  `walk` lists the nodes that are met.  `edit` rebuilds the tree on the way down,
carrying a state from node to node: an `Edit` may move nodes and rename variables, and leaves the
shape of the tree alone.

The place of a node is an `Edit`'s whole influence besides variables, so relocating a tree
(`Edit.relocate`) is the edit that forgets every place for one.
-/
import RegoSyntax.Tree

namespace RegoSyntax

/-! ## Listing nodes -/

/-- A node that a walk comes to. -/
inductive Visit where
  | term (t : Term)
  | value (v : Value)
  | body (b : Body)
  | expr (e : Expr)

mutual

/-- The nodes of a term: the term, its value, and what is below. -/
def Term.walk : Term → List Visit
  | ⟨v, l⟩ => .term ⟨v, l⟩ :: .value v :: v.walkParts

/-- The nodes below a value. -/
def Value.walkParts : Value → List Visit
  | .null | .boolean _ | .number _ | .string _ | .var _ => []
  | .ref ts | .array ts | .set ts | .call ts => walkTerms ts
  | .object ps => walkPairs ps
  | .arrayComprehension t b => t.walk ++ walkBody b
  | .objectComprehension k v b => k.walk ++ v.walk ++ walkBody b
  | .setComprehension t b => t.walk ++ walkBody b

/-- The nodes of several terms. -/
def walkTerms : List Term → List Visit
  | [] => []
  | t :: ts => t.walk ++ walkTerms ts

/-- The nodes of the entries of an object, each key before its value. -/
def walkPairs : List (Term × Term) → List Visit
  | [] => []
  | (k, v) :: ps => k.walk ++ v.walk ++ walkPairs ps

/-- The nodes of a query: the query, then its expressions. -/
def walkBody : List Expr → List Visit
  | [] => [.body []]
  | e :: es => .body (e :: es) :: e.walk ++ walkExprs es

/-- The nodes of several expressions. -/
def walkExprs : List Expr → List Visit
  | [] => []
  | e :: es => e.walk ++ walkExprs es

/-- The nodes of an expression: the expression, what it consists of, its replacements. -/
def Expr.walk : Expr → List Visit
  | ⟨i, g, n, ts, ws, l⟩ => .expr ⟨i, g, n, ts, ws, l⟩ :: ts.walkParts ++ walkWiths ws

/-- The nodes of what an expression consists of. -/
def ExprTerms.walkParts : ExprTerms → List Visit
  | .term t => t.walk
  | .call ts => walkTerms ts
  | .some ts _ => walkTerms ts
  | .every k v d b _ => walkKey k ++ v.walk ++ d.walk ++ walkBody b

/-- The nodes of an optional key. -/
def walkKey : Option Term → List Visit
  | none => []
  | some k => k.walk

/-- The nodes of several replacements, each target before its value. -/
def walkWiths : List With → List Visit
  | [] => []
  | ⟨t, v, _⟩ :: ws => t.walk ++ v.walk ++ walkWiths ws

end

/-- The nodes of a value that stands on its own. -/
def Value.walk (v : Value) : List Visit := .value v :: v.walkParts

/-- The nodes of a query. -/
def Body.walk (b : Body) : List Visit := walkBody b

/-! ## Rebuilding trees -/

/-- What to do at each node while a state is carried along: at a term the state changes and a
place is chosen, then the name of a variable may change; the other nodes only get a place. -/
structure Edit (σ : Type) where
  enter : Term → σ → σ
  place : Option Location → Option Location
  rename : σ → String → String

mutual

/-- A term with its place chosen, then what is below it. -/
def Term.edit {σ : Type} (e : Edit σ) : Term → σ → Term × σ
  | ⟨v, l⟩, s =>
    let s := e.enter ⟨v, l⟩ s
    let (v, s) := v.edit e s
    (⟨v, e.place l⟩, s)

/-- A value with what is below it edited. -/
def Value.edit {σ : Type} (e : Edit σ) : Value → σ → Value × σ
  | .null, s => (.null, s)
  | .boolean b, s => (.boolean b, s)
  | .number n, s => (.number n, s)
  | .string t, s => (.string t, s)
  | .var name, s => (.var (e.rename s name), s)
  | .ref ts, s => let (ts, s) := editTerms e ts s; (.ref ts, s)
  | .array ts, s => let (ts, s) := editTerms e ts s; (.array ts, s)
  | .set ts, s => let (ts, s) := editTerms e ts s; (.set ts, s)
  | .call ts, s => let (ts, s) := editTerms e ts s; (.call ts, s)
  | .object ps, s => let (ps, s) := editPairs e ps s; (.object ps, s)
  | .arrayComprehension t b, s =>
    let (t, s) := t.edit e s
    let (b, s) := editBody e b s
    (.arrayComprehension t b, s)
  | .objectComprehension k v b, s =>
    let (k, s) := k.edit e s
    let (v, s) := v.edit e s
    let (b, s) := editBody e b s
    (.objectComprehension k v b, s)
  | .setComprehension t b, s =>
    let (t, s) := t.edit e s
    let (b, s) := editBody e b s
    (.setComprehension t b, s)

/-- Several terms, one after the other. -/
def editTerms {σ : Type} (e : Edit σ) : List Term → σ → List Term × σ
  | [], s => ([], s)
  | t :: ts, s =>
    let (t, s) := t.edit e s
    let (ts, s) := editTerms e ts s
    (t :: ts, s)

/-- The entries of an object, each key before its value. -/
def editPairs {σ : Type} (e : Edit σ) : List (Term × Term) → σ → List (Term × Term) × σ
  | [], s => ([], s)
  | (k, v) :: ps, s =>
    let (k, s) := k.edit e s
    let (v, s) := v.edit e s
    let (ps, s) := editPairs e ps s
    ((k, v) :: ps, s)

/-- The expressions of a query, one after the other. -/
def editBody {σ : Type} (e : Edit σ) : List Expr → σ → List Expr × σ
  | [], s => ([], s)
  | x :: xs, s =>
    let (x, s) := x.edit e s
    let (xs, s) := editBody e xs s
    (x :: xs, s)

/-- An expression with its place chosen, then what it consists of, then its replacements. -/
def Expr.edit {σ : Type} (e : Edit σ) : Expr → σ → Expr × σ
  | ⟨i, g, n, ts, ws, l⟩, s =>
    let (ts, s) := ts.edit e s
    let (ws, s) := editWiths e ws s
    (⟨i, g, n, ts, ws, e.place l⟩, s)

/-- What an expression consists of. -/
def ExprTerms.edit {σ : Type} (e : Edit σ) : ExprTerms → σ → ExprTerms × σ
  | .term t, s => let (t, s) := t.edit e s; (.term t, s)
  | .call ts, s => let (ts, s) := editTerms e ts s; (.call ts, s)
  | .some ts l, s => let (ts, s) := editTerms e ts s; (.some ts (e.place l), s)
  | .every k v d b l, s =>
    let (k, s) := editKey e k s
    let (v, s) := v.edit e s
    let (d, s) := d.edit e s
    let (b, s) := editBody e b s
    (.every k v d b (e.place l), s)

/-- An optional key. -/
def editKey {σ : Type} (e : Edit σ) : Option Term → σ → Option Term × σ
  | none, s => (none, s)
  | some k, s => let (k, s) := k.edit e s; (some k, s)

/-- Several replacements, each target before its value. -/
def editWiths {σ : Type} (e : Edit σ) : List With → σ → List With × σ
  | [], s => ([], s)
  | ⟨t, v, l⟩ :: ws, s =>
    let (t, s) := t.edit e s
    let (v, s) := v.edit e s
    let (ws, s) := editWiths e ws s
    (⟨t, v, e.place l⟩ :: ws, s)

end

namespace Edit

/-- The edit that moves every node to one place. -/
def relocate (l : Location) : Edit Unit where
  enter _ s := s
  place _ := some l
  rename _ name := name

end Edit

/-- A term with every node of it at one place. -/
def Term.relocate (t : Term) (l : Location) : Term := (t.edit (.relocate l) ()).1

/-- A query with every node of it at one place. -/
def Body.relocate (b : Body) (l : Location) : Body := (editBody (.relocate l) b ()).1

end RegoSyntax
