/-
# RegoSyntax.Yaml.Node — the tree of a YAML document.

A `Node` is a scalar, a collection of nodes, or an alias of another node.  Where the text has an
error, the tree ends: a `cut` stands for what would have come, in each collection that is still
open.  So a reader of the tree meets the error of a text where it would have met it in the text.

An alias names its node by a number.  The numbers count the names that are known, so an anchor that
is given again can get the number of another one; the last node of a number is the one that counts.
-/
import RegoSyntax.Yaml.Event

namespace RegoSyntax.Yaml

/-! ## Nodes -/

/-- A node: where it starts, its number if it has an anchor, and what it is. -/
inductive Node where
  | cut
  | void (mark : Mark)
  | aliasOf (mark : Mark) (number : Nat)
  | scalar (mark : Mark) (number : Option Nat) (tag : Option String) (text : String) (style : Style)
  | sequence (mark : Mark) (number : Option Nat) (tag : Option String) (items : List Node)
  | mapping (mark : Mark) (number : Option Nat) (tag : Option String) (entries : List (Node × Node))

instance : Inhabited Node := ⟨.cut⟩

namespace Node

/-- Where a node starts. -/
def mark : Node → Mark
  | cut => {}
  | void m | aliasOf m _ | scalar m _ _ _ _ | sequence m _ _ _ | mapping m _ _ _ => m

/-- A node under its number, in front of others. -/
def numbered (n : Node) : Option Nat → List (Nat × Node) → List (Nat × Node)
  | some number, rest => (number, n) :: rest
  | none, rest => rest

mutual

/-- The nodes with an anchor, in the order of their starts. -/
def anchored : Node → List (Nat × Node)
  | cut | void _ | aliasOf _ _ => []
  | scalar m number tag text style => (scalar m number tag text style).numbered number []
  | sequence m number tag items =>
    (sequence m number tag items).numbered number (anchoredItems items)
  | mapping m number tag entries =>
    (mapping m number tag entries).numbered number (anchoredEntries entries)

/-- The nodes with an anchor among the items of a sequence. -/
def anchoredItems : List Node → List (Nat × Node)
  | [] => []
  | n :: ns => n.anchored ++ anchoredItems ns

/-- The nodes with an anchor among the entries of a mapping. -/
def anchoredEntries : List (Node × Node) → List (Nat × Node)
  | [] => []
  | (k, v) :: rest => k.anchored ++ v.anchored ++ anchoredEntries rest

end

mutual

/-- Whether the text of a node has no error. -/
def isWhole : Node → Bool
  | cut => false
  | void _ | aliasOf _ _ | scalar _ _ _ _ _ => true
  | sequence _ _ _ items => areWhole items
  | mapping _ _ _ entries => entriesAreWhole entries

/-- Whether the texts of the items of a sequence have no errors. -/
def areWhole : List Node → Bool
  | [] => true
  | n :: ns => n.isWhole && areWhole ns

/-- Whether the texts of the entries of a mapping have no errors. -/
def entriesAreWhole : List (Node × Node) → Bool
  | [] => true
  | (k, v) :: rest => k.isWhole && v.isWhole && entriesAreWhole rest

end

/-- The keys and values of a mapping.  A key at the end has no value yet. -/
def pairs : List Node → List (Node × Node)
  | [] => []
  | [k] => [(k, cut)]
  | k :: v :: rest => (k, v) :: pairs rest

end Node

/-! ## Documents -/

/-- What ends a document before its end: an error of the text, or an alias of an unknown node. -/
inductive Breakage where
  | form (e : FormError)
  | unknownAnchor (mark : Mark)
deriving DecidableEq, Repr

/-- The first document of a text: its node, the number of its events, what ends it too early, and
whether the text goes on behind it. -/
structure Document where
  root : Node
  eventCount : Nat
  breakage : Option Breakage
  hasMore : Bool

/-- A collection whose end is still to come; its nodes are in reverse. -/
structure OpenNode where
  mark : Mark
  number : Option Nat
  tag : Option String
  isMapping : Bool
  nodes : List Node := []

namespace OpenNode

/-- The node of a collection that ends. -/
def close (o : OpenNode) : Node :=
  if o.isMapping then .mapping o.mark o.number o.tag (Node.pairs o.nodes.reverse)
  else .sequence o.mark o.number o.tag o.nodes.reverse

/-- A collection with one more node. -/
def add (o : OpenNode) (n : Node) : OpenNode := { o with nodes := n :: o.nodes }

end OpenNode

/-- A document that is being built: the collections that are open, the innermost first, the node
that is complete, the names that are known with their numbers, and the number of events. -/
structure Building where
  opened : List OpenNode := []
  root : Option Node := none
  names : List (String × Nat) := []
  eventCount : Nat := 0

namespace Building

/-- Put a complete node where it belongs. -/
def place (b : Building) (n : Node) : Building :=
  match b.opened with
  | o :: rest => { b with opened := o.add n :: rest }
  | [] => { b with root := some n }

/-- The number of a name. -/
def numberOf? (b : Building) (name : String) : Option Nat :=
  (b.names.find? (·.1 == name)).map (·.2)

/-- Give a name the number that is next. -/
def define (b : Building) : Option String → Option Nat × Building
  | none => (none, b)
  | some name =>
    let number := b.names.length
    (some number, { b with names := (name, number) :: b.names.filter (·.1 != name) })

/-- Start a collection. -/
def start (b : Building) (p : Properties) (mark : Mark) (isMapping : Bool) : Building :=
  let (number, b) := b.define p.anchor
  { b with opened := { mark, number, tag := p.tag, isMapping } :: b.opened }

/-- End the innermost collection. -/
def finish (b : Building) : Building :=
  match b.opened with
  | o :: rest => { b with opened := rest }.place o.close
  | [] => b

/-- The collections around a cut, closed. -/
def cutShort : List OpenNode → Node → Node
  | [], n => n
  | o :: rest, n => cutShort rest (o.add n).close

/-- The document of what has been built. -/
def document (b : Building) (breakage : Option Breakage) (hasMore : Bool) : Document :=
  let root := match b.root with
    | some n => n
    | none => cutShort b.opened .cut
  { root, eventCount := b.eventCount, breakage, hasMore }

/-- One more event of a document. -/
def counted (b : Building) : Building := { b with eventCount := b.eventCount + 1 }

/-- Build the first document of a sequence of events, behind which an error may stand. -/
def run (failure : Option FormError) : List Event → Building → Document
  | [], b => b.document (failure.map .form) false
  | e :: rest, b =>
    match e.kind with
    | .documentStart => run failure rest b
    | .documentEnd => b.document none (rest.head?.map (·.kind) != some .streamEnd)
    | .streamEnd => (b.counted.place (.void e.mark)).document none false
    | .aliasOf name =>
      match b.numberOf? name with
      | some number => run failure rest (b.counted.place (.aliasOf e.mark number))
      | none => b.document (some (.unknownAnchor e.mark)) false
    | .scalar p text style =>
      let (number, b) := b.counted.define p.anchor
      run failure rest (b.place (.scalar e.mark number p.tag text style))
    | .sequenceStart p => run failure rest (b.counted.start p e.mark false)
    | .mappingStart p => run failure rest (b.counted.start p e.mark true)
    | .sequenceEnd | .mappingEnd => run failure rest b.counted.finish

end Building

namespace Document

/-- The first document of a text. -/
def ofText (text : String) : Document :=
  let (events, failure) := Event.all text
  Building.run failure events {}

/-- The node that an alias stands for. -/
def target? (d : Document) (number : Nat) : Option Node :=
  (d.root.anchored.reverse.find? (·.1 == number)).map (·.2)

end Document

end RegoSyntax.Yaml
