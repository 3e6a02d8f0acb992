/-
# RegoSyntax.Yaml.Event — the structure of a YAML text.

The tokens of a text are grouped into nodes: an event is a scalar, an alias, or the start or the end
of a collection or of a document.  A `Frame` says what is to come next, and the frames of a text are
a stack: the innermost collection first.  `Reading.step` gives the next event.

Where a node may be left out, an empty plain scalar stands for it.
-/
import RegoSyntax.Yaml.Token

namespace RegoSyntax.Yaml

/-! ## Events -/

/-- What may stand before a node. -/
structure Properties where
  anchor : Option String := none
  tag : Option String := none
deriving DecidableEq, Repr

/-- What an event is. -/
inductive EventKind where
  | documentStart
  | documentEnd
  | streamEnd
  | aliasOf (name : String)
  | scalar (properties : Properties) (text : String) (style : Style)
  | sequenceStart (properties : Properties)
  | sequenceEnd
  | mappingStart (properties : Properties)
  | mappingEnd
deriving DecidableEq, Repr

/-- An event and where it starts. -/
structure Event where
  kind : EventKind
  mark : Mark
deriving DecidableEq, Repr

/-! ## Frames -/

/-- What is to come next.  The frames of collections carry where these start; within brackets, the
first entry has no comma before it. -/
inductive Frame where
  | document (isFirst : Bool)
  | content
  | documentEnd
  | blockNode
  | entries (start : Mark)
  | indentlessEntries
  | blockKey (start : Mark)
  | blockValue (start : Mark)
  | flowEntries (start : Mark) (isFirst : Bool)
  | pairKey
  | pairValue
  | pairEnd
  | flowKey (start : Mark) (isFirst : Bool)
  | flowValue (start : Mark)
  | flowNoValue (start : Mark)
deriving DecidableEq, Repr

/-- Where the grouping stands: the tokens that are left, what is wrong behind them, the frames, and
the tag handles of the document with the prefixes they stand for. -/
structure Reading where
  tokens : List Token
  failure : Option FormError := none
  frames : List Frame := [.document true]
  handles : List (String × String) := []

/-- The kinds of nodes that may come next: any one within brackets, and outside of them also block
collections; behind a key the dashes of a sequence need no indentation. -/
inductive Place where
  | flow
  | block
  | blockOrDashes
deriving DecidableEq, Repr

namespace Reading

/-- The next token. -/
def peek (s : Reading) : Except FormError Token :=
  match s.tokens with
  | t :: _ => .ok t
  | [] => .error (s.failure.getD { fault := .endInside })

/-- Step over the next token. -/
def skip (s : Reading) : Reading := { s with tokens := s.tokens.tail }

/-- Go on with other frames. -/
def goto (s : Reading) (frames : List Frame) : Reading := { s with frames }

/-- An event, and the state behind it. -/
abbrev Step : Type := Except FormError (Event × Reading)

/-- The empty scalar that stands for a node that was left out. -/
def absent (s : Reading) (mark : Mark) (frames : List Frame) : Step :=
  .ok (⟨.scalar {} "" .plain, mark⟩, s.goto frames)

/-- An event at the next token. -/
def emit (s : Reading) (kind : EventKind) (mark : Mark) (frames : List Frame) : Step :=
  .ok (⟨kind, mark⟩, s.goto frames)

/-! ## Documents -/

/-- The tag handles that every document has. -/
def defaultHandles : List (String × String) := [("!", "!"), ("!!", "tag:yaml.org,2002:")]

/-- The prefix that a handle stands for. -/
def prefixOf? (handles : List (String × String)) (handle : String) : Option String :=
  (handles.find? (·.1 == handle)).map (·.2)

/-- Whether texts of a version can be read. -/
def isSupported (major minor : Nat) : Bool := major == 1 && (minor == 1 || minor == 2)

/-- The directives before a document: the state behind them, with the handles they define. -/
def directives : (fuel : Nat) → (hasVersion : Bool) → Reading → Except FormError Reading
  | 0, _, s => .ok s
  | fuel + 1, hasVersion, s =>
    match s.peek with
    | .error e => .error e
    | .ok t =>
      match t.kind with
      | .version major minor =>
        if hasVersion then .error { fault := .repeatedVersion, mark := t.start }
        else if !isSupported major minor then .error { fault := .unsupportedVersion, mark := t.start }
        else directives fuel true s.skip
      | .tagHandle handle uri =>
        if (prefixOf? s.handles handle).isSome then
          .error { fault := .repeatedHandle, mark := t.start }
        else directives fuel hasVersion { s.skip with handles := s.handles ++ [(handle, uri)] }
      | _ => .ok s

/-- Whether a token belongs to the start of a document. -/
def opensDocument : TokenKind → Bool
  | .version .. | .tagHandle .. | .documentStart => true
  | _ => false

/-- Step over the ends of documents. -/
def skipEnds (s : Reading) : Reading :=
  { s with tokens := s.tokens.dropWhile (·.kind == .documentEnd) }

/-- The start of a document, or the end of the text.  The first document needs no mark. -/
def document (isFirst : Bool) (rest : List Frame) (s : Reading) : Step := do
  let s := if isFirst then s else s.skipEnds
  let t ← s.peek
  let next := .documentEnd :: rest
  if t.kind == .streamEnd then s.skip.emit .streamEnd t.start []
  else if isFirst && !opensDocument t.kind then
    emit { s with handles := defaultHandles } .documentStart t.start (.blockNode :: next)
  else do
    let s ← directives (s.tokens.length + 1) false s
    let u ← s.peek
    if u.kind != .documentStart then throw { fault := .missingDocumentStart, mark := u.start }
    let handles := s.handles ++ defaultHandles.filter fun h => (prefixOf? s.handles h.1).isNone
    emit { s.skip with handles } .documentStart t.start (.content :: next)

/-- The end of a document, which may have a mark. -/
def endDocument (rest : List Frame) (s : Reading) : Step := do
  let t ← s.peek
  let s := if t.kind == .documentEnd then s.skip else s
  emit { s with handles := [] } .documentEnd t.start (.document false :: rest)

/-! ## Nodes -/

/-- What has been read before a node: its properties, where they start, and the handle and the
suffix of its tag with their place. -/
structure Header where
  start : Mark
  anchor : Option String := none
  tag : Option (String × String × Mark) := none

/-- The anchor and the tag before a node, each at most once and in either order. -/
def header (s : Reading) (t : Token) : Except FormError (Header × Reading) := do
  let h : Header := { start := t.start }
  match t.kind with
  | .anchor name =>
    let s := s.skip
    let u ← s.peek
    match u.kind with
    | .tag handle suffix =>
      return ({ h with anchor := some name, tag := some (handle, suffix, u.start) }, s.skip)
    | _ => return ({ h with anchor := some name }, s)
  | .tag handle suffix =>
    let h := { h with tag := some (handle, suffix, t.start) }
    let s := s.skip
    let u ← s.peek
    match u.kind with
    | .anchor name => return ({ h with anchor := some name }, s.skip)
    | _ => return (h, s)
  | _ => return (h, s)

/-- The tag of a header, its handle replaced by what it stands for. -/
def Header.resolve (h : Header) (handles : List (String × String)) :
    Except FormError (Option String) :=
  match h.tag with
  | none => .ok none
  | some (handle, suffix, mark) =>
    if handle.isEmpty then .ok (some suffix)
    else
      match prefixOf? handles handle with
      | some p => .ok (some (p ++ suffix))
      | none => .error { fault := .unknownHandle, mark, context := some (.node, h.start) }

/-- A node: an alias, or a scalar or the start of a collection with what may stand before it.  The
tag `!` says of a scalar what is known without it. -/
def node (place : Place) (rest : List Frame) (s : Reading) : Step := do
  let t ← s.peek
  if let .aliasOf name := t.kind then return (⟨.aliasOf name, t.start⟩, s.skip.goto rest)
  let (h, s) ← s.header t
  let u ← s.peek
  let tag ← h.resolve s.handles
  let p : Properties := { anchor := h.anchor, tag }
  let isBlock := place != .flow
  match u.kind, isBlock with
  | .scalar text style, _ =>
    let p := if tag == some "!" then { p with tag := none } else p
    s.skip.emit (.scalar p text style) h.start rest
  | .sequenceOpen, _ =>
    s.skip.emit (.sequenceStart p) h.start (.flowEntries u.start true :: rest)
  | .mappingOpen, _ =>
    s.skip.emit (.mappingStart p) h.start (.flowKey u.start true :: rest)
  | .blockSequence, true => s.skip.emit (.sequenceStart p) h.start (.entries u.start :: rest)
  | .blockMapping, true => s.skip.emit (.mappingStart p) h.start (.blockKey u.start :: rest)
  | kind, _ =>
    if kind == .blockEntry && place == .blockOrDashes then
      s.emit (.sequenceStart p) h.start (.indentlessEntries :: rest)
    else if h.anchor.isSome || tag.isSome then s.emit (.scalar p "" .plain) h.start rest
    else
      let activity := if isBlock then .blockNode else .flowNode
      throw { fault := .missingContent, mark := u.start, context := some (activity, h.start) }

/-- A node, or the empty scalar at a mark if one of these tokens is next. -/
def nodeUnless (stops : List TokenKind) (mark : Mark) (place : Place) (rest : List Frame)
    (s : Reading) : Step := do
  let t ← s.peek
  if stops.contains t.kind then s.absent mark rest else s.node place rest

/-! ## Block collections -/

/-- An entry of a block sequence, or its end. -/
def blockEntries (start : Mark) (rest : List Frame) (s : Reading) : Step := do
  let t ← s.peek
  match t.kind with
  | .blockEntry =>
    s.skip.nodeUnless [.blockEntry, .blockEnd] t.stop .block (.entries start :: rest)
  | .blockEnd => s.skip.emit .sequenceEnd t.start rest
  | _ => throw { fault := .missingEntry, mark := t.start, context := some (.blockSequence, start) }

/-- An entry of a sequence that is not indented, or its end. -/
def dashes (rest : List Frame) (s : Reading) : Step := do
  let t ← s.peek
  if t.kind == .blockEntry then
    s.skip.nodeUnless [.blockEntry, .key, .value, .blockEnd] t.stop .block
      (.indentlessEntries :: rest)
  else s.emit .sequenceEnd t.start rest

/-- The tokens before which a part of a block mapping may be left out. -/
def blockStops : List TokenKind := [.key, .value, .blockEnd]

/-- A key of a block mapping, or its end. -/
def blockKey (start : Mark) (rest : List Frame) (s : Reading) : Step := do
  let t ← s.peek
  match t.kind with
  | .key => s.skip.nodeUnless blockStops t.stop .blockOrDashes (.blockValue start :: rest)
  | .blockEnd => s.skip.emit .mappingEnd t.start rest
  | _ => throw { fault := .missingKey, mark := t.start, context := some (.blockMapping, start) }

/-- A value of a block mapping. -/
def blockValue (start : Mark) (rest : List Frame) (s : Reading) : Step := do
  let t ← s.peek
  let next := .blockKey start :: rest
  if t.kind == .value then s.skip.nodeUnless blockStops t.stop .blockOrDashes next
  else s.absent t.start next

/-! ## Collections within brackets -/

/-- Step over the comma before an entry, unless it is the first or there is none. -/
def comma (isFirst : Bool) (close : TokenKind) (fault : Fault) (activity : Activity) (start : Mark)
    (s : Reading) : Except FormError Reading := do
  let t ← s.peek
  if isFirst || t.kind == close then return s
  if t.kind == .flowEntry then return s.skip
  throw { fault, mark := t.start, context := some (activity, start) }

/-- An entry of a sequence within brackets, or its end.  An entry may be a pair without brackets. -/
def flowEntries (start : Mark) (isFirst : Bool) (rest : List Frame) (s : Reading) : Step := do
  let s ← s.comma isFirst .sequenceClose .openSequence .flowSequence start
  let t ← s.peek
  let next := .flowEntries start false :: rest
  match t.kind with
  | .sequenceClose => s.skip.emit .sequenceEnd t.start rest
  | .key => s.skip.emit (.mappingStart {}) t.start (.pairKey :: next)
  | _ => s.node .flow next

/-- The key of a pair without brackets.  The token that stands where it was left out is skipped. -/
def pairKey (rest : List Frame) (s : Reading) : Step := do
  let t ← s.peek
  let next := .pairValue :: rest
  if [TokenKind.value, .flowEntry, .sequenceClose].contains t.kind then s.skip.absent t.stop next
  else s.node .flow next

/-- The value of a pair without brackets. -/
def pairValue (rest : List Frame) (s : Reading) : Step := do
  let t ← s.peek
  let next := .pairEnd :: rest
  if t.kind == .value then do
    let s := s.skip
    let u ← s.peek
    s.nodeUnless [.flowEntry, .sequenceClose] u.start .flow next
  else s.absent t.start next

/-- The end of a pair without brackets. -/
def endPair (rest : List Frame) (s : Reading) : Step := do
  let t ← s.peek
  s.emit .mappingEnd t.start rest

/-- A key of a mapping within brackets, or its end.  A node that no mark makes a key is one without
a value. -/
def flowKey (start : Mark) (isFirst : Bool) (rest : List Frame) (s : Reading) : Step := do
  let s ← s.comma isFirst .mappingClose .openMapping .flowMapping start
  let t ← s.peek
  match t.kind with
  | .mappingClose => s.skip.emit .mappingEnd t.start rest
  | .key => do
    let s := s.skip
    let u ← s.peek
    s.nodeUnless [.value, .flowEntry, .mappingClose] u.start .flow (.flowValue start :: rest)
  | _ => s.node .flow (.flowNoValue start :: rest)

/-- A value of a mapping within brackets. -/
def flowValue (start : Mark) (rest : List Frame) (s : Reading) : Step := do
  let t ← s.peek
  let next := .flowKey start false :: rest
  if t.kind == .value then do
    let s := s.skip
    let u ← s.peek
    s.nodeUnless [.flowEntry, .mappingClose] u.start .flow next
  else s.absent t.start next

/-- The value of a key that has none. -/
def flowNoValue (start : Mark) (rest : List Frame) (s : Reading) : Step := do
  let t ← s.peek
  s.absent t.start (.flowKey start false :: rest)

/-! ## Reading all events -/

/-- The next event. -/
def step (s : Reading) : Step :=
  match s.frames with
  | [] => s.emit .streamEnd {} []
  | .document isFirst :: rest => s.document isFirst rest
  | .content :: rest => do
    let t ← s.peek
    if opensDocument t.kind || t.kind == .documentEnd || t.kind == .streamEnd then
      s.absent t.start rest
    else s.node .block rest
  | .documentEnd :: rest => s.endDocument rest
  | .blockNode :: rest => s.node .block rest
  | .entries start :: rest => s.blockEntries start rest
  | .indentlessEntries :: rest => s.dashes rest
  | .blockKey start :: rest => s.blockKey start rest
  | .blockValue start :: rest => s.blockValue start rest
  | .flowEntries start isFirst :: rest => s.flowEntries start isFirst rest
  | .pairKey :: rest => s.pairKey rest
  | .pairValue :: rest => s.pairValue rest
  | .pairEnd :: rest => s.endPair rest
  | .flowKey start isFirst :: rest => s.flowKey start isFirst rest
  | .flowValue start :: rest => s.flowValue start rest
  | .flowNoValue start :: rest => s.flowNoValue start rest

/-- The events up to the end of the text, and the error that comes first if one does. -/
def stepAll : (fuel : Nat) → Reading → List Event × Option FormError
  | 0, _ => ([], none)
  | fuel + 1, s =>
    match s.step with
    | .error e => ([], some e)
    | .ok (e, s) =>
      if e.kind == .streamEnd then ([e], none)
      else
        let (es, failure) := stepAll fuel s
        (e :: es, failure)

end Reading

/-- A bound on the number of steps in a row that leave the same token to come. -/
def stepsPerToken : Nat := 4

/-- The events of a text, up to its end or to the first error. -/
def Event.all (text : String) : List Event × Option FormError :=
  let (tokens, failure) := Token.all text
  let s : Reading := { tokens := tokens.dropWhile (·.kind == .streamStart), failure }
  s.stepAll (stepsPerToken * (tokens.length + 2))

end RegoSyntax.Yaml
