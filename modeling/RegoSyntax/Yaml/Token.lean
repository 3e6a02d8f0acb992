/-
# RegoSyntax.Yaml.Token — the tokens of a YAML text.

Besides what is written, tokens tell where block collections start and end, which indentation
decides, and where the keys of mappings start.  A key without a mark of its own is recognised only
by the colon behind it, so a token that might start one is held back until that is settled.

`Token.all` gives the tokens up to the end of the text or up to the first error.  A token counts as
read only when nothing can be put before it any more.
-/
import RegoSyntax.Yaml.Scalar

namespace RegoSyntax.Yaml

/-- What a token is. -/
inductive TokenKind where
  | streamStart
  | streamEnd
  | version (major minor : Nat)
  | tagHandle (handle uri : String)
  | documentStart
  | documentEnd
  | blockSequence
  | blockMapping
  | blockEnd
  | sequenceOpen
  | sequenceClose
  | mappingOpen
  | mappingClose
  | blockEntry
  | flowEntry
  | key
  | value
  | aliasOf (name : String)
  | anchor (name : String)
  | tag (handle suffix : String)
  | scalar (text : String) (style : Style)
deriving DecidableEq, Repr

/-- A token and where it starts and stops. -/
structure Token where
  kind : TokenKind
  start : Mark
  stop : Mark

/-! ## Names, tags and directives -/

/-- The text of the next `n` characters. -/
def Cursor.text (p : Cursor) (n : Nat) : String := String.ofList (p.rest.take n)

/-- An anchor or an alias, from its indicator on. -/
def anchorName (activity : Activity) (p : Cursor) : Except FormError (String × Cursor) :=
  let start := p.mark
  let p := p.skip 1
  let n := p.run isNameChar
  let q := p.skip n
  let ended := endsWord q.peek || q.peek.any fun c => "?:,]\x7d%@`".toList.contains c
  if n == 0 || !ended then .error (q.fault .missingName activity start) else .ok (p.text n, q)

/-- The handle of a tag, from its exclamation mark on.  That of a directive is a single mark or
ends in one. -/
def tagHandle (directive : Bool) (start : Mark) (p : Cursor) : Except FormError (String × Cursor) :=
  if !p.sees '!' then
    .error (p.fault .missingBang (if directive then .directiveHandle else .handle) start)
  else
    let n := 1 + (p.skip 1).run isNameChar
    let q := p.skip n
    if q.sees '!' then .ok (p.text (n + 1), q.skip 1)
    else if directive && n != 1 then .error (q.fault .missingBang .directiveHandleEnd start)
    else .ok (p.text n, q)

/-- The characters of a tag.  Those with a meaning within brackets occur only where the tag has
brackets of its own or is part of a directive. -/
def isTagChar (bracketed : Bool) (c : Char) : Bool :=
  isNameChar c || ";/?:@&=+$.%!~*'()".toList.contains c ||
    (bracketed && (c == ',' || c == '[' || c == ']'))

/-- How many octets a character has whose first octet is this one. -/
def octetCount? (octet : Nat) : Option Nat :=
  if octet < 0x80 then some 1
  else if octet / 0x20 == 6 then some 2
  else if octet / 0x10 == 14 then some 3
  else if octet / 8 == 30 then some 4
  else none

/-- The value of an escaped octet that comes next. -/
def octet? (p : Cursor) : Option Nat :=
  match p.at? 0, (p.at? 1).bind hexValue?, (p.at? 2).bind hexValue? with
  | some '%', some high, some low => some (high * 16 + low)
  | _, _, _ => none

/-- Further escaped octets of a character. -/
def moreOctets (activity : Activity) (start : Mark) :
    Nat → (value : Nat) → Cursor → Except FormError (Nat × Cursor)
  | 0, value, p => .ok (value, p)
  | n + 1, value, p =>
    match octet? p with
    | none => .error (p.fault .missingOctet activity start)
    | some o =>
      if o / 0x40 == 2 then moreOctets activity start n (value * 0x40 + o % 0x40) (p.skip 3)
      else .error (p.fault .badTrailingOctet activity start)

/-- A character written as escaped octets. -/
def octetCharacter (activity : Activity) (start : Mark) (p : Cursor) :
    Except FormError (Char × Cursor) := do
  match octet? p with
  | none => throw (p.fault .missingOctet activity start)
  | some o =>
    match octetCount? o with
    | none => throw (p.fault .badLeadingOctet activity start)
    | some n =>
      let lead := if n == 1 then o else o % Nat.pow 2 (7 - n)
      let (value, p) ← moreOctets activity start (n - 1) lead (p.skip 3)
      return (Char.ofNat value, p)

/-- The characters of a tag that come next. -/
def tagCharacters (bracketed : Bool) (activity : Activity) (start : Mark) :
    (fuel : Nat) → (text : List Char) → Cursor → Except FormError (List Char × Cursor)
  | 0, text, p => .ok (text, p)
  | fuel + 1, text, p =>
    match p.peek with
    | none => .ok (text, p)
    | some c =>
      if c == '%' then
        match octetCharacter activity start p with
        | .error e => .error e
        | .ok (c, p) => tagCharacters bracketed activity start fuel (text ++ [c]) p
      else if isTagChar bracketed c then
        tagCharacters bracketed activity start fuel (text ++ [c]) (p.skip 1)
      else .ok (text, p)

/-- The rest of a tag, behind the exclamation mark and the characters that have been taken for a
handle.  Without them it may not be empty. -/
def tagUri (bracketed directive : Bool) (head : String) (start : Mark) (p : Cursor) :
    Except FormError (String × Cursor) := do
  let activity := if directive then .directiveUri else .tagUri
  let (text, p) ← tagCharacters bracketed activity start (p.rest.length + 1) [] p
  if head.isEmpty && text.isEmpty then throw (p.fault .missingUri activity start)
  return (String.ofList (head.toList.drop 1 ++ text), p)

/-- Whether a handle names a tag directive. -/
def isNamedHandle (handle : String) : Bool := handle.length > 1 && handle.endsWith "!"

/-- The handle and the suffix of a tag.  A single exclamation mark is a suffix without a handle. -/
def tagParts (inFlow : Bool) (p : Cursor) : Except FormError (String × String × Cursor) := do
  let start := p.mark
  let (handle, suffix, p) ←
    if p.at? 1 == some '<' then do
      let (suffix, p) ← tagUri true false "" start (p.skip 2)
      if !p.sees '>' then throw (p.fault .missingAngle .tag start)
      pure ("", suffix, p.skip 1)
    else do
      let (handle, p) ← tagHandle false start p
      if isNamedHandle handle then do
        let (suffix, p) ← tagUri false false "" start p
        pure (handle, suffix, p)
      else do
        let (suffix, p) ← tagUri false false handle start p
        pure (if suffix.isEmpty then ("", "!", p) else ("!", suffix, p))
  if !(inFlow && p.sees ',') && !endsWord p.peek then
    throw (p.fault .missingBlankOrBreak .tag start)
  return (handle, suffix, p)

/-- A part of a version: up to nine digits. -/
def versionNumber (start : Mark) (p : Cursor) : Except FormError (Nat × Cursor) :=
  let n := p.run Char.isDigit
  if n > 9 then .error ((p.skip 9).fault .longVersion .versionDirective start)
  else if n == 0 then .error (p.fault .missingVersion .versionDirective start)
  else .ok ((p.rest.take n).foldl (fun v c => v * 10 + (c.toNat - '0'.toNat)) 0, p.skip n)

/-- What a directive says, behind its name. -/
def directiveValue (name : String) (start : Mark) (p : Cursor) :
    Except FormError (TokenKind × Cursor) := do
  match name with
  | "YAML" =>
    let (major, p) ← versionNumber start (p.skipWhile isBlank)
    if !p.sees '.' then throw (p.fault .missingVersionPoint .versionDirective start)
    let (minor, p) ← versionNumber start (p.skip 1)
    return (.version major minor, p)
  | "TAG" =>
    let (handle, p) ← tagHandle true start (p.skipWhile isBlank)
    if !p.peek.any isBlank then throw (p.fault .missingBlank .tagDirective start)
    let (uri, p) ← tagUri true true "" start (p.skipWhile isBlank)
    if !endsWord p.peek then throw (p.fault .missingBlankOrBreak .tagDirective start)
    return (.tagHandle handle uri, p)
  | _ => throw (p.fault .unknownDirective .directive start)

/-- A directive, which takes up its whole line. -/
def directive (p : Cursor) : Except FormError (Token × Cursor) := do
  let start := p.mark
  let p := p.skip 1
  let n := p.run isNameChar
  let q := p.skip n
  if n == 0 then throw (q.fault .missingDirectiveName .directive start)
  if !endsWord q.peek then throw (q.fault .strayInDirectiveName .directive start)
  let (kind, p) ← directiveValue (p.text n) start q
  let stop := p.mark
  let p := p.skipLineEnd
  if !endsLine p.peek then throw (p.fault .missingLineEnd .directive start)
  return (⟨kind, start, stop⟩, p.skipBreak)

/-! ## Keys and indentation -/

/-- A token that may turn out to start a key: its number, and where it stands.  It is `required` to
where nothing else may stand at its column. -/
structure SimpleKey where
  number : Nat
  mark : Mark
  required : Bool

/-- Where the reading of tokens stands: the tokens that are held back, the number of those that
are not, the columns of the block collections around, and for each pair of brackets around the
token that may start a key. -/
structure TokenState where
  cursor : Cursor
  held : List Token := []
  passed : Nat := 0
  indent : Int := -1
  outerIndents : List Int := []
  key : Option SimpleKey := none
  outerKeys : List (Option SimpleKey) := []
  keyAllowed : Bool := true

namespace TokenState

/-- Whether brackets are open. -/
def inFlow (s : TokenState) : Bool := !s.outerKeys.isEmpty

/-- Hold one more token back. -/
def hold (s : TokenState) (t : Token) : TokenState := { s with held := s.held ++ [t] }

/-- Put a token before the one of a number. -/
def holdBefore (s : TokenState) (number : Nat) (t : Token) : TokenState :=
  { s with held := s.held.insertIdx (number - s.passed) t }

/-- The error of a key that has no colon. -/
def keyError (s : TokenState) (k : SimpleKey) : FormError :=
  s.cursor.fault .missingColon .simpleKey k.mark

/-- Give up the token that may start a key. -/
def dropKey (s : TokenState) : Except FormError TokenState :=
  match s.key with
  | some k => if k.required then .error (s.keyError k) else .ok { s with key := none }
  | none => .ok s

/-- Let the next token start a key, where one may start. -/
def saveKey (s : TokenState) : Except FormError TokenState := do
  if s.keyAllowed then
    let s ← s.dropKey
    let required := !s.inFlow && s.indent == (s.cursor.column : Int)
    return { s with key := some ⟨s.passed + s.held.length, s.cursor.mark, required⟩ }
  else return s

/-- A key is on one line and has at most 1024 characters. -/
def isStale (p : Cursor) (k : SimpleKey) : Bool :=
  k.mark.line < p.mark.line || k.mark.index + 1024 < p.mark.index

/-- Give up a token that can start a key no more. -/
def freshKey (s : TokenState) : Option SimpleKey → Except FormError (Option SimpleKey)
  | some k =>
    if isStale s.cursor k then if k.required then .error (s.keyError k) else .ok none
    else .ok (some k)
  | none => .ok none

/-- Give up all tokens that can start a key no more, the outermost first. -/
def dropStaleKeys (s : TokenState) : Except FormError TokenState := do
  let outer ← s.outerKeys.reverse.mapM s.freshKey
  let key ← s.freshKey s.key
  return { s with key, outerKeys := outer.reverse }

/-- Open a block collection at a column, unless one of it is open there.  Its token goes to the
end, or before the token of a number. -/
def openBlock (s : TokenState) (column : Nat) (kind : TokenKind) (mark : Mark)
    (before : Option Nat) : TokenState :=
  if s.inFlow || s.indent ≥ (column : Int) then s
  else
    let s := { s with outerIndents := s.indent :: s.outerIndents, indent := column }
    match before with
    | some number => s.holdBefore number ⟨kind, mark, mark⟩
    | none => s.hold ⟨kind, mark, mark⟩

/-- Close the block collections that are farther to the right than a column. -/
def closeBlocks (s : TokenState) (column : Int) : TokenState :=
  if s.inFlow then s else go s.outerIndents s
where
  go : List Int → TokenState → TokenState
    | [], s => s
    | outer :: rest, s =>
      if s.indent > column then
        go rest { s.hold ⟨.blockEnd, s.cursor.mark, s.cursor.mark⟩ with
          indent := outer, outerIndents := rest }
      else s

/-! ## Reading one token -/

/-- Step over blanks, comments and line breaks.  A tab is no blank where a key may start outside of
brackets. -/
def skipToToken : (fuel : Nat) → TokenState → TokenState
  | 0, s => s
  | fuel + 1, s =>
    let p := s.cursor
    let p := if p.mark.index == 0 && p.sees '\uFEFF' then p.skip 1 else p
    let tabs := s.inFlow || !s.keyAllowed
    let p := p.skipWhile fun c => c == ' ' || (tabs && c == '\t')
    let p := if p.sees '#' then p.skipWhile (!isBreak ·) else p
    if p.peek.any isBreak then
      skipToToken fuel { s with cursor := p.skipBreak, keyAllowed := s.keyAllowed || !s.inFlow }
    else { s with cursor := p }

/-- Hold back a token of the next `n` characters. -/
def take (s : TokenState) (kind : TokenKind) (n : Nat) : TokenState :=
  let p := s.cursor.skip n
  { s with cursor := p, held := s.held ++ [⟨kind, s.cursor.mark, p.mark⟩] }

/-- The end of the text, which ends its last line too. -/
def takeEnd (s : TokenState) : Except FormError TokenState := do
  let m := s.cursor.mark
  let mark := if m.column == 0 then m else { m with line := m.line + 1, column := 0 }
  let s := { s with cursor := { s.cursor with mark } }
  let s ← (s.closeBlocks (-1)).dropKey
  return { s with keyAllowed := false }.hold ⟨.streamEnd, mark, mark⟩

/-- A directive, which stands outside of all collections. -/
def takeDirective (s : TokenState) : Except FormError TokenState := do
  let s ← (s.closeBlocks (-1)).dropKey
  let (t, cursor) ← directive s.cursor
  return { s with cursor, keyAllowed := false }.hold t

/-- The indicator of the start or the end of a document. -/
def takeDocument (s : TokenState) (kind : TokenKind) : Except FormError TokenState := do
  let s ← (s.closeBlocks (-1)).dropKey
  return { s with keyAllowed := false }.take kind 3

/-- An opening bracket. -/
def takeOpen (s : TokenState) (kind : TokenKind) : Except FormError TokenState := do
  let s ← s.saveKey
  return { s with key := none, outerKeys := s.key :: s.outerKeys, keyAllowed := true }.take kind 1

/-- A closing bracket. -/
def takeClose (s : TokenState) (kind : TokenKind) : Except FormError TokenState := do
  let s ← s.dropKey
  let s := match s.outerKeys with
    | key :: outerKeys => { s with key, outerKeys }
    | [] => s
  return { s with keyAllowed := false }.take kind 1

/-- A comma between brackets. -/
def takeComma (s : TokenState) : Except FormError TokenState := do
  let s ← s.dropKey
  return { s with keyAllowed := true }.take .flowEntry 1

/-- A dash before an entry of a block sequence. -/
def takeDash (s : TokenState) : Except FormError TokenState := do
  let p := s.cursor
  if !s.inFlow && !s.keyAllowed then throw { fault := .entryNotAllowed, mark := p.mark }
  let s ← (s.openBlock p.column .blockSequence p.mark none).dropKey
  return { s with keyAllowed := true }.take .blockEntry 1

/-- A question mark before a key. -/
def takeQuestion (s : TokenState) : Except FormError TokenState := do
  let p := s.cursor
  if !s.inFlow && !s.keyAllowed then throw { fault := .keyNotAllowed, mark := p.mark }
  let s ← (s.openBlock p.column .blockMapping p.mark none).dropKey
  return { s with keyAllowed := !s.inFlow }.take .key 1

/-- A colon before a value.  If a token before it may start a key, it does. -/
def takeColon (s : TokenState) : Except FormError TokenState := do
  let p := s.cursor
  match s.key with
  | some k =>
    let s := s.holdBefore k.number ⟨.key, k.mark, k.mark⟩
    let s := s.openBlock k.mark.column .blockMapping k.mark (some k.number)
    return { s with key := none, keyAllowed := false }.take .value 1
  | none =>
    if !s.inFlow && !s.keyAllowed then throw { fault := .valueNotAllowed, mark := p.mark }
    let s := s.openBlock p.column .blockMapping p.mark none
    return { s with keyAllowed := !s.inFlow }.take .value 1

/-- A token that was read from the cursor on, up to another one. -/
def took (s : TokenState) (kind : TokenKind) (p : Cursor) (keyAllowed : Bool) : TokenState :=
  { s with cursor := p, keyAllowed }.hold ⟨kind, s.cursor.mark, p.mark⟩

/-- An anchor, an alias, a tag, or a plain or quoted scalar: any of them may start a key. -/
def takeWord (s : TokenState) (c : Char) : Except FormError TokenState := do
  let s ← s.saveKey
  match c with
  | '*' =>
    let (name, p) ← anchorName .aliasName s.cursor
    return s.took (.aliasOf name) p false
  | '&' =>
    let (name, p) ← anchorName .anchor s.cursor
    return s.took (.anchor name) p false
  | '!' =>
    let (handle, suffix, p) ← tagParts s.inFlow s.cursor
    return s.took (.tag handle suffix) p false
  | '\'' =>
    let (text, p) ← quotedScalar true s.cursor
    return s.took (.scalar (String.ofList text) .singleQuoted) p false
  | '"' =>
    let (text, p) ← quotedScalar false s.cursor
    return s.took (.scalar (String.ofList text) .doubleQuoted) p false
  | _ =>
    let (text, crossed, p) ← plainScalar s.inFlow (s.indent + 1).toNat s.cursor
    return s.took (.scalar (String.ofList text) .plain) p crossed

/-- A block scalar. -/
def takeBlockScalar (s : TokenState) (style : Style) : Except FormError TokenState := do
  let s ← s.dropKey
  let (text, p) ← blockScalar (style == .folded) s.indent s.cursor
  return s.took (.scalar (String.ofList text) style) p true

/-- The characters with a meaning of their own at the start of a token. -/
def isIndicator (c : Char) : Bool := "-?:,[]\x7b\x7d#&*!|>'\"%@`".toList.contains c

/-- Whether a plain scalar starts with a character, before another one. -/
def startsPlain (inFlow : Bool) (c : Char) (next : Option Char) : Bool :=
  !(isBlank c || isIndicator c) || (c == '-' && !next.any isBlank) ||
    (!inFlow && (c == '?' || c == ':') && !endsWord next)

/-- Whether a character is the first one of an anchor, an alias, a tag or a quoted scalar. -/
def startsWord (c : Char) : Bool := c == '*' || c == '&' || c == '!' || c == '\'' || c == '"'

/-- Read the token that starts at the cursor. -/
def takeToken (s : TokenState) : Except FormError TokenState :=
  let p := s.cursor
  match p.peek with
  | none => s.takeEnd
  | some c =>
    let separate := s.inFlow || endsWord (p.at? 1)
    if p.column == 0 && c == '%' then s.takeDirective
    else if p.seesIndicator '-' then s.takeDocument .documentStart
    else if p.seesIndicator '.' then s.takeDocument .documentEnd
    else if c == '[' then s.takeOpen .sequenceOpen
    else if c == '{' then s.takeOpen .mappingOpen
    else if c == ']' then s.takeClose .sequenceClose
    else if c == '}' then s.takeClose .mappingClose
    else if c == ',' then s.takeComma
    else if c == '-' && endsWord (p.at? 1) then s.takeDash
    else if c == '?' && separate then s.takeQuestion
    else if c == ':' && separate then s.takeColon
    else if c == '|' && !s.inFlow then s.takeBlockScalar .literal
    else if c == '>' && !s.inFlow then s.takeBlockScalar .folded
    else if startsWord c || startsPlain s.inFlow c (p.at? 1) then s.takeWord c
    else .error (p.fault .noTokenStart .token p.mark)

/-- Go on to the next token, and read it. -/
def fetch (s : TokenState) : Except FormError TokenState := do
  let s ← (s.skipToToken (s.cursor.rest.length + 1)).dropStaleKeys
  (s.closeBlocks s.cursor.column).takeToken

/-! ## Reading all tokens -/

/-- The state at the start of a text. -/
def start (text : String) : TokenState :=
  { cursor := .start text, held := [⟨.streamStart, {}, {}⟩] }

/-- Whether a token that is held back may start a key and is the next one to pass. -/
def holdsKey (s : TokenState) : Bool := (s.key :: s.outerKeys).any (·.any (·.number == s.passed))

/-- Let the next token pass, reading on until there is one that may. -/
def pass : (fuel : Nat) → TokenState → Except FormError (Token × TokenState)
  | 0, s => .error (s.cursor.fault .noTokenStart .token s.cursor.mark)
  | fuel + 1, s =>
    match s.held with
    | [] =>
      match s.fetch with
      | .ok s => pass fuel s
      | .error e => .error e
    | t :: held =>
      match s.dropStaleKeys with
      | .error e => .error e
      | .ok s =>
        if s.holdsKey then
          match s.fetch with
          | .ok s => pass fuel s
          | .error e => .error e
        else .ok (t, { s with held, passed := s.passed + 1 })

/-- The tokens up to the end of the text, and the error that comes first if one does. -/
def passAll : (fuel : Nat) → TokenState → List Token × Option FormError
  | 0, _ => ([], none)
  | fuel + 1, s =>
    match s.pass (s.cursor.rest.length + 2) with
    | .error e => ([], some e)
    | .ok (t, s) =>
      if t.kind == .streamEnd then ([t], none)
      else
        let (ts, e) := passAll fuel s
        (t :: ts, e)

end TokenState

/-! ## Texts -/

/-- Whether a character may occur in a text at all. -/
def isAllowed (c : Char) : Bool :=
  let n := c.toNat
  n == 0x09 || n == 0x0A || n == 0x0D || (0x20 ≤ n && n ≤ 0x7E) || n == 0x85 ||
    (0xA0 ≤ n && n ≤ 0xD7FF) || (0xE000 ≤ n && n ≤ 0xFFFD) || 0x10000 ≤ n

/-- The byte offset of the first character of a text that may not occur in it. -/
def forbiddenOffset? (offset : Nat) : List Char → Option Nat
  | [] => none
  | c :: rest => if isAllowed c then forbiddenOffset? (offset + c.utf8Size) rest else some offset

/-- A bound on the number of tokens that a character accounts for: a token of its own, the start and
the end of the block collections around it, and the marks of a key. -/
def tokensPerCharacter : Nat := 8

/-- The tokens of a text, up to its end or to the first error.  A forbidden character is found
before all tokens. -/
def Token.all (text : String) : List Token × Option FormError :=
  match forbiddenOffset? 0 text.toList with
  | some offset => ([], some { fault := .controlCharacter, offset })
  | none => (TokenState.start text).passAll (tokensPerCharacter * (text.length + 2))

end RegoSyntax.Yaml
