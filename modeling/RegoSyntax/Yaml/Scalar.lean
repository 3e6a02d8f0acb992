/-
# RegoSyntax.Yaml.Scalar — the text of scalars.

A scalar is plain, quoted in one of two ways, or a block, whose lines are kept or folded.  Folding
is one rule for all of them but the kept block: a single break between two lines becomes a space,
and of several breaks all but the first are kept.
-/
import RegoSyntax.Yaml.Cursor

namespace RegoSyntax.Yaml

/-- How a scalar is written. -/
inductive Style where
  | plain
  | singleQuoted
  | doubleQuoted
  | literal
  | folded
deriving DecidableEq, Repr

/-! ## Gaps -/

/-- What stands between two words of a plain or quoted scalar: blanks of a line, or line breaks. -/
structure Gap where
  blanks : List Char := []
  firstBreak : List Char := []
  laterBreaks : List Char := []
  crossed : Bool := false

namespace Gap

/-- What folding leaves of a gap. -/
def folded (g : Gap) : List Char :=
  if g.crossed then
    if g.firstBreak.head? == some '\n' then
      if g.laterBreaks.isEmpty then [' '] else g.laterBreaks
    else g.firstBreak ++ g.laterBreaks
  else g.blanks

/-- Read the blanks and breaks that come next.  Blanks count on the first line only, but with
`indent` given, a tab in the indentation of a further line is a fault. -/
def read (indent : Nat) : (fuel : Nat) → Gap → Cursor → Except Cursor (Gap × Cursor)
  | 0, g, p => .ok (g, p)
  | fuel + 1, g, p =>
    match p.peek with
    | none => .ok (g, p)
    | some c =>
      if isBlank c then
        if g.crossed then
          if c == '\t' && p.column < indent then .error p else read indent fuel g (p.skip 1)
        else read indent fuel { g with blanks := g.blanks ++ [c] } (p.skip 1)
      else if isBreak c then
        let (kept, p) := p.takeBreak
        if g.crossed then read indent fuel { g with laterBreaks := g.laterBreaks ++ kept } p
        else read indent fuel { g with blanks := [], firstBreak := kept, crossed := true } p
      else .ok (g, p)

end Gap

/-! ## Plain scalars -/

/-- The characters that have a meaning of their own within brackets. -/
def isFlowIndicator (c : Char) : Bool :=
  c == ',' || c == '[' || c == ']' || c == '{' || c == '}'

/-- The length of a word of a plain scalar, and whether a colon ends it that may not stand there.
A colon before a blank ends a word, and so do indicators within brackets. -/
def plainWord (inFlow : Bool) : List Char → Nat × Bool
  | [] => (0, false)
  | c :: rest =>
    let next := rest.head?
    if isBlank c || isBreak c then (0, false)
    else if inFlow && c == ':' && next.any (fun d => isFlowIndicator d || d == '?') then (0, true)
    else if (c == ':' && endsWord next) || (inFlow && isFlowIndicator c) then (0, false)
    else
      let (n, stray) := plainWord inFlow rest
      (n + 1, stray)

/-- The rest of a plain scalar: its text, whether line breaks were read behind it, and where it
ends. -/
def plainFrom (inFlow : Bool) (indent : Nat) (start : Mark) :
    (fuel : Nat) → (text : List Char) → Gap → Cursor → Except FormError (List Char × Bool × Cursor)
  | 0, text, g, p => .ok (text, g.crossed, p)
  | fuel + 1, text, g, p =>
    if p.atDocumentIndicator || p.sees '#' then .ok (text, g.crossed, p)
    else
      let (n, stray) := plainWord inFlow p.rest
      if stray then .error ((p.skip n).fault .strayColon .plainScalar start)
      else
        let text := if n == 0 then text else text ++ g.folded ++ p.rest.take n
        let crossed := n == 0 && g.crossed
        let p := p.skip n
        if p.peek.any fun c => isBlank c || isBreak c then
          match Gap.read indent (p.rest.length + 1) {} p with
          | .error p => .error (p.fault .tabInIndent .plainScalar start)
          | .ok (g, p) =>
            if !inFlow && p.column < indent then .ok (text, g.crossed, p)
            else plainFrom inFlow indent start fuel text g p
        else .ok (text, crossed, p)

/-- A plain scalar.  Outside of brackets its further lines are indented by `indent` at least. -/
def plainScalar (inFlow : Bool) (indent : Nat) (p : Cursor) :
    Except FormError (List Char × Bool × Cursor) :=
  plainFrom inFlow indent p.mark (p.rest.length + 1) [] {} p

/-! ## Quoted scalars -/

/-- What an escape of a single letter stands for. -/
def simpleEscape? (c : Char) : Option Char :=
  match c with
  | '0' => some '\x00'
  | 'a' => some '\x07'
  | 'b' => some '\x08'
  | 't' | '\t' => some '\t'
  | 'n' => some '\n'
  | 'v' => some '\x0B'
  | 'f' => some '\x0C'
  | 'r' => some '\r'
  | 'e' => some '\x1B'
  | ' ' => some ' '
  | '"' => some '"'
  | '/' => some '/'
  | '\\' => some '\\'
  | 'N' => some '\u0085'
  | '_' => some '\u00A0'
  | 'L' => some '\u2028'
  | 'P' => some '\u2029'
  | _ => none

/-- How many digits follow the letter of a numeric escape. -/
def escapeDigits? (c : Char) : Option Nat :=
  match c with
  | 'x' => some 2
  | 'u' => some 4
  | 'U' => some 8
  | _ => none

/-- The number that the next `n` characters denote in base sixteen. -/
def hexNumber? : Nat → Nat → List Char → Option Nat
  | 0, value, _ => some value
  | n + 1, value, c :: rest => (hexValue? c).bind fun d => hexNumber? n (value * 16 + d) rest
  | _ + 1, _, [] => none

/-- The character of an escape, whose backslash comes next. -/
def escaped (start : Mark) (p : Cursor) : Except FormError (Char × Cursor) :=
  match p.at? 1 with
  | none => .error (p.fault .unknownEscape .escape start)
  | some c =>
    match simpleEscape? c, escapeDigits? c with
    | some e, _ => .ok (e, p.skip 2)
    | none, none => .error (p.fault .unknownEscape .escape start)
    | none, some n =>
      let p := p.skip 2
      match hexNumber? n 0 p.rest with
      | none => .error (p.fault .missingHexDigit .escape start)
      | some value =>
        if value.isValidChar then .ok (Char.ofNat value, p.skip n)
        else .error (p.fault .badCharacterCode .escape start)

/-- The quote of a style. -/
def quoteOf (single : Bool) : Char := if single then '\'' else '"'

/-- A word of a quoted scalar: its text, and whether an escaped line break ends it. -/
def quotedWord (single : Bool) (start : Mark) :
    (fuel : Nat) → (text : List Char) → Cursor → Except FormError (List Char × Bool × Cursor)
  | 0, text, p => .ok (text, false, p)
  | fuel + 1, text, p =>
    match p.peek with
    | none => .ok (text, false, p)
    | some c =>
      if isBlank c || isBreak c then .ok (text, false, p)
      else if single && c == '\'' && p.at? 1 == some '\'' then
        quotedWord single start fuel (text ++ ['\'']) (p.skip 2)
      else if c == quoteOf single then .ok (text, false, p)
      else if !single && c == '\\' then
        if (p.at? 1).any isBreak then .ok (text, true, (p.skip 1).skipBreak)
        else
          match escaped start p with
          | .error e => .error e
          | .ok (e, p) => quotedWord single start fuel (text ++ [e]) p
      else quotedWord single start fuel (text ++ [c]) (p.skip 1)

/-- The rest of a quoted scalar, and where it ends. -/
def quotedFrom (single : Bool) (start : Mark) :
    (fuel : Nat) → (text : List Char) → Cursor → Except FormError (List Char × Cursor)
  | 0, _, p => .error (p.fault .endInside .quotedScalar start)
  | fuel + 1, text, p =>
    if p.atDocumentIndicator then .error (p.fault .documentInside .quotedScalar start)
    else if p.peek.isNone then .error (p.fault .endInside .quotedScalar start)
    else
      match quotedWord single start (p.rest.length + 1) text p with
      | .error e => .error e
      | .ok (text, crossed, p) =>
        if p.sees (quoteOf single) then .ok (text, p.skip 1)
        else
          match Gap.read 0 (p.rest.length + 1) { crossed } p with
          | .error p => .error (p.fault .endInside .quotedScalar start)
          | .ok (g, p) => quotedFrom single start fuel (text ++ g.folded) p

/-- A quoted scalar, from its opening quote on. -/
def quotedScalar (single : Bool) (p : Cursor) : Except FormError (List Char × Cursor) :=
  quotedFrom single p.mark (p.rest.length + 1) [] (p.skip 1)

/-! ## Block scalars -/

/-- What becomes of the line breaks at the end of a block: all are dropped, one is kept, or all. -/
inductive Chomping where
  | strip
  | clip
  | keep
deriving DecidableEq, Repr

/-- The chomping indicator that comes next, if there is one. -/
def chompingMark (p : Cursor) : Option Chomping :=
  match p.peek with
  | some '+' => some .keep
  | some '-' => some .strip
  | _ => none

/-- The indentation indicator that comes next, if there is one. -/
def indentMark (start : Mark) (p : Cursor) : Except FormError (Option Nat × Cursor) :=
  match p.peek with
  | some c =>
    if c == '0' then .error (p.fault .zeroIndent .blockScalar start)
    else if c.isDigit then .ok (some (c.toNat - '0'.toNat), p.skip 1)
    else .ok (none, p)
  | none => .ok (none, p)

/-- The indicators behind the opening of a block, in either order, each once at most. -/
def blockHeader (start : Mark) (p : Cursor) : Except FormError (Chomping × Option Nat × Cursor) := do
  match chompingMark p with
  | some chomping =>
    let (indent, p) ← indentMark start (p.skip 1)
    return (chomping, indent, p)
  | none =>
    let (indent, p) ← indentMark start p
    match indent, chompingMark p with
    | some _, some chomping => return (chomping, indent, p.skip 1)
    | _, _ => return (.clip, indent, p)

/-- Read empty lines up to the indentation `indent` of the next line.  Where the indentation is not
known, it is the widest of these lines, `widest` so far. -/
def blockBreaks (start : Mark) (indent : Option Nat) :
    (fuel : Nat) → (widest : Nat) → (breaks : List Char) → Cursor →
      Except FormError (Nat × List Char × Cursor)
  | 0, widest, breaks, p => .ok (widest, breaks, p)
  | fuel + 1, widest, breaks, p =>
    let room := match indent with
      | some n => n - p.column
      | none => p.rest.length
    let p := p.skip (min room (p.run (· == ' ')))
    let widest := max widest p.column
    if p.sees '\t' && indent.all (p.column < ·) then
      .error (p.fault .tabForIndent .blockScalar start)
    else if p.peek.any isBreak then
      let (kept, p) := p.takeBreak
      blockBreaks start indent fuel widest (breaks ++ kept) p
    else .ok (widest, breaks, p)

/-- What a folded block keeps of the break between two lines, the empty lines behind it aside. -/
def blockJoin (folds : Bool) (firstBreak laterBreaks : List Char) : List Char :=
  if folds && firstBreak.head? == some '\n' then
    if laterBreaks.isEmpty then [' '] else []
  else firstBreak

/-- The lines of a block: the text up to the last line, the break behind it, and the empty lines
behind that.  Lines that start with a blank are never folded. -/
def blockLines (folds : Bool) (indent : Nat) (start : Mark) :
    (fuel : Nat) → (text firstBreak laterBreaks : List Char) → (afterBlank : Bool) → Cursor →
      Except FormError (List Char × List Char × List Char × Cursor)
  | 0, text, firstBreak, laterBreaks, _, p => .ok (text, firstBreak, laterBreaks, p)
  | fuel + 1, text, firstBreak, laterBreaks, afterBlank, p =>
    if p.column == indent && p.peek.isSome then
      let blank := p.peek.any isBlank
      let joined := blockJoin (folds && !afterBlank && !blank) firstBreak laterBreaks
      let line := p.run (!isBreak ·)
      let text := text ++ joined ++ laterBreaks ++ p.rest.take line
      let (firstBreak, p) := (p.skip line).takeBreak
      match blockBreaks start (some indent) (p.rest.length + 1) 0 [] p with
      | .error e => .error e
      | .ok (_, laterBreaks, p) =>
        blockLines folds indent start fuel text firstBreak laterBreaks blank p
    else .ok (text, firstBreak, laterBreaks, p)

/-- A block scalar, from its opening on.  `outer` is the indentation of the node around it, which
is negative where there is none. -/
def blockScalar (folds : Bool) (outer : Int) (p : Cursor) : Except FormError (List Char × Cursor) := do
  let start := p.mark
  let (chomping, increment, p) ← blockHeader start (p.skip 1)
  let p := p.skipLineEnd
  if !endsLine p.peek then throw (p.fault .missingLineEnd .blockScalar start)
  let p := p.skipBreak
  let given := increment.map fun n => (max outer 0).toNat + n
  let (widest, breaks, p) ← blockBreaks start given (p.rest.length + 1) 0 [] p
  let indent := given.getD (max widest (max (outer + 1).toNat 1))
  let (text, firstBreak, laterBreaks, p) ←
    blockLines folds indent start (p.rest.length + 1) [] [] breaks false p
  return (text ++
    match chomping with
    | .strip => []
    | .clip => firstBreak
    | .keep => firstBreak ++ laterBreaks, p)

end RegoSyntax.Yaml
