/-
# RegoSyntax.Json.Reader — reading JSON text.

A reader consumes text from a `Cursor`, which knows the line and the column (in bytes) it has come
to, and either answers or reports an error with the place it was noticed at.  There are two kinds
of place: the one reached, and the one just behind the next byte, for an error that is about that
byte.

What is expected at a place is decided by the caller, not by the text: a list of strings is read
by `listOf string`, and a value of another kind is an error that names both kinds.  `skipValue`
accepts any value and looks at no more of it than its extent.
-/
import RegoSyntax.Json
import RegoSyntax.Number.Numeral

namespace RegoSyntax.JsonText

/-- A cause for which a text is not the JSON that was asked for. -/
inductive Problem where
  | endInList
  | endInObject
  | endInString
  | endInValue
  | expectedColon
  | expectedCommaOrBracket
  | expectedCommaOrBrace
  | expectedWord
  | expectedValue
  | invalidEscape
  | invalidNumber
  | numberOutOfRange
  | controlCharacter
  | keyNotString
  | loneSurrogate
  | endOfSurrogatePair
  | trailingComma
  | trailingCharacters
  | nestedTooDeep
  | duplicateField (name : String)
  | invalidType (found expected : String)
deriving DecidableEq, Repr

/-- The wording of a problem. -/
def Problem.message : Problem → String
  | endInList => "EOF while parsing a list"
  | endInObject => "EOF while parsing an object"
  | endInString => "EOF while parsing a string"
  | endInValue => "EOF while parsing a value"
  | expectedColon => "expected `:`"
  | expectedCommaOrBracket => "expected `,` or `]`"
  | expectedCommaOrBrace => "expected `,` or `\x7d`"
  | expectedWord => "expected ident"
  | expectedValue => "expected value"
  | invalidEscape => "invalid escape"
  | invalidNumber => "invalid number"
  | numberOutOfRange => "number out of range"
  | controlCharacter => "control character (\\u0000-\\u001F) found while parsing a string"
  | keyNotString => "key must be a string"
  | loneSurrogate => "lone leading surrogate in hex escape"
  | endOfSurrogatePair => "unexpected end of hex escape"
  | trailingComma => "trailing comma"
  | trailingCharacters => "trailing characters"
  | nestedTooDeep => "recursion limit exceeded"
  | duplicateField name => "duplicate field `" ++ name ++ "`"
  | invalidType found expected => "invalid type: " ++ found ++ ", expected " ++ expected

/-- A problem and the place it was noticed at. -/
structure ReadError where
  problem : Problem
  line : Nat
  column : Nat
deriving DecidableEq, Repr

/-- The wording of an error, with its place. -/
def ReadError.message (e : ReadError) : String :=
  s!"{e.problem.message} at line {e.line} column {e.column}"

/-! ## Cursors and readers -/

/-- What is left of a text, the line it starts on, and the bytes before it on that line. -/
structure Cursor where
  rest : List Char
  line : Nat := 1
  column : Nat := 0
deriving DecidableEq, Repr

namespace Cursor

/-- The place behind a character. -/
def after (p : Cursor) (c : Char) (rest : List Char) : Cursor :=
  if c == '\n' then ⟨rest, p.line + 1, 0⟩ else ⟨rest, p.line, p.column + c.utf8Size⟩

/-- Step over one character, if there is one. -/
def advance (p : Cursor) : Cursor :=
  match p.rest with
  | [] => p
  | c :: rest => p.after c rest

/-- Step over `n` characters. -/
def advanceBy : Nat → Cursor → Cursor
  | 0, p => p
  | n + 1, p => advanceBy n p.advance

/-- Step over the characters at the front that satisfy `f`. -/
def skip (f : Char → Bool) (p : Cursor) : Cursor := p.advanceBy (p.rest.takeWhile f).length

/-- Step over blanks. -/
def skipBlanks (p : Cursor) : Cursor :=
  p.skip fun c => c == ' ' || c == '\n' || c == '\t' || c == '\r'

/-- The next character. -/
def peek (p : Cursor) : Option Char := p.rest.head?

/-- A problem at the place reached. -/
def here (p : Cursor) (problem : Problem) : ReadError := ⟨problem, p.line, p.column⟩

/-- A problem with the next byte: its place is behind it. -/
def next (p : Cursor) (problem : Problem) : ReadError :=
  match p.rest with
  | [] => p.here problem
  | '\n' :: _ => ⟨problem, p.line + 1, 0⟩
  | _ => ⟨problem, p.line, p.column + 1⟩

end Cursor

/-- A computation that consumes text and may fail. -/
abbrev Reader (α : Type) := Cursor → Except ReadError (α × Cursor)

/-! ## Strings -/

/-- The value of a hexadecimal digit. -/
def hexValue? (c : Char) : Option Nat :=
  if c.isDigit then some (c.toNat - '0'.toNat)
  else if 'a' ≤ c && c ≤ 'f' then some (c.toNat - 'a'.toNat + 10)
  else if 'A' ≤ c && c ≤ 'F' then some (c.toNat - 'A'.toNat + 10)
  else none

/-- The place `n` bytes further on, if there are as many; it may lie inside a character. -/
def Cursor.advanceBytes : Nat → List Char → Cursor → Option Cursor
  | 0, _, p => some p
  | _ + 1, [], _ => none
  | n + 1, c :: rest, p =>
    if c.utf8Size ≤ n + 1 then advanceBytes (n + 1 - c.utf8Size) rest (p.after c rest)
    else some { p with rest, column := p.column + (n + 1) }

/-- Four hexadecimal digits.  Four bytes are consumed whether they are digits or not. -/
def hexQuad : Reader Nat := fun p =>
  match Cursor.advanceBytes 4 p.rest p with
  | none => .error ((p.advanceBy p.rest.length).here .endInString)
  | some q =>
    match (p.rest.take 4).mapM hexValue? with
    | some [a, b, c, d] => .ok (((a * 16 + b) * 16 + c) * 16 + d, q)
    | _ => .error (q.here .invalidEscape)

/-- A given character, which the second half of a surrogate pair must start with. -/
def pairMark (c : Char) : Reader Unit := fun p =>
  match p.peek with
  | none => .error (p.here .endInString)
  | some d => if d == c then .ok ((), p.advance) else .error (p.next .endOfSurrogatePair)

/-- The character of a `\u` escape, behind its `u`.  Characters outside the basic plane are
written as pairs of surrogates. -/
def unicodeEscape : Reader Char := fun p => do
  let (n, p) ← hexQuad p
  if 0xDC00 ≤ n && n ≤ 0xDFFF then .error (p.here .loneSurrogate)
  else if n < 0xD800 || 0xDBFF < n then .ok (Char.ofNat n, p)
  else
    let ((), p) ← pairMark '\\' p
    let ((), p) ← pairMark 'u' p
    let (m, p) ← hexQuad p
    if m < 0xDC00 || 0xDFFF < m then .error (p.here .loneSurrogate)
    else .ok (Char.ofNat ((n - 0xD800) * 0x400 + (m - 0xDC00) + 0x10000), p)

/-- The character of an escape, behind its backslash. -/
def escape : Reader Char := fun p =>
  match p.peek with
  | none => .error (p.here .endInString)
  | some c =>
    let q := p.advance
    match c with
    | '"' => .ok ('"', q)
    | '\\' => .ok ('\\', q)
    | '/' => .ok ('/', q)
    | 'b' => .ok ('\x08', q)
    | 'f' => .ok ('\x0c', q)
    | 'n' => .ok ('\n', q)
    | 'r' => .ok ('\r', q)
    | 't' => .ok ('\t', q)
    | 'u' => unicodeEscape q
    | _ => .error (p.next .invalidEscape)

/-- The rest of a string, up to its closing quote.  Every step consumes a character, so as many
steps as there are characters suffice. -/
def stringRest : (fuel : Nat) → (read : List Char) → Reader String
  | 0, _, p => .error (p.here .endInString)
  | fuel + 1, read, p =>
    match p.peek with
    | none => .error (p.here .endInString)
    | some '"' => .ok (String.ofList read.reverse, p.advance)
    | some '\\' => do
      let (c, p) ← escape p.advance
      stringRest fuel (c :: read) p
    | some c =>
      if c.toNat < 0x20 then .error (p.advance.here .controlCharacter)
      else stringRest fuel (c :: read) p.advance

/-- A string, behind its opening quote. -/
def stringBody : Reader String := fun p => stringRest (p.rest.length + 1) [] p

/-- The extent of the rest of a string whose text does not matter. -/
def skipStringRest : (fuel : Nat) → Reader Unit
  | 0, p => .error (p.here .endInString)
  | fuel + 1, p =>
    match p.peek with
    | none => .error (p.here .endInString)
    | some '"' => .ok ((), p.advance)
    | some '\\' =>
      let q := p.advance
      match q.peek with
      | none => .error (q.here .endInString)
      | some 'u' => do
        let (_, r) ← hexQuad q.advance
        skipStringRest fuel r
      | some c =>
        if "\"\\/bfnrt".toList.contains c then skipStringRest fuel q.advance
        else .error (q.next .invalidEscape)
    | some c =>
      if c.toNat < 0x20 then .error (p.here .controlCharacter)
      else skipStringRest fuel p.advance

/-- The extent of a string, behind its opening quote. -/
def skipString : Reader Unit := fun p => skipStringRest (p.rest.length + 1) p

/-! ## Numbers -/

/-- The largest integer that is kept as such. -/
def maxUnsigned : Nat := Nat.pow 2 64 - 1

/-- The largest exponent, of either sign, that is applied; a larger one decides the number alone. -/
def largestExponent : Nat := Nat.pow 2 31 - 1

/-- The digits of `s` that still fit below the largest integer when they are put behind `n`: their
value, their number, and the digits that are left over. -/
def fittingDigits (n : Nat) (count : Nat) : List Char → Nat × Nat × Nat
  | [] => (n, count, 0)
  | c :: s =>
    let m := n * 10 + (c.toNat - '0'.toNat)
    if m > maxUnsigned then (n, count, s.length + 1) else fittingDigits m (count + 1) s

/-- Divide by the largest power of ten in use until the exponent is within its reach. -/
def lowerExponent : (fuel : Nat) → Binary64 → Int → Option (Binary64 × Int)
  | 0, x, e => some (x, e)
  | fuel + 1, x, e =>
    if e ≥ -308 || x.isZero then some (x, e)
    else do
      let big ← Binary64.ofDecimal? false 1 308
      lowerExponent fuel (← x.div? big) (e + 308)

/-- The number `significand * 10 ^ e` in two roundings: the significand is rounded, then its
product with (or quotient by) the rounded power of ten. -/
def scaled? (significand : Nat) (e : Int) : Option Binary64 := do
  let x ← Binary64.ofRatio? false significand 1
  if x.isZero then some x
  else if e > 308 then none
  else
    let (x, e) ← lowerExponent 4 x e
    if x.isZero then some x
    else if e ≥ 0 then x.mul? (← Binary64.ofDecimal? false 1 e)
    else x.div? (← Binary64.ofDecimal? false 1 (-e))

/-- A number: an integer if it is written as one and fits, a real number otherwise. -/
inductive Num where
  | integer (n : Int)
  | real (x : Binary64)

/-- The real number `± significand * 10 ^ e`. -/
def realOf (negative : Bool) (significand : Nat) (e : Int) : Reader Num := fun p =>
  match scaled? significand e with
  | none => .error (p.here .numberOutOfRange)
  | some x => .ok (.real (if negative then x.neg else x), p)

/-- The exponent of a number, behind its `e`. -/
def exponent (negative : Bool) (significand : Nat) (start : Int) : Reader Num := fun p =>
  let (down, p) := match p.peek with
    | some '+' => (false, p.advance)
    | some '-' => (true, p.advance)
    | _ => (false, p)
  match p.peek with
  | none => .error (p.here .endInValue)
  | some c =>
    if !c.isDigit then .error (p.next .invalidNumber)
    else
      let digits := p.rest.takeWhile Char.isDigit
      let q := p.advanceBy digits.length
      let size := Numeral.digitsValue digits
      if size > largestExponent then
        if significand != 0 && !down then
          /- noticed at the first digit that is too many -/
          let fitting := (List.range (digits.length + 1)).filter fun k =>
            decide (Numeral.digitsValue (digits.take k) ≤ largestExponent)
          .error ((p.advanceBy (fitting.length)).here .numberOutOfRange)
        else .ok (.real ⟨negative, 0, Binary64.minExponent⟩, q)
      else realOf negative significand (if down then start - size else start + size) q

/-- Whether a letter starts an exponent. -/
def startsExponent (c : Option Char) : Bool := c == some 'e' || c == some 'E'

/-- The fraction of a number, behind its point. -/
def fraction (negative : Bool) (significand : Nat) (start : Int) : Reader Num := fun p =>
  let digits := p.rest.takeWhile Char.isDigit
  let (n, count, _) := fittingDigits significand 0 digits
  let q := p.advanceBy digits.length
  if digits.isEmpty then
    .error (p.next (if p.peek.isSome then .invalidNumber else .endInValue))
  else if startsExponent q.peek then exponent negative n (start - count) q.advance
  else realOf negative n (start - count) q

/-- A number, behind its sign. -/
def number (negative : Bool) : Reader Num := fun p =>
  let digits := p.rest.takeWhile Char.isDigit
  match digits with
  | [] => .error (p.next .invalidNumber)
  | '0' :: _ :: _ => .error (p.advance.next .invalidNumber)
  | _ =>
    let (n, _, left) := fittingDigits 0 0 digits
    let q := p.advanceBy digits.length
    if q.peek == some '.' then fraction negative n left q.advance
    else if startsExponent q.peek then exponent negative n left q.advance
    else if left > 0 then realOf negative n left q
    else if !negative then .ok (.integer n, q)
    else if n == 0 || n > Nat.pow 2 63 then realOf true n 0 q
    else .ok (.integer (-n), q)

/-- The extent of an exponent, behind its `e`. -/
def skipExponent : Reader Unit := fun p =>
  let p := match p.peek with
    | some '+' | some '-' => p.advance
    | _ => p
  match p.peek with
  | some c =>
    if c.isDigit then .ok ((), p.skip Char.isDigit) else .error (p.next .invalidNumber)
  | none => .error (p.here .invalidNumber)

/-- The extent of a number, behind its sign. -/
def skipNumber : Reader Unit := fun p =>
  let digits := p.rest.takeWhile Char.isDigit
  match digits with
  | [] => .error (p.next .invalidNumber)
  | '0' :: _ :: _ => .error (p.advance.next .invalidNumber)
  | _ =>
    let q := p.advanceBy digits.length
    if q.peek == some '.' then
      let q := q.advance
      let r := q.skip Char.isDigit
      if r.rest.length == q.rest.length then .error (q.next .invalidNumber)
      else if startsExponent r.peek then skipExponent r.advance
      else .ok ((), r)
    else if startsExponent q.peek then skipExponent q.advance
    else .ok ((), q)

/-! ## Words -/

/-- The rest of one of the words `null`, `true` and `false`. -/
def word : List Char → Reader Unit
  | [], p => .ok ((), p)
  | c :: cs, p =>
    match p.peek with
    | none => .error (p.here .endInValue)
    | some d => if d == c then word cs p.advance else .error (p.next .expectedWord)

/-! ## Values of any kind -/

/-- What a value that was not expected looks like, for the message that says so. -/
def foundInstead (c : Char) : Reader String := fun p => do
  match c with
  | 'n' => let ((), p) ← word "ull".toList p.advance; .ok ("null", p)
  | 't' => let ((), p) ← word "rue".toList p.advance; .ok ("boolean `true`", p)
  | 'f' => let ((), p) ← word "alse".toList p.advance; .ok ("boolean `false`", p)
  | '"' => let (s, p) ← stringBody p.advance; .ok ("string " ++ Quoted.display s, p)
  | '[' => .ok ("sequence", p)
  | '{' => .ok ("map", p)
  | c =>
    if c == '-' || c.isDigit then
      let (n, p) ← number (c == '-') (if c == '-' then p.advance else p)
      match n with
      | .integer n => .ok (s!"integer `{n}`", p)
      | .real x => .ok ("floating point `" ++ x.render .data ++ "`", p)
    else .error (p.next .expectedValue)

/-- The error for a value of the wrong kind. -/
def wrongType (c : Char) (expected : String) (p : Cursor) : ReadError :=
  match foundInstead c p with
  | .error e => e
  | .ok (found, p) => p.here (.invalidType found expected)

/-- What stands inside an opening bracket. -/
inductive Bracket where
  | list
  | object
deriving DecidableEq

/-- The problem of a text that ends inside a bracket. -/
def Bracket.endProblem : Bracket → Problem
  | list => .endInList
  | object => .endInObject

/-- The problem of a missing separator inside a bracket. -/
def Bracket.separatorProblem : Bracket → Problem
  | list => .expectedCommaOrBracket
  | object => .expectedCommaOrBrace

/-- The character that closes a bracket. -/
def Bracket.close : Bracket → Char
  | list => ']'
  | object => '}'

/-- What may come next while a value is skipped. -/
inductive SkipState where
  /-- a value -/
  | value
  /-- what follows a value, or an opening bracket (`first`) -/
  | follow (first : Bool)
  /-- a key -/
  | key

/-- Skip a value inside the brackets `open`.  Every step consumes a character or passes from one
state to the next, so three steps for each character suffice. -/
def skipFrom : (fuel : Nat) → (brackets : List Bracket) → SkipState → Reader Unit
  | 0, _, _, p => .error (p.here .endInValue)
  | fuel + 1, brackets, state, p =>
    let p := p.skipBlanks
    match state with
    | .value =>
      match p.peek with
      | none => .error (p.next .endInValue)
      | some '[' => skipFrom fuel (.list :: brackets) (.follow true) p.advance
      | some '{' => skipFrom fuel (.object :: brackets) (.follow true) p.advance
      | some c => do
        let ((), p) ← match c with
          | 'n' => word "ull".toList p.advance
          | 't' => word "rue".toList p.advance
          | 'f' => word "alse".toList p.advance
          | '"' => skipString p.advance
          | '-' => skipNumber p.advance
          | c => if c.isDigit then skipNumber p else .error (p.next .expectedValue)
        skipFrom fuel brackets (.follow false) p
    | .follow first =>
      match brackets with
      | [] => .ok ((), p)
      | b :: outer =>
        match p.peek with
        | none => .error (p.next b.endProblem)
        | some c =>
          if c == b.close then skipFrom fuel outer (.follow false) p.advance
          else if first then
            skipFrom fuel brackets (if b == .object then .key else .value) p
          else if c == ',' then
            skipFrom fuel brackets (if b == .object then .key else .value) p.advance
          else .error (p.next b.separatorProblem)
    | .key =>
      match p.peek with
      | none => .error (p.next .endInObject)
      | some '"' => do
        let ((), p) ← skipString p.advance
        let p := p.skipBlanks
        match p.peek with
        | some ':' => skipFrom fuel brackets .value p.advance
        | some _ => .error (p.next .expectedColon)
        | none => .error (p.next .endInObject)
      | some _ => .error (p.next .keyNotString)

/-- Skip a value of any kind. -/
def skipValue : Reader Unit := fun p => do
  /- the blanks behind the value belong to what follows it -/
  skipFrom (3 * p.rest.length + 3) [] .value p

/-! ## Expected kinds -/

/-- A string. -/
def string : Reader String := fun p =>
  let p := p.skipBlanks
  match p.peek with
  | none => .error (p.next .endInValue)
  | some '"' => stringBody p.advance
  | some c => .error (wrongType c "a string" p)

/-- Whether a list goes on, at the place of its next element. -/
def nextElement (first : Bool) : Reader Bool := fun p =>
  let p := p.skipBlanks
  match p.peek with
  | none => .error (p.next .endInList)
  | some ']' => .ok (false, p)
  | some c =>
    if first then .ok (true, p)
    else if c == ',' then
      let p := p.advance.skipBlanks
      match p.peek with
      | some ']' => .error (p.next .trailingComma)
      | some _ => .ok (true, p)
      | none => .error (p.next .endInValue)
    else .error (p.next .expectedCommaOrBracket)

/-- The closing bracket of a list whose elements have all been read. -/
def endList : Reader Unit := fun p =>
  let p := p.skipBlanks
  match p.peek with
  | some ']' => .ok ((), p.advance)
  | some ',' =>
    let p := p.advance.skipBlanks
    .error (p.next (if p.peek == some ']' then .trailingComma else .trailingCharacters))
  | some _ => .error (p.next .trailingCharacters)
  | none => .error (p.next .endInList)

/-- The elements of a list, behind its opening bracket. -/
def elements {α : Type} (element : Reader α) :
    (fuel : Nat) → (first : Bool) → (read : List α) → Reader (List α)
  | 0, _, _, p => .error (p.here .endInList)
  | fuel + 1, first, read, p => do
    let (more, p) ← nextElement first p
    if more then
      let (x, p) ← element p
      elements element fuel false (x :: read) p
    else .ok (read.reverse, p)

/-- A list. -/
def listOf {α : Type} (element : Reader α) : Reader (List α) := fun p =>
  let p := p.skipBlanks
  match p.peek with
  | none => .error (p.next .endInValue)
  | some '[' => do
    let (xs, p) ← elements element (p.rest.length + 1) true [] p.advance
    let ((), p) ← endList p
    .ok (xs, p)
  | some c => .error (wrongType c "a sequence" p)

/-- Whether an object goes on, at the place of its next key. -/
def nextKey (first : Bool) : Reader Bool := fun p =>
  let p := p.skipBlanks
  match p.peek with
  | none => .error (p.next .endInObject)
  | some '}' => .ok (false, p)
  | some c =>
    if first then
      if c == '"' then .ok (true, p) else .error (p.next .keyNotString)
    else if c == ',' then
      let p := p.advance.skipBlanks
      match p.peek with
      | some '"' => .ok (true, p)
      | some '}' => .error (p.next .trailingComma)
      | some _ => .error (p.next .keyNotString)
      | none => .error (p.next .endInValue)
    else .error (p.next .expectedCommaOrBrace)

/-- The colon behind a key. -/
def colon : Reader Unit := fun p =>
  let p := p.skipBlanks
  match p.peek with
  | some ':' => .ok ((), p.advance)
  | some _ => .error (p.next .expectedColon)
  | none => .error (p.next .endInObject)

/-- The end of a text, which only blanks may come before. -/
def endOfText : Reader Unit := fun p =>
  let p := p.skipBlanks
  if p.peek.isSome then .error (p.next .trailingCharacters) else .ok ((), p)

/-! ## Values -/

mutual

/-- A value of any kind, with at most `depth` brackets around each of its parts. -/
def value : (depth : Nat) → Reader Json
  | depth, p =>
    let p := p.skipBlanks
    match p.peek with
    | none => .error (p.next .endInValue)
    | some 'n' => do let ((), p) ← word "ull".toList p.advance; .ok (.null, p)
    | some 't' => do let ((), p) ← word "rue".toList p.advance; .ok (.boolean true, p)
    | some 'f' => do let ((), p) ← word "alse".toList p.advance; .ok (.boolean false, p)
    | some '"' => do let (s, p) ← stringBody p.advance; .ok (.string s, p)
    | some '[' =>
      match depth with
      | 0 => .error (p.next .nestedTooDeep)
      | depth + 1 => do
        let (xs, p) ← elements (value depth) (p.rest.length + 1) true [] p.advance
        let ((), p) ← endList p
        .ok (.array xs, p)
    | some '{' =>
      match depth with
      | 0 => .error (p.next .nestedTooDeep)
      | depth + 1 => do
        let (ms, p) ← members depth (p.rest.length + 1) true [] p.advance
        .ok (.object ms, p.advance)
    | some c =>
      if c == '-' || c.isDigit then do
        let (n, p) ← number (c == '-') (if c == '-' then p.advance else p)
        match n with
        | .integer n => .ok (.integer n, p)
        | .real x => .ok (.real x, p)
      else .error (p.next .expectedValue)
  termination_by depth => (depth, 0)

/-- The members of an object, up to its closing brace. -/
def members : (depth : Nat) → (fuel : Nat) → (first : Bool) → (read : List (String × Json)) →
    Reader (List (String × Json))
  | _, 0, _, _, p => .error (p.here .endInObject)
  | depth, fuel + 1, first, read, p => do
    let (more, p) ← nextKey first p
    if more then
      let (k, p) ← string p
      let ((), p) ← colon p
      let (v, p) ← value depth p
      members depth fuel false (Json.insertMember k v read) p
    else .ok (read, p)
  termination_by depth fuel => (depth, fuel + 1)

end

/-- The string that a text denotes, if it denotes one. -/
def stringOf? (text : String) : Option String :=
  match string ⟨text.toList, 1, 0⟩ with
  | .ok (s, p) =>
    match endOfText p with
    | .ok _ => some s
    | .error _ => none
  | .error _ => none

/-- The value that a text denotes. -/
def parse (text : String) : Except ReadError Json := do
  let (v, p) ← value 127 ⟨text.toList, 1, 0⟩
  let ((), _) ← endOfText p
  return v

end RegoSyntax.JsonText
