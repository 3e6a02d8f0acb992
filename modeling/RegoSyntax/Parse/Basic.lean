/-
# RegoSyntax.Parse.Basic — parsers and what all of them are made of.

A `Parse α` reads an `α` from a state, or fails.  A failure keeps the state: errors that were
reported stay reported, and whoever goes on after a failure decides whether to return to an earlier
place first.  A failure without an error means that something else may stand here; a failure with
an error means that there is nothing to try.

Parsers carry three laws that hold of all of them: answers are added to the journal and never taken
out, every production comes back to the depth it was entered at, and settings matter by the answers
in the journal only.  They are built from the seven parsers of the first section, so no law is proved
anywhere else.
-/
import RegoSyntax.Parse.State

namespace RegoSyntax

/-- A computation on the state of a parser that may fail, keeping the state. -/
structure Parse (α : Type) where
  run : Env → Settings → ParseState → Option α × ParseState
  /-- the answers given go on record, and nothing is struck from it -/
  records : ∀ env o s, ∃ new, (run env o s).2.journal = new ++ s.journal ∧ o.Gives new
  /-- a production that has been entered is left again -/
  levels : ∀ env o s, (run env o s).2.depth = s.depth
  /-- settings that give the answers on record lead the same way -/
  follows : ∀ env o o' s, o'.Gives (run env o s).2.journal → run env o' s = run env o s

namespace Parse

/-! ## Primitive parsers -/

/-- Nothing asked, nothing recorded. -/
theorem records_nothing (o : Settings) (journal : List (Question × Bool)) :
    ∃ new, journal = new ++ journal ∧ o.Gives new :=
  ⟨[], rfl, List.forall_mem_nil _⟩

/-- The parser that reads nothing. -/
@[inline] protected def pure {α : Type} (a : α) : Parse α where
  run _ _ s := (some a, s)
  records _ o s := records_nothing o s.journal
  levels _ _ _ := rfl
  follows _ _ _ _ _ := rfl

/-- Go on with what a parser gave, unless it failed. -/
@[inline] def andThen {α β : Type} (f : α → ParseState → Option β × ParseState) :
    Option α × ParseState → Option β × ParseState
  | (some a, s) => f a s
  | (none, s) => (none, s)

/-- One parser after the other, unless the first one fails. -/
@[inline] protected def bind {α β : Type} (x : Parse α) (f : α → Parse β) : Parse β where
  run env o s := andThen (fun a => (f a).run env o) (x.run env o s)
  records env o s := by
    obtain ⟨new, added, given⟩ := x.records env o s
    rcases h : x.run env o s with ⟨_ | a, t⟩ <;> rw [h] at added
    · exact ⟨new, added, given⟩
    · obtain ⟨newer, addedThen, givenThen⟩ := (f a).records env o t
      refine ⟨newer ++ new, ?_, Settings.gives_append.2 ⟨givenThen, given⟩⟩
      rw [List.append_assoc, ← added]
      exact addedThen
  levels env o s := by
    have first := x.levels env o s
    rcases h : x.run env o s with ⟨_ | a, t⟩ <;> rw [h] at first
    · exact first
    · exact ((f a).levels env o t).trans first
  follows env o o' s given := by
    have first := x.follows env o o' s
    rcases h : x.run env o s with ⟨_ | a, t⟩ <;> rw [h] at first given
    · rw [first given]
      rfl
    · obtain ⟨new, added, -⟩ := (f a).records env o t
      have before : o'.Gives t.journal := (Settings.gives_append.1 (added ▸ given)).2
      rw [first before]
      exact (f a).follows env o o' t given

instance : Monad Parse where
  pure := Parse.pure
  bind := Parse.bind

/-- What can be done with what is known of the source. -/
@[inline] def act {α : Type} (f : Env → Reading → Option α × Reading) : Parse α where
  run env _ s :=
    let (a, r) := f env s.toReading
    (a, { s with toReading := r })
  records _ o s := records_nothing o s.journal
  levels _ _ _ := rfl
  follows _ _ _ _ _ := rfl

/-- Run a parser and go on after its failure, from the state it failed in. -/
@[inline] def attempt {α : Type} (x : Parse α) : Parse (Option α) where
  run env o s :=
    let (a, t) := x.run env o s
    (some a, t)
  records env o s := x.records env o s
  levels env o s := x.levels env o s
  follows env o o' s given := by rw [x.follows env o o' s given]

/-- The number of productions that are under way. -/
@[inline] def depth : Parse Nat where
  run _ _ s := (some s.depth, s)
  records _ o s := records_nothing o s.journal
  levels _ _ _ := rfl
  follows _ _ _ _ _ := rfl

/-- Ask the settings. -/
@[inline] def ask (q : Question) : Parse Bool where
  run _ o s := (some (o.answer q), { s with journal := (q, o.answer q) :: s.journal })
  records _ o s := ⟨[(q, o.answer q)], rfl, by simp [Settings.Gives]⟩
  levels _ _ _ := rfl
  follows _ o _ s given := by rw [given (q, o.answer q) List.mem_cons_self]

/-- Run a parser with one more production under way. -/
@[inline] def deeper {α : Type} (x : Parse α) : Parse α where
  run env o s :=
    let (a, t) := x.run env o { s with depth := s.depth + 1 }
    (a, { t with depth := t.depth - 1 })
  records env o s := x.records env o { s with depth := s.depth + 1 }
  levels env o s := by
    have inside := x.levels env o { s with depth := s.depth + 1 }
    exact (congrArg (· - 1) inside).trans (Nat.add_sub_cancel s.depth 1)
  follows env o o' s given := by rw [x.follows env o o' _ given]

/-! ## Failures -/

/-- The parser that fails. -/
@[inline] def fail {α : Type} : Parse α := act fun _ r => (none, r)

instance {α : Type} : Inhabited (Parse α) := ⟨fail⟩

/-- A value that must be there. -/
@[inline] def ofOption {α : Type} : Option α → Parse α
  | some a => pure a
  | none => fail

/-! ## The state -/

/-- The task. -/
@[inline] def env : Parse Env := act fun env r => (some env, r)

/-- All that is known of the source. -/
@[inline] def reading : Parse Reading := act fun _ r => (some r, r)

/-- Change what is known of the source. -/
@[inline] def modify (f : Reading → Reading) : Parse Unit := act fun _ r => (some (), f r)

/-- The token the parser has come to, with its surroundings. -/
@[inline] def look : Parse Look := act fun _ r => (some r.look, r)

/-- Change what the parser sees. -/
@[inline] def modifyLook (f : Look → Look) : Parse Unit := modify fun r => { r with look := f r.look }

/-- The kind of the current token. -/
@[inline] def token : Parse Token := act fun _ r => (some r.look.token, r)

/-- The place of the current token. -/
@[inline] def location : Parse Location := act fun _ r => (some r.look.location, r)

/-- The offset of the current token. -/
@[inline] def offset : Parse Nat := act fun _ r => (some r.look.offset, r)

/-- The end of the last token, blanks and comments aside. -/
@[inline] def lastStop : Parse Nat := act fun _ r => (some r.look.lastStop, r)

/-- The source text between two offsets. -/
@[inline] def text (start stop : Nat) : Parse String :=
  act fun _ r => (some (r.look.text start stop), r)

/-- A place with the text it covers cut to end at the last token. -/
def upToLastStop (l : Location) : Parse Location := do
  return { l with text := ← text l.offset (← lastStop) }

/-- A term moved to a place, with the text between two offsets. -/
def placed (t : Term) (l : Location) (start stop : Nat) : Parse Term := do
  return t.placed { l with text := ← text start stop }

/-! ## Errors -/

/-- Report a problem at a place.  The hints that are pending go with it. -/
def report (l : Location) (problem : Problem) : Parse Unit := modify fun r =>
  { r with
    failures := r.failures.push ⟨problem, l, r.look.hints⟩
    look := { r.look with hints := [] } }

/-- Report a problem with the current token. -/
def reportHere (problem : Problem) : Parse Unit := do report (← location) problem

/-- Report that the current token does not belong here. -/
def unexpected (note : Note := .none) : Parse Unit := do
  let kind ← token
  if kind == .illegal then reportHere .illegalToken
  else reportHere (.unexpectedToken kind note)

/-- Advice for the next error. -/
def hint (h : Hint) : Parse Unit := modifyLook fun l => { l with hints := l.hints ++ [h] }

/-- Whether no error has been reported. -/
def noFailures : Parse Bool := do return (← reading).failures.isEmpty

/-! ## Reading tokens -/

/-- Take a token from the scanner: it becomes the current one, and its lexical errors are
reported.  A token with an error is illegal. -/
def take : Parse Unit := do
  let env ← env
  let l ← look
  let (scanned, scanner) := l.scanner.scan
  let p := scanned.position
  let location : Location :=
    { file := env.file, row := p.row, col := p.col, offset := p.offset
      text := scanner.text p.offset p.stop, tabs := p.tabs }
  let skippedNewline :=
    l.skippedNewline || (scanned.token == .whitespace && location.text == "\n")
  modifyLook fun l =>
    { l with
      scanner, location, skippedNewline
      token := if scanned.errors.isEmpty then scanned.token else .illegal
      literalStop := scanned.literalStop
      stop := p.stop }
  scanned.errors.forM fun e => report location (.lexical e.cause)

/-- Collect the current token, which is a comment. -/
def collect : Parse Unit := do
  let l ← look
  modify fun r =>
    { r with comments := r.comments.push ⟨String.ofList (l.literal.toList.drop 1), l.location⟩ }

/-- Take tokens until one is neither a comment nor, if blanks are skipped, a blank.  Every token
takes a character, so one more step than there are characters suffices. -/
def takeUpTo (skipBlanks : Bool) : (fuel : Nat) → Parse Unit
  | 0 => pure ()
  | fuel + 1 => do
    take
    match ← token with
    | .whitespace => if skipBlanks then takeUpTo skipBlanks fuel else pure ()
    | .comment => do collect; takeUpTo skipBlanks fuel
    | _ => pure ()

/-- Go on to the next token.  Blanks are not the end of anything. -/
def advance (skipBlanks : Bool) : Parse Unit := do
  modifyLook fun l =>
    if l.token == .whitespace then l
    else { l with lastStop := l.stop, skippedNewline := false }
  takeUpTo skipBlanks ((← look).scanner.cursor.rest.length + 1)

/-- Go on to the next token that is neither a blank nor a comment. -/
def scan : Parse Unit := advance true

/-- Go on to the next token, which may be a blank. -/
def scanBlank : Parse Unit := advance false

/-! ## Returning -/

/-- The place the parser stands at. -/
@[inline] def save : Parse Snapshot := act fun _ r => (some r.save, r)

/-- Return to a place, forgetting the errors and comments met since. -/
@[inline] def restore (p : Snapshot) : Parse Unit := modify (·.restore p)

/-- Run a parser from an earlier place and come back.  Nothing of it is left but its answer: the
errors and comments met since that place are put back, those of the run are forgotten. -/
def probe {α : Type} (start : Snapshot) (x : Parse α) : Parse (Option α) := do
  let here ← reading
  restore start
  let a ← attempt x
  modify fun r =>
    { r with
      look := here.look
      failures := r.failures.take start.failures ++
        here.failures.extract start.failures here.failures.size
      comments := r.comments.take start.comments ++
        here.comments.extract start.comments here.comments.size }
  return a

/-- The kind of the next token, blanks included, without going there. -/
def peekBlank : Parse Token := do
  let here ← save
  scanBlank
  let kind ← token
  restore here
  return kind

/-! ## Nesting -/

/-- Run a production one level deeper.  At the ceiling this is an error. -/
def nested {α : Type} (x : Parse α) : Parse α := do
  if ← ask (.nest (← depth)) then deeper x
  else
    reportHere .tooDeep
    fail

/-! ## Reserved words -/

/-- Run a parser with other words reserved, and nothing remembered of readings under the present
ones.  Its position is kept. -/
def withKeywords {α : Type} (change : Scanner → Scanner) (x : Parse α) : Parse α := do
  let here ← reading
  modify fun r => { r with memo := .empty, look := { r.look with scanner := change r.look.scanner } }
  let a ← attempt x
  modify fun r =>
    { r with
      memo := here.memo
      look := { r.look with
        scanner := { r.look.scanner with keywords := here.look.scanner.keywords } } }
  ofOption a

/-- Run a parser with all future words reserved. -/
def withFutureKeywords {α : Type} (x : Parse α) : Parse α :=
  withKeywords (·.withKeywords .future) x

/-- Run a parser with no future word reserved. -/
def withoutFutureKeywords {α : Type} (x : Parse α) : Parse α :=
  withKeywords (·.withoutKeywords .future) x

/-! ## Names -/

/-- The name of a wildcard. -/
def wildcardName (n : Nat) : String := wildcardMark.toString ++ toString n

/-- A name that no other variable has, for the wildcard at an offset. -/
def freshWildcard (stands : Nat) : Parse String := act fun _ r =>
  (some (wildcardName r.wildcards.size), { r with wildcards := r.wildcards.push stands })

/-- Whether the current token is a keyword that may stand for an identifier in a reference. -/
def isRefKeyword : Parse Bool := do
  let l ← look
  return (← env).allowsInRefs l.scanner.keywords l.token.name

/-- Read the current token as an identifier. -/
def asIdent : Parse Unit := modifyLook fun l => { l with token := .ident }

/-- Whether the current token is an identifier, or a keyword that may stand for one; it is one from
then on. -/
def isIdent : Parse Bool := do
  if (← token) == .ident then return true
  if ← isRefKeyword then
    asIdent
    return true
  return false

/-- Whether a kind of token continues a reference. -/
def continuesRef (kind : Token) : Bool := kind == .dot || kind == .lbrack

/-- Whether a reference starts here with a keyword: one that may stand for an identifier, with a
point or a bracket right behind it.  It is an identifier from then on. -/
def startsRefWithKeyword : Parse Bool := do
  if ← isRefKeyword then
    if continuesRef (← peekBlank) then
      asIdent
      return true
  return false

end Parse

end RegoSyntax
