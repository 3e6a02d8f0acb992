/-
# RegoSyntax.Parse.State — what a parser knows while it reads.

The parser backtracks freely, so its state is made to be kept and taken up again.  `Look` is the
part that a return takes back: the scanner and the token it has come to.  Errors and comments only
grow between a `Snapshot` and a return to it, so a snapshot remembers how many there were.  The
wildcards and the depth are never taken back: a name once drawn is not drawn again.

`Memo` remembers what reading a primary term at an offset gave, so that a second reading after a
return needs not look at the text again.

Two things may be chosen about a parse that are no part of the language: how deep productions may
nest, and which remembered readings are taken up again.  A parser does not see these `Settings`.
It asks a `Question` where it depends on them, and the journal keeps all questions with the answers
given, those of readings given up since included.
-/
import RegoSyntax.Diagnostic
import RegoSyntax.Options
import RegoSyntax.Scanner
import RegoSyntax.Statement
import RegoSyntax.Parse.Problem

namespace RegoSyntax

/-- A parse error before it is shown: the cause, the place, and the advice that goes with it. -/
structure Failure where
  problem : Problem
  location : Location
  hints : List Hint

/-- What a parser knows of its task. -/
structure Env where
  file : String
  version : Version
  capabilities : Capabilities
  suggestImports : Bool

namespace Env

/-- Whether a word may stand for an identifier in a reference, if it is a keyword. -/
def allowsInRefs (env : Env) (keywords : KeywordTable) (word : String) : Bool :=
  env.capabilities.hasFeature Capabilities.keywordsInRefs &&
    (env.version.reserves word || keywords.contains word)

end Env

/-- The token a parser has come to, and what it has to know about the way there. -/
structure Look where
  scanner : Scanner
  token : Token
  location : Location
  /-- the end of the literal text of the token, which starts where the token does -/
  literalStop : Nat
  /-- the end of the token -/
  stop : Nat
  /-- the end of the token before it, blanks and comments aside -/
  lastStop : Nat
  /-- a line break was skipped since then -/
  skippedNewline : Bool
  hints : List Hint

namespace Look

/-- Before the first token. -/
def start (scanner : Scanner) (file : String) : Look :=
  { scanner, token := .illegal, location := { file }, literalStop := 0, stop := 0, lastStop := 0,
    skippedNewline := false, hints := [] }

/-- The offset of the token. -/
def offset (l : Look) : Nat := l.location.offset

/-- The literal text of the token. -/
def literal (l : Look) : String := l.scanner.text l.offset l.literalStop

/-- The source text between two offsets. -/
def text (l : Look) (start stop : Nat) : String := l.scanner.text start stop

end Look

/-! ## Remembered terms -/

/-- What reading a primary term gave: the term if there was one, where the parser stood before and
afterwards, and the errors and comments met on the way.  `clean` says that no error stood before. -/
structure MemoEntry where
  before : Look
  clean : Bool
  term : Option Term
  after : Look
  failures : Array Failure
  comments : Array Comment

/-- The offset of the term. -/
def MemoEntry.offset (e : MemoEntry) : Nat := e.before.offset

/-- Remembered terms, by strictly falling offset. -/
structure Memo where
  entries : List MemoEntry := []

namespace Memo

/-- Nothing is remembered. -/
def empty : Memo := {}

/-- The entry for a term at an offset.  The search ends at the first smaller offset. -/
def lookup (m : Memo) (offset : Nat) : Option MemoEntry :=
  (m.entries.takeWhile (offset ≤ ·.offset)).find? (·.offset == offset)

/-- Remember a term.  Entries at its offset and behind it are dropped: they are from a reading that
has been given up. -/
def push (m : Memo) (e : MemoEntry) : Memo :=
  ⟨e :: m.entries.dropWhile (e.offset ≤ ·.offset)⟩

end Memo

/-! ## Settings -/

/-- A remembered reading that is found again, and where: the token that the parser has come to, and
whether no error stands there. -/
structure Recall where
  entry : MemoEntry
  look : Look
  clean : Bool

/-- What a parser may depend on beside its task and its state. -/
inductive Question where
  /-- may one more production be under way, beside this many? -/
  | nest (depth : Nat)
  /-- is this reading taken up again? -/
  | recall (r : Recall)

/-- What is chosen about a parse. -/
structure Settings where
  maxDepth : Nat
  recalls : Recall → Bool

namespace Settings

/-- The answer to a question. -/
def answer (o : Settings) : Question → Bool
  | .nest depth => (DepthLimit.enter? ⟨depth, o.maxDepth⟩).isSome
  | .recall r => o.recalls r

/-- Settings give the answers of a journal. -/
def Gives (o : Settings) (journal : List (Question × Bool)) : Prop :=
  ∀ e ∈ journal, o.answer e.1 = e.2

theorem gives_append {o : Settings} {new old : List (Question × Bool)} :
    o.Gives (new ++ old) ↔ o.Gives new ∧ o.Gives old :=
  List.forall_mem_append

end Settings

/-! ## States -/

/-- What is known of a source so far.  For every wildcard there is the offset at which it stands;
those that replace others stand where the part of the rule starts that they are for. -/
structure Reading where
  look : Look
  failures : Array Failure
  comments : Array Comment
  memo : Memo
  wildcards : Array Nat

/-- Everything that changes during a parse: `depth` productions are under way, and the `journal` has
the questions asked and the answers given, latest first. -/
structure ParseState extends Reading where
  depth : Nat
  journal : List (Question × Bool)

namespace ParseState

/-- The state before the first token. -/
def start (source file : String) : ParseState :=
  { look := .start (.new source) file, failures := #[], comments := #[], memo := .empty,
    wildcards := #[], depth := 0, journal := [] }

end ParseState

/-- A place to return to. -/
structure Snapshot where
  look : Look
  failures : Nat
  comments : Nat

namespace Reading

/-- The place a parser stands at. -/
def save (r : Reading) : Snapshot := ⟨r.look, r.failures.size, r.comments.size⟩

/-- Return to a place, forgetting the errors and comments met since. -/
def restore (r : Reading) (p : Snapshot) : Reading :=
  { r with
    look := p.look
    failures := r.failures.take p.failures
    comments := r.comments.take p.comments }

end Reading

end RegoSyntax
