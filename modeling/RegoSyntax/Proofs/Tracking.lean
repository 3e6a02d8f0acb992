/-
# RegoSyntax.Proofs.Tracking — what a parser leaves behind, with errors or without.

Errors do not end a run at once, and what is read after one counts like what was read before.  So what is
said here is said of every run: the parser rests at a token and sees its place, the last token ends where
one does, errors and comments stand at tokens, and a term that is remembered is as good as one that is
read (`Survey.Sound`).

`Survey.Tracks` is the judgement on a parser: what is so of the reading that it leads to, whether it fails
or not, and what is so of its result.  The rules for it follow the way parsers are put together.
-/
import RegoSyntax.Proofs.Placement

namespace RegoSyntax

open Parse

namespace Survey

variable {m : Survey} {c d : Cursor} {l : Look} {r s t u v w : Reading}

/-! ## Positions -/

/-- An offset is the end of a token. -/
def Ended (m : Survey) (n : Nat) : Prop := n = 0 ∨ ∃ e : Cursor, e.Proper m.source ∧ e.skip.offset = n

/-- A parser has come to the token at a cursor. -/
structure Rests (m : Survey) (c : Cursor) (l : Look) : Prop where
  at' : l.At m.source c
  solid : c.lexeme.kind ≠ .comment
  place : l.location = c.place m.source m.env.file
  ended : m.Ended l.lastStop

namespace Rests

/-- A parser rests at one token. -/
theorem unique (h : m.Rests c l) (h' : m.Rests d l) : c = d := h.at'.unique h'.at'

/-- Advice does not move a parser. -/
theorem hints (h : m.Rests c l) (hints : List Hint) : m.Rests c { l with hints } :=
  ⟨{ h.at' with }, h.solid, h.place, h.ended⟩

/-- Words that are reserved do not move a parser. -/
theorem keywords (h : m.Rests c l) {table : KeywordTable} (known : table.Known) :
    m.Rests c { l with scanner := { l.scanner with keywords := table } } :=
  ⟨{ h.at' with known }, h.solid, h.place, h.ended⟩

/-- A plain kind is seen where it stands. -/
theorem kind_iff (h : m.Rests c l) (p : Token) (plain : p.isPlain = true) :
    l.token = p ↔ c.lexeme.kind = p := h.at'.shows.plain_iff plain

/-- There is something at a token that is not the end. -/
theorem filled (h : m.Rests c l) (more : l.token ≠ .eof) : c.rest ≠ [] := fun none =>
  more ((h.kind_iff .eof rfl).2 (Lexeme.next_kind_eof.2 none))

/-- A token that is no blank and not the end is proper. -/
theorem proper (h : m.Rests c l) (more : l.token ≠ .eof) (major : c.lexeme.kind ≠ .whitespace) :
    c.Proper m.source := ⟨h.at'.starts, ⟨major, h.solid⟩, h.filled more⟩

/-- A word is a token of its own. -/
theorem proper_of_word (h : m.Rests c l)
    (word : l.token = .ident ∨ l.token.isKeyword ∨ l.token.isFutureKeyword) : c.Proper m.source := by
  refine h.proper (fun ended => ?_) (by rw [h.at'.kind_of_word word]; decide)
  rw [ended] at word
  rcases word with word | word | word <;> cases word

/-- The place that is seen is that of a token. -/
theorem located (h : m.Rests c l) : m.Located l.location :=
  ⟨c, _, h.at'.starts, h.place⟩

/-- The place that is seen is anchored at its token. -/
theorem anchored (h : m.Rests c l) : m.Anchored l.location := h.place ▸ anchored_token h.at'.starts

/-- The place of a proper token spans it. -/
theorem spanned (h : m.Rests c l) (proper : c.Proper m.source) : m.Spanned l.location :=
  h.place ▸ spanned_token proper

/-- A text may end before the parenthesis of a call. -/
theorem bounds_paren (h : m.Rests c l) (paren : l.token = .lparen) : m.Bounds l.offset :=
  ⟨c, h.at'.starts, .inr ⟨(h.kind_iff .lparen rfl).1 paren, h.at'.offset.symm⟩⟩

/-- A text may end with the current token. -/
theorem bounds_stop (h : m.Rests c l) : m.Bounds l.stop := ⟨c, h.at'.starts, .inl h.at'.stop.symm⟩

/-- A text may end with the last token, of which there is one behind any token that was passed. -/
theorem bounds_lastStop (h : m.Rests d l) (proper : c.Proper m.source) (lt : c.offset < l.offset) :
    m.Bounds l.lastStop := by
  rcases h.ended with none | ⟨e, ends, stop⟩
  · have behind := h.at'.last.behind c proper.starts (h.at'.offset ▸ lt) proper.major
    have size := Cursor.offset_lt_skip proper.filled
    omega
  · exact ⟨e, ends.starts, .inl stop⟩

/-- The text between two offsets is that of the source. -/
theorem text (h : m.Rests c l) (start stop : Nat) : l.text start stop = textBetween m.source start stop := by
  rw [Look.text, Scanner.text, h.at'.text]

/-- What is read from a token on covers a stretch of tokens. -/
theorem spanned_up (h : m.Rests d l) (proper : c.Proper m.source) (lt : c.offset < l.offset) :
    m.Spanned (m.spot c (l.text c.offset l.lastStop)) := by
  rw [h.at'.offset] at lt
  have behind := h.at'.last.behind c proper.starts lt proper.major
  have size := Cursor.offset_lt_skip proper.filled
  rcases h.ended with none | ⟨e, ends, stop⟩
  · omega
  · have le : c.offset ≤ e.offset := Nat.le_of_not_lt fun before => by
      have := ends.starts.skip_le proper.starts before
      omega
    exact ⟨c, e, proper, ends, le, by rw [h.text, stop]⟩

end Rests

/-! ## Terms that were read -/

/-- Where a term stands that was read from the token at a cursor up to an offset: at this token, or behind
parentheses that open there. -/
structure Root (m : Survey) (c : Cursor) (place stop : Nat) : Prop where
  opened : m.Opened c.offset place
  ahead : place < stop
  proper : c.Proper m.source

namespace Root

variable {place stop stop' : Nat}

theorem mono (h : m.Root c place stop) (le : stop ≤ stop') : m.Root c place stop' :=
  ⟨h.opened, h.ahead.trans_le le, h.proper⟩

/-- A term that stands at the token it was read from. -/
theorem here (proper : c.Proper m.source) (same : place = c.offset) (lt : c.offset < stop) :
    m.Root c place stop := ⟨same ▸ .refl m place, same ▸ lt, proper⟩

theorem lt (h : m.Root c place stop) : c.offset < stop := h.opened.le.trans_lt h.ahead

/-- The token that a term was read from is a parenthesis, if the term does not stand there. -/
theorem paren (h : m.Root c place stop) (other : c.offset ≠ place) : c.lexeme.kind = .lparen :=
  h.opened.only c h.proper.starts (Nat.le_refl _) (Nat.lt_of_le_of_ne h.opened.le other) h.proper.major

end Root

/-- A term that was read from the token at a cursor up to an offset. -/
structure Read (m : Survey) (drawn : Array Nat) (c : Cursor) (stop : Nat) (t : Term) : Prop where
  spans : m.Spans drawn c.offset stop t.walk
  root : m.Root c t.place.offset stop

namespace Read

variable {W W' : Array Nat} {n n' : Nat} {a : Term}

theorem mono (h : m.Read W c n a) (grows : Grows W W') (le : n ≤ n') : m.Read W' c n' a :=
  ⟨h.spans.mono grows (Nat.le_refl _) le, h.root.mono le⟩

theorem anchored (h : m.Read W c n a) : m.Anchored a.place := by
  obtain ⟨l, located, anchored⟩ := h.spans.anchored
  rwa [Term.place, located]

/-- The place that a term was given. -/
theorem location (h : m.Read W c n a) : a.location = some a.place := by
  obtain ⟨l, located, -⟩ := h.spans.anchored
  rw [Term.place, located]
  rfl

end Read

/-! ## Readings -/

/-- A reading that is remembered, from a token to another one. -/
structure Remembers (m : Survey) (drawn : Array Nat) (e : MemoEntry) (c d : Cursor) : Prop where
  starts : c.Starts m.source
  before : e.offset = c.offset
  after : m.Rests d e.after
  ahead : c.offset ≤ d.offset
  failures : ∀ f ∈ e.failures, m.Located f.location
  comments : ∀ x ∈ e.comments, m.Located x.location
  term : ∀ a ∈ e.term, m.Read drawn c d.offset a

theorem Remembers.grow {W W' : Array Nat} {e : MemoEntry} (h : m.Remembers W e c d) (grows : Grows W W') :
    m.Remembers W' e c d :=
  ⟨h.starts, h.before, h.after, h.ahead, h.failures, h.comments, fun a ha =>
    (h.term a ha).mono grows (Nat.le_refl _)⟩

/-- All errors and comments of a reading stand at tokens. -/
structure Marked (m : Survey) (r : Reading) : Prop where
  failures : ∀ f ∈ r.failures, m.Located f.location
  comments : ∀ x ∈ r.comments, m.Located x.location

/-- All readings that are remembered are as they should be. -/
def Recalls (m : Survey) (r : Reading) : Prop :=
  ∀ e ∈ r.memo.entries, ∃ c d, m.Remembers r.wildcards e c d

/-- A reading that has come to the token at a cursor, and in which all is as it should be. -/
structure Sound (m : Survey) (c : Cursor) (r : Reading) : Prop extends m.Marked r where
  rests : m.Rests c r.look
  recalls : m.Recalls r

/-- A reading that another one has led to. -/
structure Later (m : Survey) (r s : Reading) : Prop where
  sound : ∃ d, m.Sound d s
  ahead : r.look.offset ≤ s.look.offset
  drawn : Grows r.wildcards s.wildcards

namespace Later

theorem refl (sound : m.Sound c r) : m.Later r r := ⟨⟨c, sound⟩, Nat.le_refl _, .refl _⟩

/-- One reading behind another. -/
theorem trans (first : m.Later r s) (second : m.Later s t) : m.Later r t :=
  ⟨second.sound, first.ahead.trans second.ahead, first.drawn.trans second.drawn⟩

/-- A reading that has come to the same token, with no other wildcards. -/
theorem of_same (sound : m.Sound c s) (offset : s.look.offset = r.look.offset)
    (drawn : s.wildcards = r.wildcards) : m.Later r s :=
  ⟨⟨c, sound⟩, offset ▸ Nat.le_refl _, drawn ▸ .refl _⟩

end Later

namespace Sound

theorem unique (h : m.Sound c r) (h' : m.Sound d r) : c = d := h.rests.unique h'.rests

theorem offset (h : m.Sound c r) : r.look.offset = c.offset := h.rests.at'.offset

/-- A change of the token that is seen. -/
theorem look (h : m.Sound c r) {l : Look} (rests : m.Rests c l) : m.Sound c { r with look := l } :=
  ⟨⟨h.failures, h.comments⟩, rests, h.recalls⟩

/-- Another memory. -/
theorem memo (h : m.Sound c r) {memo : Memo}
    (recalls : ∀ e ∈ memo.entries, ∃ c d, m.Remembers r.wildcards e c d) : m.Sound c { r with memo } :=
  ⟨⟨h.failures, h.comments⟩, h.rests, recalls⟩

/-- More names may be drawn. -/
theorem grow (h : m.Sound c r) {drawn : Array Nat} (grows : Grows r.wildcards drawn) :
    m.Sound c { r with wildcards := drawn } :=
  ⟨⟨h.failures, h.comments⟩, h.rests, fun e he => by
    obtain ⟨c, d, remembers⟩ := h.recalls e he
    exact ⟨c, d, remembers.grow grows⟩⟩

end Sound

/-- Nodes that were read from an offset up to where a reading has come to. -/
abbrev Covers (m : Survey) (v : Reading) (start : Nat) (ns : List Visit) : Prop :=
  m.Spans v.wildcards start v.look.offset ns

/-- A term that was read from a token up to where a reading has come to. -/
abbrev Reads (m : Survey) (v : Reading) (c : Cursor) (t : Term) : Prop :=
  m.Read v.wildcards c v.look.offset t

theorem Spans.later {n : Nat} {ns : List Visit} (h : m.Covers u n ns) (later : m.Later u v) :
    m.Covers v n ns := h.mono later.drawn (Nat.le_refl _) later.ahead

theorem Read.later {a : Term} (h : m.Reads u c a) (later : m.Later u v) : m.Reads v c a :=
  h.mono later.drawn later.ahead

/-- What is read from a token on follows what was read up to there. -/
theorem Spans.then {n : Nat} {ns ms : List Visit} (h : m.Covers u n ns) (sound : m.Sound c u)
    (later : m.Later u v) (more : m.Covers v c.offset ms) : m.Covers v n (ns ++ ms) :=
  (h.mono later.drawn (Nat.le_refl _) sound.offset.le).append more

/-! ## The judgement -/

/-- A parser leads from a reading to one of some kind, and its result is as described. -/
def Tracks {α : Type} (m : Survey) (R : Reading → Prop) (x : Parse α) (u : Reading)
    (Q : α → Reading → Prop) : Prop :=
  ∀ o depth journal,
    R (x.run m.env o ⟨u, depth, journal⟩).2.toReading ∧
    ∀ a, (x.run m.env o ⟨u, depth, journal⟩).1 = some a →
      Q a (x.run m.env o ⟨u, depth, journal⟩).2.toReading

namespace Tracks

variable {α β γ : Type} {R S : Reading → Prop} {P : α → Reading → Prop} {Q : β → Reading → Prop}

theorem pure {a : α} (there : R u) (holds : P a u) : m.Tracks R (Pure.pure a) u P :=
  fun _ _ _ => ⟨there, fun _ result => Option.some.inj result ▸ holds⟩

theorem fail (there : R u) : m.Tracks R (Parse.fail : Parse α) u P :=
  fun _ _ _ => ⟨there, fun _ result => by cases result⟩

/-- One parser after the other: where the first one fails, its reading has to do. -/
theorem bind {x : Parse α} {f : α → Parse β} (first : m.Tracks S x u P) (fails : ∀ t, S t → R t)
    (second : ∀ a t, S t → P a t → m.Tracks R (f a) t Q) : m.Tracks R (x >>= f) u Q :=
  fun o depth journal => by
  obtain ⟨there, holds⟩ := first o depth journal
  rw [run_bind]
  rcases h : x.run m.env o ⟨u, depth, journal⟩ with ⟨_ | a, ⟨t, depth', journal'⟩⟩
  · rw [h] at there
    exact ⟨fails t there, fun _ result => by cases result⟩
  · rw [h] at there holds
    exact second a t there (holds a rfl) o depth' journal'

/-- What comes behind a parser that fails does not matter. -/
theorem bind_fails {x : Parse α} {f : α → Parse β} (first : m.Tracks R x u fun _ _ => False) :
    m.Tracks R (x >>= f) u Q := bind first (fun _ there => there) fun _ _ _ false => false.elim

/-- A parser that reads on, and another one from there. -/
theorem step {x : Parse α} {f : α → Parse β} (before : m.Later r u)
    (first : m.Tracks (m.Later u) x u P)
    (second : ∀ a t d, m.Sound d t → m.Later r t → m.Later u t → P a t →
      m.Tracks (m.Later r) (f a) t Q) : m.Tracks (m.Later r) (x >>= f) u Q :=
  bind first (fun _ later => before.trans later) fun a t later holds => by
    obtain ⟨d, sound⟩ := later.sound
    exact second a t d sound (before.trans later) later holds

theorem weaken {Q : α → Reading → Prop} {x : Parse α} (h : m.Tracks S x u P) (there : ∀ t, S t → R t)
    (imp : ∀ a t, S t → P a t → Q a t) : m.Tracks R x u Q := fun o depth journal =>
  ⟨there _ (h o depth journal).1, fun a result =>
    imp a _ (h o depth journal).1 ((h o depth journal).2 a result)⟩

/-- A parser that reads on to the end. -/
theorem tail {x : Parse α} {Q : α → Reading → Prop} (before : m.Later r u)
    (last : m.Tracks (m.Later u) x u P) (imp : ∀ a t, m.Later u t → P a t → Q a t) :
    m.Tracks (m.Later r) x u Q := last.weaken (fun _ later => before.trans later) imp

theorem attempt {x : Parse α} (h : m.Tracks R x u P) :
    m.Tracks R (Parse.attempt x) u fun a t => ∀ b ∈ a, P b t := fun o depth journal =>
  ⟨(h o depth journal).1, fun _ result b given =>
    (h o depth journal).2 b ((Option.some.inj result).trans given)⟩

/-- What is attempted never fails. -/
theorem attempt_bind {x : Parse α} {f : Option α → Parse β} (h : m.Tracks S x u P)
    (second : ∀ a t, S t → (∀ b ∈ a, P b t) → m.Tracks R (f a) t Q) :
    m.Tracks R (Parse.attempt x >>= f) u Q := fun o depth journal => by
  obtain ⟨there, holds⟩ := h o depth journal
  rw [run_bind, run_attempt, andThen_some]
  exact second _ _ there (fun b given => holds b given) o _ _

theorem ofOption {a : Option α} (there : R u) (holds : ∀ b ∈ a, P b u) :
    m.Tracks R (ofOption a) u P := by
  cases a with
  | none => exact fail there
  | some b => exact pure there (holds b rfl)

/-! ### Asking -/

section asking

variable {f : α → Parse β} {x : Parse γ} {g : γ → Parse α}

@[simp] theorem pure_bind_iff {a : α} :
    m.Tracks R (Pure.pure a >>= f) u Q ↔ m.Tracks R (f a) u Q := Iff.rfl

@[simp] theorem bind_bind_iff :
    m.Tracks R ((x >>= g) >>= f) u Q ↔ m.Tracks R (x >>= fun c => g c >>= f) u Q := by
  rw [bind_assoc]

@[simp] theorem token_iff {f : Token → Parse β} :
    m.Tracks R (token >>= f) u Q ↔ m.Tracks R (f u.look.token) u Q := Iff.rfl

@[simp] theorem location_iff {f : Location → Parse β} :
    m.Tracks R (location >>= f) u Q ↔ m.Tracks R (f u.look.location) u Q := Iff.rfl

@[simp] theorem offset_iff {f : Nat → Parse β} :
    m.Tracks R (Parse.offset >>= f) u Q ↔ m.Tracks R (f u.look.offset) u Q := Iff.rfl

@[simp] theorem lastStop_iff {f : Nat → Parse β} :
    m.Tracks R (lastStop >>= f) u Q ↔ m.Tracks R (f u.look.lastStop) u Q := Iff.rfl

@[simp] theorem text_iff {start stop : Nat} {f : String → Parse β} :
    m.Tracks R (text start stop >>= f) u Q ↔ m.Tracks R (f (u.look.text start stop)) u Q := Iff.rfl

@[simp] theorem look_iff {f : Look → Parse β} :
    m.Tracks R (look >>= f) u Q ↔ m.Tracks R (f u.look) u Q := Iff.rfl

@[simp] theorem reading_iff {f : Reading → Parse β} :
    m.Tracks R (reading >>= f) u Q ↔ m.Tracks R (f u) u Q := Iff.rfl

@[simp] theorem env_iff {f : Env → Parse β} :
    m.Tracks R (Parse.env >>= f) u Q ↔ m.Tracks R (f m.env) u Q := Iff.rfl

@[simp] theorem save_iff {f : Snapshot → Parse β} :
    m.Tracks R (save >>= f) u Q ↔ m.Tracks R (f u.save) u Q := Iff.rfl

@[simp] theorem noFailures_iff {f : Bool → Parse β} :
    m.Tracks R (noFailures >>= f) u Q ↔ m.Tracks R (f u.failures.isEmpty) u Q := Iff.rfl

@[simp] theorem placed_iff {t : Term} {l : Location} {start stop : Nat} {f : Term → Parse β} :
    m.Tracks R (placed t l start stop >>= f) u Q ↔
      m.Tracks R (f (t.placed { l with text := u.look.text start stop })) u Q := Iff.rfl

@[simp] theorem upToLastStop_iff {l : Location} {f : Location → Parse β} :
    m.Tracks R (upToLastStop l >>= f) u Q ↔
      m.Tracks R (f { l with text := u.look.text l.offset u.look.lastStop }) u Q := Iff.rfl

@[simp] theorem isRefKeyword_iff {f : Bool → Parse β} :
    m.Tracks R (isRefKeyword >>= f) u Q ↔
      m.Tracks R (f (m.env.allowsInRefs u.look.scanner.keywords u.look.token.name)) u Q := Iff.rfl

@[simp] theorem peekBlank_iff {f : Token → Parse β} :
    m.Tracks R (peekBlank >>= f) u Q ↔ m.Tracks R (f (next m.env false u.look).look.token) u Q := by
  have same (o : Settings) (depth : Nat) (journal : List (Question × Bool)) :
      (peekBlank >>= f).run m.env o ⟨u, depth, journal⟩ =
        (f (next m.env false u.look).look.token).run m.env o ⟨u, depth, journal⟩ := by
    rw [run_bind, run_peekBlank, andThen_some]
  constructor <;> intro h o depth journal
  · rw [← same]
    exact h o depth journal
  · rw [same]
    exact h o depth journal

/-- Whatever the settings answer. -/
theorem ask {q : Question} {f : Bool → Parse β} (h : ∀ b, m.Tracks R (f b) u Q) :
    m.Tracks R (Parse.ask q >>= f) u Q := fun o depth _ => h _ o depth _

theorem placed_self {t : Term} {l : Location} {start stop : Nat} {Q : Term → Reading → Prop}
    (h : m.Tracks R (Pure.pure (t.placed { l with text := u.look.text start stop })) u Q) :
    m.Tracks R (placed t l start stop) u Q := h

theorem here_self {value : Value} {Q : Term → Reading → Prop}
    (h : m.Tracks R (Pure.pure ⟨value, some u.look.location⟩) u Q) :
    m.Tracks R (here value) u Q := h

/-- A change of what is known. -/
theorem modify {f : Reading → Reading} (there : R (f u)) :
    m.Tracks R (Parse.modify f) u fun _ t => t = f u := fun _ _ _ => ⟨there, fun _ _ => rfl⟩

end asking

/-! ### Errors -/

section errors

variable {place : Location} {problem : Problem} {note : Note}

/-- A reading that differs in errors and comments at most from one that has come to the same token. -/
structure Stays (m : Survey) (c : Cursor) (u t : Reading) : Prop where
  sound : m.Sound c t
  token : t.look.token = u.look.token
  drawn : t.wildcards = u.wildcards

theorem Stays.later (h : Stays m c u t) (sound : m.Sound c u) : m.Later u t :=
  .of_same h.sound (h.sound.offset.trans sound.offset.symm) h.drawn

/-- An error is reported, whatever else is so of the reading. -/
theorem marked_report (marked : m.Marked u) (located : m.Located place) :
    m.Marked { u with
      failures := u.failures.push ⟨problem, place, u.look.hints⟩
      look := { u.look with hints := [] } } where
  failures f hf := by
    rcases Array.mem_push.1 hf with hf | rfl
    · exact marked.failures f hf
    · exact located
  comments := marked.comments

/-- To report stays at the token. -/
theorem report (sound : m.Sound c u) (located : m.Located place) :
    m.Tracks (m.Later u) (Parse.report place problem) u fun _ t => Stays m c u t := fun _ _ _ => by
  have stays : Stays m c u { u with
      failures := u.failures.push ⟨problem, place, u.look.hints⟩
      look := { u.look with hints := [] } } :=
    ⟨⟨marked_report sound.toMarked located, sound.rests.hints [], sound.recalls⟩, rfl, rfl⟩
  exact ⟨stays.later sound, fun _ _ => stays⟩

/-- To report here stays at the token. -/
theorem reportHere (sound : m.Sound c u) :
    m.Tracks (m.Later u) (Parse.reportHere problem) u fun _ t => Stays m c u t := by
  unfold Parse.reportHere
  rw [location_iff]
  exact report sound sound.rests.located

/-- To report a token that is not expected stays at it. -/
theorem unexpected (sound : m.Sound c u) :
    m.Tracks (m.Later u) (Parse.unexpected note) u fun _ t => Stays m c u t := by
  unfold Parse.unexpected
  rw [token_iff]
  split
  · exact reportHere sound
  · exact reportHere sound

/-- An error is reported, and that is all. -/
theorem unexpected_fail (before : m.Later r u) (sound : m.Sound c u) :
    m.Tracks (m.Later r) (do Parse.unexpected note; Parse.fail) u P :=
  step before (unexpected sound) fun _ _ _ _ later _ _ => fail later

/-- To report and fail stays at the token. -/
theorem reportHere_fail (before : m.Later r u) (sound : m.Sound c u) :
    m.Tracks (m.Later r) (do Parse.reportHere problem; Parse.fail) u P :=
  step before (reportHere sound) fun _ _ _ _ later _ _ => fail later

/-- To leave advice stays at the token. -/
theorem hint (sound : m.Sound c u) {h : Hint} :
    m.Tracks (m.Later u) (Parse.hint h) u fun _ t => Stays m c u t := fun _ _ _ => by
  have stays : Stays m c u { u with look := { u.look with hints := u.look.hints ++ [h] } } :=
    ⟨sound.look (sound.rests.hints _), rfl, rfl⟩
  exact ⟨stays.later sound, fun _ _ => stays⟩

end errors

/-! ### Going on -/

/-- Where a parser goes on, errors and comments stand at tokens as before. -/
theorem marked_next {b : Bool} {depth : Nat} {journal : List (Question × Bool)} (marked : m.Marked u)
    (starts : c.Starts m.source) (step : Step m.source m.env b c d u.look (next m.env b u.look)) :
    m.Marked (ParseState.followedBy ⟨u, depth, journal⟩ (next m.env b u.look)).toReading where
  failures f hf := by
    rcases Array.mem_append.1 hf with hf | hf
    · exact marked.failures f hf
    · obtain ⟨e, starts, place⟩ := step.reported f hf
      exact ⟨e, _, starts, place⟩
  comments x hx := by
    rcases Array.mem_append.1 hx with hx | hx
    · exact marked.comments x hx
    · obtain ⟨e, starts, rfl⟩ := step.met.starts starts.skip x (Array.mem_toList_iff.2 hx)
      exact ⟨e, _, starts, rfl⟩

/-- From a token that is not the end a parser goes on to a later one. -/
theorem advance (b : Bool) (sound : m.Sound c u) (more : u.look.token ≠ .eof) :
    m.Tracks (m.Later u) (Parse.advance b) u fun _ t => u.look.offset < t.look.offset ∧
      t.wildcards = u.wildcards ∧ (b = true → t.look.token ≠ .whitespace) ∧
        ∀ d, m.Rests d t.look → c.Precedes m.source d := fun o depth journal => by
  rw [run_advance]
  obtain ⟨d, step⟩ := next_step m.env b sound.rests.at'
  have ended : m.Ended (next m.env b u.look).look.lastStop := by
    rw [step.lastStop, leave]
    split
    · exact sound.rests.ended
    · next other =>
        have major : c.lexeme.kind ≠ .whitespace := fun kind =>
          other (beq_iff_eq.2 ((sound.rests.kind_iff .whitespace rfl).2 kind))
        exact .inr ⟨c, sound.rests.proper more major, sound.rests.at'.stop.symm⟩
  have rests : m.Rests d (next m.env b u.look).look := ⟨step.at', step.solid, step.place, ended⟩
  have ahead : u.look.offset < (next m.env b u.look).look.offset := by
    rw [sound.offset, rests.at'.offset]
    exact (Cursor.offset_lt_skip (sound.rests.filled more)).trans_le step.ahead
  have there : m.Sound d
      (ParseState.followedBy ⟨u, depth, journal⟩ (next m.env b u.look)).toReading :=
    ⟨marked_next sound.toMarked sound.rests.at'.starts step, rests, sound.recalls⟩
  have precedes (e : Cursor) (at'' : m.Rests e (next m.env b u.look).look) : c.Precedes m.source e := by
    obtain rfl := rests.unique at''
    refine ⟨sound.rests.at'.starts, rests.at'.starts, ?_, step.gap⟩
    rwa [sound.offset, rests.at'.offset] at ahead
  exact ⟨⟨⟨d, there⟩, ahead.le, .refl _⟩, fun _ _ => ⟨ahead, rfl, fun skips white =>
    step.blank skips ((rests.kind_iff .whitespace rfl).1 white), precedes⟩⟩

/-- To go on leads to a later token. -/
theorem scan (sound : m.Sound c u) (more : u.look.token ≠ .eof) :
    m.Tracks (m.Later u) Parse.scan u fun _ t => u.look.offset < t.look.offset ∧
      t.wildcards = u.wildcards ∧ t.look.token ≠ .whitespace ∧
        ∀ d, m.Rests d t.look → c.Precedes m.source d :=
  (advance true sound more).weaken (fun _ later => later)
    fun _ _ _ ⟨ahead, drawn, solid, precedes⟩ => ⟨ahead, drawn, solid rfl, precedes⟩

/-- To go on, blanks included, leads to a later token. -/
theorem scanBlank (sound : m.Sound c u) (more : u.look.token ≠ .eof) :
    m.Tracks (m.Later u) Parse.scanBlank u fun _ t => u.look.offset < t.look.offset ∧
      t.wildcards = u.wildcards :=
  (advance false sound more).weaken (fun _ later => later)
    fun _ _ _ ⟨ahead, drawn, _⟩ => ⟨ahead, drawn⟩

/-- A name is drawn at an offset, and it is the next one. -/
theorem freshWildcard {n : Nat} (sound : m.Sound c u) :
    m.Tracks (m.Later u) (Parse.freshWildcard n) u fun name t =>
      Stays m c { u with wildcards := u.wildcards.push n } t ∧ Drawn t.wildcards name n := fun _ _ _ => by
  have grows : Grows u.wildcards (u.wildcards.push n) := .push _ _
  have there : m.Sound c { u with wildcards := u.wildcards.push n } := sound.grow grows
  exact ⟨⟨⟨c, there⟩, Nat.le_refl _, grows⟩, fun _ result =>
    ⟨⟨there, rfl, rfl⟩, Option.some.inj result ▸ .next _ _⟩⟩

/-- One level deeper nothing is different, unless it is too deep. -/
theorem nested_of {x : Parse α} (refused : m.Tracks R (do Parse.reportHere .tooDeep; Parse.fail) u P)
    (h : m.Tracks R x u P) : m.Tracks R (Parse.nested x) u P := fun o depth journal => by
  rcases answer : o.answer (.nest depth) with _ | _
  · rw [run_nested_refused m.env x answer]
    exact refused o depth _
  · rw [run_nested_granted m.env x answer]
    exact h o (depth + 1) _

/-- A production that is entered, or refused. -/
theorem nested {x : Parse α} (sound : m.Sound c u) (before : m.Later r u)
    (h : m.Tracks (m.Later r) x u P) : m.Tracks (m.Later r) (Parse.nested x) u P :=
  nested_of (reportHere_fail before sound) h

/-! ### Returning -/

theorem mem_of_extract {α : Type} {xs : Array α} {i j : Nat} {x : α} (h : x ∈ xs.extract i j) : x ∈ xs := by
  obtain ⟨k, hk, rfl⟩ := Array.mem_extract_iff_getElem.1 h
  exact Array.getElem_mem _

theorem mem_of_take {α : Type} {xs : Array α} {i : Nat} {x : α} (h : x ∈ xs.take i) : x ∈ xs :=
  mem_of_extract (Array.take_eq_extract ▸ h : x ∈ xs.extract 0 i)

/-- A reading that has come back from another one to where a third one was. -/
structure Back (m : Survey) (c : Cursor) (w v t : Reading) : Prop where
  sound : m.Sound c t
  look : t.look = w.look
  later : m.Later w t
  drawn : t.wildcards = v.wildcards

/-- To come back means to be where the parser stood before, whatever has been met since. -/
theorem back (there : m.Sound c w) (marked : m.Marked v) (recalls : m.Recalls v)
    (grows : Grows w.wildcards v.wildcards) : Back m c w v (v.restore w.save) := by
  have sound : m.Sound c (v.restore w.save) :=
    ⟨⟨fun f hf => marked.failures f (mem_of_take hf), fun x hx => marked.comments x (mem_of_take hx)⟩,
      there.rests, recalls⟩
  exact ⟨sound, rfl, ⟨⟨c, sound⟩, Nat.le_refl _, grows⟩, rfl⟩

/-- To return leads back to where the place was saved. -/
theorem restore {f : Unit → Parse α} (there : m.Sound c w) (before : m.Later w v)
    (h : ∀ t, Back m c w v t → m.Tracks R (f ()) t P) :
    m.Tracks R (Parse.restore w.save >>= f) v P := by
  obtain ⟨d, sound⟩ := before.sound
  exact h _ (back there sound.toMarked sound.recalls before.drawn)

/-- A parser that is run from where the parser stood before leaves nothing but its answer, and names that
were drawn. -/
theorem probe {x : Parse α} (there : m.Sound c w) (here : m.Sound d v) (before : m.Later w v)
    (h : ∀ t, Back m c w v t → m.Tracks (m.Later t) x t P) :
    m.Tracks (m.Later v) (Parse.probe w.save x) v fun _ t => t.look = v.look := by
  unfold Parse.probe
  rw [reading_iff]
  refine restore there before fun t back => attempt_bind (h t back) fun a s later _ => ?_
  obtain ⟨e, sound⟩ := later.sound
  have marked : m.Marked { s with
      look := v.look
      failures := s.failures.take w.save.failures ++
        v.failures.extract w.save.failures v.failures.size
      comments := s.comments.take w.save.comments ++
        v.comments.extract w.save.comments v.comments.size } := by
    refine ⟨fun f hf => ?_, fun y hy => ?_⟩
    · rcases Array.mem_append.1 hf with hf | hf
      · exact sound.failures f (mem_of_take hf)
      · exact here.failures f (mem_of_extract hf)
    · rcases Array.mem_append.1 hy with hy | hy
      · exact sound.comments y (mem_of_take hy)
      · exact here.comments y (mem_of_extract hy)
  have again := Sound.mk marked here.rests sound.recalls
  have since : m.Later v _ := ⟨⟨d, again⟩, Nat.le_refl _, back.drawn ▸ later.drawn⟩
  refine bind (modify (R := m.Later v) since) (fun _ later => later) fun _ t' later same => ?_
  exact pure later (same ▸ rfl)

/-! ### Reserved words -/

/-- What is read with other words reserved is not remembered, and the words are what they were. -/
theorem withKeywords {change : Scanner → Scanner} {x : Parse α} {table : KeywordTable}
    (known : table.Known)
    (changed : change u.look.scanner = { u.look.scanner with keywords := table }) (sound : m.Sound c u)
    (h : ∀ v, m.Sound c v → v.wildcards = u.wildcards → v.look.token = u.look.token →
      m.Tracks (m.Later v) x v P) :
    m.Tracks (m.Later u) (Parse.withKeywords change x) u fun a t =>
      ∃ s, P a s ∧ s.wildcards = t.wildcards ∧ s.look.offset = t.look.offset := by
  unfold Parse.withKeywords
  rw [reading_iff]
  have opened : m.Sound c
      { u with memo := .empty, look := { u.look with scanner := change u.look.scanner } } :=
    ⟨⟨sound.failures, sound.comments⟩, changed ▸ sound.rests.keywords known, fun _ none => absurd none List.not_mem_nil⟩
  refine bind (modify (R := m.Later u) (.of_same opened rfl rfl)) (fun _ later => later)
    fun _ v later same => ?_
  subst same
  refine attempt_bind (h _ opened rfl rfl) fun a s since holds => ?_
  obtain ⟨d, there⟩ := since.sound
  -- the memory is the one from before, and the names drawn since only make what it covers more
  have recalls : m.Recalls { s with memo := u.memo } := fun e he => by
    obtain ⟨c, d, remembers⟩ := sound.recalls e he
    exact ⟨c, d, remembers.grow since.drawn⟩
  have closed : m.Sound d { s with
      memo := u.memo
      look := { s.look with scanner := { s.look.scanner with keywords := u.look.scanner.keywords } } } :=
    ⟨⟨there.failures, there.comments⟩, there.rests.keywords sound.rests.at'.known, recalls⟩
  have again : m.Later u _ := ⟨⟨d, closed⟩, since.ahead, since.drawn⟩
  refine bind (modify (R := m.Later u) again) (fun _ later => later) fun _ t later same => ?_
  subst same
  exact ofOption later fun b given => ⟨s, holds b given, rfl, rfl⟩

/-- What is done with the words of the future reserved stays where it was. -/
theorem withFutureKeywords {x : Parse α} (sound : m.Sound c u)
    (h : ∀ v, m.Sound c v → v.wildcards = u.wildcards → v.look.token = u.look.token →
      m.Tracks (m.Later v) x v P) :
    m.Tracks (m.Later u) (Parse.withFutureKeywords x) u fun a t =>
      ∃ s, P a s ∧ s.wildcards = t.wildcards ∧ s.look.offset = t.look.offset :=
  withKeywords (sound.rests.at'.known.extend KeywordTable.known_future) rfl sound h

/-- What is done without the words of the future stays where it was. -/
theorem withoutFutureKeywords {x : Parse α} (sound : m.Sound c u)
    (h : ∀ v, m.Sound c v → v.wildcards = u.wildcards → v.look.token = u.look.token →
      m.Tracks (m.Later v) x v P) :
    m.Tracks (m.Later u) (Parse.withoutFutureKeywords x) u fun a t =>
      ∃ s, P a s ∧ s.wildcards = t.wildcards ∧ s.look.offset = t.look.offset :=
  withKeywords (sound.rests.at'.known.removeAll .future) rfl sound h

/-! ### Words as identifiers -/

/-- A reading that has come to the same token, which is now an identifier. -/
structure Named (m : Survey) (c : Cursor) (u t : Reading) : Prop where
  sound : m.Sound c t
  token : t.look.token = .ident
  drawn : t.wildcards = u.wildcards

theorem Named.later (h : Named m c u t) (sound : m.Sound c u) : m.Later u t :=
  .of_same h.sound (h.sound.offset.trans sound.offset.symm) h.drawn

/-- A keyword that may stand for a name is read as one. -/
theorem asIdent (sound : m.Sound c u)
    (allowed : m.env.allowsInRefs u.look.scanner.keywords u.look.token.name = true) :
    m.Tracks (m.Later u) Parse.asIdent u fun _ t => Named m c u t := fun _ _ _ => by
  have named : Named m c u { u with look := { u.look with token := .ident } } :=
    ⟨sound.look ⟨sound.rests.at'.asIdent allowed, sound.rests.solid, sound.rests.place,
      sound.rests.ended⟩, rfl, rfl⟩
  exact ⟨named.later sound, fun _ _ => named⟩

/-- A keyword that a reference goes on behind is read as an identifier. -/
theorem startsRefWithKeyword (sound : m.Sound c u) :
    m.Tracks (m.Later u) Parse.startsRefWithKeyword u fun b t =>
      (b = false ∧ t = u) ∨ (b = true ∧ Named m c u t) := by
  unfold Parse.startsRefWithKeyword
  rw [isRefKeyword_iff]
  split
  · next allowed =>
      rw [peekBlank_iff]
      split
      · refine bind (asIdent sound allowed) (fun _ later => later) fun _ t later named => ?_
        exact pure later (.inr ⟨rfl, named⟩)
      · exact pure (.refl sound) (.inl ⟨rfl, rfl⟩)
  · exact pure (.refl sound) (.inl ⟨rfl, rfl⟩)

end Tracks

end Survey

end RegoSyntax
