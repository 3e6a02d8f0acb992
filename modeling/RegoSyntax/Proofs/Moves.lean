/-
# RegoSyntax.Proofs.Moves — what a parser does to what is known, one move at a time.

Between two of its states a parser of queries does little: it passes a token that is no point and starts
no clause, reads a name or a number behind a point, reports, draws a name, takes up again what it
remembers, or comes back to where it has been.  `Route.Leads` is what such moves add up to.  A property of
what the parser sees that every single move keeps is therefore kept by whole productions
(`Route.Leads.stable`), and it holds then of all that is remembered as well.

The tables of reserved words are part of what the parser sees, so this is how they are followed through
readings that are given up and taken up again.
-/
import RegoSyntax.Proofs.Primaries

namespace RegoSyntax

open Parse

/-! ## Changes of what is known -/

namespace Reading

/-- Go on to the next token. -/
def passing (r : Reading) (env : Env) (skipBlanks : Bool) : Reading :=
  let t := Parse.next env skipBlanks r.look
  { r with
    look := t.look
    failures := r.failures ++ t.failures
    comments := r.comments ++ t.comments }

@[simp] theorem passing_look (r : Reading) (env : Env) (skipBlanks : Bool) :
    (r.passing env skipBlanks).look = (Parse.next env skipBlanks r.look).look := rfl

@[simp] theorem passing_memo (r : Reading) (env : Env) (skipBlanks : Bool) :
    (r.passing env skipBlanks).memo = r.memo := rfl

/-- Report a problem at a place. -/
def reporting (r : Reading) (problem : Problem) (place : Location) : Reading :=
  { r with
    failures := r.failures.push ⟨problem, place, r.look.hints⟩
    look := { r.look with hints := [] } }

/-- Come back to a reading from a later one: what was met since is forgotten, but not what is remembered
and which names were drawn. -/
def resumed (r s : Reading) : Reading := { r with memo := s.memo, wildcards := s.wildcards }

/-- Take up again what is remembered. -/
def recalling (r : Reading) (e : MemoEntry) : Reading :=
  { r with
    look := e.after
    failures := r.failures ++ e.failures
    comments := r.comments ++ e.comments }

/-- What there is to remember of going from a reading to a later one. -/
def entry (r s : Reading) (term : Option Term) : MemoEntry :=
  { before := r.look
    clean := r.failures.size == 0
    term
    after := s.look
    failures := s.failures.extract r.failures.size s.failures.size
    comments := s.comments.extract r.comments.size s.comments.size }

/-- Remember what going from a reading to a later one gave. -/
def remembering (r s : Reading) (term : Option Term) : Reading :=
  { s with memo := s.memo.push (r.entry s term) }

end Reading

theorem Memo.mem_push {m : Memo} {e x : MemoEntry} (h : x ∈ (m.push e).entries) :
    x = e ∨ x ∈ m.entries := by
  rcases List.mem_cons.1 h with rfl | old
  · exact .inl rfl
  · exact .inr ((List.dropWhile_sublist _).subset old)

/-! ## Routes -/

/-- The kinds of token that the parts of a query pass as they stand.  A point is passed together with what
is behind it; a word that starts a clause or a body is not passed at all. -/
def Token.isPassable : Token → Bool
  | .eof | .dot | .packageKw | .importKw | .ifKw => false
  | _ => true

/-- A task that takes no keyword for an identifier, and looks for no words that should have been imported. -/
structure Env.Strict (e : Env) : Prop where
  suggest : e.suggestImports = false
  refs : e.capabilities.hasFeature Capabilities.keywordsInRefs = false

theorem Env.Strict.refuses {e : Env} (strict : e.Strict) (keywords : KeywordTable) (word : String) :
    e.allowsInRefs keywords word = false := by
  rw [allowsInRefs, strict.refs, Bool.false_and]

/-- Two tasks that differ in nothing that a parser of queries could tell, except that one that is strict may be
compared with one that is not. -/
structure Env.Alike (a b : Env) : Prop where
  file : a.file = b.file
  version : a.version = b.version
  suggest : a.suggestImports = b.suggestImports
  refs : a.capabilities.hasFeature Capabilities.keywordsInRefs =
    b.capabilities.hasFeature Capabilities.keywordsInRefs ∨ a.Strict

theorem Env.Alike.refl (a : Env) : a.Alike a := ⟨rfl, rfl, rfl, .inl rfl⟩

/-- A source, a task and another one like it, and the kinds of token that may be passed. -/
structure Route where
  source : String
  env : Env
  other : Env
  alike : env.Alike other
  free : Token → Prop
  wide : ∀ k : Token, k.isPassable = true → free k

namespace Route

variable {ρ : Route} {c d : Cursor} {l : Look} {r s t u v w : Reading} {e : MemoEntry}

/-- The route on which no token is passed but those that may be. -/
def bound (source : String) (env other : Env) (alike : env.Alike other) : Route where
  source
  env
  other
  alike
  free k := k.isPassable = true
  wide _ := id

/-- The route on which all tokens may be passed. -/
def unbound (ρ : Route) : Route := { ρ with free := fun _ => True, wide := fun _ _ => trivial }

/-- What moves add up to. -/
inductive Leads (ρ : Route) : Reading → Reading → Prop
  | refl (u : Reading) : Leads ρ u u
  | trans {u v t : Reading} : Leads ρ u v → Leads ρ v t → Leads ρ u t
  | pass {u : Reading} (skipBlanks : Bool) : ρ.free u.look.token →
      Leads ρ u (u.passing ρ.env skipBlanks)
  /-- a point before the digits of a number -/
  | point {u : Reading} : u.look.token = .dot → (u.passing ρ.env true).look.token = .number →
      Leads ρ u (u.passing ρ.env true)
  /-- a point and the name behind it -/
  | segment {u : Reading} : u.look.token = .dot →
      (u.passing ρ.env false).look.token = .ident ∨
        ρ.env.allowsInRefs (u.passing ρ.env false).look.scanner.keywords
          (u.passing ρ.env false).look.token.name = true →
      Leads ρ u ((u.passing ρ.env false).passing ρ.env false)
  /-- a point behind which nothing goes on -/
  | astray {u : Reading} (skipBlanks : Bool) (problem : Problem) (place : Location) :
      u.look.token = .dot → Leads ρ u ((u.passing ρ.env skipBlanks).reporting problem place)
  | report {u : Reading} (problem : Problem) (place : Location) : Leads ρ u (u.reporting problem place)
  | hint {u : Reading} (hints : List Hint) : Leads ρ u { u with look := { u.look with hints } }
  /-- a keyword that a reference goes on behind -/
  | ident {u : Reading} : ρ.env.allowsInRefs u.look.scanner.keywords u.look.token.name = true →
      continuesRef (Parse.next ρ.env false u.look).look.token = true →
      Leads ρ u { u with look := { u.look with token := .ident } }
  | draw {u : Reading} (drawn : Array Nat) : Leads ρ u { u with wildcards := drawn }
  | resume {u v : Reading} : Leads ρ u v → Leads ρ u (u.resumed v)
  | remember {u v : Reading} (term : Option Term) : Leads ρ u v →
      (term.isSome → u.look.token ≠ .whitespace ∧ u.look.offset < v.look.offset) →
      Leads ρ u (u.remembering v term)
  | recollect {u : Reading} {e : MemoEntry} : e ∈ u.memo.entries → e.offset = u.look.offset →
      Leads ρ u (u.recalling e)

/-- A reading that is remembered leads on, and from no blank, if it gave a term. -/
structure Sits (ρ : Route) (e : MemoEntry) : Prop where
  before : e.before.Ok ρ.source
  after : e.after.Ok ρ.source
  ahead : e.offset ≤ e.after.offset
  filled : e.term.isSome → e.before.token ≠ .whitespace
  strides : e.term.isSome → e.offset < e.after.offset

/-- A reading that has come to a token of the source. -/
structure Seated (ρ : Route) (u : Reading) : Prop where
  look : u.look.Ok ρ.source
  memo : ∀ e ∈ u.memo.entries, ρ.Sits e

/-! ## Single moves -/

theorem ok_hints (h : l.Ok ρ.source) (hints : List Hint) : Look.Ok ρ.source { l with hints } := by
  obtain ⟨c, at', solid⟩ := h
  exact ⟨c, { at' with }, solid⟩

theorem ok_ident (h : l.Ok ρ.source)
    (allowed : ρ.env.allowsInRefs l.scanner.keywords l.token.name = true) :
    Look.Ok ρ.source { l with token := .ident } := by
  obtain ⟨c, at', solid⟩ := h
  exact ⟨c, at'.asIdent allowed, solid⟩

theorem ok_next (h : l.Ok ρ.source) (b : Bool) :
    (Parse.next ρ.env b l).look.Ok ρ.source ∧ l.offset ≤ (Parse.next ρ.env b l).look.offset ∧
      (l.token ≠ .eof → l.offset < (Parse.next ρ.env b l).look.offset) := by
  obtain ⟨c, at', solid⟩ := h
  obtain ⟨d, step⟩ := next_step ρ.env b at'
  rw [at'.offset, step.at'.offset]
  refine ⟨⟨d, step.at', step.solid⟩, c.offset_le_skip.trans step.ahead, fun more => ?_⟩
  have filled : c.rest ≠ [] := fun none =>
    more ((at'.shows.plain_iff rfl).2 (Lexeme.next_kind_eof.2 none))
  exact (Cursor.offset_lt_skip filled).trans_le step.ahead

namespace Seated

theorem passing (h : ρ.Seated u) (b : Bool) : ρ.Seated (u.passing ρ.env b) :=
  ⟨(ok_next h.look b).1, h.memo⟩

theorem reporting (h : ρ.Seated u) (problem : Problem) (place : Location) :
    ρ.Seated (u.reporting problem place) := ⟨ok_hints h.look [], h.memo⟩

theorem resumed (h : ρ.Seated u) (h' : ρ.Seated v) : ρ.Seated (u.resumed v) := ⟨h.look, h'.memo⟩

end Seated

theorem le_passing (h : ρ.Seated u) (b : Bool) : u.look.offset ≤ (u.passing ρ.env b).look.offset :=
  (ok_next h.look b).2.1

theorem lt_passing (h : ρ.Seated u) (b : Bool) (more : u.look.token ≠ .eof) :
    u.look.offset < (u.passing ρ.env b).look.offset := (ok_next h.look b).2.2 more

namespace Leads

/-- Moves lead on along the tokens of a source. -/
theorem seated_ahead (h : ρ.Leads u t) (seated : ρ.Seated u) :
    ρ.Seated t ∧ u.look.offset ≤ t.look.offset := by
  -- on the moves; what is remembered is seated where it was seated when it was read
  induction h with
  | refl => exact ⟨seated, Nat.le_refl _⟩
  | trans _ _ first second =>
      obtain ⟨there, le⟩ := first seated
      exact ⟨(second there).1, le.trans (second there).2⟩
  | pass b => exact ⟨seated.passing b, le_passing seated b⟩
  | point => exact ⟨seated.passing true, le_passing seated true⟩
  | segment =>
      exact ⟨(seated.passing false).passing false,
        (le_passing seated false).trans (le_passing (seated.passing false) false)⟩
  | astray b => exact ⟨(seated.passing b).reporting _ _, le_passing seated b⟩
  | report => exact ⟨seated.reporting _ _, Nat.le_refl _⟩
  | hint hints => exact ⟨⟨ok_hints seated.look hints, seated.memo⟩, Nat.le_refl _⟩
  | ident allowed _ => exact ⟨⟨ok_ident seated.look allowed, seated.memo⟩, Nat.le_refl _⟩
  | draw => exact ⟨⟨seated.look, seated.memo⟩, Nat.le_refl _⟩
  | resume _ ih => exact ⟨seated.resumed (ih seated).1, Nat.le_refl _⟩
  | remember term _ strides ih =>
      obtain ⟨there, le⟩ := ih seated
      refine ⟨⟨there.look, fun e he => ?_⟩, le⟩
      rcases Memo.mem_push he with rfl | old
      · exact ⟨seated.look, there.look, le, fun given => (strides given).1, fun given => (strides given).2⟩
      · exact there.memo e old
  | recollect he same =>
      have sits := seated.memo _ he
      exact ⟨⟨sits.after, seated.memo⟩, same ▸ sits.ahead⟩

theorem seated (h : ρ.Leads u t) (there : ρ.Seated u) : ρ.Seated t := (h.seated_ahead there).1

theorem ahead (h : ρ.Leads u t) (there : ρ.Seated u) : u.look.offset ≤ t.look.offset :=
  (h.seated_ahead there).2

/-- Errors and comments are added to those there are. -/
theorem grows (h : ρ.Leads u t) : Grows u.failures t.failures ∧ Grows u.comments t.comments := by
  induction h with
  | refl => exact ⟨.refl _, .refl _⟩
  | trans _ _ first second => exact ⟨first.1.trans second.1, first.2.trans second.2⟩
  | pass | point => exact ⟨⟨_, rfl⟩, ⟨_, rfl⟩⟩
  | segment => exact ⟨.trans ⟨_, rfl⟩ ⟨_, rfl⟩, .trans ⟨_, rfl⟩ ⟨_, rfl⟩⟩
  | astray => exact ⟨.trans ⟨_, rfl⟩ (.push _ _), ⟨_, rfl⟩⟩
  | report => exact ⟨.push _ _, .refl _⟩
  | hint | ident | draw | resume => exact ⟨.refl _, .refl _⟩
  | remember _ _ _ ih => exact ih
  | recollect => exact ⟨⟨_, rfl⟩, ⟨_, rfl⟩⟩

/-- To return is to be where the parser has been. -/
theorem restore_eq (h : ρ.Leads w v) : v.restore w.save = w.resumed v := by
  obtain ⟨failures, comments⟩ := h.grows
  simp only [Reading.restore, Reading.save, Reading.resumed, failures.take, comments.take]

end Leads

/-! ## What moves keep -/

/-- A property of what the parser sees that every move keeps. -/
structure Stable (ρ : Route) (L : Look → Prop) : Prop where
  pass : ∀ {l : Look} (b : Bool), l.Ok ρ.source → L l → ρ.free l.token → L (Parse.next ρ.env b l).look
  point : ∀ {l : Look} (b : Bool), l.Ok ρ.source → L l → l.token = .dot →
    L (Parse.next ρ.env b l).look
  segment : ∀ {l : Look}, l.Ok ρ.source → L l → l.token = .dot →
    (Parse.next ρ.env false l).look.token = .ident ∨
      ρ.env.allowsInRefs (Parse.next ρ.env false l).look.scanner.keywords
        (Parse.next ρ.env false l).look.token.name = true →
    L (Parse.next ρ.env false (Parse.next ρ.env false l).look).look
  hints : ∀ {l : Look} (hints : List Hint), L l → L { l with hints }
  ident : ∀ {l : Look}, l.Ok ρ.source → L l →
    ρ.env.allowsInRefs l.scanner.keywords l.token.name = true →
    continuesRef (Parse.next ρ.env false l).look.token = true → L { l with token := .ident }

/-- What the parser sees has a property, and so has what it would see after a reading that it remembers
from an offset on. -/
structure Holds (L : Look → Prop) (n : Nat) (u : Reading) : Prop where
  behind : n ≤ u.look.offset
  look : L u.look
  memo : ∀ e ∈ u.memo.entries, n ≤ e.offset → L e.after

theorem Leads.stable {L : Look → Prop} (stable : ρ.Stable L) (h : ρ.Leads u t) (seated : ρ.Seated u)
    {n : Nat} (holds : Holds L n u) : Holds L n t := by
  -- on the moves; what is remembered holds as well, so that it can be recalled
  induction h with
  | refl => exact holds
  | trans first _ ih ih' => exact ih' (first.seated seated) (ih seated holds)
  | pass b free =>
      exact ⟨holds.behind.trans (le_passing seated b), stable.pass b seated.look holds.look free,
        holds.memo⟩
  | point dot _ =>
      exact ⟨holds.behind.trans (le_passing seated true), stable.point true seated.look holds.look dot,
        holds.memo⟩
  | segment dot name =>
      refine ⟨holds.behind.trans ((Leads.segment dot name).ahead seated), ?_, holds.memo⟩
      rw [Reading.passing_look] at name
      rw [Reading.passing_look, Reading.passing_look]
      exact stable.segment seated.look holds.look dot name
  | astray b _ _ dot =>
      exact ⟨holds.behind.trans (le_passing seated b),
        stable.hints [] (stable.point b seated.look holds.look dot), holds.memo⟩
  | report => exact ⟨holds.behind, stable.hints [] holds.look, holds.memo⟩
  | hint hints => exact ⟨holds.behind, stable.hints hints holds.look, holds.memo⟩
  | ident allowed adjoined =>
      exact ⟨holds.behind, stable.ident seated.look holds.look allowed adjoined, holds.memo⟩
  | draw => exact ⟨holds.behind, holds.look, holds.memo⟩
  | resume _ ih => exact ⟨holds.behind, holds.look, (ih seated holds).memo⟩
  | remember term lead _ ih =>
      have there := ih seated holds
      refine ⟨there.behind, there.look, fun e he since => ?_⟩
      rcases Memo.mem_push he with rfl | old
      · exact there.look
      · exact there.memo e old since
  | recollect he same =>
      have since := same ▸ holds.behind
      exact ⟨since.trans (seated.memo _ he).ahead, holds.memo _ he since, holds.memo⟩

end Route

end RegoSyntax
