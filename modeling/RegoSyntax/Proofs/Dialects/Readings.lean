/-
# RegoSyntax.Proofs.Dialects.Readings — where the older dialect reads like the current one.

A source is read twice: as `v0CompatV1`, which reserves the four words of the future only once they are imported,
and as `v1`, which reserves them from the start.  Two such readings are abreast (`Dialects.Abreast`) if they see the
same but for the tables they hold, and the one table is the other with the four words added, of which none stands
unreserved from there on.

What keeps readings abreast is said of single steps, and of whole productions by induction on how parsers are put
together (`Parse.Parallel.abreast`).  Nothing in it depends on what a production reads.
-/
import RegoSyntax.Proofs.Dialects.Looks
import RegoSyntax.Proofs.Memory
import RegoSyntax.Proofs.Parallel.Productions

namespace RegoSyntax

open Parse

/-- A source that is read twice: as `v0CompatV1` and as the current dialect, by tasks that take keywords for
identifiers in references, and take up again what they remember.  It may be narrowed to where no word of the future
is reserved in either of them, as in the path of an import. -/
structure Dialects where
  source : String
  older : Env
  newer : Env
  settings : Settings
  file : newer.file = older.file
  suggest : newer.suggestImports = older.suggestImports
  narrowed : Prop
  version : older.version = .v0CompatV1
  version' : newer.version = .v1
  feature : newer.capabilities.hasFeature Capabilities.regoV1 = true
  refs : older.capabilities.hasFeature Capabilities.keywordsInRefs = true
  refs' : newer.capabilities.hasFeature Capabilities.keywordsInRefs = true
  recalls : ∀ r, settings.recalls r = true

/-- The words that the current dialect reserves in addition are those of the future. -/
theorem KeywordTable.contains_future (word : String) :
    future.contains word = futureWords.any (·.1 == word) := by
  rw [Bool.eq_iff_iff, List.any_eq_true]
  constructor
  · intro held
    obtain ⟨kind, found⟩ := Option.isSome_iff_exists.1 held
    have listed : ∀ e ∈ future.entries, e ∈ futureWords := by decide +kernel
    exact ⟨_, listed _ (mem_of_get? found), beq_self_eq_true word⟩
  · rintro ⟨e, listed, same⟩
    have all : ∀ e ∈ futureWords, future.contains e.1 = true := by decide +kernel
    exact beq_iff_eq.1 same ▸ all e listed

/-- A word is reserved in a table that was extended if it is in one of the two. -/
theorem KeywordTable.contains_extend_iff {t u : KeywordTable} {word : String} :
    (t.extend u).contains word = (u.contains word || t.contains word) := by
  simp only [contains, get?_extend]
  cases u.get? word <;> simp

/-- The kinds that are named like a word of the future are those that stand for one. -/
theorem Token.isFutureKeyword_iff (k : Token) :
    k.isFutureKeyword = true ↔ KeywordTable.future.contains k.name = true := by
  rw [KeywordTable.contains_future]
  cases k <;> decide +kernel

namespace Dialects

variable {δ : Dialects} {n : Nat} {l l' : Look} {s s' : ParseState} {e e' : MemoEntry} {p p' : Snapshot}

/-! ## What is seen

The two readings may hold different tables, and a word that both tables reserve is one token to both.  A
word that only the newer one reserves does not stand where they are, by `Covers`. -/

/-- Both readings have come to one token from an offset on, and take it for the same.  The newer one holds the table
with the words of the future in addition, of which none stands unreserved from the offset on; or else, where they are
narrowed, the same one. -/
structure Level (δ : Dialects) (n : Nat) (l l' : Look) : Prop where
  beside : ∃ c, l.Beside δ.source c l'
  token : l'.token = l.token
  tables : δ.narrowed ∧ l'.scanner.keywords = l.scanner.keywords ∨
    l.scanner.keywords.Covers δ.source n ∧ l'.scanner.keywords = l.scanner.keywords.extend .future
  ahead : n ≤ l.offset
  backed : l.Backed

namespace Level

/-- The look of the newer reading is that of the older one with another table. -/
theorem same (h : δ.Level n l l') : l' = l.reserving l'.scanner.keywords := by
  obtain ⟨c, beside⟩ := h.beside
  conv_lhs => rw [beside.same, h.token]
  rfl

theorem offset (h : δ.Level n l l') : l'.offset = l.offset := by
  rw [h.same]
  rfl

theorem location (h : δ.Level n l l') : l'.location = l.location := by
  rw [h.same]
  rfl

theorem pending (h : δ.Level n l l') : l'.hints = l.hints := by
  rw [h.same]
  rfl

/-- Each of the two looks is one at the source. -/
theorem ok (h : δ.Level n l l') : l.Ok δ.source := by
  obtain ⟨c, beside⟩ := h.beside
  exact ⟨c, beside.left, beside.solid⟩

theorem hinted (h : δ.Level n l l') (hints : List Hint) :
    δ.Level n { l with hints } { l' with hints } where
  beside := h.beside.imp fun _ beside => beside.hinted hints
  token := h.token
  tables := h.tables
  ahead := h.ahead
  backed := h.backed

/-- A word may stand for an identifier on both sides or on neither. -/
theorem allowsInRefs (h : δ.Level n l l') :
    δ.newer.allowsInRefs l'.scanner.keywords l'.token.name =
      δ.older.allowsInRefs l.scanner.keywords l.token.name := by
  rw [h.token]
  simp only [Env.allowsInRefs, δ.refs, δ.refs', Version.reserves, δ.version, δ.version', Bool.true_and,
    ← KeywordTable.contains_future]
  -- beyond the words of all dialects: the older one asks its table, in which the word is if it was taken for one
  have held : KeywordTable.future.contains l.token.name = true → l.scanner.keywords.contains l.token.name = true :=
    fun named => h.backed (l.token.isFutureKeyword_iff.2 named)
  rcases h.tables with ⟨-, same⟩ | ⟨-, same⟩ <;> rw [same]
  · cases future : KeywordTable.future.contains l.token.name with
    | false => simp
    | true => simp [held future]
  · rw [KeywordTable.contains_extend_iff]
    cases future : KeywordTable.future.contains l.token.name with
    | false => simp
    | true => simp [held future]

/-- A keyword is taken for an identifier on both sides. -/
theorem named (h : δ.Level n l l') (allowed : δ.older.allowsInRefs l.scanner.keywords l.token.name = true) :
    δ.Level n { l with token := .ident } { l' with token := .ident } where
  beside := by
    obtain ⟨c, beside⟩ := h.beside
    refine ⟨c, beside.left.asIdent allowed, beside.right.asIdent (h.allowsInRefs.trans allowed), beside.solid, ?_⟩
    conv_lhs => rw [h.same]
    rfl
  token := rfl
  tables := h.tables
  ahead := h.ahead
  backed := nofun

/-- All words of the future may be reserved on both sides. -/
theorem opened (h : δ.Level n l l') : δ.Level n (l.reserving (l.scanner.keywords.extend .future))
    (l'.reserving (l'.scanner.keywords.extend .future)) where
  beside := by
    obtain ⟨c, beside⟩ := h.beside
    exact ⟨c, beside.reserving (beside.left.known.extend KeywordTable.known_future)
      (beside.right.known.extend KeywordTable.known_future)⟩
  token := h.token
  tables := h.tables.imp (And.imp_right (congrArg (KeywordTable.extend · .future)))
    (And.imp (·.mono (Nat.le_refl n) fun _ => l.scanner.keywords.contains_extend .future)
      (congrArg (KeywordTable.extend · .future)))
  ahead := h.ahead
  backed future := l.scanner.keywords.contains_extend .future (h.backed future)

/-- Both readings go on to one token, and take it for the same. -/
theorem next (h : δ.Level n l l') (b : Bool) :
    δ.Level n (Parse.next δ.older b l).look (Parse.next δ.newer b l').look ∧
      (Parse.next δ.newer b l').failures = (Parse.next δ.older b l).failures ∧
      (Parse.next δ.newer b l').comments = (Parse.next δ.older b l).comments := by
  obtain ⟨c, beside⟩ := h.beside
  obtain ⟨d, there, step, step', failures, comments⟩ := beside.next δ.file b
  have ahead : n ≤ (Parse.next δ.older b l).look.offset := by
    rw [step.at'.offset]
    exact h.ahead.trans (beside.left.offset.trans_le (c.offset_le_skip.trans step.ahead))
  refine ⟨⟨⟨d, there⟩, ?_, ?_, ahead, .of_shown step.at' step.exact⟩, failures, comments⟩
  · rw [step.exact, step'.exact, step.keywords, step'.keywords]
    rcases h.tables with ⟨-, same⟩ | ⟨covers, same⟩
    · rw [same]
    · rw [same, Cursor.shown_extend beside.left.known]
      exact fun word => covers d step.at'.starts (step.at'.offset ▸ ahead) word
  · rw [step.keywords, step'.keywords]
    exact h.tables

end Level

/-! ## States

A parser can go back to a place that it has saved, take up what it remembers, and leave errors.  So what
corresponds is told of places and of remembered terms as well, and the three levels differ in how much of
it is asked for: `Even` of what is met, `Met` of what is remembered in addition, and `Abreast` of the
token that is seen now. -/

/-- What is remembered of the same reading on both sides. -/
structure Recalled (δ : Dialects) (n : Nat) (e e' : MemoEntry) : Prop where
  term : e'.term = e.term
  after : δ.Level n e.after e'.after
  failures : e'.failures = e.failures
  comments : e'.comments = e.comments

/-- Two readings that have met the same. -/
structure Even (s s' : ParseState) : Prop where
  failures : s'.failures = s.failures
  comments : s'.comments = s.comments
  wildcards : s'.wildcards = s.wildcards
  depth : s'.depth = s.depth

/-- Two readings that have met the same, and remember the same from an offset on. -/
structure Met (δ : Dialects) (n : Nat) (s s' : ParseState) : Prop extends Even s s' where
  memo : ∀ o, n ≤ o → Option.Rel (δ.Recalled n) (s.memo.lookup o) (s'.memo.lookup o)

/-- Two readings that have met the same and have come to one token. -/
structure Abreast (δ : Dialects) (n : Nat) (s s' : ParseState) : Prop extends Met δ n s s' where
  look : δ.Level n s.look s'.look

/-- Places that correspond. -/
structure Saved (δ : Dialects) (n : Nat) (p p' : Snapshot) : Prop where
  look : δ.Level n p.look p'.look
  failures : p'.failures = p.failures
  comments : p'.comments = p.comments

/-- The places where both readings are now correspond. -/
theorem Abreast.saved (h : δ.Abreast n s s') : δ.Saved n s.save s'.save :=
  ⟨h.look, congrArg Array.size h.failures, congrArg Array.size h.comments⟩

/-- Back at places that correspond, readings that have met the same are abreast. -/
theorem Met.restored (h : δ.Met n s s') (saved : δ.Saved n p p') :
    δ.Abreast n { s with toReading := s.restore p } { s' with toReading := s'.restore p' } :=
  { h with
    look := saved.look
    failures := by
      show s'.failures.take p'.failures = s.failures.take p.failures
      rw [h.failures, saved.failures]
    comments := by
      show s'.comments.take p'.comments = s.comments.take p.comments
      rw [h.comments, saved.comments] }

/-- Parsers that give the same to both readings, and keep them abreast. -/
def Keeps (δ : Dialects) (n : Nat) {α : Type} (x x' : Parse α) : Prop :=
  ∀ s s', δ.Abreast n s s' →
    (x'.run δ.newer δ.settings s').1 = (x.run δ.older δ.settings s).1 ∧
      δ.Abreast n (x.run δ.older δ.settings s).2 (x'.run δ.newer δ.settings s').2

namespace Keeps

variable {α β : Type} {x x' : Parse α} {f f' : α → Parse β}

/-- Where one parser keeps two readings abreast, so does what goes on with the same answer. -/
theorem bind (first : δ.Keeps n x x') (second : ∀ a, δ.Keeps n (f a) (f' a)) :
    δ.Keeps n (x >>= f) (x' >>= f') := fun s s' abreast => by
  obtain ⟨same, there⟩ := first s s' abreast
  rw [run_bind, run_bind]
  rcases run : x.run δ.older δ.settings s with ⟨_ | a, t⟩ <;>
    rcases run' : x'.run δ.newer δ.settings s' with ⟨_ | a', t'⟩ <;>
    rw [run, run'] at same there
  · exact ⟨rfl, there⟩
  · cases same
  · cases same
  · cases same
    exact second a t t' there

theorem attempt (h : δ.Keeps n x x') : δ.Keeps n (Parse.attempt x) (Parse.attempt x') := fun s s' abreast => by
  obtain ⟨same, there⟩ := h s s' abreast
  rw [run_attempt, run_attempt]
  exact ⟨congrArg some same, there⟩

/-- What changes nothing but advice and errors. -/
theorem report (l : Location) (problem : Problem) : δ.Keeps n (Parse.report l problem) (Parse.report l problem) :=
  fun s s' abreast => by
    refine ⟨rfl, { abreast with look := abreast.look.hinted [], failures := ?_ }⟩
    show s'.failures.push _ = s.failures.push _
    rw [abreast.failures, abreast.look.pending]

theorem hint (h : Hint) : δ.Keeps n (Parse.hint h) (Parse.hint h) := fun s s' abreast => by
  refine ⟨rfl, { abreast with look := ?_ }⟩
  show δ.Level n { s.look with hints := s.look.hints ++ [h] } { s'.look with hints := s'.look.hints ++ [h] }
  rw [abreast.look.pending]
  exact abreast.look.hinted _

theorem nested (h : δ.Keeps n x x') : δ.Keeps n (Parse.nested x) (Parse.nested x') := fun s s' abreast => by
  rw [run_nested_eq, run_nested_eq, abreast.depth]
  rcases DepthLimit.enter? ⟨s.depth, δ.settings.maxDepth⟩ with _ | _
  · refine ⟨rfl, { abreast with look := abreast.look.hinted [], failures := ?_ }⟩
    show s'.failures.push _ = s.failures.push _
    rw [abreast.failures, abreast.look.pending, abreast.look.location]
  · obtain ⟨same, there⟩ := h s.entered s'.entered { abreast with depth := congrArg (· + 1) abreast.depth }
    exact ⟨same, { there with depth := rfl }⟩

/-- What is seen apart from the table is the same on both sides. -/
theorem view {v : Look → α} (blind : ∀ l t, v (l.reserving t) = v l) :
    δ.Keeps n (act fun _ r => (some (v r.look), r)) (act fun _ r => (some (v r.look), r)) :=
  fun s s' abreast => by
    refine ⟨congrArg some ?_, abreast⟩
    show v s'.look = v s.look
    rw [abreast.look.same, blind]

theorem advance (b : Bool) : δ.Keeps n (Parse.advance b) (Parse.advance b) := fun s s' abreast => by
  obtain ⟨look, failures, comments⟩ := abreast.look.next b
  rw [run_advance, run_advance]
  exact ⟨rfl, { abreast with
    look := look
    failures := congrArg₂ (· ++ ·) abreast.failures failures
    comments := congrArg₂ (· ++ ·) abreast.comments comments }⟩

theorem isRefKeyword : δ.Keeps n Parse.isRefKeyword Parse.isRefKeyword := fun _ _ abreast =>
  ⟨congrArg some abreast.look.allowsInRefs, abreast⟩

theorem isIdent : δ.Keeps n Parse.isIdent Parse.isIdent := fun s s' abreast => by
  rw [run_isIdent, run_isIdent, abreast.look.token]
  split
  · exact ⟨rfl, abreast⟩
  · have words := abreast.look.allowsInRefs
    rw [abreast.look.token] at words
    rw [words]
    split
    · next allowed => exact ⟨rfl, { abreast with look := abreast.look.named allowed }⟩
    · exact ⟨rfl, abreast⟩

/-- A word is taken for the start of a reference on both sides or on neither: what stands behind it is the
same. -/
theorem startsRefWithKeyword : δ.Keeps n Parse.startsRefWithKeyword Parse.startsRefWithKeyword :=
  fun s s' abreast => by
    rw [run_startsRefWithKeyword, run_startsRefWithKeyword, abreast.look.allowsInRefs,
      (abreast.look.next false).1.token]
    split
    · next allowed =>
        split
        · exact ⟨rfl, { abreast with look := abreast.look.named allowed }⟩
        · exact ⟨rfl, abreast⟩
    · exact ⟨rfl, abreast⟩

theorem freshWildcard (stands : Nat) : δ.Keeps n (Parse.freshWildcard stands) (Parse.freshWildcard stands) :=
  fun s s' abreast => by
    refine ⟨congrArg some ?_, { abreast with wildcards := ?_ }⟩
    · show wildcardName s'.wildcards.size = wildcardName s.wildcards.size
      rw [abreast.wildcards]
    · show s'.wildcards.push _ = s.wildcards.push _
      rw [abreast.wildcards]

theorem ofOption (a : Option α) : δ.Keeps n (Parse.ofOption a) (Parse.ofOption a) := fun _ _ abreast => by
  cases a with
  | none => exact ⟨rfl, abreast⟩
  | some a => exact ⟨rfl, abreast⟩

/-! ## Remembered terms

What is remembered was remembered by both, for both have asked the same at the same places; so it is taken
up by both, or by neither. -/

theorem replay (recalled : δ.Recalled n e e') : δ.Keeps n (Parse.replay e) (Parse.replay e') :=
  fun s s' abreast => by
    unfold Parse.replay
    rw [recalled.term]
    exact ofOption e.term _ _ { abreast with
      look := recalled.after
      failures := congrArg₂ (· ++ ·) abreast.failures recalled.failures
      comments := congrArg₂ (· ++ ·) abreast.comments recalled.comments }

/-- A term that is remembered is the same term from places that correspond. -/
theorem remember (saved : δ.Saved n p p') (t : Option Term) :
    δ.Keeps n (Parse.remember p t) (Parse.remember p' t) := fun s s' abreast => by
  refine ⟨rfl, { abreast with memo := fun o behind => ?_ }⟩
  show Option.Rel (δ.Recalled n) ((s.memo.push _).lookup o) ((s'.memo.push _).lookup o)
  rw [Memo.lookup_push, Memo.lookup_push, MemoEntry.offset, MemoEntry.offset]
  dsimp only
  rw [saved.look.offset]
  by_cases here : o = p.look.offset
  · rw [if_pos here, if_pos here, abreast.failures, abreast.comments, saved.failures, saved.comments]
    exact .some ⟨rfl, abreast.look, rfl, rfl⟩
  rw [if_neg here, if_neg here]
  split
  · exact .none
  · exact abreast.memo o behind

theorem recallingOr {x x' : Parse Term} (h : δ.Keeps n x x') :
    δ.Keeps n (Parse.recallingOr x) (Parse.recallingOr x') := fun s s' abreast => by
  obtain ⟨j, left⟩ := run_remembered δ.older δ.recalls s
  obtain ⟨j', right⟩ := run_remembered δ.newer δ.recalls s'
  have there : δ.Abreast n { s with journal := j } { s' with journal := j' } := { abreast with }
  have found := abreast.memo s.look.offset abreast.look.ahead
  unfold Parse.recallingOr
  rw [run_bind, run_bind, left, right, andThen_some, andThen_some, abreast.look.offset]
  generalize s.memo.lookup s.look.offset = a at found ⊢
  generalize s'.memo.lookup s.look.offset = a' at found ⊢
  cases found with
  | some recalled => exact replay recalled _ _ there
  | none =>
      have saved : δ.Saved n s.save s'.save := abreast.saved
      exact (h.attempt.bind fun t => (remember saved t).bind fun _ => ofOption t) _ _ there

/-! ## Other words

A parser may reserve all words for a while to find out what a text would have been.  Then both tables are
the same, and so is what is seen; behind it the parser goes back to where it was, or has met an error. -/

/-- With all words of the future reserved for a while, both readings meet the same; but they are left with a token
that was looked up in another table. -/
theorem withFutureKeywords (h : δ.Keeps n x x') (abreast : δ.Abreast n s s') :
    ((Parse.withFutureKeywords x').run δ.newer δ.settings s').1 =
        ((Parse.withFutureKeywords x).run δ.older δ.settings s).1 ∧
      δ.Met n ((Parse.withFutureKeywords x).run δ.older δ.settings s).2
        ((Parse.withFutureKeywords x').run δ.newer δ.settings s').2 := by
  obtain ⟨u, depth, journal⟩ := s
  obtain ⟨u', depth', journal'⟩ := s'
  have inside : δ.Abreast n ⟨Route.Takes.Opened u, depth, journal⟩ ⟨Route.Takes.Opened u', depth', journal'⟩ :=
    { abreast with look := abreast.look.opened, memo := fun _ _ => .none }
  obtain ⟨same, there⟩ := h _ _ inside
  rw [Route.Takes.run_withFutureKeywords, Route.Takes.run_withFutureKeywords]
  exact ⟨same, { there with memo := abreast.memo }⟩

/-- Behind a try with all words reserved both readings are back where they were, with the same answer. -/
theorem reserving {f f' : Option α → Parse β} (saved : δ.Saved n p p') (h : δ.Keeps n x x')
    (rest : ∀ a, δ.Keeps n (f a) (f' a)) :
    δ.Keeps n (Parse.withFutureKeywords (Parse.attempt x) >>= fun a => Parse.restore p >>= fun _ => f a)
      (Parse.withFutureKeywords (Parse.attempt x') >>= fun a => Parse.restore p' >>= fun _ => f' a) :=
  fun s s' abreast => by
    obtain ⟨same, met⟩ := h.attempt.withFutureKeywords abreast
    have given : ((Parse.withFutureKeywords (Parse.attempt x)).run δ.older δ.settings s).1.isSome := by
      obtain ⟨u, depth, journal⟩ := s
      rw [Route.Takes.run_withFutureKeywords]
      rfl
    rw [run_bind, run_bind]
    generalize (Parse.withFutureKeywords (Parse.attempt x)).run δ.older δ.settings s = r at same met given ⊢
    generalize (Parse.withFutureKeywords (Parse.attempt x')).run δ.newer δ.settings s' = r' at same met ⊢
    obtain ⟨_ | a, t⟩ := r
    · cases given
    · obtain ⟨a', t'⟩ := r'
      obtain rfl : a' = some a := same
      exact rest a _ _ (met.restored saved)

/-- A look ahead with all words reserved changes nothing, and answers the same. -/
theorem probing (saved : δ.Saved n p p') (h : δ.Keeps n x x') :
    δ.Keeps n (Parse.probe p (Parse.withFutureKeywords x)) (Parse.probe p' (Parse.withFutureKeywords x')) :=
  fun s s' abreast => by
    obtain ⟨same, met⟩ := h.withFutureKeywords (abreast.restored saved)
    have run {y : Parse α} (env : Env) (p : Snapshot) (s : ParseState) :
        (Parse.probe p y).run env δ.settings s =
          (some (y.run env δ.settings { s with toReading := s.restore p }).1,
            { (y.run env δ.settings { s with toReading := s.restore p }).2 with
              look := s.look
              failures := (y.run env δ.settings { s with toReading := s.restore p }).2.failures.take p.failures ++
                s.failures.extract p.failures s.failures.size
              comments := (y.run env δ.settings { s with toReading := s.restore p }).2.comments.take p.comments ++
                s.comments.extract p.comments s.comments.size }) := rfl
    rw [run, run]
    generalize (Parse.withFutureKeywords x).run δ.older δ.settings _ = r at same met ⊢
    generalize (Parse.withFutureKeywords x').run δ.newer δ.settings _ = r' at same met ⊢
    refine ⟨congrArg some same, { met with look := abreast.look, failures := ?_, comments := ?_ }⟩
    · show r'.2.failures.take p'.failures ++ s'.failures.extract p'.failures s'.failures.size = _
      rw [met.failures, saved.failures, abreast.failures]
    · show r'.2.comments.take p'.comments ++ s'.comments.extract p'.comments s'.comments.size = _
      rw [met.comments, saved.comments, abreast.comments]

end Keeps

end Dialects

namespace Parse

/-- Parsers that are put together of the same steps keep two readings abreast. -/
theorem Parallel.abreast {δ : Dialects} {n : Nat} {α : Type} {x x' : Parse α} (h : Parallel (δ.Saved n) x x') :
    δ.Keeps n x x' := by
  -- on how the parsers are put together
  induction h with
  | pure a => exact fun _ _ abreast => ⟨rfl, abreast⟩
  | fail => exact fun _ _ abreast => ⟨rfl, abreast⟩
  | bind _ _ first second => exact first.bind second
  | attempt _ ih => exact ih.attempt
  | nested _ ih => exact ih.nested
  | view v blind => exact .view blind
  | look _ ih =>
      intro s s' abreast
      rw [run_bind, run_bind, run_look, run_look, andThen_some, andThen_some]
      have there := ih s.look s'.look.scanner.keywords s s' abreast
      rwa [← abreast.look.same] at there
  | env _ ih => exact fun s s' abreast => ih _ _ δ.suggest s s' abreast
  | noFailures =>
      exact fun _ _ abreast =>
        ⟨congrArg (fun failures : Array Failure => some failures.isEmpty) abreast.failures, abreast⟩
  | isRefKeyword => exact .isRefKeyword
  | isIdent => exact .isIdent
  | startsRefWithKeyword => exact .startsRefWithKeyword
  | freshWildcard stands => exact .freshWildcard stands
  | report l problem => exact .report l problem
  | hint h => exact .hint h
  | advance b => exact .advance b
  | save _ ih => exact fun s s' abreast => ih _ _ abreast.saved s s' abreast
  | restore saved => exact fun _ _ abreast => ⟨rfl, abreast.restored saved⟩
  | recallingOr _ ih => exact ih.recallingOr
  | reserving saved _ _ inside rest => exact .reserving saved inside rest
  | probing saved _ ih => exact .probing saved ih

end Parse

end RegoSyntax
