/-
# RegoSyntax.Proofs.Granting.Imports — an import clause without an error is read the same.

The path of an import is read with no word of the future reserved, and its name with all the words again.  So
that a strict task goes the same way as another one is said of either reading by itself, and it depends on what
stands behind points there.  A strict task would stop at such a point: it is known from where the clause ends
that there is none.  Therefore the judgement here is one on readings that end well (`Route.Agrees`).
-/
import RegoSyntax.Proofs.Granting.Points

namespace RegoSyntax

open Parse

/-- From an offset on words of a table are apart from what is behind them, where the table is in force.  In the
path of an import clause no word of the future is reserved; the name behind it is read with all the words
again. -/
structure KeywordTable.Separate (t : KeywordTable) (source : String) (n : Nat) : Prop where
  apart : t.Apart source n
  path : ∀ m : Cursor, m.Starts source → m.IsImport → m.offset = n →
    (t.removeAll .future).Apart source m.skip.offset
  name : ∀ m a : Cursor, m.Starts source → m.IsImport → m.offset = n → a.Starts source →
    a.lexeme.kind = .ident → a.word = Token.asKw.name → m.offset < a.offset → a.Within source m.skip.offset →
    t.Apart source a.offset

namespace Route

variable {ρ : Route} {d : Cursor} {r s t u v w x : Reading} {n : Nat} {τ σ : KeywordTable} {g : Grammar}

/-! ## The judgement

Both tasks are run from one reading, and the second does what the first does if the first ends where `P`
holds.  Nothing is said of readings that fail, since those of a strict task may fail for a point that the
other passes. -/

/-- Where a strict task ends well, another one does the same. -/
def Agrees {α : Type} (ρ : Route) (x : Parse α) (u : Reading) (Q : α → Reading → Prop) : Prop :=
  ∀ o depth journal a t, x.run ρ.env o ⟨u, depth, journal⟩ = (some a, t) → Q a t.toReading →
    x.run ρ.other o ⟨u, depth, journal⟩ = (some a, t)

namespace Agrees

variable {α β γ : Type} {clear : Prop} {F : Reading → Prop} {P P' : α → Reading → Prop}
  {Q : β → Reading → Prop}

theorem pure {a : α} : ρ.Agrees (Pure.pure a) u P := fun _ _ _ _ _ run _ => run

/-- What a task that is alike does the same, if only something is known from where it ends. -/
theorem of_yields {x : Parse α} (h : ρ.Yields clear x u F P')
    (there : ∀ a t, P' a t → P a t → clear) : ρ.Agrees x u P := fun o depth journal a t run ends => by
  obtain ⟨-, gives, same⟩ := h o depth journal
  rw [run] at gives same
  exact same (there a _ (gives a rfl) ends)

/-- One after the other.  Where the first one ends well is known from where the second one does. -/
theorem bind {x : Parse α} {f : α → Parse β} {R : α → Reading → β → Reading → Prop}
    (first : ρ.Agrees x u P) (gives : ρ.Yields clear x u F P')
    (rest : ∀ a t, P' a t → ρ.Yields False (f a) t (fun _ => True) (R a t))
    (ends : ∀ a t b s, P' a t → R a t b s → Q b s → P a t) (second : ∀ a t, P' a t → ρ.Agrees (f a) t Q) :
    ρ.Agrees (x >>= f) u Q := fun o depth journal b s run holds => by
  have gives := (gives o depth journal).2.1
  rw [run_bind] at run ⊢
  rcases there : x.run ρ.env o ⟨u, depth, journal⟩ with ⟨_ | a, ⟨t, depth', journal'⟩⟩
  · rw [there] at run
    cases run
  · rw [there] at gives run
    have run : (f a).run ρ.env o ⟨t, depth', journal'⟩ = (some b, s) := run
    have given := gives a rfl
    have onward := (rest a t given o depth' journal').2.1
    rw [run] at onward
    rw [first o depth journal a _ there (ends a t b _ given (onward b rfl) holds)]
    exact second a t given o depth' journal' b s run holds

section asking

variable {f : α → Parse β} {x : Parse γ} {h : γ → Parse α}

@[simp] theorem pure_bind_iff {a : α} : ρ.Agrees (Pure.pure a >>= f) u Q ↔ ρ.Agrees (f a) u Q := Iff.rfl

@[simp] theorem bind_bind_iff :
    ρ.Agrees ((x >>= h) >>= f) u Q ↔ ρ.Agrees (x >>= fun c => h c >>= f) u Q := by
  rw [bind_assoc]

@[simp] theorem token_iff {f : Token → Parse β} :
    ρ.Agrees (token >>= f) u Q ↔ ρ.Agrees (f u.look.token) u Q := Iff.rfl

@[simp] theorem location_iff {f : Location → Parse β} :
    ρ.Agrees (location >>= f) u Q ↔ ρ.Agrees (f u.look.location) u Q := Iff.rfl

@[simp] theorem save_iff {f : Snapshot → Parse β} :
    ρ.Agrees (save >>= f) u Q ↔ ρ.Agrees (f u.save) u Q := Iff.rfl

@[simp] theorem upToLastStop_iff {l : Location} {f : Location → Parse β} :
    ρ.Agrees (upToLastStop l >>= f) u Q ↔
      ρ.Agrees (f { l with text := u.look.text l.offset u.look.lastStop }) u Q := Iff.rfl

end asking

/-- Where a strict task fails, nothing is said of another one. -/
theorem of_fails {x : Parse β} (h : ρ.Yields False x u (fun _ => True) fun _ _ => False) :
    ρ.Agrees x u Q := fun o depth journal b s run _ => by
  have gives := (h o depth journal).2.1
  rw [run] at gives
  exact (gives b rfl).elim

/-- A parser is as good as another one that does the same. -/
theorem of_run_eq {x y : Parse α} {u' : Reading}
    (same : ∀ env o depth journal, ρ.env.Alike env →
      x.run env o ⟨u, depth, journal⟩ = y.run env o ⟨u', depth, journal⟩)
    (h : ρ.Agrees y u' P) : ρ.Agrees x u P := fun o depth journal a t run ends => by
  rw [same ρ.env o depth journal (.refl _)] at run
  rw [same ρ.other o depth journal ρ.alike]
  exact h o depth journal a t run ends

@[simp] theorem advance_iff {b : Bool} {f : Unit → Parse β} :
    ρ.Agrees (Parse.advance b >>= f) u Q ↔ ρ.Agrees (f ()) (u.passing ρ.env b) Q := by
  have same (env : Env) (o : Settings) (depth : Nat) (journal : List (Question × Bool))
      (alike : ρ.env.Alike env) : (Parse.advance b >>= f).run env o ⟨u, depth, journal⟩ =
        (f ()).run env o ⟨u.passing ρ.env b, depth, journal⟩ := by
    rw [run_bind, run_advance, andThen_some, alike.next]
    rfl
  exact ⟨of_run_eq fun env o depth journal alike => (same env o depth journal alike).symm, of_run_eq same⟩

/-- Behind the keyword of a clause and the identifier that its path starts with. -/
theorem clause_bind {keyword : Token} {note : Note} {f : Bool → Parse β} (strict : ρ.env.Strict)
    (absent : f false = (do unexpected note; Parse.fail))
    (path : ∀ w, ρ.Names keyword u w → ρ.Agrees (f true) w Q) :
    ρ.Agrees (do clauseKeyword keyword; let b ← isIdent; f b) u Q := by
  unfold clauseKeyword
  rw [bind_bind_iff, token_iff]
  split
  · exact of_fails (.fail trivial)
  · next same =>
      have same : u.look.token = keyword := by simpa using same
      dsimp only
      rw [bind_bind_iff, scanBlank, advance_iff, bind_bind_iff, token_iff]
      split
      · exact of_fails (.fail trivial)
      · next apart =>
          have apart : continuesRef (u.passing ρ.env false).look.token = false := by simpa using apart
          rw [scan, advance_iff]
          unfold isIdent
          rw [bind_bind_iff, token_iff]
          split
          · next ident => exact path _ ⟨same, apart, .inl rfl, beq_iff_eq.1 ident⟩
          -- a strict task does not read keywords as identifiers, so it fails here
          · refine of_fails ?_
            rw [Yields.bind_bind_iff]
            refine Yields.isRefKeyword_bind False.elim ?_
            rw [if_neg (by rw [strict.refuses]; decide), Yields.pure_bind_iff, absent]
            exact Yields.unexpected_fail.weaken (fun _ _ => trivial) fun _ _ => id

end Agrees

/-! ## Clauses

Between two statements the words that are reserved stand apart.  In an import clause the table is another
one for a while, so what stands apart is told again for the path and for the name. -/

open Takes (Closed)

/-- What is known of a strict task that stands between two statements and has met no error. -/
structure Poised (ρ : Route) (u : Reading) : Prop where
  seated : ρ.Seated u
  clean : u.failures = #[]
  spaced : ρ.Spaced u.look.offset u.look.scanner.keywords u
  halts : u.memo.Halts ρ.source
  heeds : ρ.Heeds (Post.of u.look) u
  separate : u.look.scanner.keywords.Separate ρ.source u.look.offset

/-- A strict task starts the path of a clause with an identifier. -/
theorem Names.look {keyword : Token} (names : ρ.Names keyword u w) (strict : ρ.env.Strict) :
    w.look = (Parse.next ρ.env true (Parse.next ρ.env false u.look).look).look := by
  rcases names.path with plain | ⟨allowed, -⟩
  · rw [plain, Reading.passing_look, Reading.passing_look]
  · rw [strict.refuses] at allowed
    cases allowed

namespace Poised

/-- The word at which an import clause starts. -/
theorem clause (poised : ρ.Poised u) (importKw : u.look.token = .importKw) :
    ∃ m, u.look.At ρ.source m ∧ m.IsImport := by
  obtain ⟨m, at', -⟩ := poised.seated.look
  have name : m.word = u.look.token.name := at'.word (by rw [importKw]; decide)
  refine ⟨m, at', at'.kind_of_word (by rw [importKw]; decide), ?_⟩
  rw [name, importKw]
  decide +kernel

variable (strict : ρ.env.Strict) (poised : ρ.Poised u) (names : ρ.Names .importKw u w)

include strict poised names

/-- The path of a clause starts before the next clause does. -/
theorem le_clause {m : Cursor} (starts : m.Starts ρ.source) (clause : m.IsImport)
    (lt : u.look.offset < m.offset) : w.look.offset ≤ m.offset := by
  have ok := (ok_next poised.seated.look false).1
  have major := Cursor.significant_of_ident clause.1
  rw [names.look strict]
  refine next_le ok true starts major (Nat.lt_of_le_of_ne ?_ fun here => ?_)
  · exact next_le poised.seated.look false starts major lt
  · -- no word stands right behind a word
    have token := clause_next poised.seated.look false poised.spaced.based m starts clause here
    refine next_not_word (ρ := ρ) poised.seated.look (by rw [names.keyword]; decide) ?_
    rw [token]
    decide

/-- The path of a clause is read from a place from which words of its table are apart. -/
theorem path : ρ.Spaced w.look.offset (u.look.scanner.keywords.removeAll .future) (Narrowed w) := by
  obtain ⟨m, at', clause⟩ := poised.clause names.keyword
  have filled : m.rest ≠ [] := Cursor.filled_of_ident clause.1
  have ok := (ok_next poised.seated.look false).1
  have behind : m.skip.offset ≤ w.look.offset := by
    rw [names.look strict]
    exact (skip_le_next at' false).trans (ok_next ok true).2.1
  -- -- were a clause to begin at this token, it would show its keyword
  have token (m' : Cursor) (starts : m'.Starts ρ.source) (clause' : m'.IsImport)
      (here : w.look.offset = m'.offset) : w.look.token = .importKw := by
    rw [names.look strict] at here ⊢
    exact clause_next ok true ((keywords_next poised.seated.look false).symm ▸ poised.spaced.based) m'
      starts clause' here
  refine ⟨poised.spaced.narrow, poised.spaced.based.removeAll, ?_, Nat.le_refl _, ⟨?_, ?_, fun _ _ _ => id, ?_⟩,
    fun _ he => absurd he List.not_mem_nil⟩
  · refine (poised.separate.path m at'.starts clause at'.offset.symm).since behind fun m' starts clause' since =>
      poised.le_clause strict names starts clause' ?_
    rw [at'.offset]
    exact (Cursor.offset_lt_skip filled).trans_le since
  · exact congrArg (KeywordTable.removeAll · .future) (names.keywords poised.seated)
  · intro future
    have future : w.look.token.isFutureKeyword = true := future
    rw [names.ident] at future
    cases future
  -- -- the path begins with an identifier, so no clause begins here
  · intro m' starts clause' here
    cases names.ident.symm.trans (token m' starts clause' here)

omit strict in
/-- Where the path of a clause ends well, another task reads it the same. -/
theorem path_clear (narrows : ρ.Narrows w x)
    (ends : ρ.Ends (u.look.scanner.keywords.removeAll .future) x) : ρ.Clear (Narrowed w) := fun strict =>
  have path := poised.path strict names
  have stops := (narrows.goes.leads.stops poised.spaced.narrow strict narrows.goes.start path.reserves
    fun _ he => absurd he List.not_mem_nil).2
  ⟨_, _, path, (ends.back stops narrows.strides.le).noSegment⟩

omit strict in
/-- What is remembered ends before the clause. -/
theorem remembers_before : ∀ e ∈ w.memo.entries, e.offset < w.look.offset := fun e he =>
  (poised.heeds.clause (.inl names.keyword) names.apart e (names.memo ▸ he)).trans_lt
    (names.strides poised.seated (by decide))

/-- The name of a clause is read from a place from which words are apart. -/
theorem name (narrows : ρ.Narrows w x) (asKw : (Closed w x).look.token = .asKw) :
    ρ.Spaced ((Closed w x).passing ρ.env true).look.offset u.look.scanner.keywords
      ((Closed w x).passing ρ.env true) := by
  have there := names.seated poised.seated
  have closed := narrows.seated there
  have table : (Closed w x).look.scanner.keywords = u.look.scanner.keywords := names.keywords poised.seated
  have ahead := le_passing closed true
  obtain ⟨m, at', clause⟩ := poised.clause names.keyword
  -- the keyword behind the path is a word of the source, whatever table is in force
  obtain ⟨a, at'', -⟩ := id closed.look
  have kind := at''.kind_of_word (by rw [asKw]; decide)
  have word : a.word = (Closed w x).look.token.name := at''.word (by rw [asKw]; decide)
  have here : a.offset = x.look.offset := at''.offset.symm
  have within : a.Within ρ.source m.skip.offset := fun m' starts clause' since => by
    have lt := (Cursor.offset_lt_skip (Cursor.filled_of_ident clause.1)).trans_le since
    rw [← at'.offset] at lt
    rw [here]
    exact (narrows.goes.leads.spaced narrows.goes.start strict (poised.path strict names)).bounded.look.within
      m' starts clause' (poised.le_clause strict names starts clause' lt)
  have apart := poised.separate.name m a at'.starts clause at'.offset.symm at''.starts kind (asKw ▸ word)
    (by rw [← at'.offset, here]; exact (names.strides poised.seated (by decide)).trans narrows.strides) within
  rw [← table] at apart ⊢
  refine Spaced.of_next poised.spaced.narrow closed true (table ▸ poised.spaced.based) (apart.since
    (at''.offset ▸ ahead) fun m' starts clause' since => ?_) fun e he => ?_
  -- a clause cannot start at that keyword
  · rw [Reading.passing_look]
    refine next_le closed.look true starts (Cursor.significant_of_ident clause'.1) ?_
    rw [at''.offset]
    refine Nat.lt_of_le_of_ne since fun same => ?_
    obtain rfl := at''.starts.eq_of_offset starts same
    rw [clause'.2, asKw] at word
    exact absurd word (by decide +kernel)
  · exact (poised.remembers_before names e he).trans (narrows.strides.trans_le ahead)

/-- A strict task does not get past a barrier with the name of a clause. -/
theorem name_stops (narrows : ρ.Narrows w x) (renames : ρ.Renames (Closed w x) v) :
    ρ.Stops u.look.scanner.keywords ((Closed w x).passing ρ.env true) v := by
  have spaced := poised.name strict names narrows renames.asKw
  refine (renames.goes.leads.stops spaced.narrow strict renames.goes.start spaced.reserves ?_).2
  exact fun e he => poised.halts e (names.memo ▸ he)

end Poised

/-! ## Import clauses that end well

The clause ends well only if none of its words was followed by a point or a bracket; so the task to which
the feature is granted finds nothing to take for a name. -/

section clauses

variable {allowed : KeywordTable} (h : Keeps g) (strict : ρ.env.Strict) (poised : ρ.Poised u)

include h strict poised

omit strict in
/-- What stands behind the path of an import clause is read the same. -/
theorem importEnd_agrees (names : ρ.Names .importKw u w) (narrows : ρ.Narrows w x) (place : Location)
    (path : Term) (r : Ref) :
    ρ.Agrees (Parse.importEnd g place path r) (Closed w x) fun _ v => ρ.Ends u.look.scanner.keywords v := by
  have closed := narrows.seated (names.seated poised.seated)
  have returns (name : Option String) (v : Reading) : ρ.Yields False (do
      return (⟨path, name, some (← upToLastStop place)⟩ : Import)) v (fun _ => True) fun _ s => s = v := by
    rw [Yields.upToLastStop_iff]
    exact .pure rfl
  unfold Parse.importEnd
  dsimp only
  split
  · refine Agrees.of_fails ?_
    rw [Yields.hint_iff]
    exact Yields.report_fail.weaken (fun _ _ => trivial) fun _ _ => id
  · rw [Agrees.token_iff]
    split
    -- -- an alias is one more name, with no segment behind it
    · next asKw =>
        have asKw := beq_iff_eq.1 asKw
        have yields := importAlias_yields h closed asKw
        refine Agrees.bind (.of_yields yields fun _ v renames ends strict => ?_) yields
          (fun name v _ => returns (some name) v) (fun _ _ _ _ _ same ends => same ▸ ends) fun name v _ => ?_
        · have spaced := poised.name strict names narrows asKw
          exact ⟨_, _, spaced,
            (ends.back (poised.name_stops strict names narrows renames) renames.strides.le).noSegment⟩
        · rw [Agrees.upToLastStop_iff]
          exact .pure
    -- -- no alias: the last segment may be checked, and no token is taken
    · split
      · have yields := checkLastSegment_yields (ρ := ρ) (u := Closed w x) path r
        refine Agrees.bind (P := fun _ _ => True) (.of_yields yields fun _ _ _ _ => trivial) yields
          (fun _ v _ => returns none v) (fun _ _ _ _ _ _ _ => trivial) fun _ v _ => ?_
        rw [Agrees.upToLastStop_iff]
        exact .pure
      · rw [Agrees.upToLastStop_iff]
        exact .pure

/-- An import clause that ends well is read the same. -/
theorem importClause_agrees :
    ρ.Agrees (Parse.importClause g) u fun _ v => ρ.Ends u.look.scanner.keywords v := by
  rw [Parse.importClause_eq, Agrees.location_iff]
  refine Agrees.clause_bind strict rfl fun w names => ?_
  have there := names.seated poised.seated
  have yields := importPath_yields h there
  show ρ.Agrees (Parse.importPath g >>= fun p => Parse.importEnd g u.look.location p.1 p.2) w _
  refine Agrees.bind (P := fun _ v => ρ.Ends (u.look.scanner.keywords.removeAll .future) v)
    (R := fun _ v _ s => Grows v.failures s.failures ∧ (Same v s ∨ ρ.Renames v s))
    (.of_yields yields ?_) yields (fun p v given => ?_) ?_ fun p v given => ?_
  -- a path that ends well is clear of the words that are reserved behind it
  · rintro - v ⟨x, narrows, rfl⟩ ends
    exact poised.path_clear names narrows ⟨ends.clean, ends.noSegment⟩
  · obtain ⟨x, narrows, rfl⟩ := given
    exact (importEnd_yields h (narrows.seated there) _ p.1 p.2).weaken (fun _ _ => trivial)
      fun _ _ => And.imp_right (Or.imp And.right And.right)
  -- from the end of the clause back to the end of its path
  · rintro p - i s ⟨x, narrows, rfl⟩ ⟨grows, behind⟩ ends
    have closed := narrows.seated there
    refine (ends.back ?_ ?_).mono fun _ => KeywordTable.contains_removeAll
    · rcases behind with same | renames
      · exact .of_offset grows.size_le same.offset
      · exact (Stops.passing closed true (by rw [renames.asKw]; decide)).trans
          (poised.name_stops strict names narrows renames)
    · rcases behind with same | renames
      · exact same.offset.ge
      · exact (le_passing closed true).trans renames.strides.le
  · obtain ⟨x, narrows, rfl⟩ := given
    exact importEnd_agrees h poised names narrows _ p.1 p.2

end clauses

end Route

end RegoSyntax
