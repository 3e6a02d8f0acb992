/-
# RegoSyntax.Proofs.Printing.Queries — the words of a source that is nothing but queries.

In the current dialect all words of the language are reserved from the start, so a variable that a query is
read with is none of them.  Only the clauses for packages and imports take reserved words for names, or free
words again; and they say so: a clause that is given up without an error has been given up at its keyword.
So a source whose statements are all queries has been read with all words reserved.

A parser `Blames` if it leaves an error wherever it fails, and it `GivesWay` if it leaves an error or has
come no further than it may be taken back.  Clauses blame from their keyword on (`GivesWay.clause`).  So
of the three readings of a statement the first two have been given up at their keyword, when the third one
gives a query and there is no error (`Task.reads_query`); and a run that has read nothing but queries has
never freed a word (`Run.Asking`).
-/
import RegoSyntax.Proofs.Outcome
import RegoSyntax.Proofs.Printing.Printed

namespace RegoSyntax

open Parse

/-! ## Parsers that blame -/

namespace Course

/-- A parser that fails leaves an error. -/
def Blames {α : Type} (k : Course) (x : Parse α) (u : Reading) : Prop :=
  ∀ o depth journal, (x.run k.env o ⟨u, depth, journal⟩).1 = none →
    (x.run k.env o ⟨u, depth, journal⟩).2.failures ≠ #[]

namespace Blames

variable {k : Course} {α β : Type} {u : Reading} {x : Parse α} {f : α → Parse β}
variable {l : Location} {problem : Problem} {note : Note}

/-- To give something is not to fail. -/
theorem pure {a : α} : k.Blames (Pure.pure a) u := fun _ _ _ failed => nomatch failed

/-- Parsers that blame do so one after the other. -/
theorem bind (first : k.Blames x u) (rest : ∀ a t, k.Blames (f a) t) : k.Blames (x >>= f) u := by
  intro o depth journal failed
  have first := first o depth journal
  rw [run_bind] at failed ⊢
  rcases h : x.run k.env o ⟨u, depth, journal⟩ with ⟨_ | a, ⟨t, depth', journal'⟩⟩
  · rw [h] at first
    exact first rfl
  · rw [h] at failed
    exact rest a t o depth' journal' failed

/-- What is read without an error may be used. -/
theorem bind_reads {P : α → Reading → Prop} (first : k.Blames x u) (reads : k.Reads u x u P)
    (rest : ∀ a t, k.Later u t → (t.failures = #[] → P a t) → k.Blames (f a) t) :
    k.Blames (x >>= f) u := by
  intro o depth journal failed
  have first := first o depth journal
  have reads := reads o depth journal
  rw [run_bind] at failed ⊢
  rcases h : x.run k.env o ⟨u, depth, journal⟩ with ⟨_ | a, ⟨t, depth', journal'⟩⟩
  · rw [h] at first
    exact first rfl
  · rw [h] at failed reads
    exact rest a t reads.1 (fun clean => reads.2 a rfl (by rw [clean]; exact Nat.zero_le _))
      o depth' journal' failed

/-- To report and fail is to blame. -/
theorem report_fail : k.Blames (Parse.report l problem >>= fun _ => (Parse.fail : Parse α)) u :=
  fun _ _ _ _ => Array.push_ne_empty

/-- To report at the present token and fail is to blame. -/
theorem reportHere_fail :
    k.Blames (Parse.reportHere problem >>= fun _ => (Parse.fail : Parse α)) u :=
  fun _ _ _ _ => Array.push_ne_empty

/-- To report that a token is not expected is to blame. -/
theorem unexpected_fail : k.Blames (Parse.unexpected note >>= fun _ => (Parse.fail : Parse α)) u := by
  unfold Parse.unexpected
  intro o depth journal
  rw [run_bind, run_bind, run_token, andThen_some]
  split
  · exact reportHere_fail (k := k) o depth journal
  · exact reportHere_fail (k := k) o depth journal

/-- Where a path is missing there is an error. -/
theorem missingPath : k.Blames (Parse.missingPath : Parse α) u := by
  unfold Parse.missingPath
  intro o depth journal
  rw [run_bind, run_noFailures, andThen_some]
  split
  · exact reportHere_fail (k := k) o depth journal
  · next some => exact fun _ none => some (by rw [show u.failures = #[] from none]; rfl)

/-- A segment that is no string is reported. -/
theorem stringSegments (r : Ref) : k.Blames (Parse.stringSegments r) u := by
  induction r with
  | nil => exact pure
  | cons t r ih =>
      unfold Parse.stringSegments
      split
      · exact ih
      · exact report_fail

/-- A parser that always gives something. -/
theorem of_given (given : ∀ env o s, ∃ a, (x.run env o s).1 = some a) : k.Blames x u := by
  intro o depth journal failed
  obtain ⟨a, same⟩ := given k.env o ⟨u, depth, journal⟩
  rw [same] at failed
  cases failed

/-- Whether there is a name is always told. -/
theorem isIdent : k.Blames Parse.isIdent u := of_given fun env o s => by
  unfold Parse.isIdent
  rw [run_bind, run_token, andThen_some]
  split
  · exact ⟨_, rfl⟩
  · have allowed : ∃ b, Parse.isRefKeyword.run env o s = (some b, s) := ⟨_, rfl⟩
    obtain ⟨b, same⟩ := allowed
    rw [run_bind, same, andThen_some]
    split
    · exact ⟨_, rfl⟩
    · exact ⟨_, rfl⟩

/-- An attempt does not fail. -/
theorem attempt : k.Blames (Parse.attempt x) u := of_given fun _ _ _ => ⟨_, rfl⟩

/-- To go on does not fail. -/
theorem scan : k.Blames Parse.scan u := of_given fun env o s => ⟨(), goes_advance true env o s⟩

/-! ### Packages -/

/-- A path of a package that has no head would fail without an error; what is read without an error has
one. -/
theorem packagePath {r : Ref} (filled : u.failures = #[] → r ≠ []) :
    k.Blames (Parse.packagePath r) u := by
  unfold Parse.packagePath
  cases r with
  | nil => exact fun _ _ _ _ none => filled none rfl
  | cons head rest =>
      rw [List.head?_cons]
      show k.Blames (_ >>= _) u
      refine bind pure fun head t => ?_
      split
      · exact bind (stringSegments _) fun _ _ => pure
      · exact report_fail

/-! ### Imports -/

/-- The path of an import is reported, if it is none. -/
theorem importPath {g : Grammar} : k.Blames (Parse.importPath g) u := by
  unfold Parse.importPath
  refine bind (of_given fun _ _ _ => ⟨_, rfl⟩) fun a t => ?_
  split
  · split
    · exact pure
    · exact bind (stringSegments _) fun _ _ => pure
    · exact reportHere_fail
  · exact missingPath

/-- The name of an import is reported, if it is none. -/
theorem importAlias {g : Grammar} : k.Blames (Parse.importAlias g) u := by
  unfold Parse.importAlias
  refine bind scan fun _ t₁ => bind (of_given fun _ _ _ => ⟨_, rfl⟩) fun kind t₂ => ?_
  split
  · exact unexpected_fail
  · refine bind attempt fun a t₃ => ?_
    split
    · exact pure
    · exact unexpected_fail

/-- The last segment of a path is checked without failing. -/
theorem checkLastSegment {t : Term} {r : Ref} : k.Blames (Parse.checkLastSegment t r) u := by
  unfold Parse.checkLastSegment
  refine bind (of_given fun _ _ _ => ⟨_, rfl⟩) fun env t => ?_
  split
  · exact of_given fun _ _ _ => ⟨_, rfl⟩
  · exact pure

/-- An import is applied without failing. -/
theorem applyImport {i : Import} {allowed : KeywordTable} :
    k.Blames (Parse.applyImport i allowed) u := by
  unfold Parse.applyImport
  dsimp only
  split
  · refine bind (of_given fun _ _ _ => ⟨_, rfl⟩) fun env t => ?_
    rcases regoWords i (i.path.value.ref?.getD []) env with problem | words <;>
      exact of_given fun _ _ _ => ⟨_, rfl⟩
  · split
    · rcases futureWords i (i.path.value.ref?.getD []) allowed with problem | words <;>
        exact of_given fun _ _ _ => ⟨_, rfl⟩
    · exact pure

end Blames

/-! ## Clauses that give way -/

/-- The course of the current dialect, in which all words of the language are reserved. -/
def current (source : String) (env : Env) : Course where
  source
  env
  table t := t = .current
  names := Unreserved
  known same := same ▸ KeywordTable.known_current
  extend same := same ▸ KeywordTable.current_extend
  free same none := by rwa [same] at none

/-- A parser that fails without an error has come no further on a course than it may be taken back. -/
def GivesWay {α : Type} (k : Course) (x : Parse α) (u : Reading) : Prop :=
  ∀ o depth journal, (x.run k.env o ⟨u, depth, journal⟩).1 = none →
    (x.run k.env o ⟨u, depth, journal⟩).2.failures = #[] →
      k.Later u (x.run k.env o ⟨u, depth, journal⟩).2.toReading

namespace GivesWay

variable {source : String} {env : Env} {α β : Type} {u : Reading} {g : Grammar}

/-- To look where the parser is changes nothing. -/
theorem location_iff {f : Location → Parse β} {k : Course} :
    k.GivesWay (location >>= f) u ↔ k.GivesWay (f u.look.location) u := Iff.rfl

/-- A clause that leaves an error wherever it fails behind its keyword gives way. -/
theorem clause {keyword : Token} {f : Unit → Parse α} (fine : (current source env).Fine u)
    (there : (whole source env).Fine u)
    (rest : ∀ t, (whole source env).Later u t → (whole source env).Blames (f ()) t) :
    (current source env).GivesWay (clauseKeyword keyword >>= f) u := by
  intro o depth journal failed clean
  have began := (Keeps.clauseKeyword fine keyword o depth journal).1
  have later := (Keeps.clauseKeyword there keyword o depth journal).1
  rw [run_bind] at failed clean ⊢
  rw [show (current source env).env = env from rfl] at *
  rw [show (whole source env).env = env from rfl] at later
  rcases h : (clauseKeyword keyword).run env o ⟨u, depth, journal⟩ with ⟨_ | a, ⟨t, depth', journal'⟩⟩
  · rw [h] at began
    exact began
  · rw [h] at failed clean later
    exact absurd clean (rest t later o depth' journal' failed)

/-- A package clause gives way. -/
theorem package (keeps : (whole source env).Keeps g) (fine : (current source env).Fine u)
    (there : (whole source env).Fine u) : (current source env).GivesWay (Parse.package g) u := by
  have wide := whole_wide source env
  unfold Parse.package
  rw [location_iff]
  refine clause fine there fun t₁ l₁ => ?_
  refine .bind_reads .isIdent (Keeps.isIdent wide l₁.fine) fun b t₂ l₂ _ => ?_
  split
  · exact .unexpected_fail
  refine .bind_reads .attempt (.attempt (Keeps.wholeTerm keeps l₂.fine)) fun a t₃ l₃ read => ?_
  split
  · next t =>
      split
      · exact .bind (.packagePath fun _ => List.cons_ne_nil _ _) fun _ _ => .of_given fun _ _ _ => ⟨_, rfl⟩
      · next r ref =>
          -- ?_) => the path that was read has a head, because the term was read without an error
          refine .bind (.packagePath fun clean => ?_) fun _ _ => .of_given fun _ _ _ => ⟨_, rfl⟩
          obtain ⟨own, -⟩ := Term.formed_iff.1 (read clean t rfl).2
          rw [ref] at own
          obtain ⟨head, segments, rfl, -⟩ := own
          exact List.cons_ne_nil _ _
      · exact .unexpected_fail
  · exact .missingPath

/-- What comes behind a clause leaves an error too, if it fails. -/
theorem bind {k : Course} {x : Parse α} {f : α → Parse β} (first : k.GivesWay x u)
    (rest : ∀ a t, k.Blames (f a) t) : k.GivesWay (x >>= f) u := by
  intro o depth journal failed clean
  have first := first o depth journal
  rw [run_bind] at failed clean ⊢
  rcases h : x.run k.env o ⟨u, depth, journal⟩ with ⟨_ | a, ⟨t, depth', journal'⟩⟩
  · rw [h] at first clean
    exact first rfl clean
  · rw [h] at failed clean
    exact absurd clean (rest a t o depth' journal' failed)

/-- An import clause gives way. -/
theorem importClause (fine : (current source env).Fine u) (there : (whole source env).Fine u) :
    (current source env).GivesWay (Parse.importClause g) u := by
  unfold Parse.importClause
  rw [location_iff]
  refine clause fine there fun t₁ _ => ?_
  refine .bind .isIdent fun b t₂ => ?_
  split
  · exact .unexpected_fail
  refine .bind .importPath fun p t₃ => ?_
  obtain ⟨t, r⟩ := p
  dsimp only
  split
  · exact .bind (.of_given fun _ _ _ => ⟨_, rfl⟩) fun _ _ => .report_fail
  · refine .bind (.of_given fun _ _ _ => ⟨_, rfl⟩) fun kind t₄ => ?_
    split
    · exact .bind .importAlias fun _ _ => .of_given fun _ _ _ => ⟨_, rfl⟩
    · split
      · exact .bind .checkLastSegment fun _ _ => .of_given fun _ _ _ => ⟨_, rfl⟩
      · exact .of_given fun _ _ _ => ⟨_, rfl⟩

/-- An import gives way, whatever it reserves. -/
theorem importStatement (fine : (current source env).Fine u) (there : (whole source env).Fine u)
    (allowed : KeywordTable) :
    (current source env).GivesWay (Parse.importStatement g allowed) u :=
  bind (importClause fine there) fun _ _ => .bind .applyImport fun _ _ => .pure

end GivesWay

end Course

/-! ## Queries -/

/-- Whether a statement is a query. -/
def Statement.isQuery : Statement → Bool
  | .body _ => true
  | _ => false

/-- Where a statement that is tried first is no query, and queries have been read, the statement has been
given up without an error. -/
theorem Parse.orElse_query {α : Type} {x : Parse α} {y : Parse (List Statement)} {wrap : α → Statement}
    (other : ∀ a, (wrap a).isQuery = false) {start : Snapshot} {env : Env} {o : Settings}
    {s t : ParseState} {ss : List Statement} (queries : ∀ q ∈ ss, q.isQuery = true)
    (h : (orElse start (do return [wrap (← x)]) y).run env o s = (some ss, t)) :
    ∃ v, x.run env o s = (none, v) ∧ v.failures = #[] ∧
      y.run env o ⟨v.toReading.restore start, v.depth, v.journal⟩ = (some ss, t) := by
  unfold orElse at h
  rw [run_bind, run_attempt, andThen_some, run_bind] at h
  rcases first : x.run env o s with ⟨_ | a, v⟩ <;> rw [first] at h
  · rw [andThen_none] at h
    dsimp only at h
    rw [run_bind, run_noFailures, andThen_some] at h
    split at h
    · next clean => exact ⟨v, rfl, Array.isEmpty_iff.1 clean, h⟩
    · cases h
  · obtain rfl : [wrap a] = ss := Option.some.inj (congrArg Prod.fst h)
    have query := queries _ List.mem_cons_self
    rw [other] at query
    cases query

/-- What a reading is known to keep on a course gives way on it. -/
theorem Course.GivesWay.of_reads {k : Course} {α : Type} {x : Parse α} {u : Reading}
    {P : α → Reading → Prop} (reads : k.Reads u x u P) : k.GivesWay x u :=
  fun o depth journal _ _ => (reads o depth journal).1

/-- A reading that gives way comes back to where it started. -/
theorem Course.GivesWay.back {k : Course} {α : Type} {x : Parse α} {w u : Reading}
    {o : Settings} {depth : Nat} {journal : List (Question × Bool)} {v : ParseState}
    (h : k.GivesWay x u) (fine : k.Fine w) (back : k.Back w u)
    (run : x.run k.env o ⟨u, depth, journal⟩ = (none, v)) (clean : v.failures = #[]) :
    k.Back w (v.toReading.restore w.save) := by
  have later := h o depth journal
  rw [run] at later
  have later := (back.later fine).trans (later rfl clean)
  obtain ⟨more, added, -⟩ := later.comments
  exact ⟨⟨fine.stands, later.fine.memo⟩, rfl, later.failures.take, Grows.take ⟨more, added⟩⟩

namespace Task

variable {t : Task}

/-- A statement that is a query has been read on the course of the current dialect. -/
theorem reads_query {u : Reading} (skips : t.skipRules = true)
    (fine : (Course.current t.source t.env).Fine u) (there : t.course.Fine u) {o : Settings}
    {depth : Nat} {journal : List (Question × Bool)} {ss : List Statement} {s : ParseState}
    (run : t.statement.run t.env o ⟨u, depth, journal⟩ = (some ss, s)) (clean : s.failures = #[])
    (queries : ∀ q ∈ ss, q.isQuery = true) :
    (Course.current t.source t.env).Fine s.toReading ∧ ∀ q ∈ ss, q.Formed Unreserved := by
  unfold Task.statement Parse.statement at run
  rw [run_bind, run_save, andThen_some] at run
  have keeps (k : Course) : k.Keeps t.grammar := Course.Keeps.grammar k _
  -- rfl) queries run => the package clause was given up
  obtain ⟨v, failed, none, run⟩ := orElse_query (fun _ => rfl) queries run
  have back := (Course.GivesWay.package (keeps _) fine there).back fine ⟨fine, rfl, rfl, rfl⟩ failed none
  have back' := (Course.GivesWay.of_reads (Course.Keeps.package (keeps _) (Course.whole_wide _ _) there)).back
    there ⟨there, rfl, rfl, rfl⟩ failed none
  obtain ⟨v', failed, none, run⟩ := orElse_query (fun _ => rfl) queries run
  have back := (Course.GivesWay.importStatement back.fine back'.fine t.words.allowed).back fine back
    failed none
  -- the import was given up as well, and rules are not tried
  rw [definitionStatement, if_pos skips] at run
  have reads := Course.Keeps.queryStatement (keeps (.current t.source t.env)) back.fine o v'.depth
    v'.journal
  rw [show (Course.current t.source t.env).env = t.env from rfl] at reads
  obtain ⟨later, holds⟩ := reads
  rw [run] at later holds
  exact ⟨later.fine, (holds ss rfl (by rw [clean]; exact Nat.zero_le _)).formed⟩

end Task

/-- The words that are reserved at the first token. -/
theorem Task.start_words {t : Task} {c : Cursor}
    (walk : Walk t.source t.env true (Cursor.start t.source.toList) c (.bare (leave t.opening.look))
      (next t.env true t.opening.look))
    (words : KeywordTable.base.extend t.words.selected = .current) :
    (next t.env true t.opening.look).look.scanner.keywords = .current := by
  rw [walk.keywords, ← words, ParseState.bare, leave_scanner]
  rfl

namespace Run

variable {t : Task} {r : Run}

/-- If there is no error and no statement but queries, the queries are formed of words that are not
reserved. -/
def Asks (r : Run) : Prop :=
  r.state.failures = #[] → (∀ q ∈ r.statements, q.isQuery = true) → ∀ q ∈ r.statements, q.Formed Unreserved

/-- What is so between two statements. -/
structure Asking (t : Task) (r : Run) : Prop where
  sound : r.Sound t
  asks : r.Asks
  fine : r.state.failures = #[] → (∀ q ∈ r.statements, q.isQuery = true) →
    (Course.current t.source t.env).Fine r.state.toReading

/-- At the first token nothing has been read and all words are reserved. -/
theorem asking_start (known : t.words.selected.Known)
    (words : KeywordTable.base.extend t.words.selected = .current) : (Run.start t).Asking t := by
  refine ⟨Task.sound_start known, fun _ _ => List.forall_mem_nil _, fun _ _ => ?_⟩
  obtain ⟨c, walk, start⟩ := Task.start_walk known
  have reserved := Task.start_words walk words
  show (Course.current t.source t.env).Fine t.start.toReading
  rw [start]
  refine ⟨⟨c, walk.at', walk.solid, reserved, fun ident => .inl ?_⟩, List.forall_mem_nil _⟩
  have free := (Course.get?_of_shown (walk.exact ▸ ident) walk.at'.known).2
  rwa [reserved] at free

/-- A statement that is no query ends the claim, and a query keeps it. -/
theorem step_asks (skips : t.skipRules = true) (known : t.words.allowed.Known) (h : r.Asking t) :
    (r.step t).1.Asks ∧ ((r.step t).2 = true → (r.step t).1.Asking t) := by
  have sound := Task.sound_step known h.sound
  unfold Run.step at sound ⊢
  split
  · exact ⟨h.asks, (by cases ·)⟩
  next begun =>
  rw [if_neg begun] at sound
  have later := (Task.reads_statement known h.sound.fine t.settings r.state.depth r.state.journal).1
  have here : (⟨r.state.toReading, r.state.depth, r.state.journal⟩ : ParseState) = r.state := rfl
  rw [here, show t.course.env = t.env from rfl] at later
  rcases run : t.statement.run t.env t.settings r.state with ⟨a, s⟩
  rw [run] at sound later
  have clean (none : s.failures = #[]) : r.state.failures = #[] := by
    have grows := later.failures.size_le
    rw [none] at grows
    exact Array.size_eq_zero_iff.1 (Nat.le_zero.1 grows)
  cases a with
  | none => exact ⟨fun none => h.asks (clean none), (by cases ·)⟩
  | some read =>
      -- without an error now there was none before
      have reads (none : s.failures = #[]) (queries : ∀ q ∈ r.statements ++ read, q.isQuery = true) :
          (Course.current t.source t.env).Fine s.toReading ∧
            ∀ q ∈ r.statements ++ read, q.Formed Unreserved := by
        obtain ⟨before, new⟩ := List.forall_mem_append.1 queries
        obtain ⟨fine, formed⟩ :=
          Task.reads_query skips (h.fine (clean none) before) h.sound.fine run none new
        exact ⟨fine, List.forall_mem_append.2 ⟨h.asks (clean none) before, formed⟩⟩
      have asks : Asks ⟨r.statements ++ read, s⟩ := fun none queries => (reads none queries).2
      exact ⟨asks, fun _ => ⟨sound, asks, fun none queries => (reads none queries).1⟩⟩

end Run

/-- The queries of a source that is nothing but queries are formed of words that are not reserved. -/
theorem Task.run_asks {t : Task} (skips : t.skipRules = true) (allowed : t.words.allowed.Known)
    (selected : t.words.selected.Known)
    (words : KeywordTable.base.extend t.words.selected = .current) : t.run.Asks :=
  Run.finish_induction (P := Run.Asking t) (Q := Run.Asks) Run.Asking.asks (fun _ h => Run.step_asks skips allowed h)
    (Run.asking_start selected words) _

end RegoSyntax
