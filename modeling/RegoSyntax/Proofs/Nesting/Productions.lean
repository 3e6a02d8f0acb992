/-
# RegoSyntax.Proofs.Nesting.Productions — no rule of the grammar enters a production without asking.

The rules are put together of parallel steps (`RegoSyntax.Proofs.Parallel.Productions`), and each of these steps
asks where it enters a production.  So the grammar is guarded, to whatever depth it is followed.  The clauses that
reserve words take one step that is no parallel one, which looks at the task; it enters nothing.

Statements are put together from rules, and a run is one statement after the other, each of them from a state in
which no production is under way.  So what holds of guarded parsers holds of whole runs (`Task.Disciplined`), and
of every source (`parse_disciplined`).
-/
import RegoSyntax.Proofs.Ceiling
import RegoSyntax.Proofs.Moves.Boundaries
import RegoSyntax.Proofs.Parallel.Productions
import RegoSyntax.Proofs.Scalars.Answers

namespace RegoSyntax

open Parse

namespace Parse

/-- A grammar in which all productions are guarded. -/
def GuardedGrammar (g : Grammar) : Prop := ∀ ⦃α : Type⦄ (p : Production α), Guarded (g p)

/-- A parser that returns to places as they were kept. -/
theorem Parallel.guarded_self {α : Type} {x : Parse α} (h : Steady Eq x) : Guarded x :=
  h.guarded fun p => ⟨p, rfl⟩

/-- The grammar is guarded to whatever depth it is followed. -/
theorem guarded_grammar (n : Nat) : GuardedGrammar (Parse.grammar n) :=
  fun _ p => (steady_grammar Eq n p).guarded_self

namespace Guarded

variable {α : Type} {g : Grammar}

/-! ## Clauses and statements -/

theorem checkLastSegment (path : Term) (r : Ref) : Guarded (Parse.checkLastSegment path r) :=
  env.bind fun _ => ite ((hint _).next (report _ _)) (pure _)

theorem applyImport (i : Import) (allowed : KeywordTable) : Guarded (Parse.applyImport i allowed) := by
  refine ite (env.bind fun env => ?_) (ite ?_ (pure _))
  · rcases regoWords i _ env with problem | words
    · exact report _ _
    · exact modifyLook _
  · rcases futureWords i _ allowed with problem | words
    · exact report _ _
    · exact modifyLook _

theorem orElse {x y : Parse α} (hx : Guarded x) (hy : Guarded y) (start : Snapshot) :
    Guarded (Parse.orElse start x y) := by
  refine hx.attempted (fun _ => pure _) ?_
  exact noFailures.bind fun _ => ite ((restore _).next hy) fail

section

variable (h : GrammarSteady Eq g)

include h

theorem importPath : Guarded (Parse.importPath g) := by
  refine (Guarded.withKeywords (h _).guarded_self.attempt _).bind fun _ => ?_
  split
  · split
    · exact pure _
    · exact Guarded.next (Parallel.stringSegments _).guarded_self (pure _)
    · exact (reportHere _).next fail
  · exact Parallel.missingPath.guarded_self

theorem importClause : Guarded (Parse.importClause g) := by
  refine location.bind fun _ => Guarded.next (Parallel.clauseKeyword _).guarded_self
    (isIdent.bind fun _ => checked (unexpected _) ?_)
  refine (importPath h).bind fun _ => ?_
  have plain {path : Term} {place : Location} : Guarded (do
      return (⟨path, none, some (← Parse.upToLastStop place)⟩ : Import)) :=
    (upToLastStop _).bind fun _ => pure _
  have rest {path : Term} {r : Ref} {root : String} {place : Location} : Guarded (do
      if (← Parse.token) == .asKw then
        let localName ← Parse.importAlias g
        return ⟨path, some localName, some (← Parse.upToLastStop place)⟩
      else
        if root != futureRoot then Parse.checkLastSegment path r
        return (⟨path, none, some (← Parse.upToLastStop place)⟩ : Import)) := by
    refine token.bind fun _ => ite ?_ (ite ((checkLastSegment _ _).next plain) plain)
    exact (Parallel.importAlias h).guarded_self.bind fun _ => (upToLastStop _).bind fun _ => pure _
  exact ite ((hint _).next ((report _ _).next (fail.next rest))) rest

theorem importStatement (allowed : KeywordTable) : Guarded (Parse.importStatement g allowed) :=
  (importClause h).bind fun _ => (applyImport _ _).next (pure _)

theorem statement (skipRules : Bool) (allowed : KeywordTable) :
    Guarded (Parse.statement g skipRules allowed) :=
  save.bind fun start => orElse ((Parallel.package h).guarded_self.bind fun _ => pure _)
    (orElse ((importStatement h _).bind fun _ => pure _)
      (Parallel.definitionStatement h skipRules (p := start) rfl).guarded_self _) _

end

end Guarded

end Parse

/-! ## Runs -/

namespace Run

variable {t : Task} {r : Run}

/-- A step leaves the counter where it was, whether there was a statement or not. -/
theorem depth_step (t : Task) (r : Run) : (r.step t).1.state.depth = r.state.depth := by
  have level := t.statement.levels t.env t.settings r.state
  unfold step
  split
  · rfl
  · rcases run : t.statement.run t.env t.settings r.state with ⟨_ | read, s⟩ <;> rw [run] at level
    · exact level
    · exact level

/-- What a step asks from the bottom is asked at or below the ceiling. -/
theorem step_climbs (ceiling : 0 < t.settings.maxDepth) (bottom : r.state.depth = 0) :
    ∃ new, (r.step t).1.state.journal = new ++ r.state.journal ∧ Between 0 t.settings.maxDepth new := by
  have guarded : Guarded t.statement := .statement (steady_grammar _ _) _ _
  obtain ⟨new, added, between⟩ := guarded.climbs t.env (s := r.state) ceiling (bottom ▸ Nat.zero_le _)
  rw [bottom] at between
  unfold step
  split
  · exact ⟨[], rfl, .nil _ _⟩
  · rcases run : t.statement.run t.env t.settings r.state with ⟨_ | read, s⟩ <;> rw [run] at added
    · exact ⟨new, added, between⟩
    · exact ⟨new, added, between⟩

/-- The rest of a run leaves the counter where it was. -/
theorem depth_finish (t : Task) (fuel : Nat) (r : Run) : (r.finish t fuel).state.depth = r.state.depth := by
  induction fuel generalizing r with
  | zero => rfl
  | succ fuel ih =>
      have first := depth_step t r
      unfold finish
      rcases step : r.step t with ⟨next, _ | _⟩ <;> rw [step] at first
      · exact first
      · exact (ih next).trans first

/-- What the rest of a run asks from the bottom is asked at or below the ceiling. -/
theorem finish_climbs (ceiling : 0 < t.settings.maxDepth) (bottom : r.state.depth = 0) (fuel : Nat) :
    ∃ new, (r.finish t fuel).state.journal = new ++ r.state.journal ∧
      Between 0 t.settings.maxDepth new := by
  induction fuel generalizing r with
  | zero => exact ⟨[], rfl, .nil _ _⟩
  | succ fuel ih =>
      obtain ⟨new, added, between⟩ := step_climbs ceiling bottom
      have level := depth_step t r
      unfold finish
      rcases step : r.step t with ⟨next, _ | _⟩ <;> rw [step] at added level
      · exact ⟨new, added, between⟩
      · obtain ⟨newer, addedThen, betweenThen⟩ := ih (r := next) (level.trans bottom)
        refine ⟨newer ++ new, ?_, betweenThen.append between⟩
        rw [List.append_assoc, ← added]
        exact addedThen

end Run

namespace Task

variable {t : Task}

/-- No production is under way between two statements. -/
theorem Reaches.depth {r : Run} (h : t.Reaches r) : r.state.depth = 0 := by
  induction h with
  | start => exact t.depth_start
  | @step r _ _ ih => exact (r.depth_step t).trans ih

/-- What a whole run asks is asked at or below the ceiling. -/
theorem journal_climbs (t : Task) (ceiling : 0 < t.settings.maxDepth) :
    Between 0 t.settings.maxDepth t.journal := by
  obtain ⟨first, addedFirst, betweenFirst⟩ :=
    Guarded.scan.climbs t.env (s := t.opening) ceiling (Nat.zero_le _)
  obtain ⟨new, added, between⟩ :=
    Run.finish_climbs (r := .start t) ceiling t.depth_start (t.source.utf8ByteSize + 1)
  have opened : t.start.journal = first := addedFirst.trans (List.append_nil _)
  rw [journal, run, added]
  exact between.append (opened ▸ betweenFirst)

/-- What is said of the counter of productions under way, in a run of a task. -/
structure Disciplined (t : Task) : Prop where
  /-- Rules and statements are put together so that a production is entered through the counter. -/
  guarded : GuardedGrammar t.grammar ∧ Guarded t.statement
  /-- With a value or without one, the counter is left as it was found. -/
  returns : ∀ ⦃α : Type⦄ (x : Parse α), Guarded x → ∀ s, (x.run t.env t.settings s).2.depth = s.depth
  /-- Below the ceiling a production is read with the counter one higher, which is taken back behind it. -/
  enters : ∀ ⦃α : Type⦄ (x : Parse α) (s : ParseState),
    (t.settings.maxDepth = 0 ∨ s.depth < t.settings.maxDepth) →
      (nested x).run t.env t.settings s =
        ((x.run t.env t.settings s.entered).1,
          { (x.run t.env t.settings s.entered).2 with depth := s.depth })
  /-- At the ceiling it is not read.  There is one more error, and the counter stays. -/
  refuses : ∀ ⦃α : Type⦄ (x : Parse α) (s : ParseState),
    0 < t.settings.maxDepth → t.settings.maxDepth ≤ s.depth →
      (nested x).run t.env t.settings s = (none, s.refused) ∧ s.refused.depth = s.depth
  /-- From at or below the ceiling the counter goes up to the ceiling at most. -/
  climbs : 0 < t.settings.maxDepth → ∀ ⦃α : Type⦄ (x : Parse α), Guarded x →
    ∀ s, s.depth ≤ t.settings.maxDepth →
      ∃ new, (x.run t.env t.settings s).2.journal = new ++ s.journal ∧
        Between s.depth t.settings.maxDepth new
  /-- It stands at zero before each statement, and behind the attempt to read it. -/
  rests : ∀ r, t.Reaches r → r.state.depth = 0 ∧ (t.statement.run t.env t.settings r.state).2.depth = 0
  /-- It stands at zero behind the last one. -/
  ends : t.run.state.depth = 0
  /-- It never was above the ceiling in the whole run. -/
  bounded : 0 < t.settings.maxDepth → Between 0 t.settings.maxDepth t.journal

end Task

/-- For every source, all options and any ceiling, productions leave the counter as they find it, it stands at zero
between two statements, and it does not go beyond the ceiling. -/
theorem parse_disciplined (source file : String) (o : Options) (words : Negotiated) :
    (Task.new source file o words).Disciplined := by
  generalize Task.new source file o words = t
  exact {
    guarded := ⟨guarded_grammar _, .statement (steady_grammar _ _) _ _⟩
    returns := fun α x _ s => x.levels t.env t.settings s
    enters := fun α x s room => by rw [run_nested_eq, DepthLimit.enter?_eq_some_iff.2 ⟨room, rfl⟩]
    refuses := fun α x s ceiling full =>
      ⟨by rw [run_nested_eq, DepthLimit.enter?_eq_none_iff.2 ⟨ceiling, full⟩], rfl⟩
    climbs := fun ceiling α x h s below => h.climbs t.env ceiling below
    rests := fun r h => ⟨h.depth, (t.statement.levels t.env t.settings r.state).trans h.depth⟩
    ends := (Run.depth_finish t _ _).trans t.depth_start
    bounded := t.journal_climbs }

/-- A source in which one production is refused, at the ceiling, and the counter comes back from there. -/
theorem disciplined_lowCeiling : ∃ t, t = Task.new "[a | b, c + d + e in f]" "" lowCeiling ⟨.future, .future⟩ ∧
    t.refusals = [18] ∧ t.run.state.depth = 0 ∧ Between 0 18 t.journal := by
  have disciplined := parse_disciplined "[a | b, c + d + e in f]" "" lowCeiling ⟨.future, .future⟩
  exact ⟨_, rfl, by decide +kernel, disciplined.ends, disciplined.bounded (by decide)⟩

end RegoSyntax
