/-
# RegoSyntax.Proofs.Settings — a run depends on its settings by their answers only.

What `Parse.records` and `Parse.follows` say of one parser is carried over to whole runs: the loop
over the statements asks nothing by itself.  So settings that give the answers that one run was
given lead to the same run, and it is enough to look at the journal of that one.
-/
import RegoSyntax.Source

namespace RegoSyntax

/-! ## Tasks under other settings -/

namespace Task

/-- The same task under other settings. -/
def under (t : Task) (o : Settings) : Task := { t with settings := o }

/-- The questions of a run with the answers given, latest first. -/
def journal (t : Task) : List (Question × Bool) := t.run.state.journal

end Task

/-! ## One statement -/

namespace Run

/-- What a step is asked goes on record. -/
theorem step_records (t : Task) (r : Run) :
    ∃ new, (r.step t).1.state.journal = new ++ r.state.journal ∧ t.settings.Gives new := by
  obtain ⟨new, added, given⟩ := t.statement.records t.env t.settings r.state
  unfold step
  split
  · exact Parse.records_nothing t.settings r.state.journal
  · rcases h : t.statement.run t.env t.settings r.state with ⟨_ | read, s⟩ <;> rw [h] at added
    · exact ⟨new, added, given⟩
    · exact ⟨new, added, given⟩

/-- A step under settings that give its answers is the same step. -/
theorem step_under {t : Task} {o : Settings} {r : Run}
    (given : o.Gives (r.step t).1.state.journal) : r.step (t.under o) = r.step t := by
  have followed := t.statement.follows t.env t.settings o r.state
  unfold step at given ⊢
  split at given
  · next atEnd => rw [if_pos atEnd, if_pos atEnd]
  · next notYet =>
      rw [if_neg notYet, if_neg notYet]
      rcases h : t.statement.run t.env t.settings r.state with ⟨_ | read, s⟩ <;>
        rw [h] at given followed
      · rw [show (t.under o).statement.run (t.under o).env (t.under o).settings r.state = (none, s)
          from followed given]
      · rw [show (t.under o).statement.run (t.under o).env (t.under o).settings r.state =
          (some read, s) from followed given]

/-! ## All statements -/

/-- What the rest of a run is asked goes on record. -/
theorem finish_records (t : Task) (fuel : Nat) (r : Run) :
    ∃ new, (r.finish t fuel).state.journal = new ++ r.state.journal ∧ t.settings.Gives new := by
  induction fuel generalizing r with
  | zero => exact Parse.records_nothing t.settings r.state.journal
  | succ fuel ih =>
      obtain ⟨new, added, given⟩ := step_records t r
      unfold finish
      rcases h : r.step t with ⟨next, _ | _⟩ <;> rw [h] at added
      · exact ⟨new, added, given⟩
      · obtain ⟨newer, addedThen, givenThen⟩ := ih next
        refine ⟨newer ++ new, ?_, Settings.gives_append.2 ⟨givenThen, given⟩⟩
        rw [List.append_assoc, ← added]
        exact addedThen

/-- The rest of a run under settings that give its answers is the same. -/
theorem finish_under {t : Task} {o : Settings} {fuel : Nat} {r : Run}
    (given : o.Gives (r.finish t fuel).state.journal) :
    r.finish (t.under o) fuel = r.finish t fuel := by
  induction fuel generalizing r with
  | zero => rfl
  | succ fuel ih =>
      unfold finish at given ⊢
      have first : r.step (t.under o) = r.step t := by
        apply step_under
        rcases h : r.step t with ⟨next, _ | _⟩ <;> rw [h] at given
        · exact given
        · obtain ⟨new, added, -⟩ := finish_records t fuel next
          exact (Settings.gives_append.1 (added ▸ given)).2
      rw [first]
      rcases h : r.step t with ⟨next, _ | _⟩ <;> rw [h] at given
      · rfl
      · exact ih given

end Run

namespace Task

/-- What a run was asked before its end is in the journal. -/
theorem journal_after_start (t : Task) :
    ∃ new, t.journal = new ++ t.start.journal ∧ t.settings.Gives new :=
  Run.finish_records t (t.source.utf8ByteSize + 1) (.start t)

/-- The journal of a run has the answers that the settings give. -/
theorem gives_journal (t : Task) : t.settings.Gives t.journal := by
  obtain ⟨new, added, given⟩ := t.journal_after_start
  obtain ⟨first, addedFirst, givenFirst⟩ := Parse.scan.records t.env t.settings t.opening
  have opened : t.settings.Gives t.start.journal := by
    rw [start, addedFirst]
    exact Settings.gives_append.2 ⟨givenFirst, List.forall_mem_nil _⟩
  rw [added]
  exact Settings.gives_append.2 ⟨given, opened⟩

/-- A task under settings that give the answers of its run has the same run. -/
theorem run_under {t : Task} {o : Settings} (given : o.Gives t.journal) :
    (t.under o).run = t.run := by
  obtain ⟨new, added, -⟩ := t.journal_after_start
  have before : o.Gives t.start.journal := by
    rw [added] at given
    exact (Settings.gives_append.1 given).2
  have opened : (t.under o).start = t.start :=
    congrArg Prod.snd (Parse.scan.follows t.env t.settings o t.opening before)
  unfold run
  rw [show Run.start (t.under o) = Run.start t from congrArg (Run.mk []) opened]
  exact Run.finish_under given

end Task

end RegoSyntax
