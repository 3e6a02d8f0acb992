/-
# RegoSyntax.Proofs.Granting.Runs — a source that is read to its end is read the same.

A strict task reads a source statement by statement to its end, without an error (`Run.Completes`).  Where no
barrier is behind the last statement there is none behind the first one: so every statement ends well, and a
task that is granted keywords in references does the same, step by step (`Task.granted_run`).
-/
import RegoSyntax.Proofs.Granting.Statements
import RegoSyntax.Proofs.Termination

namespace RegoSyntax

open Parse

/-! ## Runs that come to the end

Between two statements both tasks stand at the same token with the same words reserved, and a run that
comes to its end without an error has read every statement well. -/

/-- Statement by statement a run comes to the end of the source. -/
inductive Run.Completes (t : Task) : Run → Prop
  | ended {r : Run} : r.atEnd = true → Completes t r
  | step {r : Run} : (r.step t).2 = true → Completes t (r.step t).1 → Completes t r

namespace Task

/-- The same task, with another view of what may be read. -/
def granting (t : Task) (e : Env) : Task := { t with env := e }

/-- Wherever a task stands between two statements, words are apart from what is behind them. -/
def Separate (t : Task) : Prop :=
  ∀ r, t.Reaches r → r.state.look.scanner.keywords.Separate t.source r.state.look.offset

variable {t : Task} {e : Env} {r : Run} {fuel : Nat}

/-- Both tasks start at the same token. -/
theorem start_granting (grants : t.env.Grants e) : Run.start (t.granting e) = Run.start t := by
  have opening : (t.granting e).opening = t.opening := by
    unfold opening
    rw [show (t.granting e).env.file = t.env.file from grants.file.symm]
    rfl
  unfold Run.start start
  rw [opening, scan, run_advance, run_advance, show (t.granting e).env = e from rfl, grants.alike.next]

end Task

namespace Route

variable {ρ : Route} {u : Reading}

/-- At the end of a source no barrier is ahead. -/
theorem ends_of_atEnd (seated : ρ.Seated u) (clean : u.failures = #[]) (ended : u.look.token = .eof)
    (τ : KeywordTable) : ρ.Ends τ u := by
  refine ⟨clean, fun c starts since within dot => ?_⟩
  obtain ⟨d, at', -⟩ := seated.look
  have kind : d.lexeme.kind = .eof := (at'.shows.plain_iff rfl).1 ended
  rcases Nat.lt_or_eq_of_le (at'.offset ▸ since) with lt | here
  · exact absurd (Lexeme.next_kind_eof.1 kind) (at'.starts.filled starts lt)
  · obtain rfl := at'.starts.eq_of_offset starts here
    cases dot.symm.trans kind

end Route

namespace Task

variable {t : Task} {e : Env} {r : Run} {fuel : Nat}

/-- Where nothing has been read, everything is known that has to be known between two statements. -/
theorem start_poised (grants : t.env.Grants e) (selected : t.words.selected.Known)
    (clean : (Run.start t).state.failures = #[])
    (separate : (Run.start t).state.look.scanner.keywords.Separate t.source (Run.start t).state.look.offset) :
    (t.routeTo e grants.alike).Poised (Run.start t).state.toReading := by
  have seated : (t.routeTo e grants.alike).Seated (Run.start t).state.toReading := seated_start selected
  obtain ⟨c, walk, start⟩ := start_walk selected
  have none : (Run.start t).state.memo.entries = [] := by
    show t.start.toReading.memo.entries = []
    rw [start]
    rfl
  have look : (Run.start t).state.look = (Parse.next t.env true t.opening.look).look := by
    show t.start.toReading.look = _
    rw [start]
  have shown : (Run.start t).state.look.token = c.shown (Run.start t).state.look.scanner.keywords := by
    rw [look]
    exact walk.exact
  have at' : (Run.start t).state.look.At t.source c := by
    rw [look]
    exact walk.at'
  have based : (Run.start t).state.look.scanner.keywords.Based := by
    rw [start_keywords selected]
    exact KeywordTable.Based.base.extend _
  -- nothing is remembered yet
  have nothing {P : MemoEntry → Prop} : ∀ e ∈ (Run.start t).state.memo.entries, P e := by
    rw [none]
    exact List.forall_mem_nil _
  refine ⟨seated, clean, ⟨fun _ => id, based, separate.apart, Nat.le_refl _, ⟨rfl, .of_shown at' shown,
    fun _ _ _ => id, fun m starts clause here => ?_⟩, nothing⟩, nothing, .of_none seated nothing, separate⟩
  obtain rfl := at'.starts.eq_of_offset starts (at'.offset.symm.trans here)
  rw [shown]
  exact clause.shown at'.known based

/-- A statement that ends well is read the same by a task that has been granted more. -/
theorem step_granting (grants : t.env.Grants e) (sound : r.Sound t)
    (poised : (t.routeTo e grants.alike).Poised r.state.toReading) (more : (r.step t).2 = true)
    (ends : (t.routeTo e grants.alike).Ends (r.step t).1.state.look.scanner.keywords
      (r.step t).1.state.toReading) : r.step (t.granting e) = r.step t := by
  have proper : (t.routeTo e grants.alike).Proper t.grammar r.state.toReading :=
    Route.proper_of_fine sound.fine poised.seated
  have agrees : (t.routeTo e grants.alike).Agrees t.statement r.state.toReading fun _ v =>
      (t.routeTo e grants.alike).Ends v.look.scanner.keywords v :=
    Route.statement_agrees (.grammar _) grants poised (.grammar _) proper t.skipRules
  unfold Run.step at more ends ⊢
  split at more
  · cases more
  -- -- neither run may stop here, and the statement they read is one by `agrees`
  · next filled =>
      rw [if_neg filled] at ends ⊢
      rw [if_neg filled]
      rcases run : t.statement.run t.env t.settings r.state with ⟨_ | read, s⟩
      · rw [run] at more
        cases more
      · rw [run] at ends
        have same : (t.granting e).statement.run (t.granting e).env (t.granting e).settings r.state = (some read, s) :=
          agrees t.settings _ _ read s run ends
        rw [same]

/-- Where a run that comes to the end leaves no error, each statement of it ends well, and a task that has been
granted more reads the same. -/
theorem finish_granting (grants : t.env.Grants e) (allowed : t.words.allowed.Known)
    (selected : t.words.selected.Known) (separate : t.Separate) (h : r.Completes t) (reaches : t.Reaches r)
    (poised : (t.routeTo e grants.alike).Poised r.state.toReading)
    (enough : t.source.utf8ByteSize < fuel + r.state.look.offset)
    (clean : (r.finish t fuel).state.failures = #[]) :
    (t.routeTo e grants.alike).Ends r.state.look.scanner.keywords r.state.toReading ∧
      r.finish (t.granting e) fuel = r.finish t fuel := by
  -- on the statements of the run, from a state in front of them
  induction h generalizing fuel with
  | @ended r ended =>
      have last (t' : Task) : r.finish t' fuel = r := by
        cases fuel with
        | zero => rfl
        | succ fuel => exact Run.finish_last (by rw [Run.step, if_pos ended]) fuel
      rw [last, last]
      exact ⟨Route.ends_of_atEnd poised.seated poised.clean (beq_iff_eq.1 ended) _, rfl⟩
  | @step r more behind ih =>
      have seated := poised.seated
      have sound := reaches.sound allowed selected
      obtain ⟨ss, -, arrives⟩ := step_arrives sound seated more
      have strides := arrives.strides seated
      obtain ⟨fuel, rfl⟩ : ∃ n, fuel = n + 1 := ⟨fuel - 1, by
        have inside : r.state.look.offset ≤ t.source.utf8ByteSize := (reaches.seated allowed selected).inside
        omega⟩
      have onward : r.step t = ((r.step t).1, true) := Prod.ext rfl more
      rw [Run.finish_more onward] at clean ⊢
      have there := reaches.step more
      -- errors stay, so a run without errors has none behind its first statement
      have before := (finish_grows allowed (there.sound allowed selected) fuel).eq_empty clean
      have next := poised.onward grants.strict arrives allowed before (separate _ there)
      obtain ⟨ends, same⟩ := ih there next (by omega) clean
      refine ⟨arrives.ends grants.strict poised ends, ?_⟩
      rw [Run.finish_more ((step_granting grants sound poised more ends).trans onward), same]

/-- A source that a strict task reads to its end without an error is read the same by a task that has been
granted more. -/
theorem run_granting (grants : t.env.Grants e) (allowed : t.words.allowed.Known)
    (selected : t.words.selected.Known) (separate : t.Separate) (h : (Run.start t).Completes t)
    (clean : t.run.state.failures = #[]) : (t.granting e).run = t.run := by
  have before := (finish_grows allowed (sound_start selected) (t.source.utf8ByteSize + 1)).eq_empty clean
  have poised := start_poised grants selected before (separate _ .start)
  have same := (finish_granting grants allowed selected separate h .start poised (by omega) clean).2
  rw [run, start_granting grants]
  exact same

end Task

end RegoSyntax
