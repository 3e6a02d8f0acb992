/-
# RegoSyntax.Proofs.Moves.Boundaries — where a run stands between two statements.

The runs that stand between two statements are those that steps lead to from the start
(`Task.Reaches`).  Each of them stands at a token of the source, and what the next step does is one of
four things (`Task.step_arrives`): so an invariant of runs is an invariant of the four.
-/
import RegoSyntax.Proofs.Reserved

namespace RegoSyntax

open Parse

/-! ## What a statement leaves

What a statement may leave is told by `Arrives`, and this is what follows from it: the parser is seated
again and has moved, and the words are those before with what an import reserves. -/

/-- An import reserves words of the language only. -/
theorem Import.known_reserving (i : Import) (env : Env) {allowed t : KeywordTable} (known : allowed.Known)
    (there : t.Known) : (i.reserving env allowed t).Known := by
  unfold reserving
  split
  · exact there.extend known
  · split
    · next found => exact there.insert (known.get? found)
    · exact there
  · split
    · exact there.extend KeywordTable.known_future
    · exact there
  · exact there

namespace Route

variable {ρ : Route} {u v w x : Reading} {allowed : KeywordTable} {ss : List Statement} {i : Import}

theorem keywords_passing (h : ρ.Seated u) (b : Bool) :
    (u.passing ρ.env b).look.scanner.keywords = u.look.scanner.keywords := by
  rw [Reading.passing_look, keywords_next h.look]

theorem Same.seated (h : Same u v) (seated : ρ.Seated u) : ρ.Seated v := by
  obtain ⟨hints, look⟩ := h.look
  exact ⟨look ▸ ok_hints seated.look hints, h.memo ▸ seated.memo⟩

theorem Same.offset (h : Same u v) : v.look.offset = u.look.offset := by
  obtain ⟨hints, look⟩ := h.look
  rw [look]
  rfl

theorem Narrows.seated (h : ρ.Narrows w x) (seated : ρ.Seated w) : ρ.Seated (Takes.Closed w x) :=
  seated_closed seated h.goes.seated

namespace Imports

theorem seated (h : ρ.Imports u i v) (there : ρ.Seated u) : ρ.Seated v := by
  cases h with
  | plain names narrows same => exact same.seated (narrows.seated (names.seated there))
  | renamed _ _ renames => exact renames.goes.seated

/-- Behind an import clause the parser is beyond its path. -/
theorem strides (h : ρ.Imports u i v) (there : ρ.Seated u) : u.look.offset < v.look.offset := by
  cases h with
  | plain names narrows same =>
      rw [same.offset]
      exact (names.strides there (by decide)).trans narrows.strides
  | renamed names narrows renames =>
      have closed := narrows.seated (names.seated there)
      calc u.look.offset
        _ < _ := names.strides there (by decide)
        _ < _ := narrows.strides
        _ ≤ _ := le_passing closed true
        _ < v.look.offset := renames.strides

end Imports

namespace Arrives

theorem seated (h : ρ.Arrives allowed u ss v) (there : ρ.Seated u) (known : allowed.Known) : ρ.Seated v := by
  cases h with
  | package _ goes _ => exact goes.seated
  | @imports i w imports =>
      obtain ⟨memo, -, hints, look⟩ := i.applied_same ρ.env allowed w
      have there := imports.seated there
      refine ⟨?_, memo ▸ there.memo⟩
      obtain ⟨c, at', solid⟩ := there.look
      rw [look]
      exact ⟨c, { at' with known := i.known_reserving ρ.env known at'.known }, solid⟩
  | rules walks _ => exact walks.seated
  | query _ _ goes _ => exact goes.seated

/-- Every statement takes a token. -/
theorem strides (h : ρ.Arrives allowed u ss v) (there : ρ.Seated u) : u.look.offset < v.look.offset := by
  cases h with
  | package names _ ahead => exact (names.strides there (by decide)).trans ahead
  | @imports i w imports =>
      obtain ⟨-, -, hints, look⟩ := i.applied_same ρ.env allowed w
      rw [look]
      exact imports.strides there
  | rules _ ahead | query _ _ _ ahead => exact ahead

end Arrives

/-- No move changes the words that are reserved. -/
theorem stable_keywords (ρ : Route) (t : KeywordTable) : ρ.Stable fun l => l.scanner.keywords = t where
  pass b ok holds _ := (keywords_next ok b).trans holds
  point b ok holds _ := (keywords_next ok b).trans holds
  segment ok holds _ _ := (keywords_next (ok_next ok false).1 false).trans ((keywords_next ok false).trans holds)
  hints _ holds := holds
  ident _ holds _ _ := holds

/-- The path of an import was read with no word of the future reserved. -/
theorem Narrows.keywords (h : ρ.Narrows w x) :
    x.look.scanner.keywords = w.look.scanner.keywords.removeAll .future :=
  (h.goes.leads.stable (stable_keywords ρ _) h.goes.start (n := 0)
    ⟨Nat.zero_le _, rfl, fun _ he => absurd he List.not_mem_nil⟩).look

/-- Where the grammar gives a term for the path of a clause without an error, the term is no reference
without segments. -/
theorem proper_of_fine {n : Nat} (fine : (Course.whole ρ.source ρ.env).Fine u) (seated : ρ.Seated u) :
    ρ.Proper (Parse.grammar n) u := by
  intro keyword w names o depth journal t given clean none
  obtain ⟨c, at', solid⟩ := (names.seated seated).look
  have there : (Course.whole ρ.source ρ.env).Fine w :=
    ⟨⟨c, at', solid, at'.known, fun _ => .inl trivial⟩, names.memo ▸ fine.memo⟩
  obtain ⟨-, gives⟩ := Course.Keeps.grammar (Course.whole ρ.source ρ.env) n .term w there o depth journal
  have term : (Course.whole ρ.source ρ.env).TermAt c t :=
    gives t given (clean ▸ Nat.zero_le _) trivial c ⟨at', solid, at'.known, fun _ => .inl trivial⟩
  have formed := (Term.formed_iff.1 term.whole.2).1
  rw [none] at formed
  obtain ⟨head, segments, filled, -⟩ := formed
  cases filled

end Route

/-! ## Runs

A run stands between two statements, or has given up.  Every such reading is seated on the way of the
task, by induction on the steps. -/

namespace Task

variable {t : Task} {r : Run}

/-- The way of a task, beside another one that is like it. -/
def routeTo (t : Task) (other : Env) (alike : t.env.Alike other) : Route := .bound t.source t.env other alike

/-- The way of a task by itself. -/
def route (t : Task) : Route := t.routeTo t.env (.refl t.env)

/-- The runs that stand between two statements, before the first or behind the last one. -/
inductive Reaches (t : Task) : Run → Prop
  | start : Reaches t (.start t)
  | step {r : Run} : Reaches t r → (r.step t).2 = true → Reaches t (r.step t).1

variable {other : Env} {alike : t.env.Alike other}

/-- At the first token. -/
theorem seated_start (known : t.words.selected.Known) :
    (t.routeTo other alike).Seated (Run.start t).state.toReading := by
  obtain ⟨c, walk, start⟩ := start_walk known
  show (t.routeTo other alike).Seated t.start.toReading
  rw [start]
  exact ⟨⟨c, walk.at', walk.solid⟩, List.forall_mem_nil _⟩

/-- What the next statement is, and where it leads. -/
theorem step_arrives (sound : r.Sound t)
    (seated : (t.routeTo other alike).Seated r.state.toReading) (more : (r.step t).2 = true) :
    ∃ ss, (r.step t).1.statements = r.statements ++ ss ∧
      (t.routeTo other alike).Arrives t.words.allowed r.state.toReading ss (r.step t).1.state.toReading := by
  unfold Run.step at more ⊢
  split at more
  · cases more
  · next filled =>
      rw [if_neg filled]
      obtain ⟨-, gives, -⟩ := Route.statement_yields (.grammar _) (.grammar _) seated
        (Route.proper_of_fine sound.fine seated) t.skipRules t.settings r.state.depth r.state.journal
      have here : (⟨r.state.toReading, r.state.depth, r.state.journal⟩ : ParseState) = r.state := rfl
      rw [here] at gives
      rcases run : t.statement.run t.env t.settings r.state with ⟨_ | read, s⟩
      · rw [run] at more
        -- -- a statement that gave up ends the run, which is said to go on
        cases more
      · have read : (t.routeTo other alike).Arrives t.words.allowed r.state.toReading
            read (t.statement.run t.env t.settings r.state).2.toReading :=
          gives _ (by
            show (t.statement.run t.env t.settings r.state).1 = _
            rw [run])
        rw [run] at read
        exact ⟨_, rfl, read⟩

namespace Reaches

theorem sound (h : t.Reaches r) (allowed : t.words.allowed.Known) (selected : t.words.selected.Known) :
    r.Sound t := by
  induction h with
  | start => exact sound_start selected
  | step _ _ ih => exact sound_step allowed ih

theorem seated (h : t.Reaches r) (allowed : t.words.allowed.Known) (selected : t.words.selected.Known) :
    t.route.Seated r.state.toReading := by
  induction h with
  | start => exact seated_start selected
  | step before more ih =>
      obtain ⟨ss, -, arrives⟩ := step_arrives (before.sound allowed selected) ih more
      exact arrives.seated ih allowed

end Reaches

end Task

end RegoSyntax
