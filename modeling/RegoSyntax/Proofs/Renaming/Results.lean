/-
# RegoSyntax.Proofs.Renaming.Results — two runs over one source, and what they give.

Two tasks over one source, under the same settings, start at the same token.  Where their statements are
read in step, the runs stay together: after every statement the states meet, and the statements read so far
are alike.  What the runs give for the source is alike then: the same comments, and as many errors, at the
same places, with messages that differ in the names of wildcards and in the hints behind them.

The one run may do something that puts an end to the comparison.  What is said of two runs is said up to
then.
-/
import RegoSyntax.Proofs.Outcome
import RegoSyntax.Proofs.Renaming.Statements

namespace RegoSyntax

open Parse

/-! ## Runs

The runs read statement by statement, and each statement is read in step.  The comparison may come to an
end before the runs do, where one side meets an error that the other one does not. -/

/-- Where a source starts there are neither errors nor comments. -/
def Floor.ground : Floor := ⟨#[], #[], #[]⟩

namespace Twins

/-- The tasks of two parsers of one source, which agree on the words that are reserved. -/
structure Tasks (τ : Twins) (t t' : Task) : Prop where
  source : t.source = τ.source
  source' : t'.source = τ.source
  env : t.env = τ.env
  env' : t'.env = τ.env'
  settings : t.settings = τ.settings
  settings' : t'.settings = τ.settings
  words : t'.words = t.words
  allowed : t.words.allowed.Known
  selected : t.words.selected.Known

/-- Two runs have read alike statements, up to states that meet. -/
def Together (τ : Twins) (r r' : Run) : Prop :=
  ∃ N : Pairing, τ.Meets .ground N r.state r'.state ∧
    List.Forall₂ (Statement.Alike N.pairs) r.statements r'.statements

section

variable {τ : Twins} {t t' : Task} {r r' : Run} {N : Pairing}

/-- The runs start at the same token, with no wildcard drawn. -/
theorem Tasks.start (tasks : τ.Tasks t t') : τ.Together (Run.start t) (Run.start t') := by
  have looks : t'.opening.look = t.opening.look := by
    simp only [Task.opening, tasks.words, tasks.source, tasks.source', tasks.env, tasks.env']
    rfl
  have near : (Parse.next t.env true t.opening.look).Near (Parse.next t'.env true t'.opening.look) := by
    rw [looks]
    exact (Look.Same.refl _).next (by rw [tasks.env, tasks.env']; rfl) true
  obtain ⟨c, stands⟩ := (Task.sound_start tasks.selected).fine.stands
  have ok : (Run.start t).state.look.Ok τ.source := tasks.source ▸ ⟨c, stands.at', stands.solid⟩
  have start (t : Task) : (Run.start t).state = { t.opening with
      look := (Parse.next t.env true t.opening.look).look
      failures := #[] ++ (Parse.next t.env true t.opening.look).failures
      comments := #[] ++ (Parse.next t.env true t.opening.look).comments } := by
    show t.start = _
    rw [Task.start, scan, run_advance]
    rfl
  refine ⟨.none, ?_, .nil⟩
  -- -- nothing has been read by then but the comments and errors before the first token
  rw [start] at ok ⊢
  rw [start]
  exact
    { look := near.look
      ok := ok
      failures := AlikeFailures.append .nil near.failures
      comments := congrArg (#[] ++ ·) near.comments
      memo := .nil
      depth := rfl
      left := rfl
      right := rfl
      above := ⟨_, rfl⟩
      above' := ⟨_, rfl⟩
      behind := ⟨_, rfl⟩ }

/-- One is at the end where the other one is. -/
theorem Together.atEnd (together : τ.Together r r') : r'.atEnd = r.atEnd := by
  obtain ⟨N, meets, -⟩ := together
  obtain ⟨hints, same⟩ := meets.look
  rw [Run.atEnd, Run.atEnd, same]

/-- Runs stay together over a statement that is read in step. -/
theorem Together.step (tasks : τ.Tasks t t') (together : τ.Together r r')
    (reads : r.atEnd = false → ∀ N, τ.Meets .ground N r.state r'.state →
      τ.Outcome .ground N (fun M => List.Forall₂ (Statement.Alike M.pairs))
        (t.statement.run τ.env τ.settings r.state) (t'.statement.run τ.env' τ.settings r'.state)) :
    τ.Together (r.step t).1 (r'.step t').1 ∧ (r'.step t').2 = (r.step t).2 := by
  unfold Run.step
  rw [together.atEnd]
  split
  · exact ⟨together, rfl⟩
  · next more =>
      obtain ⟨N, meets, alike⟩ := together
      have reads := reads (Bool.eq_false_iff.2 more) N meets
      rw [tasks.env, tasks.env', tasks.settings, tasks.settings']
      generalize t.statement.run τ.env τ.settings r.state = a at reads ⊢
      generalize t'.statement.run τ.env' τ.settings r'.state = a' at reads ⊢
      cases reads with
      | @gives M s s' ss ss' le meets read =>
          refine ⟨⟨M, meets, ?_⟩, rfl⟩
          exact List.rel_append (alike.imp fun _ _ => Statement.Alike.mono le.more) read
      | @fails M s s' le meets =>
          exact ⟨⟨M, meets, alike.imp fun _ _ => Statement.Alike.mono le.more⟩, rfl⟩

/-- Runs that stay together at every step, up to an end of the comparison, are together in the end, or the
comparison has ended. -/
theorem Together.finish (tasks : τ.Tasks t t') (ended : Run → Prop)
    (lasts : ∀ r, r.Sound t → ended r → ended (r.step t).1)
    (step : ∀ r r', r.Sound t → τ.Together r r' → ended (r.step t).1 ∨
      (τ.Together (r.step t).1 (r'.step t').1 ∧ (r'.step t').2 = (r.step t).2))
    (fuel : Nat) (sound : r.Sound t) (together : τ.Together r r') :
    ended (r.finish t fuel) ∨ τ.Together (r.finish t fuel) (r'.finish t' fuel) := by
  -- -- on the fuel: a run that has ended stays so, and two that go on together have less of it left
  induction fuel generalizing r r' with
  | zero => exact .inr together
  | succ fuel ih =>
      have next := Task.sound_step tasks.allowed sound
      rw [Run.finish, Run.finish]
      rcases step r r' sound together with past | ⟨there, more⟩
      · have later : ended ((r.step t).1.finish t fuel) :=
          Run.finish_induction (P := fun r => r.Sound t ∧ ended r) And.right
            (fun r h =>
              have past := lasts r h.1 h.2
              ⟨past, fun _ => ⟨Task.sound_step tasks.allowed h.1, past⟩⟩)
            ⟨next, past⟩ fuel
        refine .inl ?_
        dsimp only
        split
        · exact later
        · exact past
      · dsimp only
        rw [more]
        split
        · exact ih next there
        · exact .inr there

/-- The same of whole runs. -/
theorem Tasks.run (tasks : τ.Tasks t t') (ended : Run → Prop)
    (lasts : ∀ r, r.Sound t → ended r → ended (r.step t).1)
    (step : ∀ r r', r.Sound t → τ.Together r r' → ended (r.step t).1 ∨
      (τ.Together (r.step t).1 (r'.step t').1 ∧ (r'.step t').2 = (r.step t).2)) :
    ended t.run ∨ τ.Together t.run t'.run := by
  unfold Task.run
  rw [tasks.source', ← tasks.source]
  exact Together.finish tasks ended lasts step _ (Task.sound_start tasks.selected) tasks.start

end

end Twins

/-! ## Results

What is given for a source is made of the last state, of the comments and of the advice that is left; only
the advice may differ. -/

/-- Two errors at the same place, which say the same up to the names of wildcards once the hints behind
their messages are left out. -/
structure Diagnostic.Alike (N : Nat → Nat → Prop) (d e : Diagnostic) : Prop where
  location : d.location = e.location
  snippet : d.snippet = e.snippet
  message : ∃ a b, AlikeText N a b ∧ d.message = Diagnostic.withHints a d.hints ∧
    e.message = Diagnostic.withHints b e.hints

/-- Two sources have been parsed alike. -/
structure Parsed.Alike (N : Nat → Nat → Prop) (p q : Parsed) : Prop where
  statements : List.Forall₂ (Statement.Alike N) p.statements q.statements
  comments : p.comments = q.comments
  errors : List.Forall₂ (Diagnostic.Alike N) p.errors q.errors

section

variable {N : Nat → Nat → Prop} {p q : Parsed}

/-- An error that has got advice of either side. -/
theorem Diagnostic.alike_hinted (d : Diagnostic) (advice advice' : List String) (bytes : List UInt8) :
    Diagnostic.Alike N ((d.hinted advice).illustrated bytes) ((d.hinted advice').illustrated bytes) := by
  obtain ⟨message, location, snippet, hints⟩ := d
  cases location with
  | none => exact ⟨rfl, rfl, message, message, .same _, rfl, rfl⟩
  | some place => exact ⟨rfl, rfl, message, message, .same _, rfl, rfl⟩

theorem Diagnostic.alike_unhinted {d : Diagnostic} (unhinted : d.hints = []) (bytes : List UInt8) :
    Diagnostic.Alike N (d.illustrated bytes) (d.illustrated bytes) := by
  have same : d.hinted [] = d := by
    obtain ⟨message, location, snippet, hints⟩ := d
    rw [Diagnostic.hinted, Diagnostic.withHints, ← show hints = [] from unhinted]
  have alike := Diagnostic.alike_hinted (N := N) d [] [] bytes
  rwa [same] at alike

theorem Failure.Alike.diagnostic {f g : Failure} (alike : f.Alike N g) (bytes : List UInt8) :
    (f.diagnostic bytes).Alike N (g.diagnostic bytes) := by
  obtain @⟨p, q, place, hints, hints', problem⟩ := alike
  exact ⟨rfl, rfl, p.message, q.message, problem.message, rfl, rfl⟩

namespace Parsed.Alike

/-- The errors of a source are added to both sides, but for the advice that the first one takes. -/
theorem addErrors (alike : p.Alike N q) (bytes : List UInt8) {ds : List Diagnostic}
    (unhinted : ∀ d ∈ ds, d.hints = []) : (p.addErrors bytes ds).Alike N (q.addErrors bytes ds) := by
  cases ds with
  | nil => exact alike
  | cons d ds =>
      refine ⟨alike.statements, alike.comments, List.rel_append alike.errors (.cons ?_ ?_)⟩
      · exact Diagnostic.alike_hinted d _ _ bytes
      · refine List.forall₂_map_left_iff.2 (List.forall₂_map_right_iff.2 (List.forall₂_same.2 fun e he => ?_))
        exact Diagnostic.alike_unhinted (unhinted e (.tail _ he)) bytes

/-- The same comments are decoded to the same annotations. -/
theorem annotated (alike : p.Alike N q) (bytes : List UInt8) :
    (p.annotated bytes).Alike N (q.annotated bytes) := by
  unfold Parsed.annotated
  dsimp only
  rw [← alike.comments]
  refine addErrors ?_ bytes fun d hd => ?_
  · refine ⟨List.rel_append alike.statements (List.forall₂_same.2 fun s hs => ?_), rfl, alike.errors⟩
    obtain ⟨decoded, -, result⟩ := List.mem_filterMap.1 hs
    cases decoded with
    | error => cases result
    | ok a => exact Option.some.inj result ▸ .annotations a
  · obtain ⟨decoded, read, result⟩ := List.mem_filterMap.1 hd
    obtain ⟨b, -, rfl⟩ := List.mem_map.1 read
    rcases decoded : b.decode with problem | a <;> rw [decoded] at result <;> cases result
    rfl

/-- Runs that are together give alike results. -/
theorem ofRun {τ : Twins} {r r' : Run} (together : τ.Together r r') (source : String) :
    ∃ N, OneToOne N ∧ (Parsed.ofRun source r).Alike N (Parsed.ofRun source r') := by
  obtain ⟨N, meets, statements⟩ := together
  refine ⟨N.pairs, N.one, statements, congrArg Array.toList meets.comments.symm, ?_⟩
  refine List.forall₂_map_left_iff.2 (List.forall₂_map_right_iff.2 ?_)
  exact List.Forall₂.imp (fun _ _ alike => alike.diagnostic _) meets.failures

/-- Alike runs give alike results, with the annotations that are decoded on demand. -/
theorem parse {source file : String} {o o' : Options} (same : o'.negotiate = o.negotiate)
    (annotations : o'.annotations = o.annotations) (runs : ∀ words, o.negotiate = .ok words →
      ∃ τ : Twins, τ.Together (Task.new source file o words).run (Task.new source file o' words).run) :
    ∃ N, OneToOne N ∧ (parse source file o).Alike N (parse source file o') := by
  have syntactic : ∃ N, OneToOne N ∧
      (parseSyntax source file o).Alike N (parseSyntax source file o') := by
    unfold parseSyntax
    rw [same]
    rcases settled : o.negotiate with problem | words
    · refine ⟨Pairing.none.pairs, Pairing.none.one, .nil, rfl, .cons ?_ .nil⟩
      exact ⟨rfl, rfl, problem.message, problem.message, .same _, rfl, rfl⟩
    · obtain ⟨τ, together⟩ := runs words settled
      exact ofRun together source
  obtain ⟨N, one, alike⟩ := syntactic
  refine ⟨N, one, ?_⟩
  unfold RegoSyntax.parse
  dsimp only
  rw [annotations]
  split
  · exact alike.annotated _
  · exact alike

end Parsed.Alike

end

end RegoSyntax
