/-
# RegoSyntax.Proofs.History — the words that are reserved between two statements.

Between two statements the words are reserved that were reserved at first, and those that the imports read
so far have reserved, in this order (`Task.reserved`).  No reading that is given up, taken up again or done
with other words reserved leaves anything behind: what the parser remembers from ahead of it was read with
the words that are in force, since nothing that is remembered goes past an import clause.
-/
import RegoSyntax.Proofs.Moves.Walls

namespace RegoSyntax

open Parse

/-! ## What statements reserve

The table behind a statement is told by the statement alone: an import reserves what its path says, and
nothing else reserves anything. -/

/-- The words that are reserved behind a statement. -/
def Statement.reserving (env : Env) (allowed t : KeywordTable) : Statement → KeywordTable
  | .importClause i => i.reserving env allowed t
  | _ => t

/-- The words that are reserved behind statements. -/
def Task.reserved (t : Task) (ss : List Statement) : KeywordTable :=
  ss.foldl (Statement.reserving t.env t.words.allowed) (KeywordTable.base.extend t.words.selected)

/-- Rules reserve no words. -/
theorem Statement.foldl_rules (env : Env) (allowed t : KeywordTable) (rs : List Rule) :
    (rs.map Statement.rule).foldl (reserving env allowed) t = t := by
  induction rs with
  | nil => rfl
  | cons r rs ih => exact ih

namespace Route

variable {ρ : Route} {u v w : Reading} {allowed : KeywordTable} {ss : List Statement} {i : Import}

/-- A keyword is passed without reserving words. -/
theorem Names.keywords {keyword : Token} (h : ρ.Names keyword u w) (seated : ρ.Seated u) :
    w.look.scanner.keywords = u.look.scanner.keywords := by
  have passed := (keywords_passing (seated.passing false) true).trans (keywords_passing seated false)
  rcases h.path with rfl | ⟨-, rfl⟩
  · exact passed
  · dsimp only
    exact passed

/-- Behind a keyword errors are added only. -/
theorem Names.grows {keyword : Token} (h : ρ.Names keyword u w) : Grows u.failures w.failures := by
  have passed : Grows u.failures ((u.passing ρ.env false).passing ρ.env true).failures :=
    .trans ⟨_, rfl⟩ ⟨_, rfl⟩
  rcases h.path with rfl | ⟨-, rfl⟩
  · exact passed
  · exact passed

/-- The words of a reading, and those that were reserved when something was remembered from it on. -/
def Reserves (t : KeywordTable) (n : Nat) (u : Reading) : Prop :=
  Holds (fun l => l.scanner.keywords = t) n u

/-- Moves do not change which words are reserved. -/
theorem Leads.reserves {t : KeywordTable} {n : Nat} (h : ρ.Leads u v) (seated : ρ.Seated u)
    (reserves : Reserves t n u) : Reserves t n v :=
  h.stable (stable_keywords ρ t) seated reserves

/-- An import clause is read without reserving words. -/
theorem Imports.keywords (h : ρ.Imports u i v) (seated : ρ.Seated u)
    (reserves : Reserves u.look.scanner.keywords u.look.offset u) :
    v.look.scanner.keywords = u.look.scanner.keywords := by
  cases h with
  | plain names narrows same =>
      obtain ⟨hints, look⟩ := same.look
      rw [look]
      exact names.keywords seated
  | @renamed w x v path name place names narrows renames =>
      have there := names.seated seated
      have closed := narrows.seated there
      have ahead := ((names.strides seated (by decide)).trans narrows.strides).le.trans (le_passing closed true)
      refine (renames.goes.leads.reserves renames.goes.start ⟨ahead, ?_, fun e he => ?_⟩).look
      · exact (keywords_passing closed true).trans (names.keywords seated)
      · exact reserves.memo e (names.memo ▸ he)

/-- Only import clauses change which words are reserved. -/
theorem Arrives.keywords (h : ρ.Arrives allowed u ss v) (seated : ρ.Seated u)
    (reserves : Reserves u.look.scanner.keywords u.look.offset u) :
    v.look.scanner.keywords = ss.foldl (Statement.reserving ρ.env allowed) u.look.scanner.keywords := by
  cases h with
  | package names goes strides =>
      have before := (names.strides seated (by decide)).le
      exact (goes.leads.reserves (names.seated seated) ⟨before, names.keywords seated, fun e he =>
        reserves.memo e (names.memo ▸ he)⟩).look
  | @imports i w imports =>
      rw [Import.applied_keywords, imports.keywords seated reserves]
      rfl
  | rules walks strides =>
      rw [Statement.foldl_rules]
      exact (walks.treads.unbound.reserves (seated_unbound seated) reserves).look
  | query lost _ goes strides =>
      exact ((lost.unbound.resume.trans goes.leads.unbound).reserves (seated_unbound seated) reserves).look

/-- Advice makes no difference to what is heeded. -/
theorem Same.heeds {b : Post} (h : Same u v) (heeds : ρ.Heeds b u) : ρ.Heeds b v := by
  obtain ⟨hints, look⟩ := h.look
  have kept {L : Look → Prop} (advised : ∀ l, L l → L { l with hints }) (holds : Holds L b.offset u) :
      Holds L b.offset v := by
    refine ⟨?_, ?_, h.memo ▸ holds.memo⟩
    · rw [look]
      exact holds.behind
    · rw [look]
      exact advised _ holds.look
  have sees {a : Cursor} {k : Token} (l : Look) (sees : Sees b a k l) : Sees b a k { l with hints } :=
    ⟨sees.since, sees.table, sees.token⟩
  exact ⟨h.seated heeds.seated, heeds.inside, kept (fun _ => id) heeds.table,
    fun a k sign => kept sees (heeds.sees a k sign), h.memo ▸ heeds.avoids,
    fun c k wall => kept (fun l within => ⟨sees l within.1, within.2⟩) (heeds.walls c k wall)⟩

/-- Behind a statement without an error everything is heeded again. -/
theorem Arrives.heeds (narrow : ρ.Narrow) (h : ρ.Arrives allowed u ss v) (known : allowed.Known)
    (heeds : ρ.Heeds (Post.of u.look) u) (clean : v.failures.size ≤ u.failures.size) :
    ρ.Heeds (Post.of v.look) v := by
  have seated := h.seated heeds.seated known
  have behind := h.strides heeds.seated
  cases h with
  | @package p w v names goes strides =>
      have before := names.strides heeds.seated (by decide)
      -- what was remembered before a clause is before its keyword
      have there : ρ.Heeds (Post.of w.look) w := .of_none (names.seated heeds.seated) fun e he =>
        (heeds.clause (.inr names.keyword) names.apart e (names.memo ▸ he)).trans_lt before
      exact (goes.leads.heeds narrow there).onward
        (goes.leads.outside narrow there (outside_of _) (clean.trans names.grows.size_le)) strides
  | rules walks strides =>
      obtain ⟨heeds, outside⟩ := walks.treads.heeds narrow heeds (outside_of u) clean
      exact heeds.onward outside strides
  -- a query starts where the rules that were tried have started, with what they remembered
  | query lost back goes strides =>
      have there := heeds.resumed (lost.heeds narrow heeds (outside_of u) back)
      exact (goes.leads.heeds narrow there).onward
        (goes.leads.outside narrow there (outside_of u) clean) strides
  | @imports i s imports =>
      obtain ⟨memo, grows, hints, look⟩ := i.applied_same ρ.env allowed s
      cases imports with
      | plain names narrows same =>
          refine .of_none seated fun e he => ?_
          rw [memo, same.memo] at he
          exact (heeds.clause (.inl names.keyword) names.apart e (names.memo ▸ he)).trans_lt behind
      | @renamed w x s path name place names narrows renames =>
          have closed := narrows.seated (names.seated heeds.seated)
          have ahead := ((names.strides heeds.seated (by decide)).trans narrows.strides).trans_le
            (le_passing closed true)
          have there : ρ.Heeds (Post.of ((Takes.Closed w x).passing ρ.env true).look)
              ((Takes.Closed w x).passing ρ.env true) :=
            .of_none renames.goes.start fun e he =>
              (heeds.clause (.inl names.keyword) names.apart e (names.memo ▸ he)).trans_lt ahead
          have since : Grows u.failures ((Takes.Closed w x).passing ρ.env true).failures :=
            (names.grows.trans narrows.goes.leads.grows.1).trans ⟨_, rfl⟩
          have kept := (renames.goes.leads.heeds narrow there).onward (renames.goes.leads.outside narrow there
            (outside_of _) ((grows.size_le.trans clean).trans since.size_le)) renames.strides
          rw [Import.reserving_renamed rfl] at look
          -- with a name the clause reserves no words
          have same : Same s (Import.applied ⟨path, some name, place⟩ ρ.env allowed s) := ⟨memo, hints, look⟩
          have post : Post.of (Import.applied ⟨path, some name, place⟩ ρ.env allowed s).look = Post.of s.look := by
            rw [look]
            rfl
          rw [post]
          exact same.heeds kept

/-- What is wrong with an import that would reserve words is reported. -/
theorem Arrives.reports (h : ρ.Arrives allowed u ss v) {problem : Problem} (read : ss = [.importClause i])
    (wrong : i.problem? ρ.env allowed = some problem) : ∃ f ∈ v.failures, f.problem = problem := by
  cases h with
  | package | query => cases read
  | rules => rcases List.map_eq_singleton_iff.1 read with ⟨_, _, other⟩; cases other
  | @imports i' w imports =>
      cases read
      have same := i.applied_eq ρ.env allowed w
      rw [wrong] at same
      rw [same]
      exact ⟨_, Array.mem_push_self, rfl⟩

end Route

/-! ## Runs

From the start the words are those that were selected, and every step adds those of its statement; so the
table is a fold over the statements that were read. -/

namespace Task

variable {t : Task} {r : Run}

/-- Errors are not taken back. -/
theorem step_grows (known : t.words.allowed.Known) (sound : r.Sound t) :
    Grows r.state.failures (r.step t).1.state.failures := by
  unfold Run.step
  split
  · exact .refl _
  · have later := (reads_statement known sound.fine t.settings r.state.depth r.state.journal).1.failures
    rcases run : t.statement.run t.env t.settings r.state with ⟨_ | read, s⟩
    · exact (congrArg (fun x => x.2.failures) run) ▸ later
    · exact (congrArg (fun x => x.2.failures) run) ▸ later

/-- Errors stay to the end of a run. -/
theorem finish_grows (known : t.words.allowed.Known) (sound : r.Sound t) (fuel : Nat) :
    Grows r.state.failures (r.finish t fuel).state.failures := by
  induction fuel generalizing r with
  | zero => exact .refl _
  | succ fuel ih =>
      have grows := step_grows known sound
      rw [Run.finish]
      dsimp only
      split
      · exact grows.trans (ih (sound_step known sound))
      · exact grows

/-- At the first token nothing is remembered. -/
theorem start_heeds (known : t.words.selected.Known) :
    t.route.Heeds (Route.Post.of (Run.start t).state.look) (Run.start t).state.toReading := by
  refine .of_none (seated_start known) fun e he => ?_
  obtain ⟨c, walk, start⟩ := start_walk known
  have he : e ∈ t.start.toReading.memo.entries := he
  rw [start] at he
  exact absurd he List.not_mem_nil

/-- At the first token the words are reserved that were selected. -/
theorem start_keywords (known : t.words.selected.Known) :
    (Run.start t).state.look.scanner.keywords = t.reserved (Run.start t).statements := by
  obtain ⟨c, walk, start⟩ := start_walk known
  have look : (Run.start t).state.look = (Parse.next t.env true t.opening.look).look := by
    show t.start.toReading.look = _
    rw [start]
  rw [look, walk.keywords]
  exact congrArg Scanner.keywords (leave_scanner t.opening.look)

/-- What a step does to the words that are reserved. -/
theorem step_keywords (seated : t.route.Seated r.state.toReading) {ss : List Statement} {s : ParseState}
    (heeds : t.route.Heeds (Route.Post.of r.state.look) r.state.toReading)
    (keywords : r.state.look.scanner.keywords = t.reserved r.statements)
    (arrives : t.route.Arrives t.words.allowed r.state.toReading ss s.toReading) :
    s.look.scanner.keywords = t.reserved (r.statements ++ ss) := by
  rw [reserved, List.foldl_append, ← reserved, ← keywords]
  exact arrives.keywords seated heeds.table

/-- Where a run stands without an error, what it remembers ends before the import clauses ahead, and the
words are reserved that its statements reserve. -/
theorem Reaches.heeds (h : t.Reaches r) (allowed : t.words.allowed.Known) (selected : t.words.selected.Known)
    (clean : r.state.failures = #[]) :
    t.route.Heeds (Route.Post.of r.state.look) r.state.toReading ∧
      r.state.look.scanner.keywords = t.reserved r.statements := by
  induction h with
  | start => exact ⟨start_heeds selected, start_keywords selected⟩
  | @step r before more ih =>
      have sound := before.sound allowed selected
      have seated := before.seated allowed selected
      obtain ⟨heeds, keywords⟩ := ih ((step_grows allowed sound).eq_empty clean)
      obtain ⟨ss, read, arrives⟩ := step_arrives sound seated more
      refine ⟨arrives.heeds (fun _ => id) allowed heeds (by rw [clean]; exact Nat.zero_le _), ?_⟩
      rw [read]
      exact step_keywords seated heeds keywords arrives

end Task

/-- Between two statements, and behind a statement that leaves the first errors, the words are reserved that
were reserved at first and those that the imports so far have reserved.  An import that reports what is wrong
with it reserves nothing. -/
theorem reserved_between {source file : String} {o : Options} {words : Negotiated}
    (settled : o.negotiate = .ok words) {t : Task} (new : t = Task.new source file o words) {r : Run}
    (h : t.Reaches r) (clean : r.state.failures = #[]) :
    r.state.look.scanner.keywords = t.reserved r.statements ∧
      ((r.step t).2 = true →
        (r.step t).1.state.look.scanner.keywords = t.reserved (r.step t).1.statements ∧
        ∀ i problem, (r.step t).1.statements = r.statements ++ [.importClause i] →
          i.problem? t.env t.words.allowed = some problem →
            (∃ f ∈ (r.step t).1.state.failures, f.problem = problem) ∧
              (r.step t).1.state.look.scanner.keywords = r.state.look.scanner.keywords) := by
  subst new
  obtain ⟨allowed, selected⟩ := o.known_negotiate settled
  obtain ⟨heeds, keywords⟩ := h.heeds allowed selected clean
  refine ⟨keywords, fun more => ?_⟩
  have seated := h.seated allowed selected
  obtain ⟨ss, read, arrives⟩ := Task.step_arrives (h.sound allowed selected) seated more
  have behind := Task.step_keywords seated heeds keywords arrives
  refine ⟨read ▸ behind, fun i problem clause wrong => ?_⟩
  -- -- the statement of this step is the one clause, and an import with a problem reserves nothing
  obtain rfl := List.append_cancel_left (read.symm.trans clause)
  refine ⟨arrives.reports rfl wrong, ?_⟩
  rw [arrives.keywords seated heeds.table]
  exact Import.reserving_problem wrong r.state.toReading

/-- Two imports, each of which reserves words. -/
theorem reserved_behind_imports : ∃ t r,
    t = Task.new "import future.keywords.in\nimport rego.v1\nx" "" { version := some .v0 } ⟨.future, .empty⟩ ∧
      t.Reaches r ∧ r.statements.map Statement.render = ["import future.keywords.in", "import rego.v1"] ∧
      r.state.look.scanner.keywords = t.reserved r.statements ∧
      r.state.look.scanner.keywords = KeywordTable.base.extend .future := by
  have settled : ({ version := some .v0 } : Options).negotiate = .ok ⟨.future, .empty⟩ := rfl
  generalize new : Task.new "import future.keywords.in\nimport rego.v1\nx" "" { version := some .v0 }
    ⟨.future, .empty⟩ = t
  obtain ⟨first, second, size, texts, keywords⟩ : ((Run.start t).step t).2 = true ∧
      (((Run.start t).step t).1.step t).2 = true ∧
      (((Run.start t).step t).1.step t).1.state.failures.size = 0 ∧
      (((Run.start t).step t).1.step t).1.statements.map Statement.render =
        ["import future.keywords.in", "import rego.v1"] ∧
      (((Run.start t).step t).1.step t).1.state.look.scanner.keywords = KeywordTable.base.extend .future := by
    rw [← new]
    decide +kernel
  have reaches := Task.Reaches.step (.step .start first) second
  exact ⟨t, _, rfl, reaches, texts,
    (reserved_between settled new.symm reaches (Array.eq_empty_of_size_eq_zero size)).1, keywords⟩

end RegoSyntax
