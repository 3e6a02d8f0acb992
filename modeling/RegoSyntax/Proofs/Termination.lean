/-
# RegoSyntax.Proofs.Termination — a parse comes to its end by itself.

The grammar is followed to a depth, statements are read up to a number, and tokens are taken up to a number.
All three are there to have definitions by recursion, and none of them is ever felt: a parse with more of them
is the same parse.  What bounds it is the source.  Every production descends from where it stands
(`Route.rule_coincides`), every reading that gives something has come to a later token (`Route.Advances`), and
so has every statement.  `Task.Terminates` puts together what is meant by this, and no setting plays a part in
it, the ceiling on nesting least of all.

Since no statement is read from blanks, there are no more of them than solid tokens.
-/
import RegoSyntax.Proofs.Descent.Shares
import RegoSyntax.Proofs.Tracks.Outcome

namespace RegoSyntax

open Parse

/-! ## Taking tokens -/

namespace Parse

/-- To go on with a number of tokens that may be taken at most. -/
def advanceWithin (fuel : Nat) (skipBlanks : Bool) : Parse Unit := do
  modifyLook leave
  takeUpTo skipBlanks fuel

/-- Taking a token takes a character, so more tokens than there are characters are never taken. -/
theorem takeUpTo_within {source : String} {skipBlanks : Bool} {fuel fuel' : Nat} {c : Cursor} {s : ParseState}
    (env : Env) (o : Settings) (before : s.look.Before source c) (enough : c.rest.length < fuel)
    (enough' : c.rest.length < fuel') :
    (takeUpTo skipBlanks fuel).run env o s = (takeUpTo skipBlanks fuel').run env o s := by
  induction fuel generalizing fuel' c s with
  | zero => omega
  | succ fuel ih =>
      obtain ⟨fuel', rfl⟩ : ∃ n, fuel' = n + 1 := ⟨fuel' - 1, by omega⟩
      have took := take_took env o before
      rw [takeUpTo, takeUpTo, run_bind, run_bind]
      rcases taken : take.run env o s with ⟨_ | _, t⟩
      · rfl
      rw [taken] at took
      -- a blank or a comment has a character, so less is left than the fuel that remains
      have onward (minor : ¬ c.Significant) (filled : c.lexeme.kind ≠ .eof) (t' : ParseState)
          (look : t'.look = t.look) :
          (takeUpTo skipBlanks fuel).run env o t' = (takeUpTo skipBlanks fuel').run env o t' := by
        have filled : c.rest ≠ [] := fun none => filled (Lexeme.next_kind_eof.2 none)
        have shorter := Cursor.length_skip filled
        exact ih (look ▸ before_skip took.at' minor) (by omega) (by omega)
      rw [andThen_some, andThen_some, run_bind, run_bind, run_token, andThen_some, andThen_some]
      split
      · next white =>
          have kind : c.lexeme.kind = .whitespace := (took.at'.shows.plain_iff rfl).1 white
          split
          · exact onward (fun major => major.1 kind) (by rw [kind]; decide) t rfl
          · rfl
      · next comment =>
          have kind : c.lexeme.kind = .comment := (took.at'.shows.plain_iff rfl).1 comment
          exact onward (fun major => major.2 kind) (by rw [kind]; decide) _ rfl
      · rfl

end Parse

/-! ## Readings that give something -/

namespace Route

variable {ρ : Route} {u : Reading} {g : Grammar} {α : Type}

/-- Where a parser gives something, it has come to a later token. -/
def Strides (ρ : Route) (x : Parse α) (u : Reading) : Prop :=
  ∀ o depth journal a, (x.run ρ.env o ⟨u, depth, journal⟩).1 = some a →
    u.look.offset < (x.run ρ.env o ⟨u, depth, journal⟩).2.look.offset

theorem Takes.strides {x : Parse α} (h : ρ.Takes u x u fun _ v => u.look.offset < v.look.offset) :
    ρ.Strides x u := fun o depth journal a given => (h o depth journal).2.1 a given

theorem Yields.strides {x : Parse α} {backed : Prop} {F : Reading → Prop} {P : α → Reading → Prop}
    (h : ρ.Yields backed x u F P) (ahead : ∀ a v, P a v → u.look.offset < v.look.offset) : ρ.Strides x u :=
  fun o depth journal a given => ahead a _ ((h o depth journal).2.1 a given)

/-- What the parts of queries and rules read has at least a token. -/
structure Advances (ρ : Route) (g : Grammar) : Prop where
  term : ∀ u, ρ.Seated u → ρ.Strides (g .term) u
  /-- terms with operators -/
  compound : ∀ u, ρ.Seated u → ∀ keyed, ρ.Strides (g (.compound keyed)) u
  literal : ∀ u, ρ.Seated u → ρ.Strides (g .literal) u
  body : ∀ u, ρ.Seated u → ∀ stop, ρ.Strides (g (.body stop)) u
  query : ∀ u, ρ.Seated u → ∀ oneLine stop, ρ.Strides (query g oneLine stop) u
  /-- the segments of a reference, one by one -/
  name : ∀ u, ρ.Seated u → u.look.token = .dot → ρ.Strides namedSegment u
  bracket : ∀ u, ρ.Seated u → u.look.token = .lbrack → ρ.Strides (bracketSegment g) u
  arguments : ∀ u, ρ.Seated u → u.look.token = .lparen → ∀ operator start,
    ρ.Strides (call g operator start) u
  /-- one replacement -/
  replacement : ∀ u, ρ.Seated u → u.look.token = .withKw → ρ.Strides (replacement g) u
  /-- the variables of a declaration -/
  symbols : ∀ u, ρ.Seated u → u.look.token.isPassable = true → ∀ read, ρ.Strides (g (.symbols read)) u
  /-- one more body of a head -/
  sibling : ∀ u, ρ.Seated u → u.look.token = .lbrace → ρ.Strides (bracedBody g) u
  /-- from one token to the next -/
  token : ∀ u, ρ.Seated u → u.look.token ≠ .eof → ∀ skipBlanks,
    u.look.offset < (u.passing ρ.env skipBlanks).look.offset

theorem Keeps.advances (h : Keeps g) (ρ : Route) : ρ.Advances g where
  term _ seated := (h.term ρ seated).strides
  compound _ seated keyed := (h.compound ρ seated keyed).strides
  literal u seated := (h ρ .literal u rfl seated trivial).strides
  body u seated stop := ((h ρ (.body stop) u rfl seated trivial).weaken fun _ _ _ ends => ends.2).strides
  query _ seated oneLine stop := ((h.query seated oneLine stop).weaken fun _ _ _ ends => ends.2).strides
  name _ seated dot := (Keeps.namedSegment seated dot).strides
  bracket _ seated opens := (h.bracketSegment seated opens).strides
  arguments _ seated paren operator start := (h.call seated paren operator start).strides
  replacement _ seated withKw := (h.replacement seated withKw).strides
  symbols u seated passable read := (h ρ (.symbols read) u rfl seated passable).strides
  sibling _ seated brace := (h.bracedBody seated brace).strides
  token _ seated more skipBlanks := lt_passing seated skipBlanks more

end Route

/-! ## Runs of some depth and length -/

/-- The next statement, with the grammar followed to some depth. -/
def Task.statementTo (t : Task) (depth : Nat) : Parse (List Statement) :=
  Parse.statement (Parse.grammar depth) t.skipRules t.words.allowed

namespace Run

/-- What a run is behind an attempt to read a statement, and whether there was one. -/
def behind (r : Run) : Option (List Statement) × ParseState → Run × Bool
  | (some read, s) => (⟨r.statements ++ read, s⟩, true)
  | (none, s) => (⟨r.statements, s⟩, false)

/-- Read the next statement like `Run.step`, with the grammar followed to some depth. -/
def stepTo (t : Task) (depth : Nat) (r : Run) : Run × Bool :=
  if r.atEnd then (r, false) else r.behind ((t.statementTo depth).run t.env t.settings r.state)

theorem step_eq (t : Task) (r : Run) :
    r.step t = if r.atEnd then (r, false) else r.behind (t.statement.run t.env t.settings r.state) := by
  rw [step]
  split
  · rfl
  · rcases t.statement.run t.env t.settings r.state with ⟨_ | _, _⟩ <;> rfl

/-- Read statements like `Run.finish`, with the grammar followed to some depth. -/
def finishTo (t : Task) (depth : Nat) : (fuel : Nat) → Run → Run
  | 0, r => r
  | fuel + 1, r =>
    let (r, more) := r.stepTo t depth
    if more then finishTo t depth fuel r else r

end Run

/-- Read the whole source of a task, with the grammar followed to some depth and no more than some number
of statements. -/
def Task.runTo (t : Task) (depth fuel : Nat) : Run := (Run.start t).finishTo t depth fuel

/-- A parse comes to its end by itself. -/
structure Task.Terminates (t : Task) : Prop where
  /-- the grammar satisfies its own equations -/
  unfolds : ∀ {α : Type} (p : Production α) u, t.route.Seated u → p.Due u →
    t.route.Coincides (t.grammar p) (Parse.rule t.grammar p) u
  /-- no other grammar does -/
  unique : ∀ g : Grammar, (∀ ⦃β : Type⦄ (q : Production β) v, t.route.Seated v → q.Due v →
      t.route.Coincides (g q) (Parse.rule g q) v) →
    ∀ {α : Type} (p : Production α) u, t.route.Seated u → p.Due u →
      t.route.Coincides (t.grammar p) (g p) u
  /-- it is no different if it is followed deeper -/
  settles : ∀ depth, depthFor t.source.utf8ByteSize ≤ depth →
    ∀ {α : Type} (p : Production α) u, t.route.Seated u → p.Due u →
      t.route.Coincides (Parse.grammar depth p) (t.grammar p) u
  /-- on the way from a production back to itself a token is taken: nothing matters to a production but
  what is behind its token, or of a lower rank -/
  descends : ∀ (g : Grammar) {α : Type} (p : Production α) u, t.route.Seated u → p.Due u →
    t.route.Agree t.grammar g u.look.offset p.rank →
      t.route.Coincides (t.grammar p) (Parse.rule g p) u
  /-- what the parts of statements read has a token -/
  advances : t.route.Advances t.grammar
  /-- and so have statements -/
  package : ∀ u, t.route.Seated u → t.route.Strides (Parse.package t.grammar) u
  importClause : ∀ u, t.route.Seated u →
    t.route.Strides (Parse.importStatement t.grammar t.words.allowed) u
  rules : ∀ u, t.route.Seated u → t.route.Strides (Parse.rules t.grammar) u
  steps : ∀ r, t.Reaches r → (r.step t).2 = true →
    r.state.look.offset < (r.step t).1.state.look.offset
  /-- to skip blanks and comments, no more tokens are taken than there are characters -/
  skips : ∀ fuel, t.source.utf8ByteSize < fuel → ∀ u, t.route.Seated u → ∀ skipBlanks,
    t.route.Coincides (advanceWithin fuel skipBlanks) (Parse.advance skipBlanks) u
  /-- the run ends because there is no further statement -/
  ends : ∃ r, t.Reaches r ∧ r.step t = (t.run, false)
  /-- a depth and a number of statements that the length of the source gives are enough -/
  bounded : ∀ depth fuel, depthFor t.source.utf8ByteSize ≤ depth → t.source.utf8ByteSize < fuel →
    t.runTo depth fuel = t.run
  /-- the statements are no more than the solid tokens -/
  counted : t.run.statements.length ≤ (tokensOf t.source).countP (·.isSolid)

/-! ## From step to step -/

namespace Run

variable {t : Task} {r next : Run} {depth : Nat}

/-- Where there is no further statement a run ends. -/
theorem finish_last (step : r.step t = (next, false)) (fuel : Nat) : r.finish t (fuel + 1) = next := by
  rw [finish, step]
  rfl

/-- Where there is no further statement none is added. -/
theorem statements_last (step : r.step t = (next, false)) : next.statements = r.statements := by
  unfold Run.step at step
  split at step
  · rw [← (Prod.mk.inj step).1]
  · rcases run : t.statement.run t.env t.settings r.state with ⟨_ | read, s⟩
    · rw [run] at step
      rw [← (Prod.mk.inj step).1]
    · rw [run] at step
      cases (Prod.mk.inj step).2

/-- Behind a statement a run goes on. -/
theorem finish_more (step : r.step t = (next, true)) (fuel : Nat) :
    r.finish t (fuel + 1) = next.finish t fuel := by
  rw [finish, step]
  rfl

theorem finishTo_last (step : r.stepTo t depth = (next, false)) (fuel : Nat) :
    r.finishTo t depth (fuel + 1) = next := by
  rw [finishTo, step]
  rfl

theorem finishTo_more (step : r.stepTo t depth = (next, true)) (fuel : Nat) :
    r.finishTo t depth (fuel + 1) = next.finishTo t depth fuel := by
  rw [finishTo, step]
  rfl

end Run

namespace Task

variable {t : Task} {r next : Run} {depth fuel : Nat}

/-- The grammar is deep enough for every production. -/
theorem reach_lt_grammar (t : Task) {α : Type} (p : Production α) (u : Reading) :
    t.route.reach p u < depthFor t.source.utf8ByteSize :=
  t.route.reach_lt_depthFor p u

/-- A deeper grammar reads the same as the one of the task. -/
theorem grammar_settles (t : Task) (deep : depthFor t.source.utf8ByteSize ≤ depth) {α : Type}
    (p : Production α) (u : Reading) (seated : t.route.Seated u) (due : p.Due u) :
    t.route.Coincides (t.grammar p) (Parse.grammar depth p) u :=
  have far := t.reach_lt_grammar p u
  Route.grammar_coincides p seated due far (far.trans_le deep)

theorem Reaches.onward (h : t.Reaches r) (step : r.step t = (next, true)) : t.Reaches next := by
  have there := h.step (by rw [step])
  rwa [step] at there

section reaches

variable (allowed : t.words.allowed.Known) (selected : t.words.selected.Known)

include allowed selected

/-- A step with a deeper grammar is the same step. -/
theorem Reaches.stepTo_eq (h : t.Reaches r) (deep : depthFor t.source.utf8ByteSize ≤ depth) :
    r.stepTo t depth = r.step t := by
  have seated := h.seated allowed selected
  have proper : t.route.Proper t.grammar r.state.toReading :=
    Route.proper_of_fine (h.sound allowed selected).fine seated
  have agree : t.route.Agree t.grammar (Parse.grammar depth) r.state.look.offset Production.topRank :=
    fun α p u there due _ => t.grammar_settles deep p u there due
  have same := Route.statement_coincides (.grammar _) (.grammar _) proper agree seated t.skipRules
    t.words.allowed t.settings r.state.depth r.state.journal
  have same : (t.statementTo depth).run t.env t.settings r.state = t.statement.run t.env t.settings r.state :=
    same.symm
  rw [Run.stepTo, Run.step_eq, same]

/-- Every step leads on. -/
theorem Reaches.step_strides (h : t.Reaches r) (more : (r.step t).2 = true) :
    r.state.look.offset < (r.step t).1.state.look.offset := by
  obtain ⟨ss, -, arrives⟩ := step_arrives (h.sound allowed selected) (h.seated allowed selected) more
  exact arrives.strides (h.seated allowed selected)

theorem Reaches.finishTo_eq (h : t.Reaches r) (deep : depthFor t.source.utf8ByteSize ≤ depth) (fuel : Nat) :
    r.finishTo t depth fuel = r.finish t fuel := by
  induction fuel generalizing r with
  | zero => rfl
  | succ fuel ih =>
      have same := h.stepTo_eq allowed selected deep
      rcases step : r.step t with ⟨next, more⟩
      rw [step] at same
      cases more with
      | false => rw [Run.finishTo_last same, Run.finish_last step]
      | true =>
          rw [Run.finishTo_more same, Run.finish_more step]
          exact ih (h.onward step)

/-- With as many steps as there are bytes left the run comes to its end, and more steps are not taken. -/
theorem Reaches.finish_ends (h : t.Reaches r) (enough : t.source.utf8ByteSize < fuel + r.state.look.offset) :
    ∃ r', t.Reaches r' ∧ r'.step t = (r.finish t fuel, false) ∧
      ∀ more, fuel ≤ more → r.finish t more = r.finish t fuel := by
  induction fuel generalizing r with
  | zero =>
      have inside : r.state.look.offset ≤ t.source.utf8ByteSize := (h.seated allowed selected).inside
      omega
  | succ fuel ih =>
      rcases step : r.step t with ⟨next, more⟩
      cases more with
      | false =>
          refine ⟨r, h, by rw [step, Run.finish_last step], fun more le => ?_⟩
          obtain ⟨more, rfl⟩ : ∃ n, more = n + 1 := ⟨more - 1, by omega⟩
          rw [Run.finish_last step, Run.finish_last step]
      | true =>
          have ahead : r.state.look.offset < next.state.look.offset := by
            have strides := h.step_strides allowed selected (by rw [step])
            rwa [step] at strides
          obtain ⟨r', reaches, ends, same⟩ := ih (h.onward step) (by omega)
          refine ⟨r', reaches, by rw [ends, Run.finish_more step], fun more le => ?_⟩
          obtain ⟨more, rfl⟩ : ∃ n, more = n + 1 := ⟨more - 1, by omega⟩
          rw [Run.finish_more step, Run.finish_more step]
          exact same more (by omega)

/-- A run has come to its end, and would do the same with more steps. -/
theorem run_ends : ∃ r, t.Reaches r ∧ r.step t = (t.run, false) ∧
    ∀ more, t.source.utf8ByteSize < more → (Run.start t).finish t more = t.run := by
  have enough : t.source.utf8ByteSize < t.source.utf8ByteSize + 1 + (Run.start t).state.look.offset := by
    omega
  exact Reaches.start.finish_ends allowed selected enough

/-- Statements have solid tokens of their own. -/
theorem Reaches.counted (h : t.Reaches r) : r.statements.length ≤ t.route.solid r.state.toReading := by
  induction h with
  | start => exact Nat.zero_le _
  | @step r before more ih =>
      have seated := before.seated allowed selected
      have proper : t.route.Proper t.grammar r.state.toReading :=
        Route.proper_of_fine (before.sound allowed selected).fine seated
      obtain ⟨-, shares, -⟩ := Route.statement_shares _ seated proper allowed t.skipRules t.settings
        r.state.depth r.state.journal
      unfold Run.step at more ⊢
      split at more
      · cases more
      next filled =>
      rw [if_neg filled]
      rcases run : t.statement.run t.env t.settings r.state with ⟨_ | read, s⟩
      · rw [run] at more
        cases more
      · have here : read.length + t.route.solid r.state.toReading ≤
            t.route.solid (t.statement.run t.env t.settings r.state).2.toReading + 0 :=
          shares read (by
            show (t.statement.run t.env t.settings r.state).1 = _
            rw [run])
        rw [run] at here
        dsimp only at here
        show (r.statements ++ _).length ≤ t.route.solid s.toReading
        rw [List.length_append]
        omega

/-- A parse comes to its end by itself, whatever the source and the settings are. -/
theorem terminates : t.Terminates where
  unfolds p u seated due := Route.grammar_unfolds p seated due (t.reach_lt_grammar p u)
  unique g fixed _ p u seated due :=
    Route.grammar_unique fixed (fun _ q v => t.reach_lt_grammar q v) p seated due
  settles depth deep _ p u seated due := (t.grammar_settles deep p u seated due).symm
  descends g _ p u seated due agree :=
    (Route.grammar_unfolds p seated due (t.reach_lt_grammar p u)).trans
      (Route.rule_coincides (.grammar _) p seated due agree)
  advances := (Route.Keeps.grammar _).advances t.route
  package u seated := (Route.package_strides (.grammar _) seated).strides fun _ _ ahead => ahead
  importClause u seated :=
    (Route.importStatement_yields (.grammar _) seated t.words.allowed).strides fun i v read => by
      obtain ⟨w, imports, rfl⟩ := read
      exact (Route.Arrives.imports imports).strides seated
  rules u seated := (Route.Carries.rules (.grammar _) (.grammar _) seated).strides fun _ _ walks => walks.2
  steps r reaches more := reaches.step_strides allowed selected more
  skips fuel enough u seated skipBlanks o depth journal := by
    obtain ⟨c, at', -⟩ := seated.look
    have before := before_leave at'
    have left : c.skip.rest.length < (leave u.look).scanner.cursor.rest.length + 1 := by
      rw [before.cursor]
      exact Nat.lt_succ_self _
    have fewer : c.skip.rest.length < fuel := before.starts.in.length_le.trans_lt enough
    exact takeUpTo_within t.env o (s := ⟨{ u with look := leave u.look }, depth, journal⟩) before fewer left
  ends := by
    obtain ⟨r, reaches, ends, -⟩ := run_ends allowed selected
    exact ⟨r, reaches, ends⟩
  bounded depth fuel deep enough := by
    obtain ⟨-, -, -, same⟩ := run_ends allowed selected
    rw [runTo, Reaches.start.finishTo_eq allowed selected deep]
    exact same fuel enough
  counted := by
    obtain ⟨r, reaches, ends, -⟩ := run_ends allowed selected
    rw [Run.statements_last ends]
    exact (reaches.counted allowed selected).trans (solidBefore_le _ _)

end reaches

end Task

/-! ## Sources -/

/-- Whether a statement has been decoded from comments. -/
def Statement.isAnnotations : Statement → Bool
  | annotations _ => true
  | _ => false

/-- Annotations do not count. -/
theorem Statement.count_annotated {ss as : List Statement} (annotations : ∀ s ∈ as, ∃ a, s = .annotations a) :
    (ss ++ as).countP (!·.isAnnotations) ≤ ss.length := by
  have none : as.countP (!·.isAnnotations) = 0 := by
    rw [List.countP_eq_zero]
    intro s listed
    obtain ⟨a, rfl⟩ := annotations s listed
    exact Bool.false_ne_true
  rw [List.countP_append, none, Nat.add_zero]
  exact List.countP_le_length

/-- Parsing a source comes to an end by itself, whatever the options are; and there are no more statements,
annotations aside, than solid tokens. -/
theorem parse_terminates (source file : String) (o : Options) :
    (∀ words, o.negotiate = .ok words → (Task.new source file o words).Terminates) ∧
      (parse source file o).statements.countP (!·.isAnnotations) ≤
        (tokensOf source).countP (·.isSolid) := by
  have terminates : ∀ words, o.negotiate = .ok words → (Task.new source file o words).Terminates := by
    intro words settled
    obtain ⟨allowed, selected⟩ := Options.known_negotiate settled
    exact Task.terminates allowed selected
  refine ⟨terminates, ?_⟩
  rcases settled : o.negotiate with problem | words
  · rw [parse_unsettled settled]
    exact Nat.zero_le _
  · obtain ⟨-, ⟨as, same, annotations⟩, -⟩ := parse_follows source file settled
    rw [same]
    exact (Statement.count_annotated annotations).trans (terminates words settled).counted

/-- A source with rules that share a head, read without a ceiling. -/
theorem terminates_of_rules : ∃ words, ({ maxDepth := 0 } : Options).negotiate = .ok words ∧
    (Task.new "p { x } { y }" "" { maxDepth := 0 } words).Terminates ∧
    (parse "p { x } { y }" "" { maxDepth := 0 }).statements.length = 2 ∧
    (tokensOf "p { x } { y }").countP (·.isSolid) = 7 := by
  obtain ⟨words, settled⟩ : ∃ words, ({ maxDepth := 0 } : Options).negotiate = .ok words := ⟨_, rfl⟩
  refine ⟨words, settled, (parse_terminates "p { x } { y }" "" { maxDepth := 0 }).1 words settled, ?_, ?_⟩
  · decide +kernel
  · decide +kernel

end RegoSyntax
