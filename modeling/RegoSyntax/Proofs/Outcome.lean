/-
# RegoSyntax.Proofs.Outcome — what a run over a whole source gives.

A run goes on from statement to statement, and a statement that fails leaves the state that its attempts
have led to.  So a run is sound at every step: it stands at a token of the source, it has collected the
comments before that token, and as long as there is no error the statements are formed.
-/
import RegoSyntax.Proofs.Clauses
import RegoSyntax.Source

namespace RegoSyntax

open Parse

/-! ## Words of options

The options come first: if they do not fit together there is no run, and if they do the words of both
tables are words of the language. -/

/-- What has gone well has gone well at first. -/
theorem Except.ok_of_bind {ε α β : Type} {x : Except ε α} {f : α → Except ε β} {b : β}
    (h : x >>= f = .ok b) : ∃ a, x = .ok a ∧ f a = .ok b := by
  cases x with
  | error => cases h
  | ok a => exact ⟨a, rfl, h⟩

namespace Negotiated

theorem known_pick {source : KeywordTable} (known : source.Known) {problem : String → Problem}
    {words : List String} {t t' : KeywordTable} (ht : t.Known)
    (picked : pick source problem t words = .ok t') : t'.Known := by
  induction words generalizing t with
  | nil =>
      obtain rfl := Except.ok.inj picked
      exact ht
  | cons word words ih =>
      unfold pick at picked
      split at picked
      · next kind found => exact ih (ht.insert (known.get? found)) picked
      · cases picked

theorem known_allowedWords {v : Version} {c : Capabilities} {t : KeywordTable}
    (allowed : allowedWords v c = .ok t) : t.Known := by
  unfold allowedWords at allowed
  dsimp only at allowed
  split at allowed
  · cases allowed
  · obtain ⟨named, picked, result⟩ := Except.ok_of_bind allowed
    have known := known_pick KeywordTable.known_future KeywordTable.known_empty picked
    obtain rfl := Except.ok.inj result
    split
    · exact known.extend KeywordTable.known_future
    · exact known

theorem known_selectedWords {o : Options} {allowed t : KeywordTable} (known : allowed.Known)
    (selected : selectedWords o allowed = .ok t) : t.Known := by
  obtain ⟨named, picked, result⟩ := Except.ok_of_bind selected
  obtain rfl := Except.ok.inj result
  split
  · exact known
  · exact known_pick known KeywordTable.known_empty picked

end Negotiated

/-- Options reserve words of the language only. -/
theorem Options.known_negotiate {o : Options} {words : Negotiated} (h : o.negotiate = .ok words) :
    words.allowed.Known ∧ words.selected.Known := by
  obtain ⟨allowed, admitted, h⟩ := Except.ok_of_bind h
  obtain ⟨selected, reserved, h⟩ := Except.ok_of_bind h
  obtain rfl := Except.ok.inj h
  have known := Negotiated.known_allowedWords admitted
  exact ⟨known, Negotiated.known_selectedWords known reserved⟩

/-! ## Sequences of statements

The statements of a run are appended, and a clause is what one step appends. -/

/-- No statement at all is a clause. -/
theorem Statement.clause_nil {names : String → Prop} : Statement.Clause names [] :=
  ⟨List.forall_mem_nil _, .nil, nofun⟩

/-- Clauses stand behind one another. -/
theorem Statement.Clause.append {names : String → Prop} {ss ts : List Statement}
    (hs : Statement.Clause names ss) (ht : Statement.Clause names ts) :
    Statement.Clause names (ss ++ ts) where
  formed s h := by
    rcases List.mem_append.1 h with h | h
    · exact hs.formed s h
    · exact ht.formed s h
  chain := List.isChain_append.2 ⟨hs.chain, ht.chain, fun _ _ t h r same further =>
    absurd ((ht.first t h r same).symm.trans further) Bool.false_ne_true⟩
  first s h := by
    cases ss with
    | nil => exact ht.first s h
    | cons s' ss => exact hs.first s h

/-! ## Runs

A run is sound between two statements if the parser is fine there, and all statements so far are clauses.
One step keeps it sound, and by induction on the fuel so does a whole run. -/

/-- What is so between two statements holds until there is no statement any more, and something is then so
of the whole run. -/
theorem Run.finish_induction {t : Task} {P Q : Run → Prop} (stops : ∀ {r}, P r → Q r)
    (step : ∀ r, P r → Q (r.step t).1 ∧ ((r.step t).2 = true → P (r.step t).1)) {r : Run} (h : P r)
    (fuel : Nat) : Q (r.finish t fuel) := by
  induction fuel generalizing r with
  | zero => exact stops h
  | succ fuel ih =>
      obtain ⟨last, more⟩ := step r h
      rw [Run.finish]
      rcases stepped : r.step t with ⟨r', goesOn⟩
      rw [stepped] at last more
      dsimp only
      split
      · next goesOn => exact ih (more goesOn)
      · exact last

/-- The course on which a task is run. -/
def Task.course (t : Task) : Course := .whole t.source t.env

/-- What is so between any two statements. -/
structure Run.Sound (t : Task) (r : Run) : Prop where
  fine : t.course.Fine r.state.toReading
  met : ∀ d, t.course.Stands d r.state.look →
    (Cursor.start t.source.toList).Met t.source t.env.file r.state.comments.toList d
  clean : r.state.failures.size ≤ 0 → Statement.Clause (fun _ => True) r.statements

namespace Task

variable {t : Task}

/-- Before the first token a scanner stands at the first cursor. -/
theorem before_opening (known : t.words.selected.Known) :
    (leave t.opening.look).Before t.source (Cursor.start t.source.toList) where
  starts := Cursor.starts_first t.source
  text := rfl
  cursor := rfl
  known := KeywordTable.known_base.extend known
  last := Cursor.lastStop_first t.source

/-- The way to the first token. -/
theorem start_walk (known : t.words.selected.Known) : ∃ c,
    Walk t.source t.env true (Cursor.start t.source.toList) c (.bare (leave t.opening.look))
      (next t.env true t.opening.look) ∧
    t.start.toReading = { t.opening.toReading with
      look := (next t.env true t.opening.look).look
      failures := #[] ++ (next t.env true t.opening.look).failures
      comments := #[] ++ (next t.env true t.opening.look).comments } := by
  obtain ⟨c, walk⟩ := next_walk t.env true (before_opening known)
  refine ⟨c, walk, ?_⟩
  rw [Task.start, scan, run_advance]
  rfl

/-- The state at the first token. -/
theorem sound_start (known : t.words.selected.Known) : (Run.start t).Sound t := by
  obtain ⟨c, walk, start⟩ := start_walk known
  have stands : t.course.Stands c t.start.look := by
    rw [start]
    exact ⟨walk.at', walk.solid, walk.at'.known, fun _ => .inl trivial⟩
  obtain ⟨comments, collected, met⟩ := walk.comments
  refine ⟨⟨⟨c, stands⟩, ?_⟩, fun d there => ?_, fun _ => Statement.clause_nil⟩
  · show ∀ e ∈ t.start.memo.entries, _
    rw [start]
    exact List.forall_mem_nil _
  · rw [← stands.unique there]
    show (Cursor.start t.source.toList).Met t.source t.env.file t.start.comments.toList c
    rw [start]
    show (Cursor.start t.source.toList).Met t.source t.env.file
      (#[] ++ (next t.env true t.opening.look).comments).toList c
    rw [collected, show (ParseState.bare (leave t.opening.look)).comments = #[] from rfl,
      Array.empty_append, Array.empty_append]
    exact met

/-- What the next statement is read from is later than where it starts. -/
theorem reads_statement (known : t.words.allowed.Known) {u : Reading} (fine : t.course.Fine u) :
    t.course.Reads u t.statement u fun ss _ => Statement.Clause (fun _ => True) ss :=
  Course.Keeps.statement (.grammar t.course _) (Course.whole_wide t.source t.env) fine t.skipRules known

/-- A step keeps a run sound, whether it reads a statement or gives up. -/
theorem sound_step {r : Run} (known : t.words.allowed.Known) (h : r.Sound t) :
    (r.step t).1.Sound t := by
  unfold Run.step
  split
  · exact h
  · obtain ⟨later, holds⟩ :=
      reads_statement known h.fine t.settings r.state.depth r.state.journal
    have here : (⟨r.state.toReading, r.state.depth, r.state.journal⟩ : ParseState) = r.state := rfl
    rw [here, show t.course.env = t.env from rfl] at later holds
    rcases run : t.statement.run t.env t.settings r.state with ⟨a, s⟩
    rw [run] at later holds
    have met (d : Cursor) (there : t.course.Stands d s.look) :
        (Cursor.start t.source.toList).Met t.source t.env.file s.comments.toList d := by
      obtain ⟨more, added, met⟩ := later.comments
      obtain ⟨c, stands⟩ := h.fine.stands
      rw [show s.comments = r.state.comments ++ more from added, Array.toList_append]
      exact (h.met c stands).trans (met c d stands there)
    cases a with
    | none => exact ⟨later.fine, met, fun clean => h.clean (later.clean clean)⟩
    | some read =>
        refine ⟨later.fine, met, fun clean => (h.clean (later.clean clean)).append ?_⟩
        exact holds read rfl (Nat.le_trans clean (Nat.zero_le _))

/-- A run stays sound to its end. -/
theorem sound_finish {r : Run} (known : t.words.allowed.Known) (h : r.Sound t) (fuel : Nat) :
    (r.finish t fuel).Sound t :=
  Run.finish_induction (P := Run.Sound t) id (fun _ h => ⟨sound_step known h, fun _ => sound_step known h⟩) h fuel

/-- A whole run is sound. -/
theorem sound_run (allowed : t.words.allowed.Known) (selected : t.words.selected.Known) :
    t.run.Sound t :=
  sound_finish allowed (sound_start selected) _

end Task

/-! ## Results

What is given for a source is made of the last state of a run, with annotations behind the statements and
with advice on the first error. -/

namespace Parsed

variable (p : Parsed) (bytes : List UInt8)

@[simp] theorem addErrors_statements (ds : List Diagnostic) :
    (p.addErrors bytes ds).statements = p.statements := by
  cases ds <;> rfl

@[simp] theorem addErrors_comments (ds : List Diagnostic) :
    (p.addErrors bytes ds).comments = p.comments := by
  cases ds <;> rfl

theorem addErrors_clean {ds : List Diagnostic} (clean : (p.addErrors bytes ds).errors = []) :
    p.errors = [] := by
  cases ds with
  | nil => exact clean
  | cons d ds => exact (List.append_eq_nil_iff.1 clean).1

theorem annotated_comments : (p.annotated bytes).comments = p.comments := by
  rw [annotated, addErrors_comments]

/-- Decoding annotations takes no error away. -/
theorem annotated_clean (clean : (p.annotated bytes).errors = []) : p.errors = [] := by
  have first := addErrors_clean _ bytes clean
  exact first

/-- Annotations come behind all other statements. -/
theorem annotated_statements : ∃ as, (p.annotated bytes).statements = p.statements ++ as ∧
    ∀ s ∈ as, ∃ a, s = .annotations a := by
  refine ⟨_, by rw [annotated, addErrors_statements], fun s hs => ?_⟩
  obtain ⟨decoded, -, result⟩ := List.mem_filterMap.1 hs
  cases decoded with
  | error => cases result
  | ok a => exact ⟨a, (Option.some.inj result).symm⟩

end Parsed

/-- What is parsed from a source, in terms of the run: its comments, and its statements with annotations
behind them. -/
structure Parsed.Follows (p : Parsed) (r : Run) : Prop where
  comments : p.comments = r.state.comments.toList
  statements : ∃ as, p.statements = r.statements ++ as ∧ ∀ s ∈ as, ∃ a, s = .annotations a
  clean : p.errors = [] → r.state.failures.size ≤ 0

theorem parse_follows (source file : String) {o : Options} {words : Negotiated}
    (settled : o.negotiate = .ok words) :
    (parse source file o).Follows (Task.new source file o words).run := by
  have syntactic : (parseSyntax source file o).Follows (Task.new source file o words).run := by
    rw [parseSyntax, settled]
    refine ⟨rfl, ⟨[], (List.append_nil _).symm, List.forall_mem_nil _⟩, fun clean => ?_⟩
    have none := List.map_eq_nil_iff.1 clean
    exact Nat.le_of_eq (List.length_eq_zero_iff.2 none)
  unfold parse
  dsimp only
  split
  · refine ⟨(Parsed.annotated_comments _ _).trans syntactic.comments, ?_, fun clean =>
      syntactic.clean (Parsed.annotated_clean _ _ clean)⟩
    obtain ⟨as, same, annotations⟩ := syntactic.statements
    obtain ⟨more, added, annotationsThen⟩ :=
      (parseSyntax source file o).annotated_statements source.toUTF8.toList
    refine ⟨as ++ more, by rw [added, same, List.append_assoc], fun s hs => ?_⟩
    rcases List.mem_append.1 hs with hs | hs
    · exact annotations s hs
    · exact annotationsThen s hs
  · exact syntactic

/-- A source without errors has been read under options that fit together. -/
theorem settled_of_clean {source file : String} {o : Options}
    (clean : (parse source file o).errors = []) : ∃ words, o.negotiate = .ok words := by
  rcases settled : o.negotiate with problem | words
  · exfalso
    have failed : (parseSyntax source file o).errors ≠ [] := by
      rw [parseSyntax, settled]
      exact List.cons_ne_nil _ _
    unfold parse at clean
    dsimp only at clean
    split at clean
    · exact failed (Parsed.annotated_clean _ _ clean)
    · exact failed clean
  · exact ⟨words, rfl⟩

/-- The statements of a source without errors. -/
theorem clause_of_clean {source file : String} {o : Options}
    (clean : (parse source file o).errors = []) :
    ∃ ss as, (parse source file o).statements = ss ++ as ∧ Statement.Clause (fun _ => True) ss ∧
      ∀ s ∈ as, ∃ a, s = .annotations a := by
  obtain ⟨words, settled⟩ := settled_of_clean clean
  obtain ⟨allowed, selected⟩ := Options.known_negotiate settled
  obtain ⟨-, ⟨as, same, annotations⟩, none⟩ := parse_follows source file settled
  have sound := Task.sound_run (t := Task.new source file o words) allowed selected
  exact ⟨_, as, same, sound.clean (none clean), annotations⟩

/-! ## Comments

Comments are collected each time a token is passed, and given up together with the tokens; so at the end
there are those in front of the last token, once each. -/

/-- Whether a source is read to its end. -/
def Options.reachesEnd (o : Options) (source file : String) : Bool :=
  match o.negotiate with
  | .error _ => false
  | .ok words => (Task.new source file o words).run.atEnd

/-- The comments of a parsed source are those before the token that the run has come to, each once and in
order, however often the tokens on the way were read; where the run has come to the end, they are the
comments of the source. -/
theorem parse_comments (source file : String) (o : Options) :
    (∀ words, o.negotiate = .ok words →
      ∃ c, (Task.new source file o words).run.state.look.At source c ∧
        (Cursor.start source.toList).Met source file (parse source file o).comments c) ∧
    (o.reachesEnd source file = true →
      (parse source file o).comments = commentsOf source file) := by
  have met : ∀ words, o.negotiate = .ok words →
      ∃ c, (Task.new source file o words).run.state.look.At source c ∧
        (Cursor.start source.toList).Met source file (parse source file o).comments c := by
    intro words settled
    obtain ⟨allowed, selected⟩ := Options.known_negotiate settled
    have sound := Task.sound_run (t := Task.new source file o words) allowed selected
    obtain ⟨c, stands⟩ := sound.fine.stands
    rw [(parse_follows source file settled).comments]
    exact ⟨c, stands.at', sound.met c stands⟩
  refine ⟨met, fun ended => ?_⟩
  unfold Options.reachesEnd at ended
  rcases settled : o.negotiate with problem | words
  · rw [settled] at ended
    cases ended
  · rw [settled] at ended
    obtain ⟨c, at', met⟩ := met words settled
    -- the token at the end is that of the end of the text
    have kind : c.lexeme.kind = .eof := (at'.shows.plain_iff rfl).1 (beq_iff_eq.1 ended)
    exact met.commentsOf (Lexeme.next_kind_eof.1 kind)

/-- A source that is read to its end. -/
theorem comments_of_query :
    ({} : Options).reachesEnd "# a\np # b" "" = true ∧
      (parse "# a\np # b" "" {}).comments = commentsOf "# a\np # b" "" := by
  have ended : ({} : Options).reachesEnd "# a\np # b" "" = true := by decide +kernel
  exact ⟨ended, (parse_comments "# a\np # b" "" {}).2 ended⟩

/-- A source of which the parser reads nothing, and says nothing: a failure that was remembered where an
error stood is taken up where none stands.  The comment behind is not collected. -/
theorem comments_unread :
    (parse "[x|a+b+b+b+b+b+b+b+b+b+b+b+\nd,[y|z w]] # c" "" { maxDepth := 28 }).errors = [] ∧
      (parse "[x|a+b+b+b+b+b+b+b+b+b+b+b+\nd,[y|z w]] # c" "" { maxDepth := 28 }).comments = [] ∧
      commentsOf "[x|a+b+b+b+b+b+b+b+b+b+b+b+\nd,[y|z w]] # c" "" ≠ [] := by
  decide +kernel

end RegoSyntax
