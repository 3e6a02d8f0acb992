/-
# RegoSyntax.Proofs.Tracks.Outcome — what a run leaves of a whole source.

A run goes on from one sound reading to the next one.  A statement that fails ends it, and then all that is
known of the reading is where its errors and comments stand; the statements are those that were read before.

`Survey.Holds` says where everything of an outcome stands: statements, errors, comments and the results
for annotations.  Annotations are read from comments when the run is over, and stand where those stand.
-/
import RegoSyntax.Proofs.Outcome
import RegoSyntax.Proofs.Tracks.Statements

namespace RegoSyntax

open Parse

/-! ## Blocks of comments

The comments of a block stand one below the other, and the block stands where its first one does. -/

namespace Metadata.Block

/-- The places of a block are places of comments. -/
theorem forall_group {P : Location → Prop} {opened : Option (Block × Comment)} {comments : List Comment}
    (before : ∀ b ∈ opened, P b.1.opener ∧ ∀ c ∈ b.1.comments, P c.location)
    (all : ∀ c ∈ comments, P c.location) :
    ∀ b ∈ group opened comments, P b.opener ∧ ∀ c ∈ b.comments, P c.location := by
  have opens {c : Comment} (here : P c.location) :
      ∀ b ∈ open? c, P b.1.opener ∧ ∀ c ∈ b.1.comments, P c.location := fun b hb => by
    unfold open? at hb
    split at hb
    · obtain rfl := Option.some.inj hb
      exact ⟨here, List.forall_mem_nil _⟩
    · cases hb
  -- on the comments; the block that is open is what `before` speaks of
  induction comments generalizing opened with
  | nil =>
      rcases opened with _ | ⟨b, c⟩
      · exact List.forall_mem_nil _
      · exact fun x hx => List.mem_singleton.1 hx ▸ before (b, c) rfl
  | cons c comments ih =>
      obtain ⟨here, rest⟩ := List.forall_mem_cons.1 all
      rcases opened with _ | ⟨b, last⟩
      · exact ih (opens here) rest
      · obtain ⟨opener, listed⟩ := before (b, last) rfl
        unfold group
        -- a comment goes on in the block that is open, or ends it and may open the next
        split
        · refine ih (fun x hx => ?_) rest
          obtain rfl := Option.some.inj hx
          refine ⟨opener, fun y hy => ?_⟩
          rcases List.mem_append.1 hy with hy | hy
          · exact listed y hy
          · exact List.mem_singleton.1 hy ▸ here
        · exact List.forall_mem_cons.2 ⟨⟨opener, listed⟩, ih (opens here) rest⟩

/-- What is wrong with a block stands at one of its comments. -/
theorem place_of_comments {P : Location → Prop} {b : Block} (opener : P b.opener)
    (comments : ∀ c ∈ b.comments, P c.location) (problem : Problem) : P (b.place problem) := by
  cases problem with
  | form e =>
      unfold place
      dsimp only
      split
      · next c found => exact comments c (List.mem_of_getElem? found)
      · exact opener
  | _ => exact opener

end Metadata.Block

namespace Survey

variable {m : Survey} {p : Parsed} {bytes : List UInt8}

/-! ## Results

The result of a parse is the last state, with annotations and with advice on the errors. -/

/-- Every error has a place, which is that of a token. -/
def Marks (m : Survey) (errors : List Diagnostic) : Prop :=
  ∀ e ∈ errors, ∃ l, e.location = some l ∧ m.Located l

/-- What parsing gives stands where it was read. -/
structure Holds (m : Survey) (p : Parsed) : Prop where
  statements : ∃ drawn stop, m.Passage drawn 0 stop p.statements
  comments : ∀ c ∈ p.comments, m.Located c.location
  errors : m.Marks p.errors

/-- To show the line of an error does not move it. -/
theorem illustrated_location (d : Diagnostic) (bytes : List UInt8) :
    (d.illustrated bytes).location = d.location := by
  unfold Diagnostic.illustrated
  split <;> rfl

/-- Errors that are added have marks, if each of them has one. -/
theorem Marks.addErrors {ds : List Diagnostic} (marks : m.Marks p.errors) (more : m.Marks ds) :
    m.Marks (p.addErrors bytes ds).errors := by
  cases ds with
  | nil => exact marks
  | cons d ds =>
      intro e he
      rcases List.mem_append.1 he with he | he
      · exact marks e he
      · obtain ⟨x, hx, rfl⟩ := List.mem_map.1 he
        rw [illustrated_location]
        rcases List.mem_cons.1 hx with rfl | hx
        · exact more d List.mem_cons_self
        · exact more x (List.mem_cons_of_mem _ hx)

/-- Annotations have no nodes. -/
theorem Passage.annotated {W : Array Nat} {a b : Nat} {ss as : List Statement} (h : m.Passage W a b ss)
    (all : ∀ s ∈ as, ∃ x, s = .annotations x) : m.Passage W a b (ss ++ as) := by
  have none {f : Statement → List Visit} (bare : ∀ x, f (.annotations x) = []) : as.flatMap f = [] :=
    List.flatMap_eq_nil_iff.2 fun s hs => by
      obtain ⟨x, rfl⟩ := all s hs
      exact bare x
  refine ⟨?_, fun s hs => ?_⟩
  · rw [List.flatMap_append, List.flatMap_append, none fun _ => rfl, none fun _ => rfl, List.append_nil,
      List.append_nil]
    exact h.clear
  · rcases List.mem_append.1 hs with hs | hs
    · exact h.sets s hs
    · obtain ⟨x, rfl⟩ := all s hs
      trivial

/-- What annotations add to an outcome stands where comments stand. -/
theorem Holds.annotated (h : m.Holds p) : m.Holds (p.annotated bytes) where
  statements := by
    obtain ⟨drawn, stop, passage⟩ := h.statements
    obtain ⟨as, same, annotations⟩ := p.annotated_statements bytes
    exact ⟨drawn, stop, same ▸ passage.annotated annotations⟩
  comments := p.annotated_comments bytes ▸ h.comments
  errors := by
    refine Marks.addErrors h.errors fun e he => ?_
    obtain ⟨decoded, hd, error⟩ := List.mem_filterMap.1 he
    obtain ⟨b, hb, rfl⟩ := List.mem_map.1 hd
    obtain ⟨opener, comments⟩ :=
      Metadata.Block.forall_group (P := m.Located) (fun _ none => by cases none) h.comments b hb
    rcases result : b.decode with problem | a <;> rw [result] at error
    · obtain rfl := Option.some.inj error
      exact ⟨_, rfl, Metadata.Block.place_of_comments opener comments problem⟩
    · cases error

end Survey

/-! ## Runs

A run keeps what it has read, and its statements stand where they were read from.  A statement that gives
nothing ends the run. -/

/-- What a task is about. -/
def Task.survey (t : Task) : Survey := ⟨t.source, t.env⟩

namespace Run

variable {t : Task} {r : Run}

/-- What is so of a run, whether it goes on or not. -/
structure Kept (t : Task) (r : Run) : Prop where
  marked : t.survey.Marked r.state.toReading
  passage : ∃ stop, t.survey.Passage r.state.wildcards 0 stop r.statements

/-- What is so of a run between two statements. -/
structure Going (t : Task) (r : Run) : Prop where
  sound : ∃ c, t.survey.Sound c r.state.toReading
  passage : t.survey.Passage r.state.wildcards 0 r.state.look.offset r.statements

/-- A run that goes on has kept what it has read. -/
theorem Going.kept (h : r.Going t) : r.Kept t := by
  obtain ⟨c, sound⟩ := h.sound
  exact ⟨sound.toMarked, _, h.passage⟩

/-- At the first token a run goes on. -/
theorem going_start (known : t.words.selected.Known) : (Run.start t).Going t := by
  obtain ⟨c, walk, start⟩ := Task.start_walk known
  have opened : (ParseState.bare (leave t.opening.look)).comments = #[] := rfl
  obtain ⟨comments, collected, met⟩ := walk.comments
  have marked : t.survey.Marked t.start.toReading := by
    rw [start]
    refine ⟨fun f hf => ?_, fun x hx => ?_⟩
    · rcases walk.reported f (by simpa using hf) with none | ⟨d, starts, place⟩
      · exact absurd none (Array.not_mem_empty f)
      · exact ⟨d, _, starts, place⟩
    · have hx : x ∈ comments.toList := by simpa [collected, opened] using hx
      obtain ⟨d, starts, rfl⟩ := met.starts (Cursor.starts_first t.source) x hx
      exact ⟨d, _, starts, rfl⟩
  have rests : t.survey.Rests c t.start.look := by
    rw [start]
    exact ⟨walk.at', walk.solid, walk.place, .inl walk.lastStop⟩
  refine ⟨⟨c, marked, rests, fun e he => ?_⟩, .nil (Nat.zero_le _), List.forall_mem_nil _⟩
  have none : t.start.memo.entries = [] := by rw [start]; rfl
  exact absurd (none ▸ he : e ∈ []) List.not_mem_nil

/-- A statement more is kept, and the run goes on if it was read without failing. -/
theorem step_kept (known : t.words.allowed.Known) (h : r.Going t) :
    (r.step t).1.Kept t ∧ ((r.step t).2 = true → (r.step t).1.Going t) := by
  unfold Run.step
  split
  · exact ⟨h.kept, (by cases ·)⟩
  · obtain ⟨c, sound⟩ := h.sound
    have reads : t.survey.Tracks (t.survey.Since r.state.toReading) t.statement r.state.toReading _ :=
      Survey.Keeps.statement (Survey.Keeps.grammar _) (Survey.Loses.grammar _) sound t.skipRules known
    obtain ⟨since, holds⟩ := reads t.settings r.state.depth r.state.journal
    have here : (⟨r.state.toReading, r.state.depth, r.state.journal⟩ : ParseState) = r.state := rfl
    rw [here, show t.survey.env = t.env from rfl] at since holds
    rcases run : t.statement.run t.env t.settings r.state with ⟨a, s⟩
    rw [run] at since holds
    cases a with
    -- -- nothing read: the marks drawn on the way lie before the place reached
    | none =>
        have clear := h.passage.clear.mono since.drawn (Nat.le_refl _)
        exact ⟨⟨since.marked, _, clear, h.passage.sets⟩, (by cases ·)⟩
    -- -- the marks of the statements before lie before this one, and its own lie inside it
    | some read =>
        obtain ⟨later, passage⟩ := holds read rfl
        have going : Going t ⟨r.statements ++ read, s⟩ := by
          refine ⟨later.sound, ?_, fun x hx => ?_⟩
          · rw [List.flatMap_append, List.flatMap_append]
            refine (h.passage.clear.mono since.drawn (Nat.le_refl _)).append ?_ fun _ => False.elim
            exact sound.offset ▸ passage.clear
          · exact (List.mem_append.1 hx).elim (h.passage.sets x) (passage.sets x)
        exact ⟨going.kept, fun _ => going⟩

/-- However many statements are read, what has been read is kept. -/
theorem finish_kept (known : t.words.allowed.Known) (h : r.Going t) (fuel : Nat) :
    (r.finish t fuel).Kept t :=
  finish_induction (P := Going t) (Q := Kept t) Going.kept (fun _ h => step_kept known h) h fuel

end Run

/-- What parsing gives under options that fit together. -/
theorem parse_holds (source file : String) {o : Options} {words : Negotiated}
    (settled : o.negotiate = .ok words) :
    (Task.new source file o words).survey.Holds (parse source file o) := by
  obtain ⟨allowed, selected⟩ := Options.known_negotiate settled
  have kept : (Task.new source file o words).run.Kept (Task.new source file o words) :=
    Run.finish_kept allowed (Run.going_start selected) _
  have syntactic : (Task.new source file o words).survey.Holds (parseSyntax source file o) := by
    rw [parseSyntax, settled]
    refine ⟨⟨_, kept.passage⟩, fun c hc => kept.marked.comments c (Array.mem_toList_iff.1 hc), fun e he => ?_⟩
    obtain ⟨f, hf, rfl⟩ := List.mem_map.1 he
    refine ⟨f.location, ?_, kept.marked.failures f (Array.mem_toList_iff.1 hf)⟩
    rw [Failure.diagnostic, Survey.illustrated_location]
    rfl
  unfold parse
  dsimp only
  split
  · exact syntactic.annotated
  · exact syntactic

/-- Options that do not fit together leave nothing to be read. -/
theorem parse_unsettled {source file : String} {o : Options} {problem : Problem}
    (unsettled : o.negotiate = .error problem) : (parse source file o).statements = [] := by
  unfold parse
  rw [parseSyntax, unsettled]
  dsimp only
  split
  · rfl
  · rfl

end RegoSyntax
