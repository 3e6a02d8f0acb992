/-
# RegoSyntax.Proofs.Ceiling — what the ceiling on nesting can change.

A refusal at the ceiling is an error like any other, and a reading that is given up takes its errors
with it.  So a source may be accepted although something in it was refused, and then be read in
another way than without a ceiling: `ceiling_steers` is such a source.  This is the only way in
which the ceiling matters.  A run in which nothing was refused is the run without a ceiling.
-/
import RegoSyntax.Proofs.Settings

namespace RegoSyntax

/-! ## Refusals -/

/-- The depth at which a production was refused, if that is what an entry of a journal says. -/
def refusal? : Question × Bool → Option Nat
  | (.nest depth, false) => some depth
  | _ => none

namespace Task

/-- The depths at which a run was refused another production, latest first. -/
def refusals (t : Task) : List Nat := t.journal.filterMap refusal?

end Task

namespace Settings

/-- The same settings without a ceiling. -/
def unbounded (o : Settings) : Settings := { o with maxDepth := 0 }

/-- Without a ceiling every production may be entered. -/
theorem unbounded_nest (o : Settings) (depth : Nat) : o.unbounded.answer (.nest depth) = true := rfl

/-- Without a ceiling nothing is refused. -/
theorem refusals_unbounded {o : Settings} {journal : List (Question × Bool)}
    (given : o.unbounded.Gives journal) : journal.filterMap refusal? = [] := by
  rw [List.filterMap_eq_nil_iff]
  rintro ⟨q, a⟩ asked
  have answered : o.unbounded.answer q = a := given _ asked
  rcases q with depth | r
  · rw [← answered]
    rfl
  · rfl

/-- Answers without a refusal are those that are given without a ceiling. -/
theorem unbounded_gives {o : Settings} {journal : List (Question × Bool)} (given : o.Gives journal)
    (none : journal.filterMap refusal? = []) : o.unbounded.Gives journal := by
  rw [List.filterMap_eq_nil_iff] at none
  rintro ⟨q, a⟩ asked
  rcases q with depth | r
  · cases a with
    | true => exact unbounded_nest o depth
    | false => exact absurd (none _ asked) (Option.some_ne_none depth)
  · exact given _ asked

end Settings

/-! ## Runs -/

namespace Task

/-- A run is the run without a ceiling exactly if nothing is refused in it. -/
theorem run_unbounded_iff (t : Task) :
    (t.under t.settings.unbounded).run = t.run ↔ t.refusals = [] := by
  constructor
  · intro same
    have given := (t.under t.settings.unbounded).gives_journal
    rw [journal, same] at given
    exact Settings.refusals_unbounded given
  · intro none
    exact run_under (Settings.unbounded_gives t.gives_journal none)

end Task

/-! ## Sources -/

namespace Options

/-- The same options without a ceiling. -/
def unbounded (o : Options) : Options := { o with maxDepth := 0 }

/-- The depths at which another production is refused while a source is parsed. -/
def refusals (o : Options) (source file : String) : List Nat :=
  match o.negotiate with
  | .error _ => []
  | .ok words => (Task.new source file o words).refusals

end Options

/-- Parsing a source gives the same statements, comments and errors as parsing it without a ceiling
if nothing is refused on the way; and then the two runs agree state by state, which they do in no
other case. -/
theorem parse_unbounded (source file : String) (o : Options) :
    (o.refusals source file = [] →
      parse source file o.unbounded = parse source file o) ∧
    (∀ words, o.negotiate = .ok words →
      ((Task.new source file o.unbounded words).run = (Task.new source file o words).run ↔
        o.refusals source file = [])) := by
  have sameRun : ∀ words, o.negotiate = .ok words →
      ((Task.new source file o.unbounded words).run = (Task.new source file o words).run ↔
        o.refusals source file = []) := by
    intro words fits
    have exact := (Task.new source file o words).run_unbounded_iff
    rw [Options.refusals, fits]
    exact exact
  refine ⟨fun none => ?_, sameRun⟩
  -- -- annotations are decoded from the comments read, which are a part of the syntax
  have sameSyntax : parseSyntax source file o.unbounded = parseSyntax source file o := by
    unfold parseSyntax
    rw [show o.unbounded.negotiate = o.negotiate from rfl]
    rcases fits : o.negotiate with problem | words
    · rfl
    · exact congrArg (Parsed.ofRun source) ((sameRun words fits).2 none)
  unfold parse
  rw [sameSyntax]
  rfl

/-- Some ceiling. -/
def lowCeiling : Options := { maxDepth := 18 }

/-- A source that keeps below the ceiling does not see it. -/
theorem parse_below_lowCeiling :
    (parse "p[x] if x in [1, 2]" "" lowCeiling).errors = [] ∧
      lowCeiling.refusals "p[x] if x in [1, 2]" "" = [] ∧
      parse "p[x] if x in [1, 2]" "" lowCeiling.unbounded =
        parse "p[x] if x in [1, 2]" "" lowCeiling := by
  have none : lowCeiling.refusals "p[x] if x in [1, 2]" "" = [] := by decide +kernel
  refine ⟨?_, none, (parse_unbounded "p[x] if x in [1, 2]" "" lowCeiling).1 none⟩
  decide +kernel

/-- The kind of the value that a query asks for, if it is one term. -/
def Statement.valueKind? : Statement → Option String
  | body [e] => e.term?.map (·.value.kind)
  | _ => none

/-- A refusal that a return forgets steers the parser.  What stands behind the bar is too deep for a
query under the ceiling, so the bar is read as a union there and the source as an array of two
elements.  Without a ceiling the source is a comprehension.  Neither reading has an error. -/
theorem ceiling_steers :
    (parse "[a | b, c + d + e in f]" "" lowCeiling).errors = [] ∧
      (parse "[a | b, c + d + e in f]" "" lowCeiling.unbounded).errors = [] ∧
      (parse "[a | b, c + d + e in f]" "" lowCeiling).statements.map Statement.valueKind? =
        [some "array"] ∧
      (parse "[a | b, c + d + e in f]" "" lowCeiling.unbounded).statements.map
          Statement.valueKind? =
        [some "arraycomprehension"] := by
  refine ⟨?_, ?_, ?_, ?_⟩ <;> decide +kernel

/-- A rule that is tried and given up can be seen under a ceiling.  What was read for the rule is remembered,
and the query takes it up without entering the productions that it stands for; where no rules are tried the
query has to enter them itself, and one of them is refused. -/
theorem attempt_seen :
    (parse "p[y[z]]" "" lowCeiling).errors = [] ∧
      ((parse "p[y[z]]" "" lowCeiling).statements.filterMap Statement.rule?).length = 0 ∧
      (parse "p[y[z]]" "" { lowCeiling with skipRules := true }).errors ≠ [] := by
  decide +kernel

end RegoSyntax
