/-
# RegoSyntax.Proofs.Renaming.Suggestions — looking for words that should have been imported.

Where a literal reads as if a word had not been imported, it is read once more with all words reserved, and
if that works the next error comes with a hint.  Nothing else comes of it: the second reading may fail, meet
errors and comments, nest too deep or look for words itself, and the parser then goes on as if it had never
been done, but for the names of wildcards.  A wildcard that the second reading has drawn is not drawn again,
so the wildcards behind it have other names (`parse_suggestions`).

A name may be seen in the text of an error, which quotes the head of a rule, and in the name of a package,
which is a string of its path.
-/
import RegoSyntax.Proofs.Openings
import RegoSyntax.Proofs.Renaming.Results

namespace RegoSyntax

namespace Twins

/-- Two parsers of one source, the second of which looks for words that should have been imported if it is told
to. -/
def suggesting (source file : String) (o : Options) (b : Bool) (words : Negotiated) : Twins :=
  ⟨source, (Task.new source file o words).env, b, o.maxDepth⟩

variable {source file : String} {o : Options} {b : Bool} {words : Negotiated}

theorem tasks_suggesting (settled : o.negotiate = .ok words) : (suggesting source file o b words).Tasks
    (Task.new source file o words) (Task.new source file { o with suggestImports := b } words) :=
  have ⟨allowed, selected⟩ := Options.known_negotiate settled
  ⟨rfl, rfl, rfl, rfl, rfl, rfl, rfl, allowed, selected⟩

/-- Step by step they stay together. -/
theorem Together.suggesting {r r' : Run} (settled : o.negotiate = .ok words)
    (together : (suggesting source file o b words).Together r r') :
    (suggesting source file o b words).Together (r.step (Task.new source file o words)).1
        (r'.step (Task.new source file { o with suggestImports := b } words)).1 ∧
      (r'.step (Task.new source file { o with suggestImports := b } words)).2 =
        (r.step (Task.new source file o words)).2 :=
  together.step (tasks_suggesting settled) fun _ _ meets =>
    InStep.statement (follows_grammar _ _) o.skipRules (Options.known_negotiate settled).1 _ _ meets

end Twins

/-- Whatever is said about looking for words, a source gives the same up to a one-to-one renaming. -/
theorem Parsed.alike_suggesting (source file : String) (o : Options) (b : Bool) :
    ∃ N, OneToOne N ∧
      (parse source file o).Alike N (parse source file { o with suggestImports := b }) := by
  refine Parsed.Alike.parse rfl rfl fun words settled => ⟨.suggesting source file o b words, ?_⟩
  have tasks : (Twins.suggesting source file o b words).Tasks _ _ := Twins.tasks_suggesting settled
  have both := tasks.run (fun _ => False) (fun _ _ => id) fun r r' _ together =>
    .inr (together.suggesting settled)
  exact both.resolve_left id

/-- With or without looking for words, a source gives the same up to a one-to-one renaming of wildcards: alike
statements, the same comments, and as many errors, each at the same place and with a message that differs in
the names of wildcards and in the hints behind it at most. -/
theorem parse_suggestions (source file : String) (o : Options) :
    ∃ N, OneToOne N ∧ (parse source file { o with suggestImports := true }).Alike N
      (parse source file { o with suggestImports := false }) :=
  Parsed.alike_suggesting source file { o with suggestImports := true } false

/-! ## Names that are seen -/

/-- Two errors have the same text once the hints behind it are left out. -/
def Diagnostic.SameText (d e : Diagnostic) : Prop :=
  ∃ text, d.message = Diagnostic.withHints text d.hints ∧ e.message = Diagnostic.withHints text e.hints

/-- Errors without hints have the same text where they have the same message. -/
theorem Diagnostic.SameText.messages {ds es : List Diagnostic} (same : List.Forall₂ SameText ds es)
    (plain : ∀ d ∈ ds, d.hints = []) (plain' : ∀ e ∈ es, e.hints = []) :
    ds.map (·.message) = es.map (·.message) := by
  induction same with
  | nil => rfl
  | @cons d e ds es first rest ih =>
      obtain ⟨text, left, right⟩ := first
      rw [plain d (.head _), Diagnostic.withHints] at left
      rw [plain' e (.head _), Diagnostic.withHints] at right
      rw [List.map_cons, List.map_cons, left, right, ih (fun d hd => plain d (.tail _ hd)) fun e he =>
        plain' e (.tail _ he)]

/-- The name of the package that a statement names. -/
def Statement.packageName? : Statement → Option String
  | .package p => p.name?
  | _ => none

/-- The name of a wildcard is seen in the text of an error about the head that it stands in, and in the name of
a package that is called by it. -/
theorem suggestions_seen :
    ¬ List.Forall₂ Diagnostic.SameText
      (parse "every _ := \x7d" "" { version := some .v0, suggestImports := true }).errors
      (parse "every _ := \x7d" "" { version := some .v0, suggestImports := false }).errors ∧
    (parse "every\n_\npackage _" "" { version := some .v0, suggestImports := true }).statements.filterMap
        Statement.packageName? ≠
      (parse "every\n_\npackage _" "" { version := some .v0, suggestImports := false }).statements.filterMap
        Statement.packageName? := by
  refine ⟨fun same => ?_, by decide +kernel⟩
  have messages := Diagnostic.SameText.messages same (by decide +kernel) (by decide +kernel)
  exact absurd messages (by decide +kernel)

end RegoSyntax
