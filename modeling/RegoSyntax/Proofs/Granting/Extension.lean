/-
# RegoSyntax.Proofs.Granting.Extension — keywords in references extend the language.

A source that is read without that feature, and without an error, is read the same with it, up to the names of
wildcards (`parse_granted`).  This is so if no reserved word stands right before a point or a bracket: there
the feature makes the word a name, and `x in[1]` is two queries instead of one (`granted_membership`).

Two things that the parser accepts by oversight are left out.  It may stop before the end of a source without
an error, and behind the word of a body it passes whatever stands where the opening brace of the body would be.
-/
import RegoSyntax.Proofs.Granting.Runs
import RegoSyntax.Proofs.Renaming.Composition
import RegoSyntax.Proofs.Renaming.Suggestions

namespace RegoSyntax

open Parse
open Course (Adjoined)

/-! ## More features -/

namespace Capabilities

/-- These capabilities and one more feature. -/
def adding (c : Capabilities) (feature : String) : Capabilities :=
  { c with features := c.features ++ [feature] }

theorem hasFeature_adding (c : Capabilities) {feature other : String} (different : other ≠ feature) :
    (c.adding feature).hasFeature other = c.hasFeature other := by
  simp [hasFeature, adding, different]

end Capabilities

namespace Options

/-- These options, with keywords in references. -/
def granted (o : Options) : Options :=
  { o with capabilities := some (o.effectiveCapabilities.adding Capabilities.keywordsInRefs) }

/-- The same words are allowed and selected. -/
theorem negotiate_granted (o : Options) : o.granted.negotiate = o.negotiate := by
  have allowed : Negotiated.allowedWords o.granted.effectiveVersion o.granted.effectiveCapabilities =
      Negotiated.allowedWords o.effectiveVersion o.effectiveCapabilities := by
    show Negotiated.allowedWords o.effectiveVersion (o.effectiveCapabilities.adding _) = _
    unfold Negotiated.allowedWords
    rw [Capabilities.hasFeature_adding _ (by decide)]
    rfl
  unfold negotiate
  rw [allowed]
  rfl

end Options

namespace Task

variable {source file : String} {o : Options} {words : Negotiated}

/-- A task that looks for no words that should have been imported is granted nothing but the feature. -/
theorem grants_granted (plain : o.suggestImports = false)
    (lacks : o.effectiveCapabilities.hasFeature Capabilities.keywordsInRefs = false) :
    (Task.new source file o words).env.Grants (Task.new source file o.granted words).env where
  strict := ⟨plain, lacks⟩
  file := rfl
  version := rfl
  suggest := rfl
  features _ different := Capabilities.hasFeature_adding _ different

end Task

/-! ## Whatever is suggested -/

namespace Twins.Together

variable {source file : String} {o : Options} {b : Bool} {words : Negotiated} {r r' : Run}

/-- Runs that are together stand at the same token. -/
theorem keywords {τ : Twins} (together : τ.Together r r') :
    r'.state.look.scanner.keywords = r.state.look.scanner.keywords ∧ r'.state.look.offset = r.state.look.offset := by
  obtain ⟨N, meets, -⟩ := together
  obtain ⟨hints, same⟩ := meets.look
  rw [same]
  exact ⟨rfl, rfl⟩

section

variable (settled : o.negotiate = .ok words)

include settled

/-- Wherever one of the tasks stands between two statements, the other one does. -/
theorem reaches (h : (Task.new source file { o with suggestImports := b } words).Reaches r') :
    ∃ r, (Task.new source file o words).Reaches r ∧ (Twins.suggesting source file o b words).Together r r' := by
  induction h with
  | start => exact ⟨_, .start, (tasks_suggesting settled).start⟩
  | step _ more ih =>
      obtain ⟨r, reaches, together⟩ := ih
      obtain ⟨together, same⟩ := together.suggesting settled
      exact ⟨_, reaches.step (same ▸ more), together⟩

theorem separate (h : (Task.new source file o words).Separate) :
    (Task.new source file { o with suggestImports := b } words).Separate := fun r' reached => by
  obtain ⟨r, reaches, together⟩ := reaches settled reached
  obtain ⟨keywords, offset⟩ := together.keywords
  rw [keywords, offset]
  exact h r reaches

/-- Where one of the tasks comes to the end, the other one does. -/
theorem completes (h : r.Completes (Task.new source file o words))
    (together : (Twins.suggesting source file o b words).Together r r') :
    r'.Completes (Task.new source file { o with suggestImports := b } words) := by
  induction h generalizing r' with
  | ended ended => exact .ended (together.atEnd.trans ended)
  | step more _ ih =>
      obtain ⟨there, same⟩ := together.suggesting settled
      exact .step (same.trans more) (ih there)

end

end Twins.Together

/-! ## Words that are apart everywhere -/

/-- A word that some dialect reserves. -/
def Cursor.IsWord (c : Cursor) : Prop :=
  c.lexeme.kind = .ident ∧ c.word ∈ (KeywordTable.baseWords ++ KeywordTable.futureWords).map Prod.fst

theorem Cursor.IsReserved.isWord {c : Cursor} {t : KeywordTable} (h : c.IsReserved t) (known : t.Known) :
    c.IsWord := by
  obtain ⟨kind, found⟩ := Option.isSome_iff_exists.1 h.2
  exact ⟨h.1, List.mem_map.2 ⟨_, known.get? found, rfl⟩⟩

/-- No word that some dialect reserves stands right before a point or a bracket, and none that starts a body
stands before the word of an import clause, or before a point with such a word behind it. -/
structure WordsApart (source : String) : Prop where
  fronts : ∀ c : Cursor, c.Starts source → c.IsWord → ¬ Adjoined c
  bodies : ∀ c d : Cursor, c.Precedes source d → c.IsWord → c.word = Token.ifKw.name →
    ¬ d.IsImport ∧ (d.lexeme.kind = .dot → ¬ d.skip.IsWord)

namespace WordsApart

variable {source file : String} {o : Options} {words : Negotiated} {t : KeywordTable} {n : Nat}

theorem apart (h : WordsApart source) (known : t.Known) : t.Apart source n where
  fronts c starts _ _ reserved := h.fronts c starts (reserved.isWord known)
  bodies c d precedes _ _ reserved word :=
    (h.bodies c d precedes (reserved.isWord known) word).imp_right fun none dot reserved =>
      none dot (reserved.isWord known)

/-- In such a source words are apart whatever is reserved. -/
protected theorem separate (h : WordsApart source) (settled : o.negotiate = .ok words) :
    (Task.new source file o words).Separate := fun r reaches => by
  obtain ⟨allowed, selected⟩ := Options.known_negotiate settled
  obtain ⟨c, at', -⟩ := (reaches.seated allowed selected).look
  have known := at'.known
  exact ⟨h.apart known, fun _ _ _ _ => h.apart (known.removeAll _), fun _ _ _ _ _ _ _ _ _ _ => h.apart known⟩

end WordsApart

/-! ## Sources -/

/-- Where no words are looked for, the feature makes no difference at all. -/
theorem Parsed.granted_eq {source file : String} {o : Options} {words : Negotiated}
    (settled : o.negotiate = .ok words) (plain : o.suggestImports = false)
    (lacks : o.effectiveCapabilities.hasFeature Capabilities.keywordsInRefs = false)
    (clean : (parse source file o).errors = [])
    (completes : (Run.start (Task.new source file o words)).Completes (Task.new source file o words))
    (separate : (Task.new source file o words).Separate) : parse source file o.granted = parse source file o := by
  obtain ⟨allowed, selected⟩ := Options.known_negotiate settled
  have none := (parse_follows source file settled).clean clean
  have under : Task.new source file o.granted words =
      (Task.new source file o words).granting (Task.new source file o.granted words).env := rfl
  -- -- the run decides everything but the annotations, which do not ask for the capability
  have same : (Task.new source file o.granted words).run = (Task.new source file o words).run := by
    rw [under]
    exact Task.run_granting (Task.grants_granted plain lacks) allowed selected separate completes
      (Array.eq_empty_of_size_eq_zero (Nat.le_zero.1 none))
  have syntactic : parseSyntax source file o.granted = parseSyntax source file o := by
    unfold parseSyntax
    rw [o.negotiate_granted, settled]
    dsimp only
    rw [same]
  unfold parse
  dsimp only
  rw [syntactic, show o.granted.annotations = o.annotations from rfl]

/-- To grant keywords in references extends the language.  If a source is read statement by statement to its
end, without that feature and without an error, and the words that are reserved where it is read are apart from
what is behind them, the source is read without an error with that feature too, and gives the same statements up
to a one-to-one renaming of wildcards. -/
theorem parse_granted {source file : String} {o : Options} {words : Negotiated}
    (settled : o.negotiate = .ok words)
    (lacks : o.effectiveCapabilities.hasFeature Capabilities.keywordsInRefs = false)
    (clean : (parse source file o).errors = [])
    (completes : (Run.start (Task.new source file o words)).Completes (Task.new source file o words))
    (separate : (Task.new source file o words).Separate) :
    (parse source file o.granted).errors = [] ∧
      ∃ N, OneToOne N ∧ List.Forall₂ (Statement.Alike N) (parse source file o).statements
        (parse source file o.granted).statements := by
  -- the looking for words is left out on both sides: all that it changes are advice and names
  let plain : Options := { o with suggestImports := false }
  obtain ⟨N, one, alike⟩ := Parsed.alike_suggesting source file o false
  obtain ⟨M, one', alike'⟩ := Parsed.alike_suggesting source file o.granted false
  have none : (parse source file plain).errors = [] := by
    have errors := alike.errors
    rw [clean] at errors
    exact List.forall₂_nil_left_iff.1 errors
  have same : parse source file { o.granted with suggestImports := false } = parse source file plain :=
    Parsed.granted_eq (o := plain) settled rfl lacks none
      (Twins.Together.completes settled completes (Twins.tasks_suggesting settled).start)
      (Twins.Together.separate settled separate)
  rw [same] at alike'
  -- both readings are without errors then, and the renamings are put together
  have errors := alike'.errors
  rw [show parse source file { o with suggestImports := false } = parse source file plain from rfl, none] at errors
  exact ⟨List.forall₂_nil_right_iff.1 errors, _, one.joined one',
    Statement.Alike.join_all alike.statements alike'.statements⟩

/-- A membership in an array, with a blank in front of the array. -/
theorem granted_blank :
    let o : Options := { capabilities := some { features := [Capabilities.regoV1] } }
    o.effectiveCapabilities.hasFeature Capabilities.keywordsInRefs = false ∧
      (parse "x in [1]" "" o).errors = [] ∧ (parse "x in [1]" "" o).statements.length = 1 ∧
      (parse "x in [1]" "" o.granted).errors = [] ∧
      ∃ N, OneToOne N ∧ List.Forall₂ (Statement.Alike N) (parse "x in [1]" "" o).statements
        (parse "x in [1]" "" o.granted).statements := by
  intro o
  have settled : o.negotiate = .ok ⟨.future, .future⟩ := rfl
  have lacks : o.effectiveCapabilities.hasFeature Capabilities.keywordsInRefs = false := by decide +kernel
  have read : (parse "x in [1]" "" o).errors = [] ∧ (parse "x in [1]" "" o).statements.length = 1 := by
    decide +kernel
  have completes : (Run.start (Task.new "x in [1]" "" o ⟨.future, .future⟩)).Completes
      (Task.new "x in [1]" "" o ⟨.future, .future⟩) := .step (by decide +kernel) (.ended (by decide +kernel))
  let cs : List Cursor := (List.range 9).map (Cursor.nth "x in [1]")
  have all : ∀ c : Cursor, c.Starts "x in [1]" → c ∈ cs := by
    intro c starts
    exact starts.mem_of_closed (by decide +kernel : _ ∈ cs) (by decide +kernel)
  -- the text is short enough to look at each of its cursors
  have apart : WordsApart "x in [1]" := by
    have fronts : ∀ c ∈ cs, c.IsWord → ¬ Adjoined c := by
      unfold Cursor.IsWord Adjoined
      decide +kernel
    have others : ∀ c ∈ cs, c.word ≠ Token.ifKw.name := by decide +kernel
    exact ⟨fun c starts => fronts c (all c starts),
      fun c d precedes _ word => absurd word (others c (all c precedes.before))⟩
  exact ⟨lacks, read.1, read.2, parse_granted settled lacks read.1 completes (apart.separate settled)⟩

/-- The feature changes what is read where a bracket stands right behind the word of a membership: with it that
word starts a reference, so there are two queries instead of one. -/
theorem granted_membership :
    let o : Options := { capabilities := some { features := [Capabilities.regoV1] } }
    o.negotiate.toBool = true ∧ o.effectiveCapabilities.hasFeature Capabilities.keywordsInRefs = false ∧
      (parse "x in[1]" "" o).errors = [] ∧
      ¬ ∃ N, List.Forall₂ (Statement.Alike N) (parse "x in[1]" "" o).statements
        (parse "x in[1]" "" o.granted).statements := by
  intro o
  have one : (parse "x in[1]" "" o).statements.length = 1 := by decide +kernel
  have two : (parse "x in[1]" "" o.granted).statements.length = 2 := by decide +kernel
  refine ⟨rfl, by decide +kernel, by decide +kernel, ?_⟩
  rintro ⟨N, alike⟩
  have same := alike.length_eq
  omega

end RegoSyntax
