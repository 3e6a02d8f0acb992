/-
# RegoSyntax.Proofs.Dialects.Clauses — clauses in front of all words that are reserved.

Where both readings are early, a package clause that the older one gives is given by the newer one too, if its path is
plain (`Dialects.trails_package`), and so is an import clause that leaves no word of the future as a name
(`Dialects.early_importStatement`): no other word stands in a clause where it matters what it is taken for.  The path
of an import is read with no word of the future reserved, and so it is the same path on both sides whatever stands in
it.

A clause ends in steps that depend on nothing but the term that was read: whether its path consists of
strings, or whether it is a variable.  Such steps are `Constant`, so they come out alike wherever they are
run, and what is left to compare is the term and the text of the place.  The name behind `as` is compared
by what it may be: a variable that was read from a name has that name (`run_term_name`), so if it is no
word of the future, both readings see a name there.
-/
import RegoSyntax.Proofs.Dialects.Paths

namespace RegoSyntax

open Parse

namespace Dialects

variable {δ : Dialects} {n : Nat} {s s' t t' : ParseState} {g : Grammar} {α β : Type}

/-! ## Where clauses start

A clause is told by its keyword, which is reserved in all dialects.  Behind it a name is asked for; what
counts as a name depends on the table, and on whether a word may stand for a name where a path begins. -/

/-- A word that may be taken for a name is taken for one on both sides. -/
theorem Early.named (early : δ.Early s s') (name : s.look.token = .ident ∨
    δ.older.allowsInRefs s.look.scanner.keywords s.look.token.name = true) :
    δ.Early (Parse.named s) (Parse.named s') := by
  obtain ⟨c, beside⟩ := early.beside
  have asIdent {env : Env} {l : Look} (at' : l.At δ.source c)
      (name : l.token = .ident ∨ env.allowsInRefs l.scanner.keywords l.token.name = true) :
      Look.At δ.source c { l with token := .ident } := by
    rcases name with ident | allowed
    · rwa [← ident]
    · exact at'.asIdent allowed
  refine { early with seen := ⟨c, ⟨asIdent beside.left name, asIdent beside.right (early.allowed name),
    beside.solid, ?_⟩, .inl rfl⟩, backed := nofun }
  show ({ s'.look with token := .ident } : Look) = _
  conv_lhs => rw [beside.same]
  rfl

/-- A parser that gives one thing everywhere and changes nothing, or gives nothing. -/
def Constant (x : Parse α) : Prop :=
  (∃ a, ∀ env o s, x.run env o s = (some a, s)) ∨ ∀ env o s, (x.run env o s).1 = none

namespace Constant

variable {x : Parse α} {f : α → Parse β}

/-- To give something is constant. -/
theorem pure (a : α) : Constant (Pure.pure a) := .inl ⟨a, fun _ _ _ => rfl⟩

/-- To fail in the end is constant, whatever was done before. -/
theorem failing (x : Parse α) : Constant (x >>= fun _ => (Parse.fail : Parse β)) :=
  .inr fun _ _ _ => run_bind_fails fun _ _ => rfl

/-- One constant parser after another is constant. -/
theorem bind (first : Constant x) (second : ∀ a, Constant (f a)) : Constant (x >>= f) := by
  rcases first with ⟨a, same⟩ | fails
  · rcases second a with ⟨b, same'⟩ | fails
    · exact .inl ⟨b, fun env o s => by rw [run_bind, same, andThen_some, same']⟩
    · exact .inr fun env o s => by rw [run_bind, same, andThen_some, fails]
  · exact .inr fun env o s => run_bind_none (fails env o s)

/-- Whether segments are strings depends on the segments alone. -/
theorem stringSegments (path : Ref) : Constant (Parse.stringSegments path) := by
  induction path with
  | nil => exact pure ()
  | cons t path ih =>
      unfold Parse.stringSegments
      split
      · exact ih
      · exact failing _

/-- The path of a package depends on what was read alone. -/
theorem packagePath (path : Ref) : Constant (Parse.packagePath path) := by
  cases path with
  | nil => exact .inr fun _ _ _ => rfl
  | cons head path =>
      unfold Parse.packagePath
      rw [List.head?_cons, show ofOption (some head) = Pure.pure head from rfl, pure_bind]
      split
      · exact (stringSegments path).bind fun _ => pure _
      · exact failing _

end Constant

/-- A name that is no word of the future stands where both readings see a name. -/
theorem Early.ident (early : δ.Early s s') (ident : s.look.token = .ident)
    (plain : KeywordTable.future.contains s.look.literal = false) : s'.look.token = .ident := by
  refine early.token_cases.elim (·.trans ident) fun future => ?_
  obtain ⟨c, beside⟩ := early.beside
  have keyword := (Token.isFutureKeyword_iff _).2 future
  have filled : c.rest ≠ [] := fun none => by
    have ended : c.lexeme.kind = .eof := Lexeme.next_kind_eof.2 none
    cases (beside.right.kind_of_word (.inr (.inr keyword))).symm.trans ended
  have word : s'.look.literal = s'.look.token.name :=
    (beside.right.literal_eq beside.solid filled).trans (beside.right.word (.inr keyword))
  rw [← word, beside.literal, plain] at future
  cases future

/-- The name that an import gives, out of what was read. -/
def aliasOf : Option Term → Parse String
  | some ⟨.var name, _⟩ => return name
  | _ => do
    unexpected .var
    Parse.fail

/-- Whether the last segment of a path is a keyword is found alike, if it is no word of the future. -/
theorem Early.checkLastSegment (early : δ.Early s s') (path : Term) {r : Ref}
    (plain : KeywordTable.future.contains ((r.getLast?.bind (·.value.string?)).getD "") = false) : ∃ t t',
    (Parse.checkLastSegment path r).run δ.older δ.settings s = (some (), t) ∧
      (Parse.checkLastSegment path r).run δ.newer δ.settings s' = (some (), t') ∧ δ.Early t t' ∧
      t.look.token = s.look.token ∧ t'.look.token = s'.look.token := by
  unfold Parse.checkLastSegment
  dsimp only
  rw [run_bind, run_bind, run_env, run_env, andThen_some, andThen_some, δ.reserves_eq plain]
  split
  · refine ⟨_, _, rfl, rfl, ?_, rfl, rfl⟩
    obtain ⟨c, beside, seen⟩ := early.seen
    refine { early with failures := ?_, seen := ⟨c, beside.hinted [], seen⟩ }
    show s'.failures.push ⟨_, _, s'.look.hints ++ [_]⟩ = s.failures.push ⟨_, _, s.look.hints ++ [_]⟩
    rw [early.failures, beside.hints]
  · exact ⟨s, s', rfl, rfl, early, rfl, rfl⟩

/-- A place is extended alike. -/
theorem Early.upToLastStop (early : δ.Early s s') (l : Location) : ∃ l',
    (Parse.upToLastStop l).run δ.older δ.settings s = (some l', s) ∧
      (Parse.upToLastStop l).run δ.newer δ.settings s' = (some l', s') := by
  obtain ⟨c, beside⟩ := early.beside
  refine ⟨{ l with text := s.look.text l.offset s.look.lastStop }, rfl, ?_⟩
  rw [← beside.text, ← beside.lastStop]
  rfl

end Dialects

end RegoSyntax
