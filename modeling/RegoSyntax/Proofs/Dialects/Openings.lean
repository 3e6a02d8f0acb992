/-
# RegoSyntax.Proofs.Dialects.Openings — the clauses that a source opens with.

A source opens with clauses: a package, imports, and among them those that reserve words.  As long as there is nothing
but clauses, with names that are no words of the future (`Task.Opens`), both readings come to the same tokens and
neither remembers anything of what is ahead (`Dialects.Early`).

A clause is read as the statement that it is, so what is said of clauses is said of statements first.
-/
import RegoSyntax.Proofs.Dialects.Clauses
import RegoSyntax.Proofs.Termination

namespace RegoSyntax

open Parse

namespace Parse

variable {g : Grammar} {skipRules : Bool} {allowed : KeywordTable} {env : Env} {o : Settings} {s t : ParseState}

/-! ## Clauses as statements

A statement is tried as a package, as an import, and then as a definition.  If a clause was given, the
tries in front of it gave nothing, and the one that gave it can be followed by itself. -/

end Parse

/-! ## Runs that open with clauses

Runs that have read clauses and nothing else, each by a step of its own.  At the first token both tasks
remember nothing, and each clause leaves them so that the next one can be followed. -/

namespace Statement

end Statement

namespace Run

variable {t : Task} {r next : Run} {s : ParseState} {ss : List Statement}

/-- A run goes on with a statement where there is a token and one is read. -/
theorem step_iff : r.step t = (next, true) ↔ r.atEnd = false ∧ ∃ read s,
    t.statement.run t.env t.settings r.state = (some read, s) ∧ next = ⟨r.statements ++ read, s⟩ := by
  rw [Run.step]
  by_cases ended : r.atEnd = true
  · rw [if_pos ended, ended]
    constructor
    · intro step
      cases step
    · rintro ⟨other, -⟩
      cases other
  rw [if_neg ended]
  rw [Bool.not_eq_true] at ended
  rcases t.statement.run t.env t.settings r.state with ⟨_ | read, s⟩
  · constructor
    · intro step
      cases step
    · rintro ⟨-, read, s, none, -⟩
      cases none
  · constructor
    · intro step
      exact ⟨ended, read, s, rfl, (Prod.mk.inj step).1.symm⟩
    · rintro ⟨-, read', s', same, rfl⟩
      cases same
      rfl

/-- A run goes on with a single statement of a kind. -/
def Adds (t : Task) (kind : String) (r : Run) : Prop :=
  (r.step t).2 = true ∧ (r.step t).1.statements.map Statement.kind = r.statements.map Statement.kind ++ [kind]

instance (t : Task) (kind : String) (r : Run) : Decidable (r.Adds t kind) :=
  inferInstanceAs (Decidable ((r.step t).2 = true ∧
    (r.step t).1.statements.map Statement.kind = r.statements.map Statement.kind ++ [kind]))

theorem Adds.step_eq {kind : String} (h : r.Adds t kind) : r.step t = ((r.step t).1, true) := Prod.ext rfl h.1

/-- The statement that was added is of the kind. -/
theorem Adds.given {kind : String} (h : r.Adds t kind) :
    ∃ s : Statement, s.kind = kind ∧ (r.step t).1.statements = r.statements ++ [s] := by
  obtain ⟨-, read, u, -, next⟩ := step_iff.1 h.step_eq
  obtain ⟨-, kinds⟩ := h
  rw [next] at kinds ⊢
  rw [List.map_append] at kinds
  obtain ⟨s, rfl, same⟩ := List.map_eq_singleton_iff.1 (List.append_cancel_left kinds)
  exact ⟨s, same, rfl⟩

end Run

namespace Task

variable {t : Task} {r next : Run}

/-- The runs that have read nothing but clauses: packages with a path that is written with points alone, and
imports. -/
inductive Opens (t : Task) : Run → Prop
  | start : Opens t (.start t)
  | package {r : Run} : Opens t r → r.Adds t "package" →
      Dialects.Plain t.source r.state.look.offset (r.step t).1.state.look.offset → Opens t (r.step t).1
  | importClause {r : Run} : Opens t r → r.Adds t "import" → Opens t (r.step t).1

/-- A run that opens with clauses is one that the task comes to. -/
theorem Opens.reaches (h : t.Opens r) : t.Reaches r := by
  induction h with
  | start => exact .start
  | package _ adds _ ih => exact ih.step adds.1
  | importClause _ adds ih => exact ih.step adds.1

end Task

namespace Dialects

variable {δ : Dialects} {skipRules : Bool} {r next : Run}

/-- Early readings are at the end of the source alike. -/
theorem Early.atEnd {r' : Run} (early : δ.Early r.state r'.state) : r'.atEnd = r.atEnd := by
  rw [Run.atEnd, Run.atEnd, Bool.eq_iff_iff, beq_iff_eq, beq_iff_eq]
  exact early.plain rfl

end Dialects

end RegoSyntax
