/-
# RegoSyntax.Proofs.Dialects.Sources — sources that read the same in both dialects.

The older dialect is meant for sources that are valid in the current one as well.  It takes the four words of the
future for names until they are imported, and the current one never does, so a source that uses one of them as a name
is read in the older dialect only (`compatible_name`).  All other sources are read alike.

A run over a source has two parts.  It opens with clauses, in front of which and in which the dialects may look up a
word in different tables; that makes no difference to clauses (`Dialects.early_opens`).  Behind them each word of the
future stands only where it has been reserved, and from there on both readings see the same tokens
(`Dialects.Early.abreast`), statement by statement to the end (`Dialects.finish_abreast`).
-/
import RegoSyntax.Proofs.Dialects.Openings

namespace RegoSyntax

open Parse

/-! ## Runs

A run of the older task is followed by one of the newer, first through the clauses it opens with and then,
once every word stands only where it is reserved, to its end. -/

namespace Run

variable {t : Task} {r : Run}

end Run

namespace Dialects

variable {δ : Dialects} {n : Nat} {skipRules : Bool} {r r' : Run} {s s' : ParseState}

/-- From where each word of the future stands only where it is reserved, early readings are abreast. -/
theorem Early.abreast (early : δ.Early s s') (covers : s.look.scanner.keywords.Covers δ.source s.look.offset) :
    δ.Abreast s.look.offset s s' :=
  { early with
    memo := fun o behind => by
      obtain ⟨none, none'⟩ := early.fresh o behind
      rw [none, none']
      exact .none
    look :=
      { beside := early.beside
        token := early.token_eq fun c at' word future => covers c at'.starts at'.offset.le word future
        tables := .inr ⟨covers, early.tables⟩
        ahead := Nat.le_refl _
        backed := early.backed } }

end Dialects

/-! ## Sources

From runs to sources: the options of the one dialect are turned into those of the other, and what is given
for a source follows from the run. -/

/-- The options of the older dialect, with the words and the features that it has by itself. -/
structure Options.Compatible (o : Options) : Prop where
  version : o.version = some .v0CompatV1
  capabilities : o.capabilities = none
  futureKeywords : o.futureKeywords = []
  allFutureKeywords : o.allFutureKeywords = false

/-- The same options for the current dialect. -/
def Options.current (o : Options) : Options := { o with version := some .v1 }

namespace Options.Compatible

variable {o : Options}

theorem negotiate (h : o.Compatible) : o.negotiate = .ok ⟨.future, .empty⟩ := by
  obtain ⟨version, capabilities, words, all⟩ := h
  unfold Options.negotiate Negotiated.selectedWords Options.effectiveCapabilities Options.effectiveVersion
  rw [version, capabilities, words, all]
  rfl

end Options.Compatible

end RegoSyntax
