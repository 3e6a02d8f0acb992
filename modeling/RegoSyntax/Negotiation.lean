/-
# RegoSyntax.Negotiation — which words a source may reserve, and which are reserved from the start.

Before the first token is read, the options settle two tables.  The *allowed* words are those that
the capabilities admit at all; later imports are checked against them.  The *selected* words are
reserved from the start: all allowed ones in the current dialect or on request, else those that the
options name.  Options that do not fit together leave nothing to parse with.
-/
import RegoSyntax.Options
import RegoSyntax.Parse.Problem

namespace RegoSyntax

/-- The words that may be reserved, and those that are reserved from the start. -/
structure Negotiated where
  allowed : KeywordTable
  selected : KeywordTable
deriving DecidableEq

namespace Negotiated

/-- The table of those words of `source` that a list names.  The first word it does not have is
the error. -/
def pick (source : KeywordTable) (problem : String → Problem) :
    KeywordTable → List String → Except Problem KeywordTable
  | t, [] => .ok t
  | t, word :: words =>
    match source.get? word with
    | some kind => pick source problem (t.insert word kind) words
    | none => .error (problem word)

/-- The words that a dialect admits under capabilities.  The current dialect needs the feature of
its own syntax, which admits every future word in the older dialects as well. -/
def allowedWords (v : Version) (c : Capabilities) : Except Problem KeywordTable := do
  if v == .v1 && !c.hasFeature Capabilities.regoV1 then throw .missingV1Feature
  let named ← pick .future .unknownCapabilityKeyword .empty c.futureKeywords
  return if v == .v1 || c.hasFeature Capabilities.regoV1 then named.extend .future else named

/-- The words that options reserve from the start, out of the allowed ones. -/
def selectedWords (o : Options) (allowed : KeywordTable) : Except Problem KeywordTable := do
  let named ← pick allowed .unknownFutureKeyword .empty o.futureKeywords
  return if o.allFutureKeywords || o.effectiveVersion == .v1 then allowed else named

end Negotiated

/-- The words that options admit and reserve, or what is wrong with the options. -/
def Options.negotiate (o : Options) : Except Problem Negotiated := do
  let allowed ← Negotiated.allowedWords o.effectiveVersion o.effectiveCapabilities
  let selected ← Negotiated.selectedWords o allowed
  return { allowed, selected }

end RegoSyntax
