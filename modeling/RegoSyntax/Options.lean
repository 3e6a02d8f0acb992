/-
# RegoSyntax.Options — dialects, capabilities and options of a parse.

A dialect fixes which words are reserved from the start.  Capabilities say what the engine that a
policy is meant for supports: which future words may be reserved at all, and which features of the
syntax may be used.
-/
import RegoSyntax.Keyword
import RegoSyntax.Depth

namespace RegoSyntax

/-- A dialect of the language: the first one, in which the future words have to be imported;
the same under a name of its own, for policies on their way to the current one; and the current one. -/
inductive Version where
  | v0
  | v0CompatV1
  | v1
deriving DecidableEq, Repr, Inhabited

namespace Version

/-- The name of a dialect. -/
def name : Version → String
  | v0 => "v0"
  | v0CompatV1 => "v0v1"
  | v1 => "v1"

/-- The dialect that is used where none is chosen. -/
def default : Version := v1

/-- Whether a dialect reserves a word, whatever is imported. -/
def reserves (v : Version) (word : String) : Bool :=
  KeywordTable.baseWords.any (·.1 == word) ||
    (v == v1 && KeywordTable.futureWords.any (·.1 == word))

end Version

/-- What an engine supports: the future words that may be reserved, and features by name. -/
structure Capabilities where
  futureKeywords : List String := []
  features : List String := []
deriving DecidableEq

namespace Capabilities

/-- The feature of the syntax of `v1`. -/
def regoV1 : String := "rego_v1"

/-- The feature of the clause `import rego.v1` in the older dialects. -/
def regoV1Import : String := "rego_v1_import"

/-- The feature of keywords as heads and segments of references. -/
def keywordsInRefs : String := "keywords_in_refs"

/-- Whether a feature is supported. -/
def hasFeature (c : Capabilities) (feature : String) : Bool := c.features.contains feature

/-- What this parser supports of a dialect. -/
def ofVersion : Version → Capabilities
  | .v1 => { features := [regoV1, keywordsInRefs] }
  | _ =>
    { futureKeywords := ["contains", "every", "if", "in"]
      features := [regoV1Import, regoV1, keywordsInRefs] }

end Capabilities

/-- How to parse.  Without capabilities, those of the dialect are used.  The last field is for
comparing runs: switched off, no suggestions to import a keyword are made. -/
structure Options where
  capabilities : Option Capabilities := none
  /-- decode metadata comments -/
  annotations : Bool := false
  /-- reserve all future words that may be reserved -/
  allFutureKeywords : Bool := false
  /-- reserve these future words -/
  futureKeywords : List String := []
  /-- read no rules, only clauses and queries -/
  skipRules : Bool := false
  version : Option Version := none
  /-- the most productions that may be under way at once; zero for no ceiling -/
  maxDepth : Nat := DepthLimit.defaultMax
  suggestImports : Bool := true

namespace Options

/-- The dialect to parse. -/
def effectiveVersion (o : Options) : Version := o.version.getD .default

/-- The capabilities to parse with. -/
def effectiveCapabilities (o : Options) : Capabilities :=
  o.capabilities.getD (.ofVersion o.effectiveVersion)

end Options

end RegoSyntax
