/-
# RegoSyntax.Parse.Problem — what can be wrong with a source.

Every parse error has a cause, a `Problem`; its wording is in one place.  Most problems are tokens
that do not belong where they stand, and carry a `Note` on what was expected there.
-/
import RegoSyntax.Lexeme
import RegoSyntax.Tree.Render

namespace RegoSyntax

/-- What a token that does not belong where it stands was found instead of. -/
inductive Note where
  | none
  | number
  | numberWithoutLeadingZero
  | invalidFloat
  /-- one of these kinds of token -/
  | token (kind : Token)
  | quotedToken (kind : Token)
  | separatorOr (stop : Token)
  | literalSeparatorOr (stop : Token)
  | unterminatedSet
  | unterminatedObject
  | negatedSome
  | negatedEvery
  | ident
  | withTarget
  | asKeyword
  | membership
  | illegalDomain
  | var
  | everyShape
  | keyVariable
  | valueVariable
  | missingBody
  | elseValueOrBody
  | ruleBody
  | headName
  | invalidHead (reference : String)
  | containsOnFunction (name : String)
  | ruleKey (name : String)
  | ruleValue (name : String)
  | assignedRuleValue (name : String)
  | functionValue (name : String)
  | partialRuleValue (name : String)
  | defaultRuleValue (name : String)
deriving DecidableEq, Repr

namespace Note

/-- The example at the end of a note on rule heads. -/
def example' (text : String) : String := "(e.g., " ++ text ++ ")"

/-- The braces of a rule body in an example. -/
def bracesExample : String := "\x7b ... \x7d"

/-- The wording of a note. -/
def message : Note → String
  | none => ""
  | number => "expected number"
  | numberWithoutLeadingZero => "expected number without leading zero"
  | invalidFloat => "invalid float"
  | token kind => "expected " ++ kind.name
  | quotedToken kind => "expected " ++ Quoted.display kind.name
  | separatorOr stop =>
    "expected " ++ Quoted.display Token.comma.name ++ " or " ++ Quoted.display stop.name
  | literalSeparatorOr stop => "expected \\n or " ++ Token.semicolon.name ++ " or " ++ stop.name
  | unterminatedSet => "non-terminated set"
  | unterminatedObject => "non-terminated object"
  | negatedSome => "illegal negation of 'some'"
  | negatedEvery => "illegal negation of 'every'"
  | ident => "expected ident"
  | withTarget => "expected with target path"
  | asKeyword => "expected as keyword"
  | membership => "expected `x in xs` or `x, y in xs` expression"
  | illegalDomain => "illegal domain"
  | var => "expected var"
  | everyShape => "expected `x[, y] in xs \x7b ... \x7d` expression"
  | keyVariable => "expected key to be a variable"
  | valueVariable => "expected value to be a variable"
  | missingBody => "missing body"
  | elseValueOrBody => "expected else value term or rule body"
  | ruleBody => "rule body expected"
  | headName => "expected rule head name"
  | invalidHead reference => "rule head ref " ++ reference ++ " invalid"
  | containsOnFunction name =>
    "the contains keyword can only be used with multi-value rule definitions " ++
      example' (name ++ " contains <VALUE> " ++ bracesExample)
  | ruleKey name =>
    "expected rule key term " ++ example' (name ++ " contains <VALUE> " ++ bracesExample)
  | ruleValue name =>
    "expected rule value term " ++ example' (name ++ " = <VALUE> " ++ bracesExample)
  | assignedRuleValue name =>
    "expected rule value term " ++ example' (name ++ " := <VALUE> " ++ bracesExample)
  | functionValue name =>
    "expected function value term " ++ example' (name ++ "(...) := <VALUE> " ++ bracesExample)
  | partialRuleValue name =>
    "expected partial rule value term " ++ example' (name ++ "[...] := <VALUE> " ++ bracesExample)
  | defaultRuleValue name =>
    "expected default rule value term " ++ example' ("default " ++ name ++ " := <VALUE>")

end Note

/-- A cause of a parse error. -/
inductive Problem where
  | lexical (e : LexicalError)
  | tooDeep
  | illegalToken
  | unexpectedToken (kind : Token) (note : Note)
  | unterminatedExpression
  | numberTooBig
  | illegalString (literal : String)
  | illegalRefHead (kind : String)
  | emptyBody
  | elseWithVariables
  | elseOnMultiValue
  | expectedElse
  | defaultWithoutValue
  | defaultValueContains (kind : String)
  | defaultArgumentRepeated (name : String)
  | defaultArgumentContains (kind : String)
  | expectedPath
  | pathHeadNotVar (kind : String)
  | pathSegmentNotString (kind : String)
  | importRoot (root : String)
  | importEndsInKeyword (path : String)
  | futureImportPath
  | futureImportAlias
  | futureImportShape
  | futureImportUnknown (allowed : List String)
  | regoImportUnsupported
  | regoImportPath (path : String)
  | regoImportAlias
  /- capabilities and options that do not fit together -/
  | missingV1Feature
  | unknownCapabilityKeyword (word : String)
  | unknownFutureKeyword (word : String)
  /- the decoding of metadata comments has an account of its own -/
  | annotation (message : String)
deriving DecidableEq, Repr

/-- The roots an import path may start with. -/
def importRoots : List String := ["data", "future", "input", "rego"]

/-- The wording of a problem. -/
def Problem.message : Problem → String
  | lexical e => e.message
  | tooDeep => "max parsing recursion depth exceeded"
  | illegalToken => "illegal token"
  | unexpectedToken kind note =>
    "unexpected " ++ kind.name ++
      (if kind.isKeyword || kind.isFutureKeyword then " keyword" else " token") ++
      (if note.message.isEmpty then "" else ": " ++ note.message)
  | unterminatedExpression => "non-terminated expression"
  | numberTooBig => "number too big"
  | illegalString literal => "illegal string literal: " ++ literal
  | illegalRefHead kind => "illegal ref (head cannot be " ++ kind ++ ")"
  | emptyBody => "found empty body"
  | elseWithVariables => "else keyword cannot be used on rules with variables in head"
  | elseOnMultiValue => "else keyword cannot be used on multi-value rules"
  | expectedElse => "expected else keyword"
  | defaultWithoutValue => "illegal default rule (must have a value)"
  | defaultValueContains kind => "illegal default rule (value cannot contain " ++ kind ++ ")"
  | defaultArgumentRepeated name =>
    "illegal default rule (arguments cannot be repeated " ++ name ++ ")"
  | defaultArgumentContains kind =>
    "illegal default rule (arguments cannot contain " ++ kind ++ ")"
  | expectedPath => "expected path"
  | pathHeadNotVar kind => "unexpected " ++ kind ++ " token: expecting var"
  | pathSegmentNotString kind => "unexpected " ++ kind ++ " token: expecting string"
  | importRoot root =>
    "unexpected import path, must begin with one of: \x7b" ++ joinWith ", " importRoots ++
      "\x7d, got: " ++ root
  | importEndsInKeyword path =>
    "unexpected import path, must not end with a keyword, got: " ++ path
  | futureImportPath => "invalid import, must be `future.keywords`"
  | futureImportAlias => "`future` imports cannot be aliased"
  | futureImportShape =>
    "invalid import, must be `future.keywords.x`, e.g. `import future.keywords.in`"
  | futureImportUnknown allowed =>
    "unexpected keyword, must be one of [" ++ joinWith " " allowed ++ "]"
  | regoImportUnsupported => "invalid import, `rego.v1` is not supported by current capabilities"
  | regoImportPath path => "invalid import `" ++ path ++ "`, must be `rego.v1`"
  | regoImportAlias => "`rego` imports cannot be aliased"
  | missingV1Feature => "illegal capabilities: rego_v1 feature required for parsing v1 Rego"
  | unknownCapabilityKeyword word => "illegal capabilities: unknown keyword: " ++ word
  | unknownFutureKeyword word => "unknown future keyword: " ++ word
  | annotation message => message

/-- Advice that goes with the next error. -/
inductive Hint where
  | importEvery
  | importIn
  | updateTooling
  | otherPathOrAlias
deriving DecidableEq, Repr

/-- The wording of a hint. -/
def Hint.message : Hint → String
  | importEvery =>
    "`import future.keywords.every` for `every x in xs \x7b ... \x7d` expressions"
  | importIn => "`import future.keywords.in` for `some x in xs` expressions"
  | updateTooling => "if this is unexpected, try updating your Rego tooling"
  | otherPathOrAlias => "import a different path or use an alias"

end RegoSyntax
