/-
# RegoSyntax.Proofs.Parallel.Productions — the rules of the grammar run in parallel.

Every rule is put together of the steps of `Parse.Parallel` where the productions below it are, so the grammar
is, to whatever depth it is followed (`Parse.steady_grammar`).  The proofs follow the text of the rules: a parser
in front, and what may come behind it.

A rule that is given a place to return to has two of them here, which correspond.  It is for these rules that
the relation is one of two parsers, and not a property of one.

Most rules take no place, and one and the same parser stands on both sides: it is `Steady`.  A rule
branches on what it was told of a look, so every branch is one case for both sides, and the proofs may
`split` once.

The result is used for one run, of which the productions under way are counted, and for two runs of one
source that hold different tables of reserved words.
-/
import RegoSyntax.Parser
import RegoSyntax.Proofs.Parallel

namespace RegoSyntax

open Parse

namespace Parse

/-- A grammar in which all productions are put together of parallel steps. -/
def GrammarSteady (P : Snapshot → Snapshot → Prop) (g : Grammar) : Prop :=
  ∀ ⦃α : Type⦄ (p : Production α), Steady P (g p)

namespace Parallel

variable {P : Snapshot → Snapshot → Prop} {p p' : Snapshot} {α : Type} {g : Grammar}

/-! ## References and calls

A path is read by going on from what there is of it, so its parts are steady one at a time; what they go
on with is a production below. -/

section

variable (h : GrammarSteady P g)

include h

/-- A call is steady: its arguments are read by a production below. -/
theorem call (operator : Term) (start : Nat) : Steady P (Parse.call g operator start) := by
  refine nested (scan.next (token.bind fun _ => ite ?_ ?_))
  · exact look fun _ _ => scanBlank.next (placed _ _ _ _)
  · exact (h _).bind fun _ => look fun _ _ => scanBlank.next (placed _ _ _ _)

/-- A reference is a path that starts with its head. -/
theorem reference (head : Term) (start : Nat) : Steady P (Parse.reference g head start) :=
  nested (ite ((report _ _).next (h _)) (h _))

omit h in
theorem namedSegment : Steady P Parse.namedSegment := by
  refine scanBlank.next (token.bind fun _ => isRefKeyword.bind fun _ => ite ?_ (failing _))
  exact look fun _ _ => scanBlank.next (pure _)

theorem bracketSegment : Steady P (Parse.bracketSegment g) :=
  scan.next ((h _).bind fun _ => token.bind fun _ => ite (scanBlank.next (pure _)) (failing _))

omit h in
/-- A reference ends with the place that it stretches over. -/
theorem endReference (place : Location) (start : Nat) (path : Ref) :
    Steady P (Parse.endReference place start path) :=
  lastStop.bind fun _ => placed _ _ _ _

/-- A path goes on with a segment or a call, or ends at a blank or at any other token. -/
theorem segments (place : Location) (start : Nat) (path : Ref) :
    Steady P (Parse.segments g place start path) := by
  refine token.bind fun kind => ?_
  split
  · exact namedSegment.bind fun _ => h _
  · exact (bracketSegment h).bind fun _ => h _
  · refine offset.bind fun _ => (placed _ _ _ _).bind fun _ => (call h _ _).bind fun _ => token.bind fun _ => ?_
    split
    · exact scan.next (pure _)
    · exact h _
    · exact h _
    · exact pure _
  · exact (endReference _ _ _).bind fun _ => scan.next (pure _)
  · exact endReference _ _ _

theorem finish (head : Term) (skipBlanks : Bool) : Steady P (Parse.finish g head skipBlanks) := by
  refine offset.bind fun _ => (advance _).next (token.bind fun _ => ?_)
  split
  · exact h _
  · exact h _
  · exact h _
  · exact ite (scan.next (pure _)) (pure _)

/-! ## Collections

A collection is decided by its first element.  The place that is saved for this is one that both runs
save, and they come back to it together. -/

omit h in
theorem bracketed {x : Parse Value} (hx : Steady P x) : Steady P (Parse.bracketed x) :=
  nested (location.bind fun _ => hx.bind fun _ => look fun _ _ => placed _ _ _ _)

omit h in
theorem leadingComma : Steady P Parse.leadingComma :=
  token.bind fun _ => ite (scan.next (pure _)) (pure _)

theorem elements (stop : Token) (read : List Term) : Steady P (Parse.elements g stop read) := by
  refine token.bind fun _ => ite (pure _) ((h _).bind fun _ => token.bind fun _ => ?_)
  exact ite (pure _) (ite (scan.next (h _)) (failing _))

theorem pairs (stop : Token) (read : List (Term × Term)) : Steady P (Parse.pairs g stop read) := by
  refine token.bind fun _ => ite (pure _) ((h _).bind fun _ => token.bind fun _ => checked (unexpected _) ?_)
  exact scan.next ((h _).bind fun _ => token.bind fun _ => ite (pure _) (ite (scan.next (h _)) (failing _)))

/-- The elements of an array, or its comprehension: the place to return to is the one behind the first
element. -/
theorem arrayFrom (saved : P p p') : Parallel P (Parse.arrayFrom g p) (Parse.arrayFrom g p') :=
  (restore saved).next ((h _).bind fun _ => pure _)

theorem arrayElements : Steady P (Parse.arrayElements g) := by
  refine scan.next (token.bind fun _ => ite (pure _) (leadingComma.bind fun _ => save fun _ _ saved => ?_))
  refine (h _).bind fun _ => token.bind fun _ => ?_
  split
  · exact pure _
  · exact scan.next ((h _).bind fun _ => pure _)
  · refine ite (arrayFrom h saved) (scan.next ((h _).attempted (fun _ => pure _) ?_))
    exact token.bind fun _ => ite (arrayFrom h saved) fail
  · exact arrayFrom h saved

theorem array : Steady P (Parse.array g) := bracketed (arrayElements h)

/-- The elements of a set, or its comprehension. -/
theorem setFrom (saved : P p p') : Parallel P (Parse.setFrom g p) (Parse.setFrom g p') :=
  (restore saved).next ((h _).bind fun _ => pure _)

/-- A set goes on from its first element, or is read again from the place that was saved. -/
theorem set (saved : P p p') (head : Term) (plain : Bool) :
    Parallel P (Parse.set g p head plain) (Parse.set g p' head plain) := by
  refine nested (token.bind fun _ => ?_)
  split
  · exact pure _
  · exact scan.next ((h _).bind fun _ => pure _)
  · refine ite (setFrom h saved) (scan.next ((h _).attempted (fun _ => pure _) ?_))
    exact token.bind fun _ => ite (setFrom h saved) fail
  · exact fail

/-- Behind the first key of an object its value decides how the object goes on. -/
theorem objectRest (key value : Term) (plain : Bool) : Steady P (Parse.objectRest g key value plain) := by
  refine nested (token.bind fun _ => ?_)
  split
  · exact pure _
  · exact ite (failing _) (scan.next ((h _).bind fun _ => pure _))
  · exact scan.next ((h _).bind fun _ => pure _)
  · exact fail

omit h in
theorem unterminatedObject : Steady P Parse.unterminatedObject := failing _

/-- The pairs of an object, or its comprehension. -/
theorem objectFrom (saved : P p p') (key : Term) :
    Parallel P (Parse.objectFrom g p key) (Parse.objectFrom g p' key) := by
  refine (restore saved).next ((h _).bind fun _ => token.bind fun _ => ?_)
  split
  · exact objectRest h _ _ _
  · exact objectRest h _ _ _
  · exact unterminatedObject

theorem object (key : Term) (plain : Bool) : Steady P (Parse.object g key plain) := by
  refine nested (scan.next (save fun _ _ saved => (h _).bind fun _ => ite (objectFrom h saved _) ?_))
  refine token.bind fun _ => ?_
  split
  · exact (objectRest h _ _ _).attempted (fun _ => pure _) ((restore saved).next unterminatedObject)
  · exact (objectRest h _ _ _).attempted (fun _ => pure _) ((restore saved).next unterminatedObject)
  · exact (objectRest h _ _ _).attempted (fun _ => pure _) (objectFrom h saved _)
  · exact objectFrom h saved _

/-- What stands in braces is read as a set or as an object once the token behind its first element is
known. -/
theorem bracedElements : Steady P (Parse.bracedElements g) := by
  refine scan.next (token.bind fun _ => ite (pure _) (leadingComma.bind fun _ => save fun _ _ saved => ?_))
  refine (h _).bind fun _ => token.bind fun _ => ite (set h saved _ _) (ite (object h _ _) ?_)
  refine (restore saved).next ((h _).bind fun _ => token.bind fun _ => ?_)
  split
  · exact set h saved _ _
  · exact set h saved _ _
  · exact object h _ _
  · exact failing _

theorem braced : Steady P (Parse.braced g) := bracketed (bracedElements h)

/-! ## Operators

An operator that is not there makes the attempt at an operand fail, and the attempt is taken back: steady
parsers fail together. -/

omit h in
theorem operator (kinds : List Token) : Steady P (Parse.operator kinds) :=
  token.bind fun _ => ite (location.bind fun _ => scan.next (pure _)) fail

omit h in
theorem memberOperator (n : Nat) : Steady P (Parse.memberOperator n) :=
  token.bind fun _ => ite (location.bind fun _ => scan.next (pure _)) fail

omit h in
theorem operatorCall (op left : Term) (others : List Term) (start : Nat) :
    Steady P (Parse.operatorCall op left others start) :=
  lastStop.bind fun _ => placed _ _ _ _

/-- An operand of a tier is an operation of the tier that binds more tightly, or a term. -/
theorem operand (tier : Tier) (start : Nat) : Steady P (Parse.operand g tier start) := by
  unfold Parse.operand
  split
  · exact h _
  · exact h _

theorem applied (tier : Tier) (left : Term) (start : Nat) : Steady P (Parse.applied g tier left start) :=
  (operator _).bind fun _ => offset.bind fun _ => (operand h _ _).bind fun _ => operatorCall _ _ _ _

/-- An operation takes in as many operands as there are operators of its tier; the attempt at each of them
is given up where there is none. -/
theorem operationRest (tier : Tier) (left : Term) (start : Nat) :
    Steady P (do
      match ← Parse.attempt (Parse.applied g tier left start) with
      | some c =>
        if tier.operators.contains (← Parse.token) then g (.operation tier (some c) start) else return c
      | none => return left) :=
  (applied h tier left start).attempted (fun _ => token.bind fun _ => ite (h _) (pure _)) (pure left)

theorem operation (tier : Tier) (left : Option Term) (start : Nat) :
    Steady P (Parse.operation g tier left start) := by
  refine nested ?_
  cases left with
  | some t => exact (pure t).bind fun t => operationRest h tier t start
  | none => exact (operand h _ _).bind fun t => operationRest h tier t start

theorem memberOperand (start : Nat) : Steady P (Parse.memberOperand g start) := h _

theorem keyedMember (key : Term) (start : Nat) : Steady P (Parse.keyedMember g key start) :=
  scan.next ((memberOperand h _).bind fun _ => (memberOperator _).bind fun _ => offset.bind fun _ =>
    (memberOperand h _).bind fun _ => operatorCall _ _ _ _)

theorem member (value : Term) (start : Nat) : Steady P (Parse.member g value start) :=
  (memberOperator _).bind fun _ => offset.bind fun _ => (memberOperand h _).bind fun _ => operatorCall _ _ _ _

theorem keyedMember? (keyed : Bool) (key : Term) (start : Nat) :
    Steady P (Parse.keyedMember? g keyed key start) := by
  refine token.bind fun _ => ite (save fun _ _ saved => ?_) (pure _)
  exact (keyedMember h _ _).attempted (fun _ => pure _) ((restore saved).next (pure _))

theorem memberChain (keyed : Bool) (c : Term) (start : Nat) : Steady P (Parse.memberChain g keyed c start) :=
  token.bind fun _ => ite (h _) (pure _)

theorem membershipRest (keyed : Bool) (left : Term) (start : Nat) :
    Steady P (do
      match ← Parse.keyedMember? g keyed left start with
      | some c => Parse.memberChain g keyed c start
      | none =>
        let _ ← Parse.startsRefWithKeyword
        match ← Parse.attempt (Parse.member g left start) with
        | some c => Parse.memberChain g keyed c start
        | none => return left) := by
  refine (keyedMember? h keyed left start).bind fun keyedMember => ?_
  cases keyedMember with
  | some c => exact memberChain h _ _ _
  | none =>
      exact startsRefWithKeyword.next ((member h _ _).attempted (fun _ => memberChain h _ _ _) (pure _))

/-- A membership starts with an operand of its own, or goes on from one that was read for a comprehension.
-/
theorem membership (keyed : Bool) (left : Option Term) (start : Nat) :
    Steady P (Parse.membership g keyed left start) := by
  refine nested ?_
  cases left with
  | some t => exact (pure t).bind fun t => membershipRest h keyed t start
  | none => exact (memberOperand h _).bind fun t => membershipRest h keyed t start

theorem compound (keyed : Bool) : Steady P (Parse.compound g keyed) :=
  nested (offset.bind fun _ => h _)

/-! ## Primary terms

A primary term is chosen by the token that is seen, which is the same on both sides. -/

omit h in
theorem signMark (mark : Token) (following : List Token) : Steady P (Parse.signMark mark following) :=
  token.bind fun _ => ite (scan.next (token.bind fun _ => ite (pure _) (failing _))) (pure _)

omit h in
theorem number : Steady P Parse.number := by
  refine location.bind fun _ => (signMark _ _).bind fun _ => (signMark _ _).bind fun _ => look fun _ _ => ?_
  rw [Look.reserving_literal]
  refine checked (unexpected _) ?_
  dsimp only
  generalize Numeral.ofText? _ = n
  cases n with
  | none => exact failing _
  | some n => exact ite (pure _) (failingHere _)

omit h in
theorem string : Steady P Parse.string := by
  refine look fun _ _ => ?_
  rw [Look.reserving_literal]
  refine ite ((ofOption _).bind fun _ => here _) (ite (here _) ?_)
  split
  · exact here _
  · exact failingHere _

theorem parenthesized : Steady P (Parse.parenthesized g) := by
  refine offset.bind fun _ => scan.next ((h _).bind fun _ => token.bind fun _ => ite ?_ ?_)
  · exact look fun _ _ => (text _ _).bind fun _ => pure _
  · exact failingHere _

/-- A head is told by its token alone. -/
theorem head : Steady P (Parse.head g) := by
  refine token.bind fun _ => ?_
  split
  · exact here _
  · exact here _
  · exact here _
  · exact number
  · exact number
  · exact number
  · exact string
  · exact variableHere
  · exact variableHere
  · exact array h
  · exact braced h
  · exact parenthesized h
  · exact failing _

theorem term : Steady P (Parse.term g) := by
  rw [term_eq]
  exact nested (recallingOr ((head h).bind fun _ => finish h _ _))

/-! ## Literals

A literal is tried in several ways, and with advice on words that might have been meant; each try is taken
back by both runs or by neither. -/

theorem expression : Steady P (Parse.expression g) := by
  refine (h _).bind fun _ => token.bind fun _ => ite ?_ ?_
  · exact location.bind fun _ => scan.next ((h _).bind fun _ => pure _)
  · split
    · exact pure _
    · exact pure _

omit h in
/-- What may not be replaced is reported, and nothing is read for it. -/
theorem checkTarget (target : Term) : Steady P (Parse.checkTarget target) := by
  unfold Parse.checkTarget
  split
  · exact pure _
  · exact pure _
  · exact unexpected _

theorem replacedBy (place : Location) (target : Term) : Steady P (Parse.replacedBy g place target) :=
  token.bind fun _ => checked (unexpected _)
    (scan.next ((h _).bind fun _ => (upToLastStop _).bind fun _ => pure _))

theorem replacement : Steady P (Parse.replacement g) :=
  location.bind fun _ => scan.next (token.bind fun _ => checked (unexpected _)
    ((h _).bind fun _ => (checkTarget _).next (replacedBy h _ _)))

theorem replacements (read : List With) : Steady P (Parse.replacements g read) :=
  (replacement h).bind fun _ => token.bind fun _ => ite (h _) (pure _)

theorem replaced (e : Expr) : Steady P (Parse.replaced g e) :=
  token.bind fun _ => ite ((h _).bind fun _ => pure _) (pure _)

/-- A membership behind `some` is put in the form of a call. -/
theorem declaredMembership (place : Location) (t : Term) (terms : List Term) :
    Steady P (Parse.declaredMembership g place t terms) := by
  unfold Parse.declaredMembership
  split
  · exact failing _
  · exact ite (replaced h _) (failing _)

theorem symbols (read : List Term) : Steady P (Parse.symbols g read) :=
  scan.next (token.bind fun _ => checked (unexpected _)
    (variableHere.bind fun _ => scan.next (token.bind fun _ => ite (h _) (pure _))))

/-- A hint is given where the text would be a membership if the word were reserved, which is tried and
taken back. -/
theorem suggestIn (saved : P p p') : Parallel P (Parse.suggestIn g p) (Parse.suggestIn g p') := by
  refine env fun e e' same => ?_
  rw [same]
  refine ite (scan.next ?_) (pure _)
  exact reserving saved (h _) fun _ => ite (hint _) (pure _)

/-- Declared variables are read from the place that was saved before the membership was tried. -/
theorem declaredSymbols (place : Location) (saved : P p p') :
    Parallel P (Parse.declaredSymbols g place p) (Parse.declaredSymbols g place p') :=
  (restore saved).next ((suggestIn h saved).next ((h _).bind fun _ => pure _))

theorem declaration : Steady P (Parse.declaration g) := by
  refine location.bind fun _ => save fun _ _ saved => scan.next ((h _).attempt.bind fun _ => ?_)
  split
  · split
    · exact declaredMembership h _ _ _
    · exact declaredSymbols h _ saved
  · exact declaredSymbols h _ saved

theorem quantifiedQuery (place : Location) (key : Option Term) (value domain : Term) :
    Steady P (Parse.quantifiedQuery g place key value domain) :=
  token.bind fun _ => checked (unexpected _) (scan.next ((h _).bind fun _ => scan.next (replaced h _)))

theorem quantifier : Steady P (Parse.quantifier g) := by
  refine location.bind fun _ => scan.next ((h _).bind fun _ => ?_)
  split
  · exact failing _
  · exact quantifiedQuery h _ _ _ _

theorem suggestEvery (saved : P p p') (e : Expr) :
    Parallel P (Parse.suggestEvery g p e) (Parse.suggestEvery g p' e) := by
  refine env fun e e' same => ?_
  rw [same]
  exact ite ((probing saved (quantifier h)).bind fun _ => ite (hint _) (pure _)) (pure _)

theorem plainLiteral (negated : Bool) : Steady P (Parse.plainLiteral g negated) :=
  save fun _ _ saved => (expression h).bind fun _ => (replaced h _).bind fun _ =>
    (suggestEvery h saved _).next (pure _)

omit h in
theorem negation : Steady P Parse.negation :=
  token.bind fun _ => ite (pure _) (peekBlank.bind fun _ => ite (pure _) (scan.next (pure _)))

/-- A literal that has not got its place yet: negated, declared, quantified or plain. -/
theorem unplacedLiteral : Steady P (Parse.unplacedLiteral g) := by
  refine startsRefWithKeyword.bind fun _ => ite (plainLiteral h _) (negation.bind fun _ => token.bind fun _ => ?_)
  split
  · exact ite (failing _) (declaration h)
  · exact ite (failing _) (quantifier h)
  · exact plainLiteral h _

theorem literal : Steady P (Parse.literal g) :=
  location.bind fun _ => (unplacedLiteral h).bind fun _ => (upToLastStop _).bind fun _ => pure _

theorem literals (oneLine : Bool) (stop : Token) (read : Body) :
    Steady P (Parse.literals g oneLine stop read) := by
  refine (h _).bind fun _ => token.bind fun _ => ite (scan.next (h _)) (ite (pure _) (look fun _ _ => ?_))
  refine ite (h _) (noFailures.bind fun _ => ?_)
  exact ite ((unexpected _).next fail) fail

theorem query (oneLine : Bool) (stop : Token) : Steady P (Parse.query g oneLine stop) :=
  token.bind fun _ => ite (failingHere _) (h _)

theorem body (stop : Token) : Steady P (Parse.body g stop) := nested (query h _ _)

/-! ## Rules

A rule is read head first.  The checks on a head look at what was read alone, so both runs make the same
ones and report the same problems. -/

omit h in
/-- A head that is repeated gets names of its own for its wildcards. -/
theorem renewed (head : Head) (stands : Nat) : Steady P (Parse.renewed head stands) := by
  refine (mapM (fun t => ?_) _).bind fun _ => pure _
  split
  · exact ite ((freshWildcard _).bind fun _ => pure _) (pure _)
  · exact pure _

omit h in
/-- The head of a rule is checked as a term that has been read. -/
theorem headOf (t : Term) : Steady P (Parse.headOf t) := by
  unfold Parse.headOf
  split
  · exact pure _
  · exact pure _
  · split
    · exact pure _
    · exact ite (pure _) (failing _)
    · exact fail
  · exact fail

theorem headPart (note : Note) : Steady P (Parse.headPart g note) :=
  scan.next ((h _).attempt.bind fun _ => ite ((unexpected _).next (pure _)) (pure _))

theorem headRest (isDefault : Bool) (place : Location) (head : Head) :
    Steady P (Parse.headRest g isDefault place head) := by
  refine token.bind fun _ => ?_
  split
  · have key : Steady P (do
        return { head with
          key := ← Parse.headPart g (.ruleKey (Ref.render head.reference)), keywords := [.containsKw] }) :=
      (headPart h _).bind fun _ => pure _
    exact ite ((unexpected _).next key) key
  · exact (headPart h _).bind fun _ => pure _
  · exact (headPart h _).bind fun _ => pure _
  · exact pure _

theorem ruleHead (isDefault : Bool) : Steady P (Parse.ruleHead g isDefault) := by
  refine location.bind fun _ => variableHere.bind fun _ => (finish h _ _).attempt.bind fun _ => ?_
  split
  · exact failing _
  · exact (headOf _).bind fun _ => (headRest h _ _ _).bind fun _ => (upToLastStop _).bind fun _ => pure _

omit h in
/-- A head is settled once the token behind it is known. -/
theorem resolved (head : Head) (place : Location) (hasIf : Bool) :
    Steady P (Parse.resolved head place hasIf) := by
  unfold Parse.resolved
  split
  · refine ite (pure _) (ite (ite (pure _) ?_) (ite ?_ (pure _)))
    · exact (ofOption _).bind fun _ => pure _
    · exact (ofOption _).bind fun _ => pure _
  · exact pure _

omit h in
/-- All problems of a head are reported one after the other, at the same place. -/
theorem rejectFor (place : Location) (problems : List Problem) : Steady P (Parse.rejectFor place problems) := by
  have reports : Steady P (problems.forM (Parse.report place)) := by
    induction problems with
    | nil => exact pure ()
    | cons problem problems ih => exact (report _ _).next ih
  exact reports.next (ite (pure _) fail)

omit h in
theorem defaultRule (head : Head) (place : Location) : Steady P (Parse.defaultRule head place) := by
  refine (upToLastStop _).bind fun _ => ?_
  have rest (place : Location) : Steady P (do
      Parse.rejectFor place (argumentProblems [] head.args)
      return { Rule.new head (trueBody place) with
        isDefault := true, generatedBody := true, location := some place }) :=
    (rejectFor _ _).next (pure _)
  split
  · exact (rejectFor _ _).next (rest _)
  · exact (rejectFor _ _).next (rest _)

theorem bracedBody : Steady P (Parse.bracedBody g) := scan.next ((h _).bind fun _ => scan.next (pure _))

/-- A body behind `if` is tried as a literal first, then as a query in braces. -/
theorem ifBody : Steady P (Parse.ifBody g) := by
  refine scan.next (save fun _ _ saved => (h _).attempt.bind fun _ => ?_)
  split
  · exact pure _
  · exact (restore saved).next (bracedBody h)

omit h in
theorem alternativeHead (head : Head) (place : Location) : Steady P (Parse.alternativeHead head place) :=
  (renewed _ _).bind fun _ => pure _

/-- The value of an alternative stands behind one of two operators, or there is none. -/
theorem alternativeValue (head : Head) (place : Location) : Steady P (Parse.alternativeValue g head place) := by
  have value : Steady P (do
      let assign := (← Parse.token) == .assign
      Parse.scan
      let v ← g (.compound true)
      return { head with assign, value := some v, location := some (← Parse.upToLastStop place) }) :=
    token.bind fun _ => scan.next ((h _).bind fun _ => (upToLastStop _).bind fun _ => pure _)
  refine token.bind fun _ => ?_
  split
  · exact pure _
  · exact pure _
  · exact value
  · exact value
  · exact failing _

theorem alternativeIfBody : Steady P (Parse.alternativeIfBody g) := by
  refine scan.next (token.bind fun _ => ?_)
  split
  · exact (bracedBody h).bind fun _ => pure _
  · exact failing _
  · exact (h _).bind fun _ => pure _

theorem furtherAlternative (head : Head) : Steady P (Parse.furtherAlternative g head) :=
  token.bind fun _ => ite ((h _).bind fun _ => pure _) (pure _)

theorem alternative (head : Head) : Steady P (Parse.alternative g head) := by
  refine location.bind fun _ => (alternativeHead _ _).bind fun _ => ?_
  refine scan.next ((alternativeValue h _ _).bind fun _ => ?_)
  refine token.bind fun _ => ?_
  split
  · exact (alternativeIfBody h).bind fun _ => (furtherAlternative h _).bind fun _ =>
      (upToLastStop _).bind fun _ => pure _
  · exact (bracedBody h).bind fun _ => (furtherAlternative h _).bind fun _ =>
      (upToLastStop _).bind fun _ => pure _
  · exact (upToLastStop _).bind fun _ => pure _

theorem alternative? (head : Head) : Steady P (Parse.alternative? g head) :=
  token.bind fun _ => ite (pure _) (startsRefWithKeyword.bind fun _ => ite (pure _)
    (checked (reportHere _) (checked (reportHere _) ((h _).bind fun _ => pure _))))

theorem siblings (first : Rule) (read : List Rule) : Steady P (Parse.siblings g first read) :=
  token.bind fun _ => ite (pure _) (checked (reportHere _)
    (location.bind fun _ => (bracedBody h).bind fun _ => (upToLastStop _).bind fun _ =>
      (renewed _ _).bind fun _ => h _))

theorem rulesFrom (head : Head) (b : Body) (place : Location) : Steady P (Parse.rulesFrom g head b place) :=
  (alternative? h _).bind fun _ => (upToLastStop _).bind fun _ => h _

theorem definedRules (head : Head) (place : Location) : Steady P (Parse.definedRules g head place) := by
  refine token.bind fun _ => (resolved _ _ _).bind fun _ => ?_
  split
  · exact (ifBody h).bind fun _ => rulesFrom h _ _ _
  · exact (bracedBody h).bind fun _ => rulesFrom h _ _ _
  · exact ite (pure _) fail

/-- All rules that one head starts: bodies, alternatives and further bodies. -/
theorem rules : Steady P (Parse.rules g) := by
  have started (place : Location) (isDefault : Bool) : Steady P (do
      if (← Parse.token) != .ident then Parse.fail
      let head ← Parse.ruleHead g isDefault
      if isDefault then return [← Parse.defaultRule head place] else Parse.definedRules g head place) := by
    have named := (ruleHead h isDefault).bind fun head =>
      ite (c := isDefault = true) ((defaultRule head place).bind fun r => pure [r]) (definedRules h head place)
    exact token.bind fun _ => ite (fail.next named) named
  refine location.bind fun _ => startsRefWithKeyword.next (token.bind fun _ => ite ?_ (started _ _))
  exact scan.next (startsRefWithKeyword.next (started _ _))

/-! ## Clauses

The clauses in front of a source ask for their keyword, and give up where it does not stand. -/

omit h in
theorem clauseKeyword (keyword : Token) : Steady P (Parse.clauseKeyword keyword) := by
  have behind : Steady P (do
      Parse.scanBlank
      if continuesRef (← Parse.token) then Parse.fail
      Parse.scan) :=
    scanBlank.next (token.bind fun _ => ite (fail.next scan) scan)
  exact token.bind fun _ => ite (fail.next behind) behind

omit h in
theorem missingPath {α : Type} : Steady P (Parse.missingPath : Parse α) :=
  noFailures.bind fun _ => ite (failingHere _) fail

omit h in
theorem stringSegments (path : Ref) : Steady P (Parse.stringSegments path) := by
  induction path with
  | nil => exact pure ()
  | cons t ts ih => exact ite ih ((report _ _).next fail)

omit h in
theorem packagePath (path : Ref) : Steady P (Parse.packagePath path) := by
  refine (ofOption _).bind fun _ => ?_
  split
  · exact (stringSegments _).next (pure _)
  · exact (report _ _).next fail

/-- A package clause is the word, a path, and the end of the line. -/
theorem package : Steady P (Parse.package g) := by
  refine location.bind fun _ => (clauseKeyword _).next (isIdent.bind fun _ => checked (unexpected _) ?_)
  refine (h _).attempt.bind fun _ => ?_
  split
  · split
    · exact (packagePath _).bind fun _ => (upToLastStop _).bind fun _ => pure _
    · exact (packagePath _).bind fun _ => (upToLastStop _).bind fun _ => pure _
    · exact (unexpected _).next (fail.bind fun _ => (upToLastStop _).bind fun _ => pure _)
  · exact missingPath

theorem importAlias : Steady P (Parse.importAlias g) := by
  refine scan.next (token.bind fun _ => checked (unexpected _) ((h _).attempt.bind fun _ => ?_))
  split
  · exact pure _
  · exact failing _

/-! ## Queries and rules

Which kind of statement is read is found by trying; the second try starts at the place of the first. -/

theorem queryStatement : Steady P (Parse.queryStatement g) := (query h _ _).bind fun _ => pure _

omit h in
/-- Two ways to read a statement: the second one is taken from the same place where the first has failed.
-/
theorem orElse {x x' y y' : Parse α} (saved : P p p') (hx : Parallel P x x') (hy : Parallel P y y') :
    Parallel P (Parse.orElse p x y) (Parse.orElse p' x' y') := by
  refine hx.attempted (fun _ => pure _) ?_
  exact noFailures.bind fun _ => ite ((restore saved).next hy) fail

/-- A statement is rules or a query, and is tried as both where both may be. -/
theorem definitionStatement (skipRules : Bool) (saved : P p p') :
    Parallel P (Parse.definitionStatement g skipRules p) (Parse.definitionStatement g skipRules p') :=
  ite (queryStatement h) (orElse saved ((rules h).bind fun _ => pure _) (queryStatement h))

end

end Parallel

/-! ## The grammar

By induction on the depth: a production at one level calls those of the level below. -/

/-- A rule is steady where the productions below it are. -/
theorem GrammarSteady.rule {P : Snapshot → Snapshot → Prop} {g : Grammar} (h : GrammarSteady P g) :
    GrammarSteady P (Parse.rule g) := by
  intro α p
  cases p with
  | term => exact .term h
  | reference head start => exact .reference h head start
  | segments place start path => exact .segments h place start path
  | elements stop read => exact .elements h stop read
  | pairs stop read => exact .pairs h stop read
  | compound keyed => exact .compound h keyed
  | membership keyed left start => exact .membership h keyed left start
  | operation tier left start => exact .operation h tier left start
  | body stop => exact .body h stop
  | literals oneLine stop read => exact .literals h oneLine stop read
  | literal => exact .literal h
  | replacements read => exact .replacements h read
  | symbols read => exact .symbols h read
  | alternative head => exact .alternative h head
  | siblings first read => exact .siblings h first read

/-- The grammar is steady to whatever depth it is followed. -/
theorem steady_grammar (P : Snapshot → Snapshot → Prop) (n : Nat) : GrammarSteady P (Parse.grammar n) := by
  induction n with
  | zero => exact fun _ _ => .fail
  | succ n ih => exact ih.rule

end Parse

end RegoSyntax
