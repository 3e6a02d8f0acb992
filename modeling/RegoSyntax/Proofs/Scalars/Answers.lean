/-
# RegoSyntax.Proofs.Scalars.Answers — a text that is a number or a string and nothing else.

A scalar is read at the bottom of the grammar, below all tiers of operators.  Whatever reading it comes to,
its value or the one problem that is reported, is handed up unchanged: behind a scalar that closes a text
or a bracket there is no operator, no segment and no replacement.  So it is enough to follow `Parse.head`
over a scalar to know what a source or a segment is that consists of it.

Eight productions are under way at once when a scalar in a query is read, and that is all the room needed.
-/
import RegoSyntax.Proofs.Sheets

namespace RegoSyntax

open Parse Lexeme
open Page (Given)

/-! ## What may stand behind

On its own a scalar has the end of the source behind it, or a bracket.  Neither of these is an operator, a
comma or a word. -/

/-- What stands behind a scalar that is on its own: the end, or the bracket that closes a segment. -/
inductive Lexeme.Shut : List Char → Prop where
  | atEnd : Shut []
  | bracket {s : List Char} : Shut (']' :: s)

namespace Lexeme.Shut

variable {d : Sheet} {r : List Char}

theorem closes (h : Shut r) : Closes r := by
  cases h with
  | atEnd => exact .atEnd
  | bracket => exact .mark (by simp [closingMarks])

/-- The tokens that close a scalar. -/
def tokens : List Token := [.eof, .rbrack]

theorem token (h : Shut r) : d.shows r ∈ tokens := by
  cases h with
  | atEnd =>
      rw [Sheet.shows_nil]
      decide
  | bracket =>
      rw [Sheet.shows_of_next (k := .rbrack) (n := 1) rfl nofun]
      decide

theorem legal (h : Shut r) : Legal r := by
  cases h with
  | atEnd | bracket => exact ⟨⟨rfl, nofun⟩, nofun⟩

/-- No operator stands behind. -/
theorem no_operator (tier : Tier) : ∀ kind ∈ tokens, kind ∉ tier.operators := by
  cases tier <;> decide

end Lexeme.Shut

/-! ## Answers

Reading a scalar comes to a value or to one problem.  Both are told by the verdict, which the rules above
the scalar hand up without a change. -/

/-- A number or a string. -/
def Value.isScalar : Value → Bool
  | .number _ | .string _ => true
  | _ => false

namespace Sheet

/-- What reading a scalar comes to: what tells its value, at a known place; or nothing, and the one problem
that has been reported, without advice. -/
def Answers {α : Type} (verdict : Except Problem Value) (tells : Value → α → Prop)
    (there : Reading → Prop) (a : Option α) (u : Reading) : Prop :=
  match verdict with
  | .ok value => ∃ x, a = some x ∧ tells value x ∧ there u
  | .error problem =>
    a = none ∧ u.failures.toList.map (fun f => (f.problem, f.hints)) = [(problem, [])]

/-- A term of a value. -/
def Has (value : Value) (t : Term) : Prop := t.value = value

/-- An expression that is a term of a value. -/
def Asserts (value : Value) (e : Expr) : Prop := ∃ t, e.terms = .term t ∧ t.value = value

variable {d : Sheet} {g : Grammar} {verdict : Except Problem Value} {room : Nat} {u : Reading}
  {r s : List Char}

/-- To go on behind a scalar, it is enough to go on behind its value. -/
theorem Answers.bind {α β : Type} {x : Parse α} {f : α → Parse β} {tells : Value → α → Prop}
    {tells' : Value → β → Prop} {there there' : Reading → Prop}
    (first : d.Runs room x u (Answers verdict tells there))
    (rest : ∀ value a v, verdict = .ok value → tells value a → there v →
      d.Runs room (f a) v (Given fun b w => tells' value b ∧ there' w)) :
    d.Runs room (x >>= f) u (Answers verdict tells' there') := by
  cases verdict with
  | error problem =>
      exact runs_bind first (fun _ failed => ⟨rfl, failed.2⟩) fun _ _ failed => nomatch failed.1
  | ok value =>
      refine runs_bind first (fun _ read => ?_) fun a v read => ?_
      · obtain ⟨_, none, -⟩ := read
        cases none
      · obtain ⟨b, same, tells, there⟩ := read
        obtain rfl := Option.some.inj same
        exact rest value a v rfl tells there

/-- A scalar on its own ends at the token behind it. -/
theorem runs_primary (shut : Shut r) (plain : ∀ value, verdict = .ok value → value.isScalar = true)
    (leaf : d.Runs room (head g) u (Answers verdict Has (d.Last r))) :
    d.Runs room (primary g) u (Answers verdict Has (d.Sees r)) := by
  unfold primary
  refine Answers.bind leaf fun value t v same has last => ?_
  have other : isRoot t.value = false := by
    have scalar := plain value same
    rw [show t.value = value from has]
    cases value <;> first | rfl | cases scalar
  unfold finish
  refine runs_act rfl ?_
  refine gives_bind (last.scanBlank shut.legal.toStops) fun _ w sees => ?_
  refine runs_act rfl ?_
  have closed : w.look.token ∈ Shut.tokens := sees.token ▸ shut.token
  simp only [Shut.tokens, List.mem_cons, List.not_mem_nil, or_false] at closed
  rcases closed with token | token <;> rw [token, other] <;> exact gives_pure ⟨has, sees⟩

/-- What is read as a primary term is read as a term. -/
theorem runs_term {n : Nat} (stands : d.Stands s u) (shorter : String.utf8Len r < String.utf8Len s)
    (read : d.Runs room (primary (grammar n)) u (Answers verdict Has (d.Sees r))) :
    d.Runs (room + 1) (grammar (n + 1) .term) u (Answers verdict Has (d.Sees r)) := by
  refine runs_nested (runs_remembered stands ?_)
  unfold freshTerm
  refine runs_act rfl ?_
  cases verdict with
  | error problem =>
      -- a failure is remembered as well, and the error stays where it was reported
      refine runs_bind (P := fun a v => a = some none ∧
        v.failures.toList.map (fun f => (f.problem, f.hints)) = [(problem, [])])
        (runs_attempt (read.imp fun a v failed => ⟨congrArg some failed.1, failed.2⟩))
        (fun _ failed => nomatch failed.1) fun a v failed => ?_
      obtain ⟨rfl, reported⟩ := (⟨Option.some.inj failed.1, failed.2⟩ : a = none ∧ _)
      refine runs_modify ?_
      exact runs_fail ⟨rfl, reported⟩
  | ok value =>
      refine gives_bind (P := fun a v => ∃ t : Term, a = some t ∧ t.value = value ∧ d.Sees r v)
        (runs_attempt (read.imp fun a v found => ⟨a, rfl, found⟩)) fun a v found => ?_
      obtain ⟨t, rfl, has, sees⟩ := found
      refine gives_bind (sees.remember stands shorter _) fun _ w sees => ?_
      exact gives_pure ⟨has, sees⟩

/-! ## Through the tiers of operators

From the bottom up: no operator follows at any tier, so each of them gives the operand it has read. -/

/-- A tier of operators hands a scalar up. -/
theorem runs_operation (tier : Tier) (start : Nat) (shut : Shut r)
    (inner : d.Runs room (operand g tier start) u (Answers verdict Has (d.Sees r))) :
    d.Runs (room + 1) (operation g tier none start) u (Answers verdict Has (d.Sees r)) := by
  refine runs_nested (Answers.bind inner fun value t v same has sees => ?_)
  have token : tier.operators.contains v.look.token = false := by
    rw [Bool.eq_false_iff]
    intro listed
    rw [sees.token] at listed
    exact Shut.no_operator tier _ shut.token (List.contains_iff_mem.1 listed)
  have none : d.Runs room (attempt (applied g tier t start)) v (Given fun c w => c = none ∧ w = v) := by
    unfold applied operator
    refine runs_attempt (runs_bind (P := fun c w => c = none ∧ w = v) ?_ ?_ ?_)
    · refine runs_act rfl ?_
      rw [token]
      exact runs_fail ⟨rfl, rfl⟩
    · rintro _ ⟨-, rfl⟩
      exact ⟨none, rfl, rfl, rfl⟩
    · exact fun _ _ found => nomatch found.1
  refine gives_bind none fun c w found => ?_
  obtain ⟨rfl, rfl⟩ := found
  exact gives_pure ⟨has, sees⟩

/-- All five tiers do. -/
theorem runs_tiers {n : Nat} (start : Nat) (shut : Shut r)
    (term : d.Runs room (grammar n .term) u (Answers verdict Has (d.Sees r))) :
    d.Runs (room + 5) (grammar (n + 5) (.operation .relation none start)) u
      (Answers verdict Has (d.Sees r)) := by
  have product := runs_operation (g := grammar n) .product start shut term
  have sum := runs_operation (g := grammar (n + 1)) .sum start shut product
  have intersection := runs_operation (g := grammar (n + 2)) .intersection start shut sum
  have union := runs_operation (g := grammar (n + 3)) .union start shut intersection
  exact runs_operation (g := grammar (n + 4)) .relation start shut union

/-- Membership does, too. -/
theorem runs_membership (keyed : Bool) (start : Nat) (shut : Shut r)
    (inner : d.Runs room (g (.operation .relation none start)) u (Answers verdict Has (d.Sees r))) :
    d.Runs (room + 1) (membership g keyed none start) u (Answers verdict Has (d.Sees r)) := by
  refine runs_nested (Answers.bind inner fun value t v same has sees => ?_)
  -- -- what closes the scalar is no comma, no keyword and no operator, so each attempt gives up at once
  have shown : d.shows r ∈ Shut.tokens := shut.token
  have word : ∀ kind ∈ Shut.tokens, ¬ (kind.isKeyword = true ∨ kind.isFutureKeyword = true) := by decide
  have unkeyed : d.Runs room (keyedMember? g keyed t start) v (Given fun c w => c = none ∧ w = v) := by
    have comma : ∀ kind ∈ Shut.tokens, (kind == .comma) = false := by decide
    refine runs_act rfl ?_
    rw [sees.token, comma _ shown, Bool.and_false]
    exact gives_pure ⟨rfl, rfl⟩
  refine gives_bind unkeyed fun c w found => ?_
  obtain ⟨rfl, rfl⟩ := found
  refine sees.startsRefWithKeyword (word _ shown) ?_
  have none : d.Runs room (attempt (member g t start)) w (Given fun c v => c = none ∧ v = w) := by
    have keyword : ∀ kind ∈ Shut.tokens, (kind == .inKw) = false := by decide
    unfold member memberOperator
    refine runs_attempt (runs_bind (P := fun c v => c = none ∧ v = w) ?_ ?_ ?_)
    · refine runs_act rfl ?_
      rw [sees.token, keyword _ shown]
      exact runs_fail ⟨rfl, rfl⟩
    · rintro _ ⟨-, rfl⟩
      exact ⟨none, rfl, rfl, rfl⟩
    · exact fun _ _ found => nomatch found.1
  refine gives_bind none fun c v found => ?_
  obtain ⟨rfl, rfl⟩ := found
  exact gives_pure ⟨has, sees⟩

/-- A scalar on its own is a term with operators that has none. -/
theorem runs_compound {n : Nat} (keyed : Bool) (stands : d.Stands s u)
    (shorter : String.utf8Len r < String.utf8Len s) (shut : Shut r)
    (plain : ∀ value, verdict = .ok value → value.isScalar = true)
    (leaf : ∀ g, d.Runs room (head g) u (Answers verdict Has (d.Last r))) :
    d.Runs (room + 8) (grammar (n + 8) (.compound keyed)) u (Answers verdict Has (d.Sees r)) := by
  have term := runs_term (n := n) stands shorter (runs_primary shut plain (leaf _))
  have whole := runs_membership (g := grammar (n + 6)) keyed u.look.offset shut
    (runs_tiers u.look.offset shut term)
  exact runs_nested (runs_act rfl whole)

/-! ## Queries

A query of one literal, which is an expression without sign and replacement. -/

/-- The tokens that a scalar starts with. -/
def scalarTokens : List Token := [.minus, .dot, .number, .string]

/-- A scalar on its own is a literal. -/
theorem runs_literal {n : Nat} (sees : d.Sees s u) (starts : d.shows s ∈ scalarTokens)
    (shorter : String.utf8Len r < String.utf8Len s) (shut : Shut r)
    (plain : ∀ value, verdict = .ok value → value.isScalar = true)
    (leaf : ∀ g, d.Runs room (head g) u (Answers verdict Has (d.Last r))) :
    d.Runs (room + 8) (grammar (n + 9) .literal) u (Answers verdict Asserts (d.Sees r)) := by
  have shown : d.shows r ∈ Shut.tokens := shut.token
  have word : ∀ kind ∈ scalarTokens, ¬ (kind.isKeyword = true ∨ kind.isFutureKeyword = true) := by decide
  have compound := runs_compound (n := n) true sees.toStands shorter shut plain leaf
  have expression : d.Runs (room + 8) (expression (grammar (n + 8))) u
      (Answers verdict Asserts (d.Sees r)) := by
    -- what shuts the scalar is no assignment
    have assignment : ∀ kind ∈ Shut.tokens, (kind == .assign || kind == .unify) = false := by decide
    refine Answers.bind compound fun value t v same has there => ?_
    refine runs_act rfl ?_
    rw [there.token, assignment _ shown]
    have scalar := plain value same
    have value' : t.value = value := has
    rw [← value'] at scalar
    simp only [Bool.false_eq_true, if_false]
    split
    · next call =>
        rw [call] at scalar
        cases scalar
    · exact gives_pure ⟨⟨t, rfl, has⟩, there⟩
  have literal : d.Runs (room + 8) (plainLiteral (grammar (n + 8)) false) u
      (Answers verdict Asserts (d.Sees r)) := by
    have replacement : ∀ kind ∈ Shut.tokens, (kind == .withKw) = false := by decide
    refine runs_act rfl (Answers.bind expression fun value e v same asserts there => ?_)
    have unreplaced : d.Runs (room + 8) (replaced (grammar (n + 8)) { e with negated := false }) v
        (Given fun e' w => e' = { e with negated := false } ∧ w = v) := by
      refine runs_act rfl ?_
      rw [there.token, replacement _ shown]
      exact gives_pure ⟨rfl, rfl⟩
    refine gives_bind unreplaced fun e' w found => ?_
    obtain ⟨rfl, rfl⟩ := found
    obtain ⟨t, terms, has⟩ := asserts
    -- the suggestion is for a query that begins with a variable, which a scalar is not
    have unsuggested : isEveryVar { e with negated := false } = false := by
      have scalar := plain value same
      have single : Expr.term? { e with negated := false } = some t := by
        simp [Expr.term?, terms]
      rw [isEveryVar, single, Option.any_some, has]
      cases value <;> first | rfl | cases scalar
    have quiet : d.Runs (room + 8) (suggestEvery (grammar (n + 8)) u.save { e with negated := false }) w
        (Given fun _ v => v = w) := by
      refine runs_act rfl ?_
      rw [unsuggested, Bool.and_false]
      exact gives_pure rfl
    refine gives_bind quiet fun _ v found => ?_
    obtain rfl := found
    exact gives_pure ⟨⟨t, terms, has⟩, there⟩
  have unplaced : d.Runs (room + 8) (unplacedLiteral (grammar (n + 8))) u
      (Answers verdict Asserts (d.Sees r)) := by
    refine sees.startsRefWithKeyword (word _ starts) ?_
    have positive : d.Runs (room + 8) negation u (Given fun b v => b = false ∧ v = u) := by
      have notWord : ∀ kind ∈ scalarTokens, (kind != .notKw) = true := by decide
      refine runs_act rfl ?_
      rw [sees.token, notWord _ starts]
      exact gives_pure ⟨rfl, rfl⟩
    refine gives_bind positive fun b v found => ?_
    obtain ⟨rfl, rfl⟩ := found
    refine runs_act rfl ?_
    have token : v.look.token ∈ scalarTokens := sees.token ▸ starts
    -- the first token decides on the kind of query, and one of a scalar begins a plain query
    simp only [scalarTokens, List.mem_cons, List.not_mem_nil, or_false] at token
    rcases token with token | token | token | token <;> rw [token] <;> exact literal
  refine runs_act rfl (Answers.bind unplaced fun value e v same asserts there => ?_)
  obtain ⟨t, terms, has⟩ := asserts
  exact runs_upToLastStop fun l => gives_pure ⟨⟨t, terms, has⟩, there⟩

/-! ## Sources

The source has nothing else in it, so behind the query the parser is at its end. -/

/-- A query of one expression that is a term of a value. -/
def Asks (value : Value) (b : Body) : Prop := ∃ e, b = [e] ∧ Asserts value e

/-- Statements that are one query, of a term of a value. -/
def States (value : Value) (ss : List Statement) : Prop := ∃ b, ss = [.body b] ∧ Asks value b

/-- A scalar that is all there is left is a query. -/
theorem runs_literals {n : Nat} (sees : d.Sees s u) (starts : d.shows s ∈ scalarTokens)
    (filled : 0 < String.utf8Len s) (plain : ∀ value, verdict = .ok value → value.isScalar = true)
    (leaf : ∀ g, d.Runs room (head g) u (Answers verdict Has (d.Last []))) :
    d.Runs (room + 8) (grammar (n + 10) (.literals true .eof [])) u
      (Answers verdict Asks (d.Sees [])) := by
  have shorter : String.utf8Len [] < String.utf8Len s := filled
  have literal := runs_literal (n := n) sees starts shorter .atEnd plain leaf
  refine Answers.bind literal fun value e v same asserts there => ?_
  have token : v.look.token = .eof :=
    there.token.trans shows_nil
  refine runs_act rfl ?_
  rw [token]
  exact gives_pure ⟨⟨_, rfl, asserts⟩, there⟩

/-- A scalar that is all there is left is a statement. -/
theorem runs_statement {n : Nat} (allowed : KeywordTable) (sees : d.Sees s u)
    (starts : d.shows s ∈ scalarTokens) (filled : 0 < String.utf8Len s)
    (plain : ∀ value, verdict = .ok value → value.isScalar = true)
    (leaf : ∀ g, d.Runs room (head g) u (Answers verdict Has (d.Last []))) :
    d.Runs (room + 8) (statement (grammar (n + 10)) true allowed) u
      (Answers verdict States (d.Sees [])) := by
  -- -- a scalar opens with no keyword, so a package and an import give up where they stand
  have other (keyword : Token) (unlisted : keyword ∉ scalarTokens) : u.look.token ≠ keyword :=
    fun same => unlisted (same ▸ sees.token ▸ starts)
  unfold statement
  refine runs_act rfl ?_
  have noPackage : d.Runs (room + 8) (package (grammar (n + 10))) u fun a v => a = none ∧ v = u :=
    runs_act rfl (runs_clause (other .packageKw (by decide)))
  have noImport : d.Runs (room + 8) (importStatement (grammar (n + 10)) allowed) u
      fun a v => a = none ∧ v = u := by
    refine runs_bind (runs_act rfl (runs_clause (other .importKw (by decide)))) (fun _ => id) ?_
    exact fun _ _ found => nomatch found.1
  refine runs_orElse_clause sees.toStands noPackage (runs_orElse_clause sees.toStands noImport ?_)
  have filled' : (u.look.token == .eof) = false := beq_eq_false_iff_ne.2 (other .eof (by decide))
  unfold definitionStatement queryStatement query
  rw [if_pos rfl, bind_assoc]
  refine runs_act rfl ?_
  rw [filled']
  exact Answers.bind (runs_literals sees starts filled plain leaf)
    fun value b v _ asks there => gives_pure ⟨⟨b, rfl, asks⟩, there⟩

end Sheet

/-! ## Sources as terms

A caller who asks for a single term reads the source as a query, and takes the term out of it.  Its answer
is the value of the scalar or the text of the error. -/

namespace Task

/-- The text of a task, with the words that are reserved from the start. -/
def sheet (t : Task) : Sheet := ⟨t.source, t.env, KeywordTable.base.extend t.words.selected⟩

/-- A text that starts with a legal token is read from there. -/
theorem sees_start {t : Task} (known : t.words.selected.Known) (legal : Legal t.source.toList) :
    t.sheet.Sees t.source.toList t.start.toReading := by
  obtain ⟨c, walk, start⟩ := start_walk known
  have rest := legal.start_rest
  have first : (Cursor.start t.source.toList).lexeme = next t.source.toList := by
    rw [Cursor.lexeme, rest]
  -- -- the text is legal from its start, so the walk rests on the first token
  obtain rfl : c = Cursor.start t.source.toList :=
    walk.rests (first ▸ legal.solid) fun _ => first ▸ legal.filled
  have words : (next t.env true t.opening.look).look.scanner.keywords = t.sheet.words := by
    rw [walk.keywords, ParseState.bare, leave_scanner]
    rfl
  have clean := walk.clean fun d hd from' upTo => by
    rw [hd.eq_of_offset (Cursor.starts_first _) (Nat.le_antisymm upTo from')]
    exact first ▸ legal.faults
  rw [start]
  refine ⟨⟨⟨_, walk.at', rest⟩, words, ?_, hints_next _ _ rfl, List.forall_mem_nil _⟩, ?_⟩
  · show #[] ++ _ = #[]
    rw [clean]
    rfl
  · show (next t.env true t.opening.look).look.token = _
    rw [walk.exact, words, Cursor.shown, first, rest]
    rfl

/-- No production is under way at the first token. -/
theorem depth_start (t : Task) : t.start.depth = 0 := scan.levels t.env t.settings t.opening

/-- A run that reads nothing of a source that is not empty. -/
theorem run_nothing {t : Task} {s : ParseState} (begins : (Run.start t).atEnd = false)
    (run : t.statement.run t.env t.settings t.start = (none, s)) : t.run = ⟨[], s⟩ := by
  have step : (Run.start t).step t = (⟨[], s⟩, false) := by
    rw [Run.step, begins, Run.start, run]
    rfl
  rw [Task.run, Run.finish, step]
  rfl

/-- The end of a run that has come to a verdict on a source that is a scalar. -/
def Settled (r : Run) : Except Problem Value → Prop
  | .ok value => Sheet.States value r.statements ∧ r.state.failures = #[]
  | .error problem => r.statements = [] ∧
      ∃ f, r.state.failures = #[f] ∧ f.problem = problem ∧ f.hints = []

/-- A source that is a scalar is settled by what reading the scalar comes to. -/
theorem settled_of_head {t : Task} {verdict : Except Problem Value} (skips : t.skipRules = true)
    (known : t.words.selected.Known) (room : t.settings.maxDepth = 0 ∨ 8 ≤ t.settings.maxDepth)
    (legal : Legal t.source.toList) (starts : t.sheet.shows t.source.toList ∈ Sheet.scalarTokens)
    (plain : ∀ value, verdict = .ok value → value.isScalar = true)
    (leaf : ∀ g u, t.sheet.Sees t.source.toList u →
      t.sheet.Runs 0 (head g) u (Sheet.Answers verdict Sheet.Has (t.sheet.Last []))) :
    Settled t.run verdict := by
  have sees := sees_start known legal
  -- a token that begins a scalar is not the end, so there is something to read
  have filled : 0 < String.utf8Len t.source.toList := by
    rcases chars : t.source.toList with _ | ⟨c, s⟩
    · rw [chars, Sheet.shows_nil] at starts
      exact absurd starts (by decide)
    · rw [String.utf8Len_cons]
      exact Nat.add_pos_right _ c.utf8Size_pos
  have begins : (Run.start t).atEnd = false := by
    refine beq_eq_false_iff_ne.2 fun ended => ?_
    rw [← sees.token, show t.start.look.token = .eof from ended] at starts
    exact absurd starts (by decide)
  obtain ⟨n, deep⟩ : ∃ n, depthFor t.source.utf8ByteSize = n + 10 := by
    refine ⟨depthFor t.source.utf8ByteSize - 10, ?_⟩
    unfold depthFor chainLength
    omega
  have answers := Sheet.runs_statement (n := n) t.words.allowed sees starts filled plain
    (fun g => leaf g _ sees) t.settings t.start.depth t.start.journal (by rw [depth_start]; omega)
  have statement : t.statement = Parse.statement (Parse.grammar (n + 10)) true t.words.allowed := by
    rw [Task.statement, Task.grammar, deep, skips]
  rw [← statement, show t.sheet.env = t.env from rfl] at answers
  rcases result : t.statement.run t.env t.settings t.start with ⟨a, s⟩
  rw [show (⟨t.start.toReading, t.start.depth, t.start.journal⟩ : ParseState) = t.start from rfl,
    result] at answers
  cases verdict with
  | error problem =>
      obtain ⟨rfl, reported⟩ := answers
      obtain ⟨f, one, same⟩ := List.map_eq_singleton_iff.1 reported
      obtain ⟨rfl, advice⟩ := Prod.mk.inj same
      rw [run_nothing begins result]
      exact ⟨rfl, f, Array.toList_inj.1 one, rfl, advice⟩
  | ok value =>
      obtain ⟨ss, rfl, states, there⟩ := answers
      have ended : s.look.token = .eof :=
        there.token.trans Sheet.shows_nil
      rw [run_single begins result ended]
      exact ⟨states, there.clean⟩

end Task

namespace Fragment

/-- The value of the term that a source is, or the wording of the errors. -/
def value (source : String) : Except (List String) Value :=
  ((term source).map (·.value)).mapError (·.map (·.message))

/-- The value is that of the term which the source is. -/
theorem value_eq_ok {source : String} {v : Value} :
    value source = .ok v ↔ ∃ t, term source = .ok t ∧ t.value = v := by
  unfold value
  rcases term source with es | t
  · exact ⟨nofun, fun ⟨_, other, _⟩ => nomatch other⟩
  · constructor
    · exact fun same => ⟨t, rfl, Except.ok.inj same⟩
    · rintro ⟨u, same, rfl⟩
      rw [Except.ok.inj same]
      rfl

theorem value_eq_error {source : String} {messages : List String} :
    value source = .error messages ↔
      ∃ es, term source = .error es ∧ es.map (·.message) = messages := by
  unfold value
  rcases term source with es | t
  · constructor
    · exact fun same => ⟨es, rfl, Except.error.inj same⟩
    · rintro ⟨es', same, rfl⟩
      rw [Except.error.inj same]
      rfl
  · exact ⟨nofun, fun ⟨_, other, _⟩ => nomatch other⟩

/-- The task of reading a source for a caller who expects a single piece of syntax. -/
def queryTask (source : String) : Task := .new source "" { skipRules := true } ⟨.future, .future⟩

theorem parseSyntax_query (source : String) :
    parseSyntax source "" { skipRules := true } = .ofRun source (queryTask source).run := rfl

/-- A source that is a query of one term. -/
theorem value_of_states {source : String} {v : Value}
    (states : Sheet.States v (queryTask source).run.statements)
    (clean : (queryTask source).run.state.failures = #[]) : value source = .ok v := by
  obtain ⟨b, statements, e, rfl, t, terms, has⟩ := states
  have none : (parseSyntax source "" { skipRules := true }).errors = [] := by
    rw [parseSyntax_query, Parsed.ofRun, clean]
    rfl
  have read : term source = .ok t := by
    have single : expr source = .ok { e with index := 0 } :=
      exprUnder_of_body none (by rw [parseSyntax_query, Parsed.ofRun, statements])
    unfold term
    rw [single]
    dsimp only [Bind.bind, Except.bind]
    rw [terms]
    rfl
  rw [value, read]
  exact congrArg Except.ok has

/-- A source that is nothing, for one reason. -/
theorem value_of_failure {source : String} {f : Failure}
    (failed : (queryTask source).run.state.failures = #[f]) (advice : f.hints = []) :
    value source = .error [f.problem.message] := by
  have errors : (parseSyntax source "" { skipRules := true }).errors =
      [f.diagnostic source.toUTF8.toList] := by
    rw [parseSyntax_query, Parsed.ofRun, failed]
    rfl
  have wording : (f.diagnostic source.toUTF8.toList).message = f.problem.message := by
    simp only [Failure.diagnostic, advice, Diagnostic.hinted, Diagnostic.illustrated]
    rfl
  have read : term source = .error [f.diagnostic source.toUTF8.toList] := by
    unfold term expr body Parsed.checked Parsed.hasErrors
    rw [errors]
    rfl
  rw [value, read]
  exact congrArg (fun m => Except.error [m]) wording

/-- A source that is a scalar is what reading the scalar comes to. -/
theorem value_of_head {source : String} {verdict : Except Problem Value}
    (legal : Legal source.toList)
    (starts : (queryTask source).sheet.shows source.toList ∈ Sheet.scalarTokens)
    (plain : ∀ value, verdict = .ok value → value.isScalar = true)
    (leaf : ∀ g u, (queryTask source).sheet.Sees source.toList u →
      (queryTask source).sheet.Runs 0 (head g) u
        (Sheet.Answers verdict Sheet.Has ((queryTask source).sheet.Last []))) :
    value source = verdict.mapError fun problem => [problem.message] := by
  have settled := Task.settled_of_head (t := queryTask source) rfl KeywordTable.known_future
    (.inr (by decide : 8 ≤ DepthLimit.defaultMax)) legal starts plain leaf
  cases verdict with
  | error problem =>
      obtain ⟨-, f, failed, rfl, advice⟩ := settled
      exact value_of_failure failed advice
  | ok v =>
      obtain ⟨states, clean⟩ := settled
      exact value_of_states states clean

end Fragment

end RegoSyntax
