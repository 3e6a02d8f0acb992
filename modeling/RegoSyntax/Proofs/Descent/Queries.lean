/-
# RegoSyntax.Proofs.Descent.Queries — terms, operators and queries descend.

What comes first in a production stands where the production does, and has a lower rank; what comes next is
behind it.  A parser that returns and reads on does so at a place that it starts from itself, so the rank
decides there again.

The statements have the same form throughout.  `Agree g g' n k` says that two grammars read alike all
productions behind the offset `n`, and at `n` those of a rank lower than `k`; `Coincides` says that the
rule makes the same of both.  A call is then either `agree.ahead`, where the parser has moved, or
`agree.lower`, where it has not.

What decides each case is how far the parser has come, and for that the moves of the rule are used again
(`Route.Keeps`): they give the reading behind each part of a rule, and with it that its offset is beyond
the one where the rule started.
-/
import RegoSyntax.Proofs.Descent.Terms

namespace RegoSyntax

open Parse

namespace Route

variable {ρ : Route} {r u v w : Reading} {g g' : Grammar} {n k : Nat}

namespace Takes

variable {α : Type} {Q : α → Reading → Prop}

/-- A parser before which, and behind which, there is nothing. -/
theorem of_bind {x : Parse α} (h : ρ.Takes r (x >>= Pure.pure) u Q) : ρ.Takes r x u Q := by
  rwa [bind_pure] at h

end Takes

namespace Keeps

open Coincides

variable (h : Keeps g)

include h

/-! ## Primary terms

A term stands where its head stands, and has a higher rank than all of the forms it may have; what it
holds in brackets or parentheses is behind the token that opens. -/

omit h in
/-- What stands in parentheses is behind the one that opens. -/
theorem parenthesized_coincides (agree : ρ.Agree g g' u.look.offset 0) (seated : ρ.Seated u)
    (paren : u.look.token = .lparen) :
    ρ.Coincides (Parse.parenthesized g) (Parse.parenthesized g') u := by
  obtain ⟨there, ahead⟩ := passed seated true paren (by decide)
  unfold Parse.parenthesized
  rw [offset_iff, scan_iff]
  exact .before (agree.ahead (.compound true) there trivial ahead)

/-- Of the forms of a head only collections and parentheses ask for another production, and each of them
starts with a token of its own. -/
theorem head_coincides (agree : ρ.Agree g g' u.look.offset 0) (seated : ρ.Seated u) :
    ρ.Coincides (Parse.head g) (Parse.head g') u := by
  unfold Parse.head
  rw [token_iff]
  split
  case h_10 opens => exact bracketed_coincides (h.arrayElements_coincides agree seated opens)
  case h_11 opens => exact bracketed_coincides (h.bracedElements_coincides agree seated opens)
  case h_12 paren => exact parenthesized_coincides agree seated paren
  all_goals exact .refl

/-- A term that is not remembered is a head and what goes on behind it. -/
theorem freshTerm_coincides (agree : ρ.Agree g g' u.look.offset 0) (seated : ρ.Seated u) :
    ρ.Coincides (Parse.freshTerm g) (Parse.freshTerm g') u := by
  unfold Parse.freshTerm
  rw [save_iff]
  refine .before (.attempt (.bind (h.head_coincides agree seated) (h.head seated)
    fun t v goes passable => ?_))
  exact finish_coincides (agree.since goes.ahead (Nat.le_refl _)) goes.seated t false passable

/-- A term that is remembered is the same on both sides, as nothing is read. -/
theorem term_coincides (agree : ρ.Agree g g' u.look.offset 0) (seated : ρ.Seated u) :
    ρ.Coincides (Parse.term g) (Parse.term g') u := by
  refine .nested (.behind (remembered seated) fun a v goes known => ?_)
  obtain ⟨rfl, -⟩ := known
  cases a with
  | some e => exact .refl
  | none => exact h.freshTerm_coincides agree seated

/-! ## Operators

The tiers of operators are ranked one above the other.  A first operand is one rank lower at the same
token, and every further operand is behind an operator. -/

omit h in
/-- An operand has a lower rank than the operations of its tier. -/
theorem operand_coincides {tier : Tier} (agree : ρ.Agree g g' n tier.rank) (seated : ρ.Seated u)
    (le : n ≤ u.look.offset) (start : Nat) :
    ρ.Coincides (Parse.operand g tier start) (Parse.operand g' tier start) u := by
  unfold Parse.operand
  split
  · next next tighter =>
      exact agree (.operation next none start) u seated trivial (.inr ⟨le, tier.rank_tighter tighter⟩)
  · exact agree .term u seated trivial (.inr ⟨le, tier.rank_bounds.1⟩)

omit h in
theorem applied_coincides {tier : Tier} (agree : ρ.Agree g g' n tier.rank) (seated : ρ.Seated u)
    (le : n ≤ u.look.offset) (left : Term) (start : Nat) :
    ρ.Coincides (Parse.applied g tier left start) (Parse.applied g' tier left start) u := by
  have passable : ∀ k ∈ tier.operators, k.isPassable = true := by cases tier <;> decide
  refine .behind (operator seated passable) fun op t goes _ => ?_
  rw [offset_iff]
  exact .before (operand_coincides agree goes.seated (le.trans goes.ahead) _)

/-- What goes on behind an operand is behind it, and asks for the operation at any rank. -/
theorem operationRest_coincides {tier : Tier} (agree : ρ.Agree g g' n tier.rank) (seated : ρ.Seated u)
    (le : n ≤ u.look.offset) (left : Term) (start : Nat) :
    ρ.Coincides
      (do
        match ← attempt (Parse.applied g tier left start) with
        | some c =>
          if tier.operators.contains (← token) then g (.operation tier (some c) start) else return c
        | none => return left)
      (do
        match ← attempt (Parse.applied g' tier left start) with
        | some c =>
          if tier.operators.contains (← token) then g' (.operation tier (some c) start) else return c
        | none => return left) u := by
  refine .attempt_bind (applied_coincides agree seated le left start) (h.applied seated tier left start)
    fun a t goes ahead => ?_
  cases a with
  | none => exact .refl
  | some c =>
      dsimp only
      rw [token_iff]
      split
      -- an operand has been taken in, so the operation goes on further ahead
      · exact agree.ahead (.operation tier (some c) start) goes.seated trivial (le.trans_lt (ahead c rfl))
      · exact .refl

/-- An operation asks for its first operand where it stands itself, one tier further down. -/
theorem operation_coincides {tier : Tier} (agree : ρ.Agree g g' u.look.offset tier.rank)
    (seated : ρ.Seated u) (left : Option Term) (start : Nat) :
    ρ.Coincides (Parse.operation g tier left start) (Parse.operation g' tier left start) u := by
  refine .nested ?_
  cases left with
  | some t => exact h.operationRest_coincides agree seated (Nat.le_refl _) t start
  | none =>
      exact .bind (operand_coincides agree seated (Nat.le_refl _) start) (h.operand seated tier start)
        fun first t goes _ => h.operationRest_coincides agree goes.seated goes.ahead first start

omit h in
theorem memberOperand_coincides (agree : ρ.Agree g g' n 6) (seated : ρ.Seated u) (le : n ≤ u.look.offset)
    (start : Nat) : ρ.Coincides (Parse.memberOperand g start) (Parse.memberOperand g' start) u :=
  agree.lower (.operation .relation none start) seated trivial le rfl

/-- A keyed membership asks for both operands behind the comma. -/
theorem keyedMember_coincides (agree : ρ.Agree g g' n 6) (seated : ρ.Seated u) (le : n ≤ u.look.offset)
    (key : Term) (start : Nat) :
    ρ.Coincides (Parse.keyedMember g key start) (Parse.keyedMember g' key start) u := by
  have there := seated.passing true
  have le := le.trans (le_passing seated true)
  unfold Parse.keyedMember
  rw [scan_iff]
  refine .bind (memberOperand_coincides agree there le start) (h.memberOperand there start)
    fun value t₁ g₁ _ => ?_
  refine .behind (memberOperator g₁.seated 3) fun op t₂ g₂ _ => ?_
  rw [offset_iff]
  exact .before (memberOperand_coincides agree g₂.seated (le.trans (g₁.trans g₂).ahead) _)

omit h in
theorem member_coincides (agree : ρ.Agree g g' n 6) (seated : ρ.Seated u) (le : n ≤ u.look.offset)
    (value : Term) (start : Nat) :
    ρ.Coincides (Parse.member g value start) (Parse.member g' value start) u := by
  refine .behind (memberOperator seated 2) fun op t goes _ => ?_
  rw [offset_iff]
  exact .before (memberOperand_coincides agree goes.seated (le.trans goes.ahead) _)

/-- A key is tried for behind a comma, and what is given up was behind it too. -/
theorem keyedMember?_coincides (agree : ρ.Agree g g' n 6) (seated : ρ.Seated u) (le : n ≤ u.look.offset)
    (keyed : Bool) (key : Term) (start : Nat) :
    ρ.Coincides (Parse.keyedMember? g keyed key start) (Parse.keyedMember? g' keyed key start) u := by
  unfold Parse.keyedMember?
  rw [token_iff]
  split
  · rw [save_iff]
    exact .before (.attempt (h.keyedMember_coincides agree seated le key start))
  · exact .refl

omit h in
theorem memberChain_coincides (agree : ρ.Agree g g' n 6) (seated : ρ.Seated u) (lt : n < u.look.offset)
    (keyed : Bool) (c : Term) (start : Nat) :
    ρ.Coincides (Parse.memberChain g keyed c start) (Parse.memberChain g' keyed c start) u := by
  unfold Parse.memberChain
  rw [token_iff]
  split
  · exact agree.ahead (.membership keyed (some c) start) seated trivial lt
  · exact .refl

theorem memberRest_coincides (agree : ρ.Agree g g' n 6) (seated : ρ.Seated u) (le : n ≤ u.look.offset)
    (keyed : Bool) (value : Term) (start : Nat) :
    ρ.Coincides
      (do
        match ← attempt (Parse.member g value start) with
        | some c => Parse.memberChain g keyed c start
        | none => return value)
      (do
        match ← attempt (Parse.member g' value start) with
        | some c => Parse.memberChain g' keyed c start
        | none => return value) u := by
  refine .attempt_bind (member_coincides agree seated le value start) (h.member seated value start)
    fun a t goes ahead => ?_
  cases a with
  | none => exact .refl
  | some c => exact memberChain_coincides agree goes.seated (le.trans_lt (ahead c rfl)) keyed c start

/-- Behind a comma that meant no key the parser is where it was, and tries a membership without one. -/
theorem membershipRest_coincides (agree : ρ.Agree g g' n 6) (seated : ρ.Seated u)
    (le : n ≤ u.look.offset) (keyed : Bool) (left : Term) (start : Nat) :
    ρ.Coincides
      (do
        match ← Parse.keyedMember? g keyed left start with
        | some c => Parse.memberChain g keyed c start
        | none =>
          let _ ← Parse.startsRefWithKeyword
          match ← attempt (Parse.member g left start) with
          | some c => Parse.memberChain g keyed c start
          | none => return left)
      (do
        match ← Parse.keyedMember? g' keyed left start with
        | some c => Parse.memberChain g' keyed c start
        | none =>
          let _ ← Parse.startsRefWithKeyword
          match ← attempt (Parse.member g' left start) with
          | some c => Parse.memberChain g' keyed c start
          | none => return left) u := by
  refine .bind (h.keyedMember?_coincides agree seated le keyed left start)
    (h.keyedMember? seated keyed left start) fun a t g₁ ahead => ?_
  cases a with
  | some c => exact memberChain_coincides agree g₁.seated (le.trans_lt (ahead rfl)) keyed c start
  | none =>
      -- where no key was meant the parser is back at the comma
      refine .behind (.startsRefWithKeyword g₁.seated) fun _ t₂ g₂ _ => ?_
      -- the rest of the membership is read from the same place again, so the offset has only to be no
      -- less
      exact h.memberRest_coincides agree g₂.seated (le.trans (g₁.trans g₂).ahead) keyed left start

/-- A membership starts with an operation of the loosest tier, which has a lower rank. -/
theorem membership_coincides (agree : ρ.Agree g g' u.look.offset 6) (seated : ρ.Seated u) (keyed : Bool)
    (left : Option Term) (start : Nat) :
    ρ.Coincides (Parse.membership g keyed left start) (Parse.membership g' keyed left start) u := by
  refine .nested ?_
  cases left with
  | some t => exact h.membershipRest_coincides agree seated (Nat.le_refl _) keyed t start
  | none =>
      exact .bind (memberOperand_coincides agree seated (Nat.le_refl _) start) (h.memberOperand seated start)
        fun first t goes _ => h.membershipRest_coincides agree goes.seated goes.ahead keyed first start

omit h in
theorem compound_coincides (agree : ρ.Agree g g' u.look.offset 7) (seated : ρ.Seated u) (keyed : Bool) :
    ρ.Coincides (Parse.compound g keyed) (Parse.compound g' keyed) u := by
  refine .nested ?_
  rw [offset_iff]
  exact agree.lower (.membership keyed none _) seated trivial (Nat.le_refl _) rfl

/-! ## Expressions

A literal may consist of one expression or of two, and the second is behind a sign. -/

/-- An expression is a membership, and another one behind a sign. -/
theorem expression_coincides (agree : ρ.Agree g g' u.look.offset 8) (seated : ρ.Seated u) :
    ρ.Coincides (Parse.expression g) (Parse.expression g') u := by
  unfold Parse.expression
  refine .bind (agree.lower (.compound true) seated trivial (Nat.le_refl _) rfl) (h.compound ρ seated true)
    fun left t goes ahead => ?_
  rw [token_iff]
  split
  · rw [location_iff, scan_iff]
    exact .before (agree.ahead (.compound true) (goes.seated.passing true) trivial
      (ahead.trans_le (le_passing goes.seated true)))
  · exact .refl

/-! ## Replacements

All parts of a replacement are behind `with`, so they need no rank. -/

/-- A replacement starts with its own word, so its terms are ahead. -/
theorem replacement_coincides (agree : ρ.Agree g g' u.look.offset 0) (seated : ρ.Seated u)
    (withKw : u.look.token = .withKw) :
    ρ.Coincides (Parse.replacement g) (Parse.replacement g') u := by
  obtain ⟨there, ahead⟩ := passed seated true withKw (by decide)
  unfold Parse.replacement
  rw [location_iff, scan_iff, token_iff]
  split
  · exact .refl
  refine .bind (agree.ahead .term there trivial ahead) (h.term ρ there) fun target t₁ g₁ _ => ?_
  refine .behind (P := fun _ _ => True)
    (.of_bind (checkTarget_bind (.refl g₁.seated) target fun t goes => .pure goes trivial))
    fun _ t₂ g₂ _ => ?_
  unfold Parse.replacedBy
  rw [token_iff]
  split
  · exact .refl
  · have ahead := (ahead.trans_le (g₁.trans g₂).ahead).trans_le (le_passing g₂.seated true)
    rw [scan_iff]
    exact .before (agree.ahead (.compound true) (g₂.seated.passing true) trivial ahead)

theorem replacements_coincides (agree : ρ.Agree g g' u.look.offset 0) (seated : ρ.Seated u)
    (withKw : u.look.token = .withKw) (read : List With) :
    ρ.Coincides (Parse.replacements g read) (Parse.replacements g' read) u := by
  unfold Parse.replacements
  refine .bind (h.replacement_coincides agree seated withKw) (h.replacement seated withKw)
    fun x t goes ahead => ?_
  rw [token_iff]
  split
  · next more =>
      exact agree.ahead (.replacements (read ++ [x])) goes.seated (beq_iff_eq.1 more) ahead
  · exact .refl

omit h in
theorem replaced_coincides (agree : ρ.Agree g g' n k) (seated : ρ.Seated u) (lt : n < u.look.offset)
    (e : Expr) : ρ.Coincides (Parse.replaced g e) (Parse.replaced g' e) u := by
  unfold Parse.replaced
  rw [token_iff]
  split
  · next withKw => exact .before (agree.ahead (.replacements []) seated (beq_iff_eq.1 withKw) lt)
  · exact .refl

/-! ## Declarations

A declaration is read twice from its word, first as a membership and then as variables.  Both are behind
the word. -/

omit h in
/-- Each symbol of a declaration is behind the word or behind a comma. -/
theorem symbols_coincides (agree : ρ.Agree g g' u.look.offset 0) (seated : ρ.Seated u)
    (passable : u.look.token.isPassable = true) (read : List Term) :
    ρ.Coincides (Parse.symbols g read) (Parse.symbols g' read) u := by
  have more : u.look.token ≠ .eof := fun ended => by rw [ended] at passable; cases passable
  have there := seated.passing true
  have ahead := lt_passing seated true more
  unfold Parse.symbols
  rw [scan_iff, token_iff]
  split
  · exact .refl
  refine .behind (variableHere there) fun x t goes _ => ?_
  rw [scan_iff, token_iff]
  split
  · next comma =>
      refine agree.ahead (.symbols (read ++ [x])) (goes.seated.passing true) ?_
        ((ahead.trans_le goes.ahead).trans_le (le_passing goes.seated true))
      show (t.passing ρ.env true).look.token.isPassable = true
      -- the comma is passed next, which is what the production relies on
      rw [beq_iff_eq.1 comma]
      rfl
  · exact .refl

omit h in
/-- Whether `in` was meant is found out behind the word of the declaration. -/
theorem suggestIn_coincides (agree : ρ.Agree g g' u.look.offset 0) (seated : ρ.Seated u)
    (someKw : u.look.token = .someKw) (start : Snapshot) :
    ρ.Coincides (Parse.suggestIn g start) (Parse.suggestIn g' start) u := by
  obtain ⟨there, ahead⟩ := passed seated true someKw (by decide)
  unfold Parse.suggestIn
  rw [env_iff]
  split
  · rw [scan_iff]
    exact .before (.withKeywords _ (.attempt
      (agree.unbound.ahead (.compound true) (Takes.seated_opened there) trivial ahead)))
  · exact .refl

/-- To declare variables the parser goes back to the word of the declaration, where the ranks of its parts
are lower than its own. -/
theorem declaredSymbols_coincides (agree : ρ.Agree g g' w.look.offset 8) (since : ρ.Goes w v)
    (someKw : w.look.token = .someKw) (place : Location) :
    ρ.Coincides (Parse.declaredSymbols g place w.save) (Parse.declaredSymbols g' place w.save) v := by
  have back := since.resume.seated
  have inside : ρ.Agree g g' (w.resumed v).look.offset 0 := agree.since (Nat.le_refl _) (Nat.zero_le _)
  have takes : ρ.Takes (w.resumed v) (Parse.suggestIn g w.save) (w.resumed v) fun _ t =>
      t.look.token = .someKw :=
    .of_bind (h.suggestIn_bind (.refl back) someKw fun t goes token => .pure goes token)
  refine .restore_bind since (.bind (suggestIn_coincides inside back someKw w.save) takes
    fun _ t goes token => .before ?_)
  refine agree.lower (.symbols []) goes.seated ?_ goes.ahead rfl
  show t.look.token.isPassable = true
  rw [token]
  rfl

omit h in
theorem declaredMembership_coincides (agree : ρ.Agree g g' n k) (seated : ρ.Seated u)
    (lt : n < u.look.offset) (place : Location) (t : Term) (terms : List Term) :
    ρ.Coincides (Parse.declaredMembership g place t terms) (Parse.declaredMembership g' place t terms) u := by
  unfold Parse.declaredMembership
  split
  · exact .refl
  split
  · exact replaced_coincides agree seated lt _
  · exact .refl

/-- A declaration is tried as a membership before it is read as a list of variables. -/
theorem declaration_coincides (agree : ρ.Agree g g' u.look.offset 8) (seated : ρ.Seated u)
    (someKw : u.look.token = .someKw) :
    ρ.Coincides (Parse.declaration g) (Parse.declaration g') u := by
  obtain ⟨there, ahead⟩ := passed seated true someKw (by decide)
  have past : ρ.Goes u (u.passing ρ.env true) := .over seated true someKw rfl
  unfold Parse.declaration
  rw [location_iff, save_iff, scan_iff]
  -- the attempt starts behind the word, so what it asks for is ahead
  refine .attempt_bind (agree.ahead (.compound true) there trivial ahead) (h.compound ρ there true)
    fun a t goes _ => ?_
  have symbols := h.declaredSymbols_coincides agree (past.trans goes) someKw u.look.location
  split
  · split
    · exact declaredMembership_coincides agree goes.seated (ahead.trans_le goes.ahead) _ _ _
    · exact symbols
  · exact symbols

/-! ## Quantified queries

A quantified query is a membership behind its word, and a query in braces behind that. -/

/-- The body of a quantified query stands in braces of its own. -/
theorem quantifiedQuery_coincides (agree : ρ.Agree g g' n k) (seated : ρ.Seated u) (lt : n < u.look.offset)
    (place : Location) (key : Option Term) (value domain : Term) :
    ρ.Coincides (Parse.quantifiedQuery g place key value domain)
      (Parse.quantifiedQuery g' place key value domain) u := by
  have there := seated.passing true
  have lt := lt.trans_le (le_passing seated true)
  unfold Parse.quantifiedQuery
  rw [token_iff]
  split
  · exact .refl
  rw [scan_iff]
  refine .bind (agree.ahead (.body .rbrace) there trivial lt) (h ρ (.body .rbrace) _ rfl there trivial)
    fun b t goes _ => ?_
  rw [scan_iff]
  exact replaced_coincides agree (goes.seated.passing true)
    ((lt.trans_le goes.ahead).trans_le (le_passing goes.seated true)) _

/-- A quantified query starts with a compound term behind its first token; at the end of the source this
is where it started. -/
theorem quantifier_coincides (agree : ρ.Agree g g' u.look.offset 8) (seated : ρ.Seated u) :
    ρ.Coincides (Parse.quantifier g) (Parse.quantifier g') u := by
  have there := seated.passing true
  have le := le_passing seated true
  unfold Parse.quantifier
  rw [location_iff, scan_iff]
  refine .bind (agree.lower (.compound true) there trivial le rfl) (h.compound ρ there true)
    fun t t₂ goes ahead => ?_
  split
  · exact .refl
  · exact h.quantifiedQuery_coincides agree goes.seated (le.trans_lt ahead) _ _ _ _

theorem suggestEvery_coincides (agree : ρ.Agree g g' w.look.offset 8) (since : ρ.Goes w v) (e : Expr) :
    ρ.Coincides (Parse.suggestEvery g w.save e) (Parse.suggestEvery g' w.save e) v := by
  unfold Parse.suggestEvery
  rw [env_iff]
  split
  · have inside : ρ.unbound.Coincides (Parse.quantifier g) (Parse.quantifier g')
        (Takes.Opened (w.resumed v)) :=
      h.quantifier_coincides agree.unbound (Takes.seated_opened since.resume.seated)
    exact .before (.probe since (.withKeywords _ inside))
  · exact .refl

/-! ## Literals

The four forms of a literal are told apart by the token it starts with. -/

theorem plainLiteral_coincides (agree : ρ.Agree g g' n 8) (seated : ρ.Seated u) (le : n ≤ u.look.offset)
    (negated : Bool) : ρ.Coincides (Parse.plainLiteral g negated) (Parse.plainLiteral g' negated) u := by
  have agree : ρ.Agree g g' u.look.offset 8 := agree.since le (Nat.le_refl _)
  unfold Parse.plainLiteral
  rw [save_iff]
  refine .bind (h.expression_coincides agree seated) (h.expression seated) fun e t₁ g₁ ahead => ?_
  refine .bind (replaced_coincides agree g₁.seated ahead _) (h.replaced (.refl g₁.seated) _)
    fun e t₂ g₂ _ => ?_
  exact .before (h.suggestEvery_coincides agree (g₁.trans g₂) e)

/-- A literal is told by its first token, and each of its forms has a lower rank. -/
theorem literal_coincides (agree : ρ.Agree g g' u.look.offset 8) (seated : ρ.Seated u) :
    ρ.Coincides (Parse.literal g) (Parse.literal g') u := by
  unfold Parse.literal
  rw [location_iff]
  refine .before (.behind (.startsRefWithKeyword seated) fun named t₁ g₁ _ => ?_)
  split
  · exact h.plainLiteral_coincides agree g₁.seated g₁.ahead false
  refine .behind (negation g₁.seated) fun negated t₂ g₂ _ => ?_
  have since := g₁.trans g₂
  have inside : ρ.Agree g g' t₂.look.offset 8 := agree.since since.ahead (Nat.le_refl _)
  rw [token_iff]
  split
  · next someKw =>
      split
      · exact .refl
      · exact h.declaration_coincides inside since.seated someKw
  · split
    · exact .refl
    · exact h.quantifier_coincides inside since.seated
  · exact h.plainLiteral_coincides agree since.seated since.ahead negated

/-! ## Queries

The first literal of a query stands where the query does, and has a lower rank; every other one is behind
a mark or a line break. -/

/-- A query asks for its first literal where it stands; what comes next is behind that. -/
theorem literals_coincides (agree : ρ.Agree g g' u.look.offset 9) (seated : ρ.Seated u) (oneLine : Bool)
    (stop : Token) (read : Body) :
    ρ.Coincides (Parse.literals g oneLine stop read) (Parse.literals g' oneLine stop read) u := by
  unfold Parse.literals
  refine .bind (agree.lower .literal seated trivial (Nat.le_refl _) rfl) (h ρ .literal u rfl seated trivial)
    fun e t goes ahead => ?_
  dsimp only
  rw [token_iff]
  split
  · rw [scan_iff]
    exact agree.ahead (.literals oneLine stop _) (goes.seated.passing true) trivial
      (ahead.trans_le (le_passing goes.seated true))
  split
  · exact .refl
  rw [look_iff]
  split
  -- on a line of its own the next literal starts behind the one that was read
  · exact agree.ahead (.literals oneLine stop _) goes.seated trivial ahead
  · exact .refl

omit h in
/-- A query asks for its literals where it stands. -/
theorem query_coincides (agree : ρ.Agree g g' n 10) (seated : ρ.Seated u) (le : n ≤ u.look.offset)
    (oneLine : Bool) (stop : Token) :
    ρ.Coincides (Parse.query g oneLine stop) (Parse.query g' oneLine stop) u := by
  unfold Parse.query
  rw [token_iff]
  split
  · exact .refl
  · exact agree.lower (.literals oneLine stop []) seated trivial le rfl

omit h in
theorem body_coincides (agree : ρ.Agree g g' u.look.offset 10) (seated : ρ.Seated u) (stop : Token) :
    ρ.Coincides (Parse.body g stop) (Parse.body g' stop) u :=
  .nested (query_coincides agree seated (Nat.le_refl _) false stop)

end Keeps

end Route

end RegoSyntax
