/-
# RegoSyntax.Proofs.Moves.Queries — whole queries are read in moves.

Primary terms, operators and literals, up to the grammar itself (`Route.Keeps.grammar`).  A reading that
only serves advice is no move but the names that it draws: it is run with other words reserved, it may
pass any token, and the parser comes back from it.

For each rule there is a statement of what holds where it ends, and most of them say only that the parser
has moved: `u.look.offset < v.look.offset`, with `≤` for a part that may be empty.  That is what the rules
of the descent need, and what makes the grammar end.  A few say which token the parser is left at, where
the rule above passes it.

The statements are about an arbitrary grammar `g` below, of which `Keeps g` is known, and the rule at the
end puts them together (`Keeps.rule`); the induction on the depth is then one line.  Readings under other
words are made on a route that binds no word (`Route.unbound`), whose moves are the same steps without the
restrictions on words.
-/
import RegoSyntax.Proofs.Moves.Terms

namespace RegoSyntax

open Parse

namespace Route

variable {ρ : Route} {r u v w : Reading} {g : Grammar}

/-- On a route that binds no words a parser is seated all the more. -/
theorem seated_unbound (h : ρ.Seated u) : ρ.unbound.Seated u :=
  ⟨h.look, fun e he => { h.memo e he with }⟩

namespace Keeps

open Takes

/-! ## Scalars and variables

Each of these is one token, or a token with signs in front, and the parser is moved over what it takes and
over nothing else. -/

/-- A sign is passed, or there is none. -/
theorem minus (seated : ρ.Seated u) :
    ρ.Takes u (Parse.signMark .minus [.number, .dot]) u fun b v =>
      (b = false ∧ v = u ∧ u.look.token ≠ .minus) ∨
        (b = true ∧ (v.look.token = .number ∨ v.look.token = .dot)) := by
  unfold Parse.signMark
  rw [token_iff]
  split
  · next mark =>
      have g₁ : ρ.Goes u (u.passing ρ.env true) := .over seated true (beq_iff_eq.1 mark) rfl
      rw [scan_iff, token_iff]
      split
      · next follows => exact .pure g₁ (.inr ⟨rfl, by simpa using follows⟩)
      · exact .unexpected_fail g₁
  · next other => exact .pure (.refl seated) (.inl ⟨rfl, rfl, by simpa using other⟩)

/-- The point of a number is passed, or there is none. -/
theorem point (seated : ρ.Seated u) :
    ρ.Takes u (Parse.signMark .dot [.number]) u fun b v =>
      (b = false ∧ v = u ∧ u.look.token ≠ .dot) ∨ (b = true ∧ v.look.token = .number) := by
  unfold Parse.signMark
  rw [token_iff]
  split
  · next mark =>
      have dot := beq_iff_eq.1 mark
      rw [scan_iff, token_iff]
      split
      · next follows =>
          have digits : (u.passing ρ.env true).look.token = .number := by simpa using follows
          exact .pure ⟨seated, .point dot digits⟩ (.inr ⟨rfl, digits⟩)
      · exact unexpected_bind fun problem => .fail ⟨seated, .astray true problem _ dot⟩
  · next other => exact .pure (.refl seated) (.inl ⟨rfl, rfl, by simpa using other⟩)

/-- A number ends at its digits, behind a sign, behind a point, or alone. -/
theorem number (seated : ρ.Seated u)
    (starts : u.look.token = .minus ∨ u.look.token = .dot ∨ u.look.token = .number) :
    ρ.Takes u Parse.number u fun _ v => v.look.token = .number := by
  unfold Parse.number
  rw [location_iff]
  refine .bind (.refl seated) (minus seated) fun negative t₁ g₁ _ signed => ?_
  refine .bind g₁ (point g₁.seated) fun pointed t₂ g₂ _ pointed => ?_
  have digits : t₂.look.token = .number := by
    rcases pointed with ⟨-, rfl, other⟩ | ⟨-, digits⟩
    -- which of the three the number starts with decides where the digits are
    · rcases signed with ⟨-, rfl, unsigned⟩ | ⟨-, digits | dot⟩
      · exact (starts.resolve_left unsigned).resolve_left other
      · exact digits
      · exact absurd dot other
    · exact digits
  rw [look_iff]
  dsimp only
  split
  · exact .unexpected_fail g₂
  · split
    · exact .unexpected_fail g₂
    · split
      · exact .pure g₂ digits
      · exact .reportHere_fail g₂

/-- A text is one token, and the parser stays at it. -/
theorem string (seated : ρ.Seated u) : ρ.Takes u Parse.string u fun _ v => v = u := by
  have goes := Goes.refl seated
  unfold Parse.string
  rw [look_iff]
  dsimp only
  split
  · refine .bind goes (.ofOption (P := fun _ v => v = u) goes fun _ _ => rfl) fun _ t g₁ _ same => ?_
    exact here_self (.pure g₁ same)
  split
  · exact here_self (.pure goes rfl)
  split
  · exact here_self (.pure goes rfl)
  · exact .reportHere_fail goes

/-- A variable is one token; a wildcard draws a name, which moves nothing. -/
theorem variableHere (seated : ρ.Seated u) :
    ρ.Takes u Parse.variableHere u fun _ v => v.look = u.look := by
  unfold Parse.variableHere
  rw [look_iff]
  dsimp only
  split
  · rw [offset_iff]
    exact freshWildcard_bind (here_self (.pure (.draw seated _) rfl))
  · exact here_self (.pure (.refl seated) rfl)

/-! ## Primary terms

A term may be recalled instead of read.  To recall it is no move in itself: it is the reading that was
made when it was remembered, from the same place on. -/

variable (h : Keeps g)

include h

/-- What stands in parentheses ends at the one that closes. -/
theorem parenthesized (seated : ρ.Seated u) (paren : u.look.token = .lparen) :
    ρ.Takes u (Parse.parenthesized g) u fun _ v => v.look.token = .rparen := by
  have g₁ : ρ.Goes u (u.passing ρ.env true) := .over seated true paren rfl
  unfold Parse.parenthesized
  rw [offset_iff, scan_iff]
  refine .bind g₁ (h.compound ρ g₁.seated true) fun t t₂ g₂ _ _ => ?_
  rw [token_iff]
  split
  · next closes =>
      rw [look_iff, text_iff]
      exact .pure g₂ (beq_iff_eq.1 closes)
  · exact .reportHere_fail g₂

/-- What a primary term starts with ends at a token that may be passed. -/
theorem head (seated : ρ.Seated u) :
    ρ.Takes u (Parse.head g) u fun _ v => v.look.token.isPassable = true := by
  have goes := Goes.refl seated
  -- numbers and variables end at the token that they consist of
  have digits (starts : u.look.token = .minus ∨ u.look.token = .dot ∨ u.look.token = .number) :
      ρ.Takes u Parse.number u fun _ v => v.look.token.isPassable = true :=
    (number seated starts).weaken fun _ v _ token => by rw [token]; rfl
  have name (passable : u.look.token.isPassable = true) :
      ρ.Takes u Parse.variableHere u fun _ v => v.look.token.isPassable = true :=
    (variableHere seated).weaken fun _ v _ same => by rw [same]; exact passable
  unfold Parse.head
  rw [token_iff]
  split
  · next token => exact here_self (.pure goes (by rw [token]; rfl))
  · next token => exact here_self (.pure goes (by rw [token]; rfl))
  · next token => exact here_self (.pure goes (by rw [token]; rfl))
  · next token => exact digits (.inl token)
  · next token => exact digits (.inr (.inl token))
  · next token => exact digits (.inr (.inr token))
  · next token => exact (string seated).weaken fun _ v _ same => by rw [same, token]; rfl
  · next token => exact name (by rw [token]; rfl)
  · next token => exact name (by rw [token]; rfl)
  · next token =>
      exact (bracketed seated (h.arrayElements seated token)).weaken fun _ v _ closes => by
        rw [closes]; rfl
  · next token =>
      exact (bracketed seated (h.bracedElements seated token)).weaken fun _ v _ closes => by
        rw [closes]; rfl
  · next token => exact (h.parenthesized seated token).weaken fun _ v _ closes => by rw [closes]; rfl
  · exact .unexpected_fail goes

/-- No term starts with a blank. -/
theorem headHere (seated : ρ.Seated u) :
    ρ.Takes u (Parse.head g) u fun _ v =>
      u.look.token ≠ .whitespace ∧ v.look.token.isPassable = true := by
  by_cases blank : u.look.token = .whitespace
  · unfold Parse.head
    rw [token_iff, blank]
    exact .unexpected_fail (.refl seated)
  · exact (h.head seated).weaken fun _ _ _ passable => ⟨blank, passable⟩

omit h in
/-- What is remembered at the token is recalled, which is no move yet. -/
theorem remembered (seated : ρ.Seated u) :
    ρ.Takes u Parse.remembered u fun a v =>
      v = u ∧ ∀ e ∈ a, e ∈ u.memo.entries ∧ e.offset = u.look.offset := by
  unfold Parse.remembered
  rw [reading_iff]
  split
  · next e found =>
      refine ask fun b => .pure (.refl seated) ⟨rfl, fun e' given => ?_⟩
      cases b with
      | false => exact absurd given (Option.not_mem_none _)
      | true =>
          obtain rfl : e = e' := Option.some.inj given
          exact Memo.lookup_some found
  · exact .pure (.refl seated) ⟨rfl, fun _ given => absurd given (Option.not_mem_none _)⟩

omit h in
/-- A reading that is taken up again ends where it ended when it was made. -/
theorem replay (seated : ρ.Seated u) {e : MemoEntry} (known : e ∈ u.memo.entries)
    (here : e.offset = u.look.offset) :
    ρ.Takes u (Parse.replay e) u fun _ v => u.look.offset < v.look.offset := by
  unfold Parse.replay
  rw [modify_iff]
  refine .ofOption (u := u.recalling e) ⟨seated, .recollect known here⟩ fun t given => ?_
  exact here ▸ (seated.memo e known).strides (Option.isSome_iff_exists.2 ⟨t, given⟩)

/-- A term that is read afresh is remembered, with where the reading ended. -/
theorem freshTerm (seated : ρ.Seated u) :
    ρ.Takes u (Parse.freshTerm g) u fun _ v => u.look.offset < v.look.offset := by
  have afresh : ρ.Takes u (do let t ← Parse.head g; Parse.finish g t false) u
      fun _ v => u.look.token ≠ .whitespace ∧ u.look.offset < v.look.offset :=
    .bind (.refl seated) (h.headHere seated) fun t v goes _ here =>
      (h.finish goes t false here.2).weaken fun _ _ _ ahead => ⟨here.1, ahead⟩
  unfold Parse.freshTerm
  rw [save_iff]
  refine .attempt_bind (.refl seated) afresh fun a v goes _ strides => ?_
  -- an attempt that gave no term is remembered too, and gives none here
  unfold Parse.remember
  rw [modify_iff]
  have given : a.isSome → u.look.token ≠ .whitespace ∧ u.look.offset < v.look.offset := fun some => by
    obtain ⟨t, given⟩ := Option.isSome_iff_exists.1 some
    exact strides t given
  exact .ofOption (u := u.remembering v a) ⟨seated, .remember a goes.leads given⟩
    fun t given => (strides t given).2

/-- A term has moved the parser, whether it was read or recalled. -/
theorem primary (seated : ρ.Seated u) :
    ρ.Takes u (Parse.term g) u fun _ v => u.look.offset < v.look.offset := by
  refine .nested (.refl seated) (.bind (.refl seated) (remembered seated) fun a v goes _ known => ?_)
  obtain ⟨rfl, known⟩ := known
  cases a with
  | some e => exact replay seated (known e rfl).1 (known e rfl).2
  | none => exact h.freshTerm seated

/-! ## Operators

Operators are taken by moves.  Where a try at an operand fails, the parser is back where the try began,
and what was done in between counts as given up. -/

omit h in
/-- An operator is passed; where there is none the parser fails where it is. -/
theorem operator (seated : ρ.Seated u) {kinds : List Token}
    (passable : ∀ k ∈ kinds, k.isPassable = true) :
    ρ.Takes u (Parse.operator kinds) u fun _ _ => True := by
  unfold Parse.operator
  rw [token_iff]
  split
  · next known =>
      rw [location_iff, scan_iff]
      exact .pure (.pass seated true (ρ.wide _ (passable _ (List.contains_iff_mem.1 known)))) trivial
  · exact .fail (.refl seated)

omit h in
theorem memberOperator (seated : ρ.Seated u) (n : Nat) :
    ρ.Takes u (Parse.memberOperator n) u fun _ _ => True := by
  unfold Parse.memberOperator
  rw [token_iff]
  split
  · next word =>
      rw [location_iff, scan_iff]
      exact .pure (.over seated true (beq_iff_eq.1 word) rfl) trivial
  · exact .fail (.refl seated)

omit h in
theorem operatorCall (goes : ρ.Goes r u) (op left : Term) (others : List Term) (start : Nat) :
    ρ.Takes r (Parse.operatorCall op left others start) u fun _ v => v = u := by
  unfold Parse.operatorCall
  rw [lastStop_iff]
  exact placed_self (.pure goes rfl)

/-- An operand is an operation of the next tier, or a term below the last one. -/
theorem operand (seated : ρ.Seated u) (tier : Tier) (start : Nat) :
    ρ.Takes u (Parse.operand g tier start) u fun _ v => u.look.offset < v.look.offset := by
  unfold Parse.operand
  split
  · next tier _ =>
      exact (h ρ (.operation tier none start) u rfl seated trivial).weaken fun _ _ _ ahead => ahead rfl
  · exact h.term ρ seated

/-- A further operand stands behind an operator, so the parser has moved twice. -/
theorem applied (seated : ρ.Seated u) (tier : Tier) (left : Term) (start : Nat) :
    ρ.Takes u (Parse.applied g tier left start) u fun _ v => u.look.offset < v.look.offset := by
  have passable : ∀ k ∈ tier.operators, k.isPassable = true := by cases tier <;> decide
  refine .bind (.refl seated) (operator seated passable) fun op t₁ g₁ _ _ => ?_
  rw [offset_iff]
  refine .bind g₁ (h.operand g₁.seated tier _) fun right t₂ g₂ _ ahead => ?_
  exact (operatorCall g₂ op left [right] start).weaken fun _ _ _ same => same ▸ g₁.ahead.trans_lt ahead

/-- What follows the operand that an operation has so far does not go back. -/
theorem operationRest (goes : ρ.Goes u v) (tier : Tier) (left : Term) (start : Nat) :
    ρ.Takes u (do
      match ← attempt (Parse.applied g tier left start) with
      | some c =>
        if tier.operators.contains (← token) then g (.operation tier (some c) start) else return c
      | none => return left) v fun _ t => v.look.offset ≤ t.look.offset := by
  refine .attempt_bind goes (h.applied goes.seated tier left start) fun a t g₂ n₂ _ => ?_
  split
  · next c _ =>
      rw [token_iff]
      split
      · exact .tail g₂ (h ρ (.operation tier (some c) start) t rfl g₂.seated trivial)
          fun _ _ since _ => n₂.ahead.trans since.ahead
      · exact .pure g₂ n₂.ahead
  · exact .pure g₂ n₂.ahead

/-- An operation without a first operand of its own has moved at least by one operand. -/
theorem operation (seated : ρ.Seated u) (tier : Tier) (left : Option Term) (start : Nat) :
    ρ.Takes u (Parse.operation g tier left start) u fun _ v =>
      left = none → u.look.offset < v.look.offset := by
  refine .nested (.refl seated) ?_
  cases left with
  | some t =>
      exact (h.operationRest (.refl seated) tier t start).weaken fun _ _ _ _ => by rintro ⟨⟩
  | none =>
      exact .bind (.refl seated) (h.operand seated tier start) fun first t₁ g₁ _ ahead =>
        (h.operationRest g₁ tier first start).weaken fun _ _ _ le _ => ahead.trans_le le

/-- The operands of a membership are operations of the loosest tier. -/
theorem memberOperand (seated : ρ.Seated u) (start : Nat) :
    ρ.Takes u (Parse.memberOperand g start) u fun _ v => u.look.offset < v.look.offset :=
  (h ρ (.operation .relation none start) u rfl seated trivial).weaken fun _ _ _ ahead => ahead rfl

/-- A keyed membership starts at the comma, and moves over it. -/
theorem keyedMember (seated : ρ.Seated u) (comma : u.look.token = .comma) (key : Term) (start : Nat) :
    ρ.Takes u (Parse.keyedMember g key start) u fun _ v => u.look.offset < v.look.offset := by
  have g₁ : ρ.Goes u (u.passing ρ.env true) := .over seated true comma rfl
  unfold Parse.keyedMember
  rw [scan_iff]
  refine .bind g₁ (h.memberOperand g₁.seated start) fun value t₂ g₂ _ _ => ?_
  refine .bind g₂ (memberOperator g₂.seated 3) fun op t₃ g₃ _ _ => ?_
  rw [offset_iff]
  refine .bind g₃ (h.memberOperand g₃.seated _) fun domain t₄ g₄ _ ahead => ?_
  exact (operatorCall g₄ _ _ _ _).weaken fun _ _ _ same => same ▸ g₃.ahead.trans_lt ahead

/-- A membership moves over its word. -/
theorem member (seated : ρ.Seated u) (value : Term) (start : Nat) :
    ρ.Takes u (Parse.member g value start) u fun _ v => u.look.offset < v.look.offset := by
  refine .bind (.refl seated) (memberOperator seated 2) fun op t₁ g₁ _ _ => ?_
  rw [offset_iff]
  refine .bind g₁ (h.memberOperand g₁.seated _) fun domain t₂ g₂ _ ahead => ?_
  exact (operatorCall g₂ _ _ _ _).weaken fun _ _ _ same => same ▸ g₁.ahead.trans_lt ahead

/-- A key is tried for, and the parser is back at the comma where there was none. -/
theorem keyedMember? (seated : ρ.Seated u) (keyed : Bool) (key : Term) (start : Nat) :
    ρ.Takes u (Parse.keyedMember? g keyed key start) u fun a v =>
      a.isSome → u.look.offset < v.look.offset := by
  have goes := Goes.refl seated
  unfold Parse.keyedMember?
  rw [token_iff]
  split
  · next comma =>
      have comma : u.look.token = .comma := beq_iff_eq.1 (Bool.and_eq_true_iff.1 comma).2
      rw [save_iff]
      refine .attempt_bind goes (h.keyedMember seated comma key start) fun a t g₁ n₁ ahead => ?_
      split
      · next c => exact .pure g₁ fun _ => ahead c rfl
      · exact .restore_bind n₁ (.pure n₁.resume (by rintro ⟨⟩))
  · exact .pure goes (by rintro ⟨⟩)

/-- A membership may be the first operand of another one. -/
theorem memberChain (goes : ρ.Goes r u) (keyed : Bool) (c : Term) (start : Nat) :
    ρ.Takes r (Parse.memberChain g keyed c start) u fun _ v => u.look.offset ≤ v.look.offset := by
  unfold Parse.memberChain
  rw [token_iff]
  split
  · exact .tail goes (h ρ (.membership keyed (some c) start) u rfl goes.seated trivial)
      fun _ _ since _ => since.ahead
  · exact .pure goes (Nat.le_refl _)

/-- What follows a value that may be a member does not go back. -/
theorem memberRest (goes : ρ.Goes u v) (keyed : Bool) (value : Term) (start : Nat) :
    ρ.Takes u (do
      match ← attempt (Parse.member g value start) with
      | some c => Parse.memberChain g keyed c start
      | none => return value) v fun _ t => v.look.offset ≤ t.look.offset := by
  refine .attempt_bind goes (h.member goes.seated value start) fun a t g₂ n₂ _ => ?_
  split
  · exact (h.memberChain g₂ keyed _ start).weaken fun _ _ _ le => n₂.ahead.trans le
  · exact .pure g₂ n₂.ahead

/-- What follows the operand that a membership has so far does not go back. -/
theorem membershipRest (goes : ρ.Goes u v) (keyed : Bool) (left : Term) (start : Nat) :
    ρ.Takes u (do
      match ← Parse.keyedMember? g keyed left start with
      | some c => Parse.memberChain g keyed c start
      | none =>
        let _ ← startsRefWithKeyword
        match ← attempt (Parse.member g left start) with
        | some c => Parse.memberChain g keyed c start
        | none => return left) v fun _ t => v.look.offset ≤ t.look.offset := by
  refine .bind goes (h.keyedMember? goes.seated keyed left start) fun a t g₂ n₂ _ => ?_
  split
  · exact (h.memberChain g₂ keyed _ start).weaken fun _ _ _ le => n₂.ahead.trans le
  · refine startsRefWithKeyword_bind g₂ ?_ fun named => ?_
    · exact (h.memberRest g₂ keyed left start).weaken fun _ _ _ le => n₂.ahead.trans le
    · exact (h.memberRest (g₂.trans named) keyed left start).weaken fun _ _ _ le =>
        (n₂.trans named).ahead.trans le

/-- A membership without a first operand of its own has moved. -/
theorem membership (seated : ρ.Seated u) (keyed : Bool) (left : Option Term) (start : Nat) :
    ρ.Takes u (Parse.membership g keyed left start) u fun _ v =>
      left = none → u.look.offset < v.look.offset := by
  refine .nested (.refl seated) ?_
  cases left with
  | some t =>
      exact (h.membershipRest (.refl seated) keyed t start).weaken fun _ _ _ _ => by rintro ⟨⟩
  | none =>
      exact .bind (.refl seated) (h.memberOperand seated start) fun first t₁ g₁ _ ahead =>
        (h.membershipRest g₁ keyed first start).weaken fun _ _ _ le _ => ahead.trans_le le

/-- A compound term has moved, as a membership without a first operand. -/
theorem compounded (seated : ρ.Seated u) (keyed : Bool) :
    ρ.Takes u (Parse.compound g keyed) u fun _ v => u.look.offset < v.look.offset := by
  refine .nested (.refl seated) ?_
  rw [offset_iff]
  exact (h ρ (.membership keyed none u.look.offset) u rfl seated trivial).weaken
    fun _ _ _ ahead => ahead rfl

/-! ## Expressions

With a second expression behind a sign there is one move more. -/

/-- An expression has moved by its first operand. -/
theorem expression (seated : ρ.Seated u) :
    ρ.Takes u (Parse.expression g) u fun _ v => u.look.offset < v.look.offset := by
  unfold Parse.expression
  refine .bind (.refl seated) (h.compound ρ seated true) fun left t₁ g₁ _ ahead => ?_
  rw [token_iff]
  split
  · next operator =>
      have passable : t₁.look.token.isPassable = true := by
        rcases Bool.or_eq_true _ _ ▸ operator with assign | unify
        · rw [beq_iff_eq.1 assign]; rfl
        · rw [beq_iff_eq.1 unify]; rfl
      have g₂ := g₁.trans (.pass g₁.seated true (ρ.wide _ passable))
      have n₂ : ρ.Goes t₁ (t₁.passing ρ.env true) := .pass g₁.seated true (ρ.wide _ passable)
      rw [location_iff, scan_iff]
      refine .bind g₂ (h.compound ρ g₂.seated true) fun right t₃ g₃ n₃ _ => ?_
      exact .pure g₃ (ahead.trans_le (n₂.ahead.trans n₃.ahead))
  · split
    · exact .pure g₁ ahead
    · exact .pure g₁ ahead

/-! ## Replacements

Replacements are moves from word to word. -/

omit h in
/-- A target that is neither a path nor a variable is reported, which moves nothing. -/
theorem checkTarget_bind {α : Type} {f : Unit → Parse α} {Q : α → Reading → Prop} (goes : ρ.Goes r u)
    (target : Term) (onward : ∀ t, ρ.Goes r t → ρ.Takes r (f ()) t Q) :
    ρ.Takes r (Parse.checkTarget target >>= f) u Q := by
  unfold Parse.checkTarget
  split
  · exact onward u goes
  · exact onward u goes
  · exact unexpected_bind fun problem => onward _ (goes.trans (.report goes.seated problem _))

/-- A replacement moves over its word, the target, `as` and the value. -/
theorem replacement (seated : ρ.Seated u) (withKw : u.look.token = .withKw) :
    ρ.Takes u (Parse.replacement g) u fun _ v => u.look.offset < v.look.offset := by
  have g₁ : ρ.Goes u (u.passing ρ.env true) := .over seated true withKw rfl
  unfold Parse.replacement
  rw [location_iff, scan_iff, token_iff]
  split
  · exact .unexpected_fail g₁
  · refine .bind g₁ (h.term ρ g₁.seated) fun target t₂ g₂ _ _ => ?_
    refine checkTarget_bind g₂ target fun t₃ g₃ => ?_
    unfold Parse.replacedBy
    rw [token_iff]
    split
    · exact .unexpected_fail g₃
    · next asKw =>
        have g₄ := g₃.trans (.over g₃.seated true (by simpa using asKw) rfl)
        rw [scan_iff]
        refine .bind g₄ (h.compound ρ g₄.seated true) fun value t₅ g₅ _ ahead => ?_
        rw [upToLastStop_iff]
        exact .pure g₅ (g₄.ahead.trans_lt ahead)

/-- Replacements end where there is no word of another one. -/
theorem replacements (seated : ρ.Seated u) (withKw : u.look.token = .withKw) (read : List With) :
    ρ.Takes u (Parse.replacements g read) u fun _ _ => True := by
  unfold Parse.replacements
  refine .bind (.refl seated) (h.replacement seated withKw) fun x t₁ g₁ _ _ => ?_
  rw [token_iff]
  split
  · next more =>
      exact .tail g₁ (h ρ (.replacements (read ++ [x])) t₁ rfl g₁.seated (beq_iff_eq.1 more))
        fun _ _ _ _ => trivial
  · exact .pure g₁ trivial

/-- What follows a literal does not go back. -/
theorem replaced (goes : ρ.Goes r u) (e : Expr) :
    ρ.Takes r (Parse.replaced g e) u fun _ v => u.look.offset ≤ v.look.offset := by
  unfold Parse.replaced
  rw [token_iff]
  split
  · next withKw =>
      have later := h ρ (.replacements []) u rfl goes.seated (beq_iff_eq.1 withKw)
      refine .tail (P := fun _ _ => True) goes (.bind (.refl goes.seated) later fun _ _ g₁ _ _ => ?_)
        fun _ _ since _ => since.ahead
      exact .pure g₁ trivial
  · exact .pure goes (Nat.le_refl _)

/-! ## Declarations

A declaration is a move over its word.  What is looked for with other words reserved is a probe, of which
nothing is left but advice. -/

/-- Symbols move over the word or the comma in front of them. -/
theorem symbols (seated : ρ.Seated u) (passable : u.look.token.isPassable = true) (read : List Term) :
    ρ.Takes u (Parse.symbols g read) u fun _ v => u.look.offset < v.look.offset := by
  -- whatever stands in front, it is passed, so the end is further on
  have more : u.look.token ≠ .eof := fun ended => by rw [ended] at passable; cases passable
  have g₁ : ρ.Goes u (u.passing ρ.env true) := .pass seated true (ρ.wide _ passable)
  have ahead := lt_passing seated true more
  unfold Parse.symbols
  rw [scan_iff, token_iff]
  split
  · exact .unexpected_fail g₁
  · next name =>
      have name : (u.passing ρ.env true).look.token = .ident := by simpa using name
      refine .bind g₁ (variableHere g₁.seated) fun x t₂ g₂ n₂ same => ?_
      have n₃ := n₂.trans (.over g₂.seated true (same ▸ name) rfl)
      have g₃ := g₁.trans n₃
      have ahead := ahead.trans_le n₃.ahead
      rw [scan_iff, token_iff]
      split
      · next comma =>
          -- the comma becomes the token in front of the next symbol
          have passable : (t₂.passing ρ.env true).look.token.isPassable = true := by
            rw [beq_iff_eq.1 comma]
            rfl
          exact .tail g₃ (h ρ (.symbols (read ++ [x])) _ rfl g₃.seated passable)
            fun _ _ since _ => ahead.trans_le since.ahead
      · exact .pure g₃ ahead

/-- To look for a membership with all words reserved is to stay where the parser is. -/
theorem suggestIn_bind {α : Type} {f : Unit → Parse α} {Q : α → Reading → Prop} (goes : ρ.Goes r u)
    (someKw : u.look.token = .someKw)
    (onward : ∀ t, ρ.Goes u t → t.look.token = .someKw → ρ.Takes r (f ()) t Q) :
    ρ.Takes r (Parse.suggestIn g u.save >>= f) u Q := by
  have seated := goes.seated
  have n₁ : ρ.Goes u (u.passing ρ.env true) := .over seated true someKw rfl
  unfold Parse.suggestIn
  rw [bind_bind_iff]
  refine env_bind (by simp only [ρ.alike.suggest]) ?_
  split
  · next suggests =>
      rw [bind_bind_iff, scan_iff]
      have inside := seated_opened n₁.seated
      -- the reading that serves advice binds no words; the parser comes back with the names that it drew
      simp only [bind_assoc]
      refine withFutureKeywords_restore suggests n₁ (h.compound ρ.unbound inside true)
        fun a drawn => ?_
      have back : ρ.Goes u { u.resumed (u.passing ρ.env true) with wildcards := drawn } :=
        n₁.resume.trans (.draw n₁.resume.seated drawn)
      split
      · rw [hint_iff]
        exact onward _ (back.trans ⟨back.seated, .hint _⟩) someKw
      · exact onward _ back someKw
  · exact onward u (.refl seated) someKw

/-- Variables are declared by going back to where the declaration starts. -/
theorem declaredSymbols (someKw : w.look.token = .someKw) (since : ρ.Goes w v) (place : Location) :
    ρ.Takes w (Parse.declaredSymbols g place w.save) v fun _ t => w.look.offset < t.look.offset := by
  have back := since.resume
  unfold Parse.declaredSymbols
  refine .restore_bind since ?_
  have same : w.save = (w.resumed v).save := rfl
  rw [same]
  refine h.suggestIn_bind back someKw fun t goes token => ?_
  have g₁ := back.trans goes
  have passable : t.look.token.isPassable = true := by rw [token]; rfl
  exact .bind g₁ (h ρ (.symbols []) t rfl g₁.seated passable) fun _ _ g₂ _ ahead =>
    .pure g₂ (g₁.ahead.trans_lt ahead)

/-- A membership behind `some` gets its place, and no token is taken. -/
theorem declaredMembership (goes : ρ.Goes r u) (place : Location) (t : Term) (terms : List Term) :
    ρ.Takes r (Parse.declaredMembership g place t terms) u fun _ v =>
      u.look.offset ≤ v.look.offset := by
  unfold Parse.declaredMembership
  split
  · exact .unexpected_fail goes
  · split
    · exact h.replaced goes _
    · exact .unexpected_fail goes

/-- A declaration moves over its word, in whichever form it is read. -/
theorem declaration (seated : ρ.Seated u) (someKw : u.look.token = .someKw) :
    ρ.Takes u (Parse.declaration g) u fun _ v => u.look.offset < v.look.offset := by
  have g₁ : ρ.Goes u (u.passing ρ.env true) := .over seated true someKw rfl
  unfold Parse.declaration
  rw [location_iff, save_iff, scan_iff]
  refine .attempt_bind g₁ (h.compound ρ g₁.seated true) fun a t g₂ n₂ ahead => ?_
  split
  · next given =>
      have ahead := g₁.ahead.trans_lt (ahead _ rfl)
      split
      · exact (h.declaredMembership g₂ _ _ _).weaken fun _ _ _ le => ahead.trans_le le
      · exact h.declaredSymbols someKw g₂ _
  · exact h.declaredSymbols someKw g₂ _

/-! ## Quantified queries

A quantified query may be given up at any point; the moves up to there are those of a reading. -/

/-- A quantified query ends behind its braces, or does not get so far. -/
theorem quantifiedQuery (goes : ρ.Goes r u) (place : Location) (key : Option Term)
    (value domain : Term) :
    ρ.Takes r (Parse.quantifiedQuery g place key value domain) u fun _ v =>
      u.look.offset ≤ v.look.offset := by
  unfold Parse.quantifiedQuery
  rw [token_iff]
  split
  · exact .unexpected_fail goes
  · next brace =>
      have n₁ : ρ.Goes u (u.passing ρ.env true) := .over goes.seated true (by simpa using brace) rfl
      rw [scan_iff]
      refine .bind (goes.trans n₁) (h ρ (.body .rbrace) _ rfl n₁.seated trivial)
        fun b t g₂ n₂ closes => ?_
      have n₃ := n₁.trans (n₂.trans (.over g₂.seated true closes.1 rfl))
      rw [scan_iff]
      exact (h.replaced (goes.trans n₃) _).weaken fun _ _ _ le => n₃.ahead.trans le

/-- A quantified query is read from whatever may be passed. -/
theorem quantifier (seated : ρ.Seated u) (free : ρ.free u.look.token) :
    ρ.Takes u (Parse.quantifier g) u fun _ v => u.look.offset < v.look.offset := by
  have g₁ : ρ.Goes u (u.passing ρ.env true) := .pass seated true free
  unfold Parse.quantifier
  rw [location_iff, scan_iff]
  refine .bind g₁ (h.compound ρ g₁.seated true) fun t t₂ g₂ _ ahead => ?_
  have ahead := g₁.ahead.trans_lt ahead
  split
  · exact .unexpected_fail g₂
  · exact (h.quantifiedQuery g₂ _ _ _ _).weaken fun _ _ _ le => ahead.trans_le le

/-- To look for a quantified query with all words reserved is to stay where the parser is. -/
theorem suggestEvery_bind {α : Type} {f : Unit → Parse α} {Q : α → Reading → Prop} (goes : ρ.Goes w v)
    (e : Expr) (onward : ∀ t, ρ.Goes w t → v.look.offset ≤ t.look.offset → ρ.Takes w (f ()) t Q) :
    ρ.Takes w (Parse.suggestEvery g w.save e >>= f) v Q := by
  have back := goes.resume
  unfold Parse.suggestEvery
  rw [bind_bind_iff]
  refine env_bind (by simp only [ρ.alike.suggest]) ?_
  split
  · next looks =>
      have suggests := (Bool.and_eq_true_iff.1 looks).1
      simp only [bind_assoc]
      have inside := seated_opened back.seated
      refine probe_bind suggests goes (h.quantifier inside trivial) fun a drawn => ?_
      have drawn : ρ.Goes w { v with wildcards := drawn } := goes.trans (.draw goes.seated drawn)
      split
      · rw [hint_iff]
        exact onward _ (drawn.trans ⟨drawn.seated, .hint _⟩) (Nat.le_refl _)
      · exact onward _ drawn (Nat.le_refl _)
  · exact onward v goes (Nat.le_refl _)

/-! ## Literals

A literal starts with a sign, a word or an expression, each of which moves the parser. -/

/-- A plain literal has moved by its expression. -/
theorem plainLiteral (seated : ρ.Seated u) (negated : Bool) :
    ρ.Takes u (Parse.plainLiteral g negated) u fun _ v => u.look.offset < v.look.offset := by
  unfold Parse.plainLiteral
  rw [save_iff]
  refine .bind (.refl seated) (h.expression seated) fun e t₁ g₁ _ ahead => ?_
  refine .bind g₁ (h.replaced (.refl g₁.seated) _) fun e t₂ g₂ _ le => ?_
  exact h.suggestEvery_bind g₂ e fun t goes le' =>
    .pure goes ((ahead.trans_le le).trans_le le')

omit h in
/-- A negation is passed, unless the word is a name that a reference goes on from. -/
theorem negation (seated : ρ.Seated u) : ρ.Takes u Parse.negation u fun _ _ => True := by
  unfold Parse.negation
  rw [token_iff]
  split
  · exact .pure (.refl seated) trivial
  · next word =>
      rw [peekBlank_iff]
      split
      · exact .pure (.refl seated) trivial
      · rw [scan_iff]
        exact .pure (.over seated true (by simpa using word) rfl) trivial

/-- A literal of any form has moved. -/
theorem unplacedLiteral (seated : ρ.Seated u) :
    ρ.Takes u (Parse.unplacedLiteral g) u fun _ v => u.look.offset < v.look.offset := by
  have plain (negated : Bool) {t : Reading} (goes : ρ.Goes u t) :
      ρ.Takes u (Parse.plainLiteral g negated) t fun _ v => u.look.offset < v.look.offset :=
    .tail goes (h.plainLiteral goes.seated negated) fun _ _ _ ahead => goes.ahead.trans_lt ahead
  unfold Parse.unplacedLiteral
  refine startsRefWithKeyword_bind (.refl seated) ?_ fun named => ?_
  · refine .bind (.refl seated) (negation seated) fun negated t₁ g₁ _ _ => ?_
    rw [token_iff]
    split
    · next someKw =>
        split
        · exact .unexpected_fail g₁
        · exact .tail g₁ (h.declaration g₁.seated someKw) fun _ _ _ ahead => g₁.ahead.trans_lt ahead
    · next everyKw =>
        split
        · exact .unexpected_fail g₁
        · exact .tail g₁ (h.quantifier g₁.seated (everyKw ▸ ρ.wide _ rfl)) fun _ _ _ ahead =>
            g₁.ahead.trans_lt ahead
    · exact plain negated g₁
  · exact plain false named

/-- A literal gets its place when it has been read. -/
theorem literal (seated : ρ.Seated u) :
    ρ.Takes u (Parse.literal g) u fun _ v => u.look.offset < v.look.offset := by
  unfold Parse.literal
  rw [location_iff]
  refine .bind (.refl seated) (h.unplacedLiteral seated) fun e t g₁ _ ahead => ?_
  rw [upToLastStop_iff]
  exact .pure g₁ ahead

/-! ## Queries

A query moves from literal to literal, and the mark that ends it is seen but not passed. -/

/-- A query has moved by its first literal; in braces it ends at the token that closes. -/
theorem literals (seated : ρ.Seated u) (oneLine : Bool) (stop : Token) (read : Body) :
    ρ.Takes u (Parse.literals g oneLine stop read) u fun _ v =>
      (oneLine = false → v.look.token = stop) ∧ u.look.offset < v.look.offset := by
  unfold Parse.literals
  refine .bind (.refl seated) (h ρ .literal u rfl seated trivial) fun e t g₁ _ ahead => ?_
  -- the literal has taken a token, and the rest of the query goes on behind it
  have onward (read : Body) {t' : Reading} (since : ρ.Goes t t') :
      ρ.Takes u (g (.literals oneLine stop read)) t' fun _ v =>
        (oneLine = false → v.look.token = stop) ∧ u.look.offset < v.look.offset :=
    .tail (g₁.trans since) (h ρ (.literals oneLine stop read) t' rfl since.seated trivial)
      fun _ _ later closes => ⟨closes.1, ahead.trans_le (since.ahead.trans later.ahead)⟩
  dsimp only
  rw [token_iff]
  split
  · next semicolon =>
      rw [scan_iff]
      exact onward _ (.over g₁.seated true (beq_iff_eq.1 semicolon) rfl)
  split
  · next ends =>
      refine .pure g₁ ⟨fun several => ?_, ahead⟩
      rw [several, Bool.or_false] at ends
      exact beq_iff_eq.1 ends
  rw [look_iff]
  split
  · exact onward _ (.refl g₁.seated)
  -- an error that stands already is not followed by another one
  · rw [noFailures_iff]
    split
    · exact .unexpected_fail g₁
    · exact .fail g₁

/-- A query is its literals, with what follows them. -/
theorem query (seated : ρ.Seated u) (oneLine : Bool) (stop : Token) :
    ρ.Takes u (Parse.query g oneLine stop) u fun _ v =>
      (oneLine = false → v.look.token = stop) ∧ u.look.offset < v.look.offset := by
  unfold Parse.query
  rw [token_iff]
  split
  · exact .reportHere_fail (.refl seated)
  · exact h ρ (.literals oneLine stop []) u rfl seated trivial

/-- A body in braces ends at the brace that closes. -/
theorem body (seated : ρ.Seated u) (stop : Token) :
    ρ.Takes u (Parse.body g stop) u fun _ v =>
      v.look.token = stop ∧ u.look.offset < v.look.offset :=
  .nested (.refl seated) ((h.query seated false stop).weaken fun _ _ _ closes => ⟨closes.1 rfl, closes.2⟩)

/-! ## The grammar

With the productions below read in moves, every production is; so the grammar is, by induction on its
depth. -/

/-- A rule is read in moves where the productions below it are. -/
theorem rule : Keeps (Parse.rule g) := fun ρ α p u inQuery seated ready => by
  cases p with
  | term => exact h.primary seated
  | reference head start => exact h.reference seated head start
  | segments place start path => exact h.segments seated place start path
  | elements stop read => exact h.elements seated stop read
  | pairs stop read => exact h.pairs seated stop read
  | compound keyed => exact h.compounded seated keyed
  | membership keyed left start => exact h.membership seated keyed left start
  | operation tier left start => exact h.operation seated tier left start
  | body stop => exact h.body seated stop
  | literals oneLine stop read => exact h.literals seated oneLine stop read
  | literal => exact h.literal seated
  | replacements read => exact h.replacements seated ready read
  | symbols read => exact h.symbols seated ready read
  | alternative | siblings => cases inQuery

end Keeps

/-- The grammar reads queries in moves, however deep it is followed. -/
theorem Keeps.grammar : ∀ n, Keeps (Parse.grammar n)
  | 0 => fun _ _ _ _ _ seated _ => .fail (.refl seated)
  | n + 1 => (Keeps.grammar n).rule

end Route

end RegoSyntax
