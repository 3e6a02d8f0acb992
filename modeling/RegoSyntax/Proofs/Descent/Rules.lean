/-
# RegoSyntax.Proofs.Descent.Rules — rules descend, and so does the whole grammar.

A head starts with a name, so all that it asks for is behind the name; bodies are behind the word or the brace
that they start with, alternatives behind `else`.

The outcome is `Route.rule_coincides`: from a production on, the grammar looks at nothing but productions
behind it, or of a lower rank where it stands.

For rules the moves are those of `Route.Carries`: between a head and what follows it the parser may have
entered a body, so the readings in between are told by walks.  An alternative starts at `else`, which the
rule in front of it has come to, and a further body at a brace; each of them has a rank lower than the
rules that ask for it, and asks for the next one ahead.
-/
import RegoSyntax.Proofs.Descent.Queries

namespace RegoSyntax

open Parse

namespace Route

variable {ρ : Route} {u v w : Reading} {g g' : Grammar} {n k : Nat}

/-- Rules that are read the same lead to the same place. -/
theorem Follows.coincides {α β : Type} {x y : Parse α} {f f' : α → Parse β} (first : ρ.Coincides x y u)
    (follows : ρ.Follows u x u) (second : ∀ a t, ρ.Walks u t → ρ.Coincides (f a) (f' a) t) :
    ρ.Coincides (x >>= f) (y >>= f') u :=
  .follow first follows second

open Coincides

/-! ## Heads

A head stands where its name does, and everything else in it is ahead of the name. -/

/-- The part of a head behind its sign is a compound term. -/
theorem headPart_coincides (agree : ρ.Agree g g' n Production.topRank) (seated : ρ.Seated u)
    (le : n ≤ u.look.offset) (note : Note) :
    ρ.Coincides (Parse.headPart g note) (Parse.headPart g' note) u := by
  unfold Parse.headPart
  rw [scan_iff]
  exact .before (.attempt (agree.all (.compound true) (seated.passing true) trivial
    (le.trans (le_passing seated true))))

/-- What stands behind the path of a head is ahead of the name that it starts with. -/
theorem headRest_coincides (agree : ρ.Agree g g' n Production.topRank) (seated : ρ.Seated u)
    (le : n ≤ u.look.offset) (isDefault : Bool) (place : Location) (head : Head) :
    ρ.Coincides (Parse.headRest g isDefault place head) (Parse.headRest g' isDefault place head) u := by
  unfold Parse.headRest
  rw [token_iff]
  split
  · split
    · have reports (note : Note) : ρ.Takes u (unexpected note) u fun _ _ => True := by
        have h : ρ.Takes u (unexpected note >>= Pure.pure) u fun _ _ => True :=
          Takes.unexpected_bind fun problem => .pure (.report seated problem _) trivial
        rwa [bind_pure] at h
      exact .behind (reports _) fun _ t goes _ =>
        .before (headPart_coincides agree goes.seated (le.trans goes.ahead) _)
    · exact .before (headPart_coincides agree seated le _)
  · exact .before (headPart_coincides agree seated le _)
  · exact .before (headPart_coincides agree seated le _)
  · exact .refl

namespace Keeps

variable (h : Keeps g)

include h

/-- Behind its name a head asks for a reference, and for a key or a value. -/
theorem ruleHead_coincides (agree : ρ.Agree g g' n Production.topRank) (seated : ρ.Seated u)
    (ident : u.look.token = .ident) (le : n ≤ u.look.offset) (isDefault : Bool) :
    ρ.Coincides (Parse.ruleHead g isDefault) (Parse.ruleHead g' isDefault) u := by
  unfold Parse.ruleHead
  rw [location_iff]
  refine .behind (variableHere seated) fun name t₁ g₁ same => ?_
  have passable : t₁.look.token.isPassable = true := by rw [same, ident]; rfl
  have inside : ρ.Agree g g' t₁.look.offset 0 := agree.since (le.trans g₁.ahead) (Nat.zero_le _)
  refine .attempt_bind (finish_coincides inside g₁.seated name true passable)
    (h.finish (.refl g₁.seated) name true passable) fun a t₂ g₂ _ => ?_
  split
  · exact .refl
  refine .behind (headOf g₂.seated _) fun head t₃ g₃ _ => ?_
  exact .before (headRest_coincides agree g₃.seated (le.trans ((g₁.trans g₂).trans g₃).ahead) isDefault _ head)

/-! ## Bodies

A body behind `if` is tried in two ways, both of them behind the word. -/

omit h in
/-- A body in braces is behind the brace. -/
theorem bracedBody_coincides (agree : ρ.Agree g g' n k) (seated : ρ.Seated u)
    (lt : n < (u.passing ρ.env true).look.offset) :
    ρ.Coincides (Parse.bracedBody g) (Parse.bracedBody g') u := by
  unfold Parse.bracedBody
  rw [scan_iff]
  exact .before (agree.ahead (.body .rbrace) (seated.passing true) trivial lt)

/-- A body behind `if` is behind the word, and is looked for there twice. -/
theorem ifBody_coincides (agree : ρ.Agree g g' n k) (seated : ρ.Seated u) (ifKw : u.look.token = .ifKw)
    (le : n ≤ u.look.offset) : ρ.Coincides (Parse.ifBody g) (Parse.ifBody g') u := by
  obtain ⟨there, ahead⟩ := passed seated true ifKw (by decide)
  have lt := le.trans_lt ahead
  unfold Parse.ifBody
  rw [scan_iff, save_iff]
  refine .attempt_bind (agree.ahead .literal there trivial lt) (h ρ .literal _ rfl there trivial)
    fun a t goes _ => ?_
  split
  · exact .refl
  · have back := goes.resume.seated
    exact .restore_bind goes (bracedBody_coincides agree back (lt.trans_le (le_passing back true)))

/-! ## Alternatives

The chain of alternatives goes down the tokens: each one starts behind the body of the one before. -/

omit h in
/-- The value of an alternative is behind its sign. -/
theorem alternativeValue_coincides (agree : ρ.Agree g g' n k) (seated : ρ.Seated u) (lt : n < u.look.offset)
    (head : Head) (place : Location) :
    ρ.Coincides (Parse.alternativeValue g head place) (Parse.alternativeValue g' head place) u := by
  have written := agree.ahead (.compound true) (seated.passing true) trivial
    (lt.trans_le (le_passing seated true))
  unfold Parse.alternativeValue
  rw [token_iff]
  split
  · exact .refl
  · exact .refl
  · rw [token_iff, scan_iff]
    exact .before written
  · rw [token_iff, scan_iff]
    exact .before written
  · exact .refl

omit h in
/-- The body of an alternative is behind its word. -/
theorem alternativeIfBody_coincides (agree : ρ.Agree g g' n k) (seated : ρ.Seated u)
    (lt : n < u.look.offset) :
    ρ.Coincides (Parse.alternativeIfBody g) (Parse.alternativeIfBody g') u := by
  have there := seated.passing true
  have lt := lt.trans_le (le_passing seated true)
  unfold Parse.alternativeIfBody
  rw [scan_iff, token_iff]
  split
  · exact .before (bracedBody_coincides agree there (lt.trans_le (le_passing there true)))
  · exact .refl
  · exact .before (agree.ahead .literal there trivial lt)

omit h in
/-- Another alternative is ahead of the one that it belongs to. -/
theorem furtherAlternative_coincides (agree : ρ.Agree g g' n k) (seated : ρ.Seated u)
    (lt : n < u.look.offset) (head : Head) :
    ρ.Coincides (Parse.furtherAlternative g head) (Parse.furtherAlternative g' head) u := by
  unfold Parse.furtherAlternative
  rw [token_iff]
  split
  · next elseKw => exact .before (agree.ahead (.alternative head) seated (beq_iff_eq.1 elseKw) lt)
  · exact .refl

/-- An alternative asks for a value, a body and another alternative, all behind `else`. -/
theorem alternative_coincides (agree : ρ.Agree g g' u.look.offset k) (seated : ρ.Seated u)
    (elseKw : u.look.token = .elseKw) (head : Head) :
    ρ.Coincides (Parse.alternative g head) (Parse.alternative g' head) u := by
  unfold Parse.alternative
  rw [location_iff]
  refine .behind (alternativeHead seated head _) fun own t₁ g₁ same => ?_
  -- to make the head of the alternative moves nothing, so the word is passed from where it was found
  obtain ⟨there, ahead⟩ := passed g₁.seated true (same ▸ elseKw) (by decide)
  have ahead := g₁.ahead.trans_lt ahead
  rw [scan_iff]
  refine .bind (alternativeValue_coincides agree there ahead own _) (h.alternativeValue there own _)
    fun own t₂ g₂ _ => ?_
  have lt := ahead.trans_le g₂.ahead
  rw [token_iff]
  split
  · next ifKw =>
      refine Follows.coincides (alternativeIfBody_coincides agree g₂.seated lt)
        (h.alternativeIfBody (.refl g₂.seated) ifKw) fun b t₃ walks => ?_
      exact .before (furtherAlternative_coincides agree walks.seated (lt.trans_le walks.ahead) head)
  · next brace =>
      refine .bind (bracedBody_coincides agree g₂.seated (lt.trans_le (le_passing g₂.seated true)))
        (h.bracedBody g₂.seated brace) fun b t₃ g₃ _ => ?_
      exact .before (furtherAlternative_coincides agree g₃.seated (lt.trans_le g₃.ahead) head)
  · exact .refl

omit h in
/-- An alternative is asked for where its word stands, and has a lower rank than rules. -/
theorem alternative?_coincides (agree : ρ.Agree g g' n Production.topRank) (seated : ρ.Seated u)
    (le : n ≤ u.look.offset) (head : Head) :
    ρ.Coincides (Parse.alternative? g head) (Parse.alternative? g' head) u := by
  unfold Parse.alternative?
  rw [token_iff]
  split
  · exact .refl
  next elseKw =>
  have elseKw : u.look.token = .elseKw := by simpa using elseKw
  refine .behind (.startsRefWithKeyword seated) fun b t goes same => ?_
  split
  · exact .refl
  next plain =>
  -- no reference goes on behind the word, so the parser has not moved
  obtain rfl := same (by simpa using plain)
  dsimp only
  split
  · exact .refl
  split
  · exact .refl
  · exact .before (agree.all (.alternative head) seated elseKw le)

/-! ## Rules

Rules ask for a head at their own token, and for the rest behind it. -/

/-- A further body is behind its brace, and the next one is behind that. -/
theorem siblings_coincides (agree : ρ.Agree g g' u.look.offset k) (seated : ρ.Seated u) (first : Rule)
    (read : List Rule) :
    ρ.Coincides (Parse.siblings g first read) (Parse.siblings g' first read) u := by
  unfold Parse.siblings
  rw [token_iff]
  split
  · exact .refl
  next brace =>
  have brace : u.look.token = .lbrace := by simpa using brace
  have lt := lt_passing seated true (by rw [brace]; decide)
  dsimp only
  split
  · exact .refl
  rw [location_iff]
  refine .bind (bracedBody_coincides agree seated lt) (h.bracedBody seated brace) fun b t₁ g₁ ahead => ?_
  rw [upToLastStop_iff]
  refine .behind (renewed g₁.seated _ _) fun head t₂ g₂ _ => ?_
  exact agree.ahead (.siblings first _) g₂.seated trivial (ahead.trans_le g₂.ahead)

end Keeps

namespace Carries

open Keeps

variable (h : Keeps g) (carries : Carries g)

include carries

/-- Behind a body there may be an alternative, and further bodies. -/
theorem rulesFrom_coincides (agree : ρ.Agree g g' n Production.topRank) (seated : ρ.Seated u)
    (le : n ≤ u.look.offset) (head : Head) (b : Body) (place : Location) :
    ρ.Coincides (Parse.rulesFrom g head b place) (Parse.rulesFrom g' head b place) u := by
  unfold Parse.rulesFrom
  refine Follows.coincides (alternative?_coincides agree seated le head)
    (carries.alternative? (.refl seated) head) fun next t walks => ?_
  rw [upToLastStop_iff]
  exact agree.all (.siblings _ _) walks.seated trivial (le.trans walks.ahead)

include h

/-- The rules of a head ask for a body and for what follows it. -/
theorem definedRules_coincides (agree : ρ.Agree g g' n Production.topRank) (seated : ρ.Seated u)
    (le : n ≤ u.look.offset) (head : Head) (place : Location) :
    ρ.Coincides (Parse.definedRules g head place) (Parse.definedRules g' head place) u := by
  unfold Parse.definedRules
  rw [token_iff]
  refine .behind (resolved seated head place _) fun head t _ same => ?_
  obtain rfl := same
  split
  · next ifKw =>
      refine Follows.coincides (h.ifBody_coincides agree seated ifKw le) (h.ifBody (.refl seated) ifKw)
        fun b t walks => ?_
      exact rulesFrom_coincides carries agree walks.seated (le.trans walks.ahead) _ b place
  · next brace =>
      have lt := le.trans_lt (lt_passing seated true (by rw [brace]; decide))
      refine .bind (bracedBody_coincides agree seated lt) (h.bracedBody seated brace) fun b t goes _ => ?_
      exact rulesFrom_coincides carries agree goes.seated (le.trans goes.ahead) head b place
  · exact .refl

/-- Rules start with a name, and what they ask for is behind it, or at it with a lower rank. -/
theorem rules_coincides (agree : ρ.Agree g g' u.look.offset Production.topRank) (seated : ρ.Seated u) :
    ρ.Coincides (Parse.rules g) (Parse.rules g') u := by
  unfold Parse.rules
  rw [location_iff]
  refine .behind (.startsRefWithKeyword seated) fun _ t₁ g₁ _ => ?_
  rw [token_iff]
  dsimp only
  -- -- the two ways a rule begins: behind `default`, or with its own name
  split
  · have there := g₁.seated.passing true
    rw [scan_iff]
    refine .behind (.startsRefWithKeyword there) fun _ t₂ g₂ _ => ?_
    have le := (g₁.ahead.trans (le_passing g₁.seated true)).trans g₂.ahead
    rw [token_iff]
    split
    · exact .failed
    · next ident =>
        exact .before (h.ruleHead_coincides agree g₂.seated (by simpa using ident) le _)
  · rw [token_iff]
    split
    · exact .failed
    · next ident =>
        have ident : t₁.look.token = .ident := by simpa using ident
        refine .bind (h.ruleHead_coincides agree g₁.seated ident g₁.ahead _)
          (h.ruleHead g₁.seated ident _) fun head t₂ g₂ _ => ?_
        exact definedRules_coincides h carries agree g₂.seated (g₁.trans g₂).ahead head _

end Carries

/-! ## The grammar

One case for each production, with the productions it asks for and their ranks. -/

/-- Every production descends: it asks for productions behind the token that it starts from, or, at that
token, for productions of a lower rank. -/
theorem rule_coincides {α : Type} (h : Keeps g) (p : Production α) (seated : ρ.Seated u) (due : p.Due u)
    (agree : ρ.Agree g g' u.look.offset p.rank) : ρ.Coincides (Parse.rule g p) (Parse.rule g' p) u := by
  cases p with
  | term => exact h.term_coincides agree seated
  | reference head start => exact Keeps.reference_coincides agree seated head start
  | segments place start path => exact h.segments_coincides agree seated place start path
  | elements stop read => exact h.elements_coincides agree seated stop read
  | pairs stop read => exact h.pairs_coincides agree seated stop read
  | compound keyed => exact Keeps.compound_coincides agree seated keyed
  | membership keyed left start => exact h.membership_coincides agree seated keyed left start
  | operation tier left start => exact h.operation_coincides agree seated left start
  | body stop => exact Keeps.body_coincides agree seated stop
  | literals oneLine stop read => exact h.literals_coincides agree seated oneLine stop read
  | literal => exact h.literal_coincides agree seated
  | replacements read => exact h.replacements_coincides agree seated due read
  | symbols read => exact Keeps.symbols_coincides agree seated due read
  | alternative head => exact h.alternative_coincides agree seated due head
  | siblings first read => exact h.siblings_coincides agree seated first read

end Route

end RegoSyntax
