/-
# RegoSyntax.Proofs.Moves.Rules — rules are read in moves and bodies.

Heads, alternatives and further bodies, up to the rules of one head (`Route.rules_follow`).  `Route.Carries`
says of a grammar what `Route.Keeps` says of its productions of queries.

A rule is more than a query in one respect: its body may be read from a token that no query could start
from.  Where the word of a body is passed and the reading behind it fails, the parser comes back to the
token behind the word and passes it as it passes a brace, whatever it is.  `Follows` says that a reading
is made of moves and of such bodies, and `Lost` where an attempt may have ended that gave no rules, which
can be inside a body.  Both are told under `Clear`: from there a strict task goes on like any other one.

Heads, values and alternatives are plain moves (`Takes`), and are put in front of what follows by
`Follows.moves`.
-/
import RegoSyntax.Proofs.Moves.Bodies

namespace RegoSyntax

open Parse

namespace Route

variable {ρ : Route} {r u v w : Reading} {g : Grammar}

/-- The productions that make up rules follow on. -/
structure Carries (g : Grammar) : Prop where
  alternative : ∀ (ρ : Route) (u : Reading) (head : Head), ρ.Seated u → u.look.token = .elseKw →
    ρ.Follows u (g (.alternative head)) u
  siblings : ∀ (ρ : Route) (u : Reading) (first : Rule) (read : List Rule), ρ.Seated u →
    ρ.Follows u (g (.siblings first read)) u

namespace Takes

variable {α : Type} {P : α → Reading → Prop}

/-- What is attempted moves, and never fails. -/
theorem attempt {x : Parse α} (h : ρ.Takes u x u P) :
    ρ.Takes u (Parse.attempt x) u fun a t => ∀ b ∈ a, P b t := fun o depth journal => by
  obtain ⟨goes, holds, same⟩ := h o depth journal
  refine ⟨goes, fun a result b given => ?_, fun clear => ?_⟩
  · obtain rfl := Option.some.inj result
    exact holds b given
  · rw [run_attempt, run_attempt, same clear]

/-- A keyword that a reference goes on from is read as a name; where it is not, the parser stands as
before. -/
theorem startsRefWithKeyword (seated : ρ.Seated u) :
    ρ.Takes u Parse.startsRefWithKeyword u fun b v => b = false → v = u := by
  have h : ρ.Takes u (Parse.startsRefWithKeyword >>= Pure.pure) u fun b v => b = false → v = u :=
    startsRefWithKeyword_bind (.refl seated) (.pure (.refl seated) fun _ => rfl) fun named =>
      .pure named (by rintro ⟨⟩)
  rwa [bind_pure] at h

end Takes

open Takes

/-! ## Heads

A head is made of terms that were read, by looking at them, so the parser is moved by the terms alone. -/

/-- An argument is renewed, which draws a name at most. -/
theorem renewedTerm (seated : ρ.Seated u) (t : Term) (stands : Nat) :
    ρ.Takes u (match t.value with
      | .var name =>
        if isWildcardName name then do return { t with value := .var (← freshWildcard stands) }
        else return t
      | _ => return t) u fun _ v => v.look = u.look := by
  split
  · split
    · exact freshWildcard_bind (.pure (.draw seated _) rfl)
    · exact .pure (.refl seated) rfl
  · exact .pure (.refl seated) rfl

/-- What leaves the reader where it stands does so term after term. -/
theorem mapM_looks {f : Term → Parse Term} (seated : ρ.Seated u)
    (each : ∀ t {u}, ρ.Seated u → ρ.Takes u (f t) u fun _ v => v.look = u.look) (ts : List Term) :
    ρ.Takes u (ts.mapM f) u fun _ v => v.look = u.look := by
  induction ts generalizing u with
  | nil => exact .pure (.refl seated) rfl
  | cons t ts ih =>
      rw [List.mapM_cons]
      refine .bind (.refl seated) (each t seated) fun t' t₁ g₁ _ same => ?_
      exact .bind g₁ (ih g₁.seated) fun ts' t₂ g₂ _ same' => .pure g₂ (same'.trans same)

/-- To renew the arguments of a head moves nothing. -/
theorem renewed (seated : ρ.Seated u) (h : Head) (stands : Nat) :
    ρ.Takes u (Parse.renewed h stands) u fun _ v => v.look = u.look := by
  unfold Parse.renewed
  refine .bind (.refl seated)
    (mapM_looks seated (fun t _ seated => renewedTerm seated t stands) h.args) ?_
  exact fun _ _ goes _ same => .pure goes same

/-- To take a term as a head moves nothing. -/
theorem headOf (seated : ρ.Seated u) (t : Term) : ρ.Takes u (Parse.headOf t) u fun _ _ => True := by
  have goes := Goes.refl seated
  unfold Parse.headOf
  split
  · exact .pure goes trivial
  · exact .pure goes trivial
  · split
    · exact .pure goes trivial
    · split
      · exact .pure goes trivial
      · exact .unexpected_fail goes
    · exact .fail goes
  · exact .fail goes

namespace Keeps

variable (h : Keeps g)

include h

/-- The part of a head behind its sign is a compound term. -/
theorem headPart (seated : ρ.Seated u) (passable : u.look.token.isPassable = true) (note : Note) :
    ρ.Takes u (Parse.headPart g note) u fun _ _ => True := by
  have g₁ : ρ.Goes u (u.passing ρ.env true) := .pass seated true (ρ.wide _ passable)
  unfold Parse.headPart
  rw [Takes.scan_iff]
  refine .bind g₁ (.attempt (h.compound ρ g₁.seated true)) fun t t₂ g₂ _ _ => ?_
  dsimp only
  split
  · exact unexpected_bind fun problem => .pure (g₂.trans (.report g₂.seated problem _)) trivial
  · exact .pure g₂ trivial

/-- What stands behind the path of a head: a key, a value, or nothing. -/
theorem headRest (seated : ρ.Seated u) (isDefault : Bool) (place : Location) (head : Head) :
    ρ.Takes u (Parse.headRest g isDefault place head) u fun _ _ => True := by
  have goes := Goes.refl seated
  unfold Parse.headRest
  rw [Takes.token_iff]
  split
  · next containsKw =>
      have part {t : Reading} (goes : ρ.Goes u t) (same : t.look.token = .containsKw) (note : Note) :
          ρ.Takes u (do return { head with
            key := ← Parse.headPart g note, keywords := [.containsKw] }) t fun _ _ => True :=
        .bind goes (h.headPart goes.seated (by rw [same]; rfl) note) fun _ _ g₁ _ _ => .pure g₁ trivial
      split
      -- part => an error on the word does not end the reading: the key is read all the same
      · exact unexpected_bind fun problem => part (.report seated problem _) containsKw _
      · exact part goes containsKw _
  · next unify =>
      exact .bind goes (h.headPart seated (by rw [unify]; rfl) _) fun _ _ g₁ _ _ => .pure g₁ trivial
  · next assign =>
      exact .bind goes (h.headPart seated (by rw [assign]; rfl) _) fun _ _ g₁ _ _ => .pure g₁ trivial
  · exact .pure goes trivial

/-- A head has moved by the variable that it starts with. -/
theorem ruleHead (seated : ρ.Seated u) (ident : u.look.token = .ident) (isDefault : Bool) :
    ρ.Takes u (Parse.ruleHead g isDefault) u fun _ v => u.look.offset < v.look.offset := by
  unfold Parse.ruleHead
  rw [Takes.location_iff]
  refine .bind (.refl seated) (variableHere seated) fun name t₁ g₁ _ same => ?_
  have passable : t₁.look.token.isPassable = true := by rw [same, ident]; rfl
  refine .attempt_bind g₁ (h.finish (.refl g₁.seated) name true passable) fun a t₂ g₂ _ ahead => ?_
  split
  · exact .unexpected_fail g₂
  · refine .bind g₂ (headOf g₂.seated _) fun head t₃ g₃ n₃ _ => ?_
    refine .bind g₃ (h.headRest g₃.seated isDefault _ head) fun head t₄ g₄ n₄ _ => ?_
    rw [Takes.upToLastStop_iff]
    exact .pure g₄ ((g₁.ahead.trans_lt (ahead _ rfl)).trans_le (n₃.ahead.trans n₄.ahead))

omit h in
/-- To name a head by its path moves nothing. -/
theorem headName (seated : ρ.Seated u) (path : Ref) :
    ρ.Takes u (Parse.headName path) u fun _ v => v = u :=
  .ofOption (P := fun _ v => v = u) (.refl seated) fun _ _ => rfl

omit h in
/-- What follows a head has no say in where the parser stands. -/
theorem resolved (seated : ρ.Seated u) (head : Head) (place : Location) (hasIf : Bool) :
    ρ.Takes u (Parse.resolved head place hasIf) u fun _ v => v = u := by
  have goes := Goes.refl seated
  unfold Parse.resolved
  split
  · split
    · exact .pure goes rfl
    split
    · split
      · exact .pure goes rfl
      · exact .bind goes (headName seated _) fun _ _ g₁ _ same => .pure g₁ same
    split
    · exact .bind goes (headName seated _) fun _ _ g₁ _ same => .pure g₁ same
    · exact .pure goes rfl
  · exact .pure goes rfl

/-! ## Default rules

A default rule is checked and given; the parser stays where its head has ended. -/

omit h in
/-- Problems are reported, which moves nothing. -/
theorem rejectFor (seated : ρ.Seated u) (place : Location) (problems : List Problem) :
    ρ.Takes u (Parse.rejectFor place problems) u fun _ _ => True := by
  have reported (rest : List Problem) {u : Reading} (seated : ρ.Seated u) :
      ρ.Takes u (rest.forM (Parse.report place)) u fun _ _ => True := by
    induction rest generalizing u with
    | nil => exact .pure (.refl seated) trivial
    | cons problem rest ih =>
        have g₁ : ρ.Goes u (u.reporting problem place) := .report seated problem place
        exact Takes.report_iff.2 (.last g₁ (ih g₁.seated))
  unfold Parse.rejectFor
  refine .bind (.refl seated) (reported problems seated) fun _ t goes _ _ => ?_
  split
  · exact .pure goes trivial
  · exact .fail goes

omit h in
/-- A default rule ends where its head does. -/
theorem defaultRule (seated : ρ.Seated u) (head : Head) (place : Location) :
    ρ.Takes u (Parse.defaultRule head place) u fun _ _ => True := by
  have rest (place : Location) {t : Reading} (goes : ρ.Goes u t) : ρ.Takes u (do
      Parse.rejectFor place (argumentProblems [] head.args)
      return { Rule.new head (trueBody place) with
        isDefault := true, generatedBody := true, location := some place }) t fun _ _ => True :=
    .bind goes (rejectFor goes.seated place _) fun _ _ g₁ _ _ => .pure g₁ trivial
  unfold Parse.defaultRule
  rw [Takes.upToLastStop_iff]
  split
  · exact .bind (.refl seated) (rejectFor seated _ _) fun _ _ goes _ _ => rest _ goes
  · exact .bind (.refl seated) (rejectFor seated _ _) fun _ _ goes _ _ => rest _ goes

/-! ## Bodies

What is tried behind `if` and given up leaves the parser over the token there, whatever it is; so bodies
are told apart from moves. -/

/-- A query behind a token that has been passed, with its closing brace. -/
theorem closedBody (seated : ρ.Seated u) :
    ρ.Takes u (do let b ← g (.body .rbrace); scan; return b) u fun _ v =>
      u.look.offset < v.look.offset := by
  refine .bind (.refl seated) (h ρ (.body .rbrace) u rfl seated trivial) fun b t₁ g₁ _ ⟨closes, ahead⟩ => ?_
  have g₂ : ρ.Goes t₁ (t₁.passing ρ.env true) := .over g₁.seated true closes rfl
  rw [Takes.scan_iff]
  exact .pure (g₁.trans g₂) (ahead.trans_le g₂.ahead)

/-- A body in braces has moved, by the brace that opens it. -/
theorem bracedBody (seated : ρ.Seated u) (brace : u.look.token = .lbrace) :
    ρ.Takes u (Parse.bracedBody g) u fun _ v => u.look.offset < v.look.offset := by
  have g₁ : ρ.Goes u (u.passing ρ.env true) := .over seated true brace rfl
  unfold Parse.bracedBody
  rw [Takes.scan_iff]
  exact .tail g₁ (h.closedBody g₁.seated) fun _ _ _ ahead => g₁.ahead.trans_lt ahead

/-- The body behind `if`. -/
theorem ifBody (there : ρ.Walks r u) (ifKw : u.look.token = .ifKw) :
    ρ.Follows r (Parse.ifBody g) u := by
  have enters : ρ.Enters u (u.passing ρ.env true) := .step ifKw
  have seated := enters.seated there.seated
  -- back at the token behind the word, the body is entered with a leap over it
  have braced {t : Reading} (goes : ρ.Goes (u.passing ρ.env true) t) : ρ.Follows r (do
      restore (u.passing ρ.env true).save
      Parse.bracedBody g) t := by
    have leap := Enters.leap ifKw goes.leads
    refine Yields.restore_bind goes.leads.unbound ?_
    unfold Parse.bracedBody
    rw [Yields.scan_iff]
    exact Follows.entered there leap (h.closedBody (leap.seated there.seated))
  unfold Parse.ifBody
  rw [Follows.scan_iff, Follows.save_iff]
  -- where the texts are alike the literal is read from a place that is as clear
  have literal : ρ.Yields (ρ.Clear r) (g .literal) (u.passing ρ.env true) (ρ.Goes (u.passing ρ.env true))
      fun _ v => ρ.Goes (u.passing ρ.env true) v ∧ (u.passing ρ.env true).look.offset < v.look.offset :=
    .of_takes (h ρ .literal _ rfl seated trivial)
      (fun clear => (there.clear clear).onward fun _ _ strict spaced =>
        enters.spaced strict spaced there.seated)
      (fun _ goes => goes) fun _ _ goes ahead => ⟨goes, ahead⟩
  refine literal.attempt_bind (fun t goes => braced goes) fun e t ⟨goes, ahead⟩ => ?_
  split
  · exact Follows.pure (there.trans ⟨there.seated, .body enters goes.leads ahead⟩)
  · exact braced goes

/-! ## Alternatives

An alternative is a chain: the word, perhaps a value, a body, and perhaps another alternative. -/

omit h in
/-- The head of an alternative is made from that of the rule, which moves nothing. -/
theorem alternativeHead (seated : ρ.Seated u) (head : Head) (place : Location) :
    ρ.Takes u (Parse.alternativeHead head place) u fun _ v => v.look = u.look := by
  unfold Parse.alternativeHead
  exact .bind (.refl seated) (renewed seated _ _) fun _ _ goes _ same => .pure goes same

/-- The value of an alternative is written behind one of two signs, or there is none. -/
theorem alternativeValue (seated : ρ.Seated u) (head : Head) (place : Location) :
    ρ.Takes u (Parse.alternativeValue g head place) u fun _ _ => True := by
  have goes := Goes.refl seated
  -- -- `:=` and `=` are read alike: the mark, then a term
  have written (passable : u.look.token.isPassable = true) : ρ.Takes u (do
      let assign := (← token) == .assign
      scan
      let v ← g (.compound true)
      return { head with assign, value := some v, location := some (← upToLastStop place) }) u
      fun _ _ => True := by
    have g₁ : ρ.Goes u (u.passing ρ.env true) := .pass seated true (ρ.wide _ passable)
    rw [Takes.token_iff, Takes.scan_iff]
    refine .bind g₁ (h.compound ρ g₁.seated true) fun value t g₂ _ _ => ?_
    rw [Takes.upToLastStop_iff]
    exact .pure g₂ trivial
  unfold Parse.alternativeValue
  rw [Takes.token_iff]
  split
  · exact .pure goes trivial
  · exact .pure goes trivial
  · next assign => exact written (by rw [assign]; rfl)
  · next unify => exact written (by rw [unify]; rfl)
  · exact .unexpected_fail goes

/-- The body of an alternative behind `if` is a literal, or a query in braces. -/
theorem alternativeIfBody (there : ρ.Walks r u) (ifKw : u.look.token = .ifKw) :
    ρ.Follows r (Parse.alternativeIfBody g) u := by
  have enters : ρ.Enters u (u.passing ρ.env true) := .step ifKw
  have seated := enters.seated there.seated
  unfold Parse.alternativeIfBody
  rw [Follows.scan_iff, Follows.token_iff]
  split
  · next brace =>
      exact .bind (.entered there enters (h.bracedBody seated brace)) fun _ _ walks => .pure walks
  · exact .entered_fail there enters
  · exact .bind (.entered there enters (h ρ .literal _ rfl seated trivial)) fun _ _ walks => .pure walks

end Keeps

namespace Carries

variable (h : Keeps g) (carries : Carries g)

include carries

/-- Another alternative starts at the word that it starts with. -/
theorem furtherAlternative (there : ρ.Walks r u) (head : Head) :
    ρ.Follows r (Parse.furtherAlternative g head) u := by
  unfold Parse.furtherAlternative
  rw [Follows.token_iff]
  split
  · next elseKw =>
      exact .bind (.since there (carries.alternative ρ u head there.seated (beq_iff_eq.1 elseKw)))
        fun _ _ walks => .pure walks
  · exact .pure there

include h

/-- An alternative is read in moves and bodies where those behind it are. -/
theorem alternativeBody (seated : ρ.Seated u) (elseKw : u.look.token = .elseKw) (head : Head) :
    ρ.Follows u (Parse.alternative g head) u := by
  -- behind each kind of body the alternative may have an alternative of its own
  have further {α : Type} {t : Reading} (walks : ρ.Walks u t) (place : Location)
      (made : Option Rule → Location → α) : ρ.Follows u (do
        let next ← Parse.furtherAlternative g head
        let place ← upToLastStop place
        return made next place) t :=
    .bind (carries.furtherAlternative walks head) fun _ _ walks => by
      rw [Follows.upToLastStop_iff]
      exact .pure walks
  unfold Parse.alternative
  rw [Follows.location_iff]
  refine .moves (.refl seated) (Keeps.alternativeHead seated head _) fun own t₁ w₁ same => ?_
  have passed : ρ.Goes t₁ (t₁.passing ρ.env true) :=
    .over w₁.seated true (by rw [same, elseKw]) rfl
  have w₂ := w₁.trans passed.walks
  rw [Follows.scan_iff]
  refine .moves w₂ (h.alternativeValue w₂.seated own _) fun own t₃ w₃ _ => ?_
  rw [Follows.token_iff]
  split
  · next ifKw =>
      exact .bind (h.alternativeIfBody w₃ ifKw) fun b t₄ w₄ => further w₄ _ _
  · next brace =>
      exact .moves w₃ (h.bracedBody w₃.seated brace) fun b t₄ w₄ _ => further w₄ _ _
  · rw [Follows.upToLastStop_iff]
    exact .pure w₃

omit h in
/-- Where there is no alternative, or none may be here, nothing is passed. -/
theorem alternative? (there : ρ.Walks r u) (head : Head) :
    ρ.Follows r (Parse.alternative? g head) u := by
  unfold Parse.alternative?
  rw [Follows.token_iff]
  split
  · exact .pure there
  · next elseKw =>
      -- the word is there, so no other token of the grammar is
      have elseKw : u.look.token = .elseKw := by simpa using elseKw
      refine .moves there (.startsRefWithKeyword there.seated) fun b t w₁ same => ?_
      split
      · exact .pure w₁
      · next plain =>
          obtain rfl := same (by simpa using plain)
          dsimp only
          split
          · exact .reportHere_fail w₁
          split
          · exact .reportHere_fail w₁
          · exact .bind (.since w₁ (carries.alternative ρ t head w₁.seated elseKw)) fun _ _ walks =>
              .pure walks

/-! ## Rules

The rules of one head, with all bodies that follow the first one. -/

/-- A further body is read in moves and bodies where those behind it are. -/
theorem siblingsBody (seated : ρ.Seated u) (first : Rule) (read : List Rule) :
    ρ.Follows u (Parse.siblings g first read) u := by
  have there := Walks.refl seated
  unfold Parse.siblings
  rw [Follows.token_iff]
  split
  · exact .pure there
  · next brace =>
      have brace : u.look.token = .lbrace := by simpa using brace
      dsimp only
      split
      · exact .reportHere_fail there
      · rw [Follows.location_iff]
        refine .moves there (h.bracedBody seated brace) fun b t₁ w₁ _ => ?_
        rw [Follows.upToLastStop_iff]
        refine .moves w₁ (renewed w₁.seated _ _) fun head t₂ w₂ _ => ?_
        exact .since w₂ (carries.siblings ρ t₂ _ _ w₂.seated)

omit h in
/-- Behind the first body there are an alternative to it and further bodies. -/
theorem rulesFrom (there : ρ.Walks r u) (head : Head) (b : Body) (place : Location) :
    ρ.Follows r (Parse.rulesFrom g head b place) u := by
  unfold Parse.rulesFrom
  refine .bind (alternative? carries there head) fun next t w₁ => ?_
  rw [Follows.upToLastStop_iff]
  exact .since w₁ (carries.siblings ρ t _ _ w₁.seated)

/-- The rules of a head with the kind of body that the token tells. -/
theorem definedRules (there : ρ.Walks r u) (head : Head) (place : Location) :
    ρ.Follows r (Parse.definedRules g head place) u := by
  unfold Parse.definedRules
  rw [Follows.token_iff]
  refine .moves there (Keeps.resolved there.seated head place _) fun head t w₁ same => ?_
  obtain rfl := same
  split
  · next ifKw => exact .bind (h.ifBody w₁ ifKw) fun b t w₂ => rulesFrom carries w₂ _ _ _
  · next brace => exact .moves w₁ (h.bracedBody w₁.seated brace) fun b t w₂ _ => rulesFrom carries w₂ _ _ _
  · split
    · exact .pure w₁
    · exact .fail w₁

/-- The rules of one head are read in moves and bodies. -/
theorem rules (seated : ρ.Seated u) :
    ρ.Yields (ρ.Clear u) (Parse.rules g) u (ρ.Lost u) fun _ v =>
      ρ.Walks u v ∧ u.look.offset < v.look.offset := by
  -- where rules are given, they lead on from behind their head
  have behind {x : Parse (List Rule)} {t : Reading} (there : ρ.Walks u t)
      (ahead : u.look.offset < t.look.offset) (follows : ρ.Follows t x t) :
      ρ.Yields (ρ.Clear u) x t (ρ.Lost u) fun _ v => ρ.Walks u v ∧ u.look.offset < v.look.offset :=
    (follows.under there.clear).weaken (fun _ => there.treads.lost) fun _ v walks =>
      ⟨there.trans walks, ahead.trans_le walks.ahead⟩
  -- where none are, all that has been done is to move on
  have onward {t : Reading} (there : ρ.Walks u t) (v : Reading) (goes : ρ.Goes t v) : ρ.Lost u v :=
    .treads (there.trans goes.walks).treads
  unfold Parse.rules
  rw [Yields.location_iff]
  refine Yields.moves (Takes.startsRefWithKeyword seated) id (onward (.refl seated)) fun _ t₁ g₁ _ => ?_
  have w₁ := g₁.walks
  rw [Yields.token_iff]
  dsimp only
  split
  -- => the word of a default rule is passed, and the head is looked for behind it
  · next defaultKw =>
      have passed : ρ.Goes t₁ (t₁.passing ρ.env true) := .over w₁.seated true (beq_iff_eq.1 defaultKw) rfl
      have w₂ := w₁.trans passed.walks
      rw [Yields.scan_iff]
      refine Yields.moves (Takes.startsRefWithKeyword w₂.seated) w₂.clear (onward w₂) fun _ t₃ g₃ _ => ?_
      have w₃ := w₂.trans g₃.walks
      rw [Yields.token_iff]
      split
      · exact Yields.fail (.treads w₃.treads)
      · next ident =>
          refine Yields.moves (h.ruleHead w₃.seated (by simpa using ident) _) w₃.clear (onward w₃)
            fun head t₄ g₄ ahead => ?_
          have w₄ := w₃.trans g₄.walks
          exact behind w₄ (w₃.ahead.trans_lt ahead) (.moves (.refl w₄.seated)
            (Keeps.defaultRule w₄.seated head _) fun _ _ w₅ _ => .pure w₅)
  · rw [Yields.token_iff]
    split
    -- no head starts here; the statement may still be a query
    · exact Yields.fail (.treads w₁.treads)
    · next ident =>
        refine Yields.moves (h.ruleHead w₁.seated (by simpa using ident) _) w₁.clear (onward w₁)
          fun head t₂ g₂ ahead => ?_
        have w₂ := w₁.trans g₂.walks
        exact behind w₂ (w₁.ahead.trans_lt ahead) (definedRules h carries (.refl w₂.seated) head _)

end Carries

/-- The grammar reads rules in moves and bodies, however deep it is followed. -/
theorem Carries.grammar : ∀ n, Carries (Parse.grammar n)
  | 0 => ⟨fun _ _ _ seated _ => .fail (.refl seated), fun _ _ _ _ seated => .fail (.refl seated)⟩
  | n + 1 =>
    ⟨fun _ _ head seated elseKw => alternativeBody (.grammar n) (Carries.grammar n) seated elseKw head,
      fun _ _ first read seated => siblingsBody (.grammar n) (Carries.grammar n) seated first read⟩

end Route

end RegoSyntax
