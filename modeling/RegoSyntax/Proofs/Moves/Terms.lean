/-
# RegoSyntax.Proofs.Moves.Terms — references, calls and collections are read in moves.

`Production.Poised` is what a production of queries relies on to move on from where the parser stands, and
`Production.Comes` says how far it has come: behind the token it started from, and up to the closing token
that it was to find.

`Route.Keeps` is what is proved of the grammar by induction on its depth: for every production that makes
up queries, seated where the production is poised, the reading is one of moves (`Takes`) and has come as
far as `Comes` says.  This module has the rules below terms; operators and literals follow in the next
one.

Two points are not what they seem.  A name behind a point is one move together with the point, since only
the point makes the parser take a keyword for a name there.  And a list that is read again starts from the
place that was saved, so what was done in between counts as done and given up (`Goes.resume`).
-/
import RegoSyntax.Proofs.Moves.Takes
import RegoSyntax.Parse.Grammar

namespace RegoSyntax

open Parse

namespace Production

/-- The productions that make up queries. -/
def inQuery : {α : Type} → Production α → Bool
  | _, .alternative _ | _, .siblings _ _ => false
  | _, _ => true

/-- What a production of queries relies on. -/
def Poised : {α : Type} → Production α → Reading → Prop
  | _, .replacements _, u => u.look.token = .withKw
  | _, .symbols _, u => u.look.token.isPassable = true
  | _, _, _ => True

/-- How far a production of queries comes. -/
def Comes : {α : Type} → Production α → Reading → Reading → Prop
  | _, .elements stop _, _, v | _, .pairs stop _, _, v => v.look.token = stop
  | _, .term, u, v | _, .compound _, u, v | _, .literal, u, v | _, .symbols _, u, v =>
    u.look.offset < v.look.offset
  | _, .membership _ left _, u, v | _, .operation _ left _, u, v =>
    left = none → u.look.offset < v.look.offset
  | _, .body stop, u, v => v.look.token = stop ∧ u.look.offset < v.look.offset
  | _, .literals oneLine stop _, u, v =>
    (oneLine = false → v.look.token = stop) ∧ u.look.offset < v.look.offset
  | _, _, _, _ => True

end Production

namespace Route

variable {ρ : Route} {r u v w : Reading} {g : Grammar}

/-- Every production of queries moves on as far as it is to. -/
def Keeps (g : Grammar) : Prop :=
  ∀ (ρ : Route) ⦃α : Type⦄ (p : Production α) (u : Reading), p.inQuery = true → ρ.Seated u → p.Poised u →
    ρ.Takes u (g p) u fun _ v => p.Comes u v

/-- A token of a kind that may be passed is passed. -/
theorem Goes.over (seated : ρ.Seated u) (b : Bool) {k : Token} (token : u.look.token = k)
    (passable : k.isPassable = true) : ρ.Goes u (u.passing ρ.env b) :=
  .pass seated b (ρ.wide _ (token ▸ passable))

namespace Keeps

open Takes

variable (h : Keeps g)

include h

/-- A primary term has moved the parser. -/
theorem term (ρ : Route) {u : Reading} (seated : ρ.Seated u) :
    ρ.Takes u (g .term) u fun _ v => u.look.offset < v.look.offset := h ρ .term u rfl seated trivial

/-- A compound term has moved the parser. -/
theorem compound (ρ : Route) {u : Reading} (seated : ρ.Seated u) (keyed : Bool) :
    ρ.Takes u (g (.compound keyed)) u fun _ v => u.look.offset < v.look.offset :=
  h ρ (.compound keyed) u rfl seated trivial

/-! ## References and calls

A path goes on while a point, a bracket or a parenthesis is right behind it.  What is behind a point is a
name, whatever the word is reserved for, so both tokens are one move. -/

/-- A call has moved over its parenthesis, if not over its arguments. -/
theorem call (seated : ρ.Seated u) (paren : u.look.token = .lparen) (operator : Term) (start : Nat) :
    ρ.Takes u (Parse.call g operator start) u fun _ v => u.look.offset < v.look.offset := by
  refine .nested (.refl seated) ?_
  have g₁ : ρ.Goes u (u.passing ρ.env true) := .over seated true paren rfl
  have ahead := lt_passing seated true (by rw [paren]; decide)
  rw [scan_iff, token_iff]
  split
  · next closes =>
      have n₂ : ρ.Goes (u.passing ρ.env true) _ := .over g₁.seated false (beq_iff_eq.1 closes) rfl
      rw [look_iff, scanBlank_iff]
      exact placed_self (.pure (g₁.trans n₂) (ahead.trans_le n₂.ahead))
  · refine .bind g₁ (h ρ (.elements .rparen [operator]) _ rfl g₁.seated trivial)
      fun ts t g₂ n₂ closes => ?_
    have n₃ := n₂.trans (.over g₂.seated false closes rfl)
    rw [look_iff, scanBlank_iff]
    exact placed_self (.pure (g₁.trans n₃) (ahead.trans_le n₃.ahead))

/-- A reference goes on from where it is; the path may end there. -/
theorem reference (seated : ρ.Seated u) (head : Term) (start : Nat) :
    ρ.Takes u (Parse.reference g head start) u fun _ _ => True := by
  have onward {t : Reading} (goes : ρ.Goes u t) :
      ρ.Takes u (g (.segments head.place start [head])) t fun _ _ => True :=
    .last goes (h ρ _ t rfl goes.seated trivial)
  refine .nested (.refl seated) ?_
  dsimp only
  split
  · rw [report_iff]
    exact onward (.report seated _ _)
  · exact onward (.refl seated)

omit h in
/-- A name is read together with the point before it. -/
theorem namedSegment (seated : ρ.Seated u) (dot : u.look.token = .dot) :
    ρ.Takes u Parse.namedSegment u fun _ v => u.look.offset < v.look.offset := by
  have ahead := lt_passing seated false (by rw [dot]; decide)
  unfold Parse.namedSegment
  rw [scanBlank_iff, token_iff]
  refine isRefKeyword_bind (fun clear => clear.allowsInRefs fun n τ spaced noSegment =>
    spaced.refuses_segment noSegment seated ρ.other dot) ?_
  split
  · next name =>
      rw [look_iff, scanBlank_iff]
      refine .pure ⟨seated, .segment dot ?_⟩ (ahead.trans_le (le_passing (seated.passing false) false))
      rw [Bool.or_eq_true, beq_iff_eq] at name
      exact name
  · exact unexpected_bind fun problem => .fail ⟨seated, .astray false problem _ dot⟩

/-- A segment between brackets has moved over both of them. -/
theorem bracketSegment (seated : ρ.Seated u) (bracket : u.look.token = .lbrack) :
    ρ.Takes u (Parse.bracketSegment g) u fun _ v => u.look.offset < v.look.offset := by
  have g₁ : ρ.Goes u (u.passing ρ.env true) := .over seated true bracket rfl
  unfold Parse.bracketSegment
  rw [scan_iff]
  refine .bind g₁ (h.compound ρ g₁.seated true) fun t t₂ g₂ _ ahead => ?_
  rw [token_iff]
  split
  · next closes =>
      have n₃ : ρ.Goes t₂ _ := .over g₂.seated false (beq_iff_eq.1 closes) rfl
      rw [scanBlank_iff]
      exact .pure (g₂.trans n₃) ((g₁.ahead.trans_lt ahead).trans_le n₃.ahead)
  · exact .unexpected_fail g₂

/-- A path ends at the token that does not continue it, and passes a blank. -/
theorem segments (seated : ρ.Seated u) (place : Location) (start : Nat) (path : Ref) :
    ρ.Takes u (Parse.segments g place start path) u fun _ _ => True := by
  -- behind a segment or a bracket the path goes on
  have onward (path : Ref) {t : Reading} (goes : ρ.Goes u t) :
      ρ.Takes u (g (.segments place start path)) t fun _ _ => True :=
    .last goes (h ρ _ t rfl goes.seated trivial)
  unfold Parse.segments
  rw [token_iff]
  split
  · next dot => exact .bind (.refl seated) (namedSegment seated dot) fun _ _ g₁ _ _ => onward _ g₁
  · next bracket =>
      exact .bind (.refl seated) (h.bracketSegment seated bracket) fun _ _ g₁ _ _ => onward _ g₁
  · next paren =>
      rw [offset_iff, placed_iff]
      refine .bind (.refl seated) (h.call seated paren _ start) fun t t₁ g₁ _ _ => ?_
      rw [token_iff]
      split
      · next blank =>
          rw [scan_iff]
          exact .pure (g₁.trans (.over g₁.seated true blank rfl)) trivial
      · exact .last g₁ (h ρ (.reference t start) t₁ rfl g₁.seated trivial)
      · exact .last g₁ (h ρ (.reference t start) t₁ rfl g₁.seated trivial)
      · exact .pure g₁ trivial
  · next blank =>
      unfold Parse.endReference
      rw [bind_bind_iff, lastStop_iff, placed_iff, scan_iff]
      exact .pure (.over seated true blank rfl) trivial
  · unfold Parse.endReference
    rw [lastStop_iff]
    exact placed_self (.pure (.refl seated) trivial)

/-- Behind what a term starts with it ends, or goes on. -/
theorem finish (goes : ρ.Goes u v) (head : Term) (b : Bool)
    (passable : v.look.token.isPassable = true) :
    ρ.Takes u (Parse.finish g head b) v fun _ t => u.look.offset < t.look.offset := by
  have free := ρ.wide _ passable
  -- a term does not end the text, so there is a token to be passed behind it
  have more : v.look.token ≠ .eof := fun ended => by rw [ended] at passable; cases passable
  have g₁ : ρ.Goes u (v.passing ρ.env b) := goes.trans (.pass goes.seated b free)
  have ahead : u.look.offset < (v.passing ρ.env b).look.offset :=
    goes.ahead.trans_lt (lt_passing goes.seated b more)
  have onward : ρ.Takes u (g (.reference head v.look.offset)) (v.passing ρ.env b)
      fun _ t => u.look.offset < t.look.offset :=
    .tail g₁ (h ρ _ _ rfl g₁.seated trivial) fun _ _ later _ => ahead.trans_le later.ahead
  unfold Parse.finish
  rw [offset_iff, advance_iff, token_iff]
  -- a point, a bracket or a parenthesis has a reference go on; a blank is passed; at anything else the
  -- term ends
  split
  · exact onward
  · exact onward
  · exact onward
  · dsimp only
    split
    · next blank =>
        have g₂ : ρ.Goes (v.passing ρ.env b) ((v.passing ρ.env b).passing ρ.env true) :=
          .over g₁.seated true (beq_iff_eq.1 blank) rfl
        rw [scan_iff]
        exact .pure (g₁.trans g₂) (ahead.trans_le g₂.ahead)
    · exact .pure g₁ ahead

/-! ## Collections

Between brackets a first element is tried, and read again where the collection is no comprehension.  What
the first reading did counts as given up. -/

omit h in
/-- A collection ends at its closing token, inside the bracket and with it. -/
theorem bracketed {x : Parse Value} (seated : ρ.Seated u) {stop : Token}
    (inside : ρ.Takes u x u fun _ v => v.look.token = stop) :
    ρ.Takes u (Parse.bracketed x) u fun _ v => v.look.token = stop := by
  refine .nested (.refl seated) ?_
  rw [location_iff]
  refine .bind (.refl seated) inside fun value t goes _ closes => ?_
  rw [look_iff]
  exact placed_self (.pure goes closes)

omit h in
/-- A comma in front of all elements is passed. -/
theorem leadingComma (seated : ρ.Seated u) : ρ.Takes u Parse.leadingComma u fun _ _ => True := by
  unfold Parse.leadingComma
  rw [token_iff]
  split
  · next comma =>
      rw [scan_iff]
      exact .pure (.over seated true (beq_iff_eq.1 comma) rfl) trivial
  · exact .pure (.refl seated) trivial

/-- Elements end at the token that closes the list. -/
theorem elements (seated : ρ.Seated u) (stop : Token) (read : List Term) :
    ρ.Takes u (Parse.elements g stop read) u fun _ v => v.look.token = stop := by
  unfold Parse.elements
  rw [token_iff]
  split
  · next closes => exact .pure (.refl seated) (beq_iff_eq.1 closes)
  · refine .bind (.refl seated) (h.compound ρ seated false) fun t t₁ g₁ _ _ => ?_
    rw [token_iff]
    split
    · next closes => exact .pure g₁ (beq_iff_eq.1 closes)
    split
    · next comma =>
        have g₂ := g₁.trans (.over g₁.seated true (beq_iff_eq.1 comma) rfl)
        rw [scan_iff]
        exact .tail g₂ (h ρ (.elements stop (read ++ [t])) _ rfl g₂.seated trivial)
          fun _ _ _ closes => closes
    · exact .unexpected_fail g₁

/-- Pairs end at the token that closes the list. -/
theorem pairs (seated : ρ.Seated u) (stop : Token) (read : List (Term × Term)) :
    ρ.Takes u (Parse.pairs g stop read) u fun _ v => v.look.token = stop := by
  unfold Parse.pairs
  rw [token_iff]
  split
  -- -- the list ends at its mark, before a pair or behind one
  · next closes => exact .pure (.refl seated) (beq_iff_eq.1 closes)
  · refine .bind (.refl seated) (h.compound ρ seated false) fun key t₁ g₁ _ _ => ?_
    rw [token_iff]
    split
    · exact .unexpected_fail g₁
    · next colon =>
        have g₂ := g₁.trans (.over g₁.seated true (by simpa using colon) rfl)
        rw [scan_iff]
        refine .bind g₂ (h.compound ρ g₂.seated false) fun value t₃ g₃ _ _ => ?_
        rw [token_iff]
        split
        · next closes => exact .pure g₃ (beq_iff_eq.1 closes)
        split
        · next comma =>
            have g₄ := g₃.trans (.over g₃.seated true (beq_iff_eq.1 comma) rfl)
            rw [scan_iff]
            exact .tail g₄ (h ρ (.pairs stop (read ++ [(key, value)])) _ rfl g₄.seated trivial)
              fun _ _ _ closes => closes
        · exact .unexpected_fail g₃

/-- A list that is read from where its first element starts. -/
theorem listFrom (before : ρ.Goes r w) (since : ρ.Goes w v) (stop : Token) (wrap : List Term → Value) :
    ρ.Takes r (do restore w.save; return wrap (← g (.elements stop []))) v
      fun _ t => t.look.token = stop := by
  have g₁ := before.trans since.resume
  refine .restore_bind since (.bind g₁ (h ρ (.elements stop []) _ rfl g₁.seated trivial) ?_)
  exact fun _ _ g₂ _ closes => .pure g₂ closes

/-- What stands between brackets ends at the one that closes, as a list or as a comprehension. -/
theorem arrayElements (seated : ρ.Seated u) (opens : u.look.token = .lbrack) :
    ρ.Takes u (Parse.arrayElements g) u fun _ v => v.look.token = .rbrack := by
  have g₁ : ρ.Goes u (u.passing ρ.env true) := .over seated true opens rfl
  unfold Parse.arrayElements
  rw [scan_iff, token_iff]
  split
  · next closes => exact .pure g₁ (beq_iff_eq.1 closes)
  · refine .bind g₁ (leadingComma g₁.seated) fun plain w g₂ _ _ => ?_
    rw [save_iff]
    refine .bind g₂ (h.term ρ g₂.seated) fun head t₃ g₃ n₃ _ => ?_
    -- read again from its first element the array still ends at its bracket
    have again {t : Reading} (since : ρ.Goes w t) :
        ρ.Takes u (Parse.arrayFrom g w.save) t fun _ v => v.look.token = .rbrack :=
      h.listFrom g₂ since .rbrack .array
    rw [token_iff]
    split
    · next closes => exact .pure g₃ closes
    · next comma =>
        have g₄ := g₃.trans (.over g₃.seated true comma rfl)
        rw [scan_iff]
        exact .bind g₄ (h ρ (.elements .rbrack [head]) _ rfl g₄.seated trivial)
          fun _ _ g₅ _ closes => .pure g₅ closes
    · next bar =>
        split
        · exact again n₃
        · have n₄ : ρ.Goes t₃ (t₃.passing ρ.env true) := .over g₃.seated true bar rfl
          rw [scan_iff]
          refine .attempt_bind (g₃.trans n₄) (h ρ (.body .rbrack) _ rfl n₄.seated trivial)
            fun b t₅ g₅ n₅ closes => ?_
          split
          · next b => exact .pure g₅ (closes b rfl).1
          · rw [token_iff]
            split
            · exact again ((n₃.trans n₄).trans n₅)
            · exact .fail g₅
    · exact again n₃

/-- The rest of a set, of which the first element starts where the parser stood before. -/
theorem set (before : ρ.Goes r w) (since : ρ.Goes w u) (head : Term) (plain : Bool) :
    ρ.Takes r (Parse.set g w.save head plain) u fun _ v => v.look.token = .rbrace := by
  have g₀ := before.trans since
  -- read again from its first element the set still ends at its brace
  have again {t : Reading} (since : ρ.Goes w t) :
      ρ.Takes r (Parse.setFrom g w.save) t fun _ v => v.look.token = .rbrace :=
    h.listFrom before since .rbrace .set
  refine .nested g₀ ?_
  rw [token_iff]
  split
  · next closes => exact .pure g₀ closes
  · next comma =>
      have g₁ := g₀.trans (.over g₀.seated true comma rfl)
      rw [scan_iff]
      exact .bind g₁ (h ρ (.elements .rbrace [head]) _ rfl g₁.seated trivial)
        fun _ _ g₂ _ closes => .pure g₂ closes
  · next bar =>
      split
      · exact again since
      · have n₁ : ρ.Goes u (u.passing ρ.env true) := .over g₀.seated true bar rfl
        rw [scan_iff]
        refine .attempt_bind (g₀.trans n₁) (h ρ (.body .rbrace) _ rfl n₁.seated trivial)
          fun b t₂ g₂ n₂ closes => ?_
        split
        · next b => exact .pure g₂ (closes b rfl).1
        · rw [token_iff]
          split
          · exact again ((since.trans n₁).trans n₂)
          · exact .fail g₂
  · exact .fail g₀

/-- The rest of an object ends at its brace. -/
theorem objectRest (seated : ρ.Seated u) (key value : Term) (plain : Bool) :
    ρ.Takes u (Parse.objectRest g key value plain) u fun _ v => v.look.token = .rbrace := by
  refine .nested (.refl seated) ?_
  rw [token_iff]
  split
  · next closes => exact .pure (.refl seated) closes
  · next bar =>
      split
      · exact .unexpected_fail (.refl seated)
      · have g₁ : ρ.Goes u (u.passing ρ.env true) := .over seated true bar rfl
        rw [scan_iff]
        exact .bind g₁ (h ρ (.body .rbrace) _ rfl g₁.seated trivial)
          fun _ _ g₂ _ closes => .pure g₂ closes.1
  · next comma =>
      have g₁ : ρ.Goes u (u.passing ρ.env true) := .over seated true comma rfl
      rw [scan_iff]
      exact .bind g₁ (h ρ (.pairs .rbrace [(key, value)]) _ rfl g₁.seated trivial)
        fun _ _ g₂ _ closes => .pure g₂ closes
  · exact .fail (.refl seated)

/-- The value of the first entry is read again, and what is behind it. -/
theorem objectFrom (before : ρ.Goes r w) (since : ρ.Goes w v) (key : Term) :
    ρ.Takes r (Parse.objectFrom g w.save key) v fun _ t => t.look.token = .rbrace := by
  have g₁ := before.trans since.resume
  refine .restore_bind since (.bind g₁ (h.compound ρ g₁.seated false) fun value t g₂ _ _ => ?_)
  have rest : ρ.Takes r (Parse.objectRest g key value true) t fun _ t => t.look.token = .rbrace :=
    .tail g₂ (h.objectRest g₂.seated key value true) fun _ _ _ closes => closes
  rw [token_iff]
  split
  · exact rest
  · exact rest
  · exact .unexpected_fail g₂

/-- What follows the first entry of an object that is no comprehension. -/
theorem entries (begun : ρ.Goes u v) (since : ρ.Goes v w) (key value : Term) :
    ρ.Takes u (do
      match ← attempt (Parse.objectRest g key value false) with
      | some v => return v
      | none =>
        restore v.save
        unterminatedObject) w fun _ v => v.look.token = .rbrace := by
  refine .attempt_bind (begun.trans since) (h.objectRest since.seated key value false)
    fun a t goes onward closes => ?_
  split
  · next v => exact .pure goes (closes v rfl)
  · exact .restore_bind (since.trans onward) (.unexpected_fail (begun.trans (since.trans onward).resume))

/-- An object ends at its brace, behind whichever reading of its first entry. -/
theorem object (seated : ρ.Seated u) (colon : u.look.token = .colon) (key : Term) (plain : Bool) :
    ρ.Takes u (Parse.object g key plain) u fun _ v => v.look.token = .rbrace := by
  have g₁ : ρ.Goes u (u.passing ρ.env true) := .over seated true colon rfl
  refine .nested (.refl seated) ?_
  rw [scan_iff, save_iff]
  refine .bind g₁ (h.term ρ g₁.seated) fun value t g₂ n₂ _ => ?_
  have again {t : Reading} (since : ρ.Goes (u.passing ρ.env true) t) :
      ρ.Takes u (Parse.objectFrom g (u.passing ρ.env true).save key) t
        fun _ v => v.look.token = .rbrace := h.objectFrom g₁ since key
  have rest := h.objectRest g₂.seated key value false
  split
  · exact again n₂
  · rw [token_iff]
    split
    · exact h.entries g₁ n₂ key value
    · exact h.entries g₁ n₂ key value
    · refine .attempt_bind g₂ rest fun a t₃ g₃ n₃ closes => ?_
      split
      · next v => exact .pure g₃ (closes v rfl)
      · exact again (n₂.trans n₃)
    · exact again n₂

/-- What stands between braces ends at the one that closes. -/
theorem bracedElements (seated : ρ.Seated u) (opens : u.look.token = .lbrace) :
    ρ.Takes u (Parse.bracedElements g) u fun _ v => v.look.token = .rbrace := by
  have g₁ : ρ.Goes u (u.passing ρ.env true) := .over seated true opens rfl
  unfold Parse.bracedElements
  rw [scan_iff, token_iff]
  split
  · next closes => exact .pure g₁ (beq_iff_eq.1 closes)
  · refine .bind g₁ (leadingComma g₁.seated) fun plain w g₂ _ _ => ?_
    rw [save_iff]
    refine .bind g₂ (h.term ρ g₂.seated) fun head t₃ g₃ n₃ _ => ?_
    rw [token_iff]
    split
    · exact h.set g₂ n₃ head plain
    split
    · next colon =>
        exact .tail g₃ (h.object g₃.seated (beq_iff_eq.1 colon) head plain) fun _ _ _ closes => closes
    -- back at the first element, which is read with operators this time
    · have g₄ := g₂.trans n₃.resume
      refine .restore_bind n₃ (.bind g₄ (h.compound ρ g₄.seated false) fun head t₅ g₅ n₅ _ => ?_)
      have since : ρ.Goes w t₅ := n₃.resume.trans n₅
      rw [token_iff]
      split
      · exact h.set g₂ since head true
      · exact h.set g₂ since head true
      · next colon =>
          exact .tail g₅ (h.object g₅.seated colon head plain) fun _ _ _ closes => closes
      · exact .unexpected_fail g₅

end Keeps

end Route

end RegoSyntax
