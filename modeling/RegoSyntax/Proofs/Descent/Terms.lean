/-
# RegoSyntax.Proofs.Descent.Terms — references, calls and collections descend.

A reference goes on behind a point, a bracket or a parenthesis, and a collection is read behind the bracket
that opens it.  So what stands inside is asked for ahead of where the parser came from, and it makes no
difference that the first element may be read twice: the parser returns to it, and not to the bracket.

The proofs have one form.  A rule is unfolded up to the first production that it asks for; `passed` says
that the parser has taken the token in front, so that the production is asked for ahead, where the
grammars agree on everything; and what comes next is ahead of that.  Inside brackets the agreement is on
all productions (`Production.topRank`), as the bracket itself lies behind.
-/
import RegoSyntax.Proofs.Descent

namespace RegoSyntax

open Parse

namespace Route

variable {ρ : Route} {u v w : Reading} {g g' : Grammar} {n : Nat}

/-- Behind a token that is passed. -/
theorem passed (seated : ρ.Seated u) (b : Bool) {k : Token} (token : u.look.token = k) (more : k ≠ .eof) :
    ρ.Seated (u.passing ρ.env b) ∧ u.look.offset < (u.passing ρ.env b).look.offset :=
  ⟨seated.passing b, lt_passing seated b (token ▸ more)⟩

namespace Keeps

open Coincides

variable (h : Keeps g)

include h

/-! ## References and calls

A reference goes on by productions at the token behind its head, so these have a lower rank; what is in
brackets or parentheses is behind the token that opens. -/

omit h in
/-- The arguments of a call are behind its parenthesis. -/
theorem call_coincides (agree : ρ.Agree g g' u.look.offset 0) (seated : ρ.Seated u)
    (paren : u.look.token = .lparen) (operator : Term) (start : Nat) :
    ρ.Coincides (Parse.call g operator start) (Parse.call g' operator start) u := by
  obtain ⟨there, ahead⟩ := passed seated true paren (by decide)
  refine .nested ?_
  rw [scan_iff, token_iff]
  split
  · exact .refl
  · exact .before (agree.ahead (.elements .rparen [operator]) there trivial ahead)

omit h in
/-- A reference asks for its segments at the token where it goes on, and they have a lower rank. -/
theorem reference_coincides (agree : ρ.Agree g g' u.look.offset 1) (seated : ρ.Seated u) (head : Term)
    (start : Nat) : ρ.Coincides (Parse.reference g head start) (Parse.reference g' head start) u := by
  refine .nested ?_
  dsimp only
  split
  · rw [report_iff]
    exact agree.lower (.segments _ _ _) (seated.reporting _ _) trivial (Nat.le_refl _) rfl
  · exact agree.lower (.segments _ _ _) seated trivial (Nat.le_refl _) rfl

omit h in
/-- A segment between brackets is behind the bracket. -/
theorem bracketSegment_coincides (agree : ρ.Agree g g' u.look.offset 0) (seated : ρ.Seated u)
    (bracket : u.look.token = .lbrack) :
    ρ.Coincides (Parse.bracketSegment g) (Parse.bracketSegment g') u := by
  obtain ⟨there, ahead⟩ := passed seated true bracket (by decide)
  unfold Parse.bracketSegment
  rw [scan_iff]
  exact .before (agree.ahead (.compound true) there trivial ahead)

/-- A path goes on behind the segment, or behind the call, that has been read. -/
theorem segments_coincides (agree : ρ.Agree g g' u.look.offset 0) (seated : ρ.Seated u) (place : Location)
    (start : Nat) (path : Ref) :
    ρ.Coincides (Parse.segments g place start path) (Parse.segments g' place start path) u := by
  unfold Parse.segments
  rw [token_iff]
  -- every continuation takes a token, and further on the grammars agree
  split
  · next dot =>
      refine .behind (namedSegment seated dot) fun t t₁ goes ahead => ?_
      exact agree.ahead (.segments _ _ _) goes.seated trivial ahead
  · next bracket =>
      refine .bind (bracketSegment_coincides agree seated bracket) (h.bracketSegment seated bracket)
        fun t t₁ goes ahead => ?_
      exact agree.ahead (.segments _ _ _) goes.seated trivial ahead
  · next paren =>
      rw [offset_iff, placed_iff]
      refine .bind (call_coincides agree seated paren _ start) (h.call seated paren _ start)
        fun c t goes ahead => ?_
      rw [token_iff]
      split
      · exact .refl
      · exact agree.ahead (.reference c start) goes.seated trivial ahead
      · exact agree.ahead (.reference c start) goes.seated trivial ahead
      · exact .refl
  · exact .refl
  · exact .refl

omit h in
/-- Behind the head of a term a reference is ahead. -/
theorem finish_coincides (agree : ρ.Agree g g' u.look.offset 0) (seated : ρ.Seated u) (head : Term) (b : Bool)
    (passable : u.look.token.isPassable = true) :
    ρ.Coincides (Parse.finish g head b) (Parse.finish g' head b) u := by
  have more : u.look.token ≠ .eof := fun ended => by rw [ended] at passable; cases passable
  have ahead := lt_passing seated b more
  have onward := agree.ahead (.reference head u.look.offset) (seated.passing b) trivial ahead
  unfold Parse.finish
  rw [offset_iff, advance_iff, token_iff]
  split
  · exact onward
  · exact onward
  · exact onward
  · exact .refl

/-! ## Collections

The first element of a list stands where the list does.  Where a collection is read twice, both readings
start behind its bracket, so it does not matter which of them is the one that counts. -/

/-- The first element is asked for where the list is, with a lower rank; further ones are behind a comma.
-/
theorem elements_coincides (agree : ρ.Agree g g' u.look.offset 8) (seated : ρ.Seated u) (stop : Token)
    (read : List Term) : ρ.Coincides (Parse.elements g stop read) (Parse.elements g' stop read) u := by
  unfold Parse.elements
  rw [token_iff]
  split
  · exact .refl
  · refine .bind (agree.lower (.compound false) seated trivial (Nat.le_refl _) rfl)
      (h.compound ρ seated false) fun t t₁ goes ahead => ?_
    rw [token_iff]
    split
    · exact .refl
    split
    · rw [scan_iff]
      exact agree.ahead (.elements _ _) (goes.seated.passing true) trivial
        (ahead.trans_le (le_passing goes.seated true))
    · exact .refl

/-- The first key is asked for where the list is, with a lower rank; all else is behind a colon or a
comma. -/
theorem pairs_coincides (agree : ρ.Agree g g' u.look.offset 8) (seated : ρ.Seated u) (stop : Token)
    (read : List (Term × Term)) : ρ.Coincides (Parse.pairs g stop read) (Parse.pairs g' stop read) u := by
  unfold Parse.pairs
  rw [token_iff]
  split
  · exact .refl
  · refine .bind (agree.lower (.compound false) seated trivial (Nat.le_refl _) rfl)
      (h.compound ρ seated false) fun key t₁ g₁ ahead => ?_
    rw [token_iff]
    split
    · exact .refl
    -- behind the colon they agree on all productions
    · have there := g₁.seated.passing true
      have ahead := ahead.trans_le (le_passing g₁.seated true)
      rw [scan_iff]
      refine .bind (agree.ahead (.compound false) there trivial ahead) (h.compound ρ there false)
        fun value t₂ g₂ ahead' => ?_
      rw [token_iff]
      split
      · exact .refl
      split
      · rw [scan_iff]
        exact agree.ahead (.pairs _ _) (g₂.seated.passing true) trivial
          ((ahead.trans ahead').trans_le (le_passing g₂.seated true))
      · exact .refl

omit h in
/-- The parser returns behind the bracket, where all productions agree. -/
theorem arrayFrom_coincides (agree : ρ.Agree g g' w.look.offset Production.topRank) (since : ρ.Goes w v) :
    ρ.Coincides (Parse.arrayFrom g w.save) (Parse.arrayFrom g' w.save) v :=
  .restore_bind since
    (.before (agree.all (.elements .rbrack []) since.resume.seated trivial (Nat.le_refl _)))

omit h in
/-- As for arrays. -/
theorem setFrom_coincides (agree : ρ.Agree g g' w.look.offset Production.topRank) (since : ρ.Goes w v) :
    ρ.Coincides (Parse.setFrom g w.save) (Parse.setFrom g' w.save) v :=
  .restore_bind since
    (.before (agree.all (.elements .rbrace []) since.resume.seated trivial (Nat.le_refl _)))

/-- An array is read behind its bracket, as a list or as a comprehension. -/
theorem arrayElements_coincides (agree : ρ.Agree g g' u.look.offset 0) (seated : ρ.Seated u)
    (opens : u.look.token = .lbrack) :
    ρ.Coincides (Parse.arrayElements g) (Parse.arrayElements g') u := by
  obtain ⟨there, ahead⟩ := passed seated true opens (by decide)
  unfold Parse.arrayElements
  rw [scan_iff, token_iff]
  split
  · exact .refl
  · refine .behind (leadingComma there) fun plain w g₁ _ => ?_
    -- behind the bracket they agree on all productions
    have inside : ρ.Agree g g' w.look.offset Production.topRank := agree.later (ahead.trans_le g₁.ahead)
    rw [save_iff]
    refine .bind (inside.all .term g₁.seated trivial (Nat.le_refl _)) (h.term ρ g₁.seated)
      fun head t g₂ _ => ?_
    rw [token_iff]
    split
    · exact .refl
    · rw [scan_iff]
      exact .before (inside.all (.elements .rbrack [head]) (g₂.seated.passing true) trivial
        (g₂.ahead.trans (le_passing g₂.seated true)))
    · next bar =>
        split
        · exact arrayFrom_coincides inside g₂
        · have g₃ : ρ.Goes t (t.passing ρ.env true) := .over g₂.seated true bar rfl
          rw [scan_iff]
          -- a bar may start a query, or belong to the first element; then the list is read from its start
          refine .attempt_bind (inside.all (.body .rbrack) g₃.seated trivial (g₂.trans g₃).ahead)
            (h ρ (.body .rbrack) _ rfl g₃.seated trivial) fun b t₂ g₄ _ => ?_
          split
          · exact .refl
          · rw [token_iff]
            split
            · exact arrayFrom_coincides inside ((g₂.trans g₃).trans g₄)
            · exact .refl
    · exact arrayFrom_coincides inside g₂

/-- The rest of a set, of which the first element starts where the parser stood before. -/
theorem set_coincides (inside : ρ.Agree g g' w.look.offset Production.topRank) (since : ρ.Goes w u) (head : Term)
    (plain : Bool) : ρ.Coincides (Parse.set g w.save head plain) (Parse.set g' w.save head plain) u := by
  refine .nested ?_
  rw [token_iff]
  split
  · exact .refl
  · rw [scan_iff]
    exact .before (inside.all (.elements .rbrace [head]) (since.seated.passing true) trivial
      (since.ahead.trans (le_passing since.seated true)))
  -- -- behind a bar a comprehension is tried first; what it leaves is read as a set
  · next bar =>
      split
      · exact setFrom_coincides inside since
      · have g₁ : ρ.Goes u (u.passing ρ.env true) := .over since.seated true bar rfl
        rw [scan_iff]
        refine .attempt_bind (inside.all (.body .rbrace) g₁.seated trivial (since.trans g₁).ahead)
          (h ρ (.body .rbrace) _ rfl g₁.seated trivial) fun b t g₂ _ => ?_
        split
        · exact .refl
        · rw [token_iff]
          split
          · exact setFrom_coincides inside ((since.trans g₁).trans g₂)
          · exact .refl
  · exact .refl

omit h in
/-- What follows the first entry of an object is inside its braces. -/
theorem objectRest_coincides (inside : ρ.Agree g g' n Production.topRank) (seated : ρ.Seated u)
    (le : n ≤ u.look.offset) (key value : Term) (plain : Bool) :
    ρ.Coincides (Parse.objectRest g key value plain) (Parse.objectRest g' key value plain) u := by
  have there := seated.passing true
  have le := le.trans (le_passing seated true)
  refine .nested ?_
  rw [token_iff]
  split
  · exact .refl
  · split
    · exact .refl
    · rw [scan_iff]
      exact .before (inside.all (.body .rbrace) there trivial le)
  · rw [scan_iff]
    exact .before (inside.all (.pairs .rbrace [(key, value)]) there trivial le)
  · exact .refl

/-- The value of the first entry is read again, and what is behind it. -/
theorem objectFrom_coincides (inside : ρ.Agree g g' w.look.offset Production.topRank) (since : ρ.Goes w v)
    (key : Term) : ρ.Coincides (Parse.objectFrom g w.save key) (Parse.objectFrom g' w.save key) v := by
  have back := since.resume.seated
  refine .restore_bind since (.bind (inside.all (.compound false) back trivial (Nat.le_refl _))
    (h.compound ρ back false) fun value t goes _ => ?_)
  have rest := objectRest_coincides inside goes.seated goes.ahead key value true
  rw [token_iff]
  split
  · exact rest
  · exact rest
  · exact .refl

/-- An object is read behind the key of its first entry. -/
theorem object_coincides (inside : ρ.Agree g g' n Production.topRank) (seated : ρ.Seated u)
    (le : n ≤ u.look.offset) (key : Term) (plain : Bool) :
    ρ.Coincides (Parse.object g key plain) (Parse.object g' key plain) u := by
  have there := seated.passing true
  have inside : ρ.Agree g g' (u.passing ρ.env true).look.offset Production.topRank :=
    inside.since (le.trans (le_passing seated true)) (Nat.le_refl _)
  refine .nested ?_
  rw [scan_iff, save_iff]
  refine .bind (inside.all .term there trivial (Nat.le_refl _)) (h.term ρ there) fun value t g₁ _ => ?_
  have rest := objectRest_coincides inside g₁.seated g₁.ahead key value false
  have takes := h.objectRest g₁.seated key value false
  split
  · exact h.objectFrom_coincides inside g₁ key
  · rw [token_iff]
    split
    · exact .before rest.attempt
    · exact .before rest.attempt
    · refine .attempt_bind rest takes fun a t₂ g₂ _ => ?_
      split
      · exact .refl
      · exact h.objectFrom_coincides inside (g₁.trans g₂) key
    · exact h.objectFrom_coincides inside g₁ key

/-- What stands in braces is read behind the brace that opens, as a set or as an object. -/
theorem bracedElements_coincides (agree : ρ.Agree g g' u.look.offset 0) (seated : ρ.Seated u)
    (opens : u.look.token = .lbrace) :
    ρ.Coincides (Parse.bracedElements g) (Parse.bracedElements g') u := by
  obtain ⟨there, ahead⟩ := passed seated true opens (by decide)
  unfold Parse.bracedElements
  rw [scan_iff, token_iff]
  split
  · exact .refl
  · refine .behind (leadingComma there) fun plain w g₁ _ => ?_
    have inside : ρ.Agree g g' w.look.offset Production.topRank := agree.later (ahead.trans_le g₁.ahead)
    rw [save_iff]
    refine .bind (inside.all .term g₁.seated trivial (Nat.le_refl _)) (h.term ρ g₁.seated)
      fun head t g₂ _ => ?_
    rw [token_iff]
    split
    · exact h.set_coincides inside g₂ head plain
    split
    · exact h.object_coincides inside g₂.seated g₂.ahead head plain
    -- the first element is read once more as a compound term, from the same place
    · have back := g₂.resume.seated
      refine .restore_bind g₂ (.bind (inside.all (.compound false) back trivial (Nat.le_refl _))
        (h.compound ρ back false) fun head t₂ g₃ _ => ?_)
      have since : ρ.Goes w t₂ := g₂.resume.trans g₃
      rw [token_iff]
      split
      · exact h.set_coincides inside since head true
      · exact h.set_coincides inside since head true
      · exact h.object_coincides inside since.seated since.ahead head plain
      · exact .refl

omit h in
/-- The closing bracket is passed on both sides. -/
theorem bracketed_coincides {x y : Parse Value} (inside : ρ.Coincides x y u) :
    ρ.Coincides (Parse.bracketed x) (Parse.bracketed y) u := by
  refine .nested ?_
  rw [location_iff]
  exact .before inside

end Keeps

end Route

end RegoSyntax
