/-
# RegoSyntax.Proofs.Moves.Walls — tokens that a parser does not get past without an error.

A word that starts a clause is passed in two ways only: as a name behind a point, and as what stands behind
the word of a body that cannot be read.  Where neither is before it the word is a wall, and no reading goes
past it, be it given up afterwards or not.

So what a parser remembers from before an import clause ends before the clause.  That has to be known of
all import clauses ahead, at every place where one statement ends and the next one starts.  Which points
and words stand before a wall depends on that place, so a place is told by a `Post`; and a parser that
has gone on without an error has not come to rest behind a point or behind the word of a body
(`Route.Guard`).

The proof goes in three steps.  A `Sign` is a token that every parser from a place on sees alike, whatever
it has been through: no point and no bracket is right behind it, so no reading takes it for a name.  A
`Guard` is a sign that may carry a parser over the word behind it; `Leads.avoids` shows that the moves of
a reading without an error do not end between the two.  A `Wall` is a word that starts a clause with no
guard before it, and `Wall.stable` shows that no move leads past one.

`Heeds` puts these together: they are told of the parser and of everything that it remembers from the
place on, since a reading that is recalled counts as one that is made.  `Heeds.clause` is what the module
is for: behind a clause that has just begun nothing is remembered.  `Heeds.onward` moves all of it from
one place to a later one, so that it can be carried through a run statement by statement.
-/
import RegoSyntax.Proofs.Lookahead

namespace RegoSyntax

open Parse
open Course (Adjoined)

/-! ## Points -/

namespace Cursor

variable {source : String} {a c d g p : Cursor}

/-- A word behind a token is no point and no bracket. -/
theorem Precedes.not_adjoined (h : g.Precedes source p) (word : p.lexeme.kind = .ident) : ¬ Adjoined g := by
  intro adjoined
  have filled := h.before.filled h.behind h.lt
  have major : g.skip.Significant := by
    rcases adjoined with kind | kind <;> exact ⟨by rw [kind]; decide, by rw [kind]; decide⟩
  have same : g.skip = p := by
    refine h.before.skip.eq_of_offset h.behind (Nat.le_antisymm (h.before.skip_le h.behind h.lt) ?_)
    by_contra before
    exact h.gap g.skip h.before.skip (offset_lt_skip filled) (Nat.lt_of_not_le before) major
  rw [Adjoined, same, word] at adjoined
  rcases adjoined with kind | kind <;> cases kind

/-- What a point shows. -/
theorem shown_of_dot {t : KeywordTable} (known : t.Known) (dot : d.lexeme.kind = .dot) : d.shown t = .dot :=
  ((Lexeme.Shows.of_classify d.lexeme known _).plain_iff rfl).2 dot

end Cursor

namespace Route

variable {ρ : Route} {a c d g p : Cursor} {k : Token} {l : Look} {r s t u v w : Reading} {source : String}

/-! ## Signs -/

/-- Where a parser has been: the words that were reserved, the offset, and the token that it saw. -/
structure Post where
  table : KeywordTable
  offset : Nat
  token : Token

/-- Where a parser is. -/
def Post.of (l : Look) : Post := ⟨l.scanner.keywords, l.offset, l.token⟩

/-- A place in a source. -/
structure Post.In (source : String) (b : Post) : Prop where
  known : b.table.Known
  front : ∃ c : Cursor, c.Starts source ∧ c.offset = b.offset ∧ c.lexeme.Shows b.token

/-- Where a parser is there is a place in its source. -/
theorem Post.of_in (ok : l.Ok source) : (Post.of l).In source := by
  obtain ⟨c, at', -⟩ := ok
  exact ⟨at'.known, c, at'.starts, at'.offset.symm, at'.shows⟩

variable {b : Post}

/-- A token that is seen the same whenever a parser that comes from a place is before it. -/
structure Sign (source : String) (b : Post) (a : Cursor) (k : Token) : Prop where
  starts : a.Starts source
  filled : a.rest ≠ []
  shows : a.lexeme.Shows k
  alone : ¬ Adjoined a
  shown : b.offset < a.offset → a.shown b.table = k
  first : a.offset = b.offset → b.token = k

/-- What a parser sees that comes from a place and is perhaps before a sign. -/
structure Sees (b : Post) (a : Cursor) (k : Token) (l : Look) : Prop where
  since : b.offset ≤ l.offset
  table : l.scanner.keywords = b.table
  token : l.offset = a.offset → l.token = k

/-- One step over a token keeps in view what a sign shows, whether the step has come to the sign or not.
-/
theorem Sign.next (sign : Sign ρ.source b a k) (ok : l.Ok ρ.source) (skipBlanks : Bool)
    (since : b.offset ≤ l.offset) (table : l.scanner.keywords = b.table) :
    Sees b a k (Parse.next ρ.env skipBlanks l).look := by
  have ahead := (ok_next ok skipBlanks).2
  obtain ⟨c, at', -⟩ := ok
  obtain ⟨d, step⟩ := next_step ρ.env skipBlanks at'
  refine ⟨since.trans ahead.1, step.keywords.trans table, fun here => ?_⟩
  -- at the sign the step shows what the table of the place makes of the token
  obtain rfl := step.at'.starts.eq_of_offset sign.starts (step.at'.offset.symm.trans here)
  rcases Nat.lt_or_ge b.offset d.offset with later | first
  · rw [step.exact, step.keywords, table, sign.shown later]
  · -- the parser has not moved, so it is at the end
    have ended : l.token = .eof := by
      by_contra more
      exact absurd (ahead.2 more) (by omega)
    have same : c = d := at'.starts.eq_of_offset sign.starts (by rw [← at'.offset]; omega)
    exact absurd (Lexeme.next_kind_eof.1 ((at'.shows.plain_iff rfl).1 ended)) (same ▸ sign.filled)

/-- No move of a reading changes what a sign shows: the moves that look again do so only at points and
names that go on, and a sign stands alone. -/
theorem Sign.stable (sign : Sign ρ.source b a k) : ρ.Stable (Sees b a k) where
  pass skipBlanks ok sees _ := sign.next ok skipBlanks sees.since sees.table
  point skipBlanks ok sees _ := sign.next ok skipBlanks sees.since sees.table
  segment ok sees _ _ := by
    have there := sign.next ok false sees.since sees.table
    exact sign.next (ok_next ok false).1 false there.since there.table
  hints _ sees := ⟨sees.since, sees.table, sees.token⟩
  ident {l} ok sees _ continues := by
    refine ⟨sees.since, sees.table, fun here => ?_⟩
    obtain ⟨c, at', -⟩ := ok
    obtain rfl := at'.starts.eq_of_offset sign.starts (at'.offset.symm.trans here)
    exact absurd (Course.Reads.adjoined_of_peek at' continues) sign.alone

/-- A point with a word behind it is a sign. -/
theorem sign_dot (inside : b.In source) (precedes : d.Precedes source p) (word : p.lexeme.kind = .ident)
    (dot : d.lexeme.kind = .dot) : Sign source b d .dot where
  starts := precedes.before
  filled := precedes.before.filled precedes.behind precedes.lt
  shows := Cursor.shown_of_dot inside.known dot ▸ Lexeme.Shows.of_classify d.lexeme inside.known _
  alone := precedes.not_adjoined word
  shown _ := Cursor.shown_of_dot inside.known dot
  first here := by
    obtain ⟨c, starts, offset, shows⟩ := inside.front
    obtain rfl := starts.eq_of_offset precedes.before (offset.trans here.symm)
    exact (shows.plain_iff rfl).2 dot

/-! ## Guards -/

/-- A point, or the word of a body that is not behind a point, and the word right behind it. -/
structure Guard (source : String) (b : Post) (g p : Cursor) (k : Token) : Prop where
  sign : Sign source b g k
  precedes : g.Precedes source p
  word : p.lexeme.kind = .ident
  since : b.offset ≤ g.offset
  bars : k = .dot ∨ k = .ifKw ∧
    ∀ d : Cursor, d.Precedes source g → b.offset ≤ d.offset → d.lexeme.kind ≠ .dot

/-- Behind a guard, up to the word behind it. -/
def Inside (g p : Cursor) (n : Nat) : Prop := g.offset < n ∧ n ≤ p.offset

/-- No reading that is remembered from an offset on goes inside without an error. -/
def Avoids (g p : Cursor) (n : Nat) (m : Memo) : Prop :=
  ∀ e ∈ m.entries, n ≤ e.offset → e.failures = #[] → Inside g p e.after.offset → Inside g p e.offset

/-- A reading that moves ahead goes inside only from inside, where it does not step over the guard. -/
theorem inside_of_ahead {m n : Nat} (ahead : m ≤ n) (bars : m ≤ g.offset → n ≤ g.offset ∨ p.offset < n)
    (inside : Inside g p n) : Inside g p m := by
  refine ⟨?_, ahead.trans inside.2⟩
  by_contra before
  rcases bars (Nat.le_of_not_lt before) with le | past
  · exact absurd inside.1 (Nat.not_lt.2 le)
  · exact absurd inside.2 (Nat.not_le.2 past)

namespace Guard

/-- The token of a guard is one that the grammar sees. -/
theorem significant (h : Guard source b g p k) : g.Significant := by
  rcases h.bars with rfl | ⟨rfl, -⟩
  · have kind : g.lexeme.kind = .dot := (h.sign.shows.plain_iff rfl).1 rfl
    exact ⟨by rw [kind]; decide, by rw [kind]; decide⟩
  · exact Cursor.significant_of_ident (h.sign.shows.word (.inr (.inr rfl))).1

/-- A guard is not passed. -/
theorem lt_of_passable (h : Guard source b g p k) (sees : Sees b g k l) (passable : l.token.isPassable = true)
    (le : l.offset ≤ g.offset) : l.offset < g.offset := by
  refine Nat.lt_of_le_of_ne le fun here => ?_
  rw [sees.token here] at passable
  rcases h.bars with rfl | ⟨rfl, -⟩ <;> cases passable

/-- From before a guard a step leads to the guard at most. -/
theorem next_le (h : Guard ρ.source b g p k) (ok : l.Ok ρ.source) (skipBlanks : Bool)
    (lt : l.offset < g.offset) : (Parse.next ρ.env skipBlanks l).look.offset ≤ g.offset :=
  Route.next_le ok skipBlanks h.sign.starts h.significant lt

/-- Directly behind a guard there is the word. -/
theorem next_eq (h : Guard ρ.source b g p k) (ok : l.Ok ρ.source) (skipBlanks : Bool)
    (here : l.offset = g.offset) {c : Cursor} (there : (Parse.next ρ.env skipBlanks l).look.At ρ.source c)
    (major : c.Significant) : c = p := by
  have filled := h.sign.filled
  have more : l.token ≠ .eof := by
    intro ended
    obtain ⟨d, at', -⟩ := ok
    obtain rfl := at'.starts.eq_of_offset h.sign.starts (at'.offset.symm.trans here)
    exact filled (Lexeme.next_kind_eof.1 ((at'.shows.plain_iff rfl).1 ended))
  have past := (ok_next ok skipBlanks).2.2 more
  have le := Route.next_le ok skipBlanks h.precedes.behind (Cursor.significant_of_ident h.word)
    (here ▸ h.precedes.lt)
  rw [there.offset] at past le
  refine there.starts.eq_of_offset h.precedes.behind (Nat.le_antisymm le ?_)
  by_contra before
  exact h.precedes.gap c there.starts (here ▸ past) (Nat.lt_of_not_le before) major

/-- A point and the digits behind it are not a guard and its word. -/
theorem point_le (h : Guard ρ.source b g p k) (ok : l.Ok ρ.source)
    (digits : (Parse.next ρ.env true l).look.token = .number) (le : l.offset ≤ g.offset) :
    (Parse.next ρ.env true l).look.offset ≤ g.offset := by
  rcases Nat.lt_or_eq_of_le le with lt | here
  · exact h.next_le ok true lt
  · obtain ⟨c, there, -⟩ := (ok_next ok true).1
    have kind := (Lexeme.Shows.number (digits ▸ there.shows)).1
    have major : c.Significant := ⟨by rw [Cursor.lexeme, kind]; decide, by rw [Cursor.lexeme, kind]; decide⟩
    obtain rfl := h.next_eq ok true here there major
    exact absurd (kind.symm.trans h.word) (by decide)

/-- A name behind a point is beyond a guard and its word, or before the guard. -/
theorem segment_le (h : Guard ρ.source b g p k) (ok : l.Ok ρ.source) (sees : Sees b g k l)
    (dot : l.token = .dot)
    (name : (Parse.next ρ.env false l).look.token = .ident ∨
      ρ.env.allowsInRefs (Parse.next ρ.env false l).look.scanner.keywords
        (Parse.next ρ.env false l).look.token.name = true) (le : l.offset ≤ g.offset) :
    (Parse.next ρ.env false (Parse.next ρ.env false l).look).look.offset ≤ g.offset ∨
      p.offset < (Parse.next ρ.env false (Parse.next ρ.env false l).look).look.offset := by
  have ok' := (ok_next ok false).1
  obtain ⟨c, there, -⟩ := id ok'
  have word : (Parse.next ρ.env false l).look.token = .ident ∨
      (Parse.next ρ.env false l).look.token.isKeyword ∨ (Parse.next ρ.env false l).look.token.isFutureKeyword :=
    name.imp id fun allowed => Env.word_of_allowsInRefs there.known allowed
  have ident := there.kind_of_word word
  -- before the guard the name may come next to it, but is no guard itself; at the guard it lies beyond
  rcases Nat.lt_or_eq_of_le le with lt | here
  · left
    refine h.next_le ok' false (Nat.lt_of_le_of_ne (h.next_le ok false lt) fun reached => ?_)
    rw [(h.sign.next ok false sees.since sees.table).token reached] at word
    rcases h.bars with rfl | ⟨-, bare⟩
    · rcases word with word | word | word <;> cases word
    · obtain ⟨d, at', -⟩ := ok
      have kind : d.lexeme.kind = .dot := (at'.shows.plain_iff rfl).1 dot
      have filled : d.rest ≠ [] := fun none => by
        rw [Cursor.lexeme, none] at kind
        cases kind
      exact bare d (precedes_next at' false filled reached h.sign.starts) (at'.offset ▸ sees.since) kind
  · right
    obtain rfl := h.next_eq ok false here there (Cursor.significant_of_ident ident)
    rw [← there.offset]
    refine (ok_next ok' false).2.2 fun ended => ?_
    rw [ended] at word
    rcases word with word | word | word <;> cases word

end Guard

/-- A parser that moves without an error does not go inside behind a guard. -/
theorem Leads.avoids (narrow : ρ.Narrow) (guard : Guard ρ.source b g p k) (h : ρ.Leads u v)
    (seated : ρ.Seated u) (sees : Holds (Sees b g k) b.offset u) (avoids : Avoids g p b.offset u.memo) :
    Avoids g p b.offset v.memo ∧ (v.failures.size ≤ u.failures.size → Inside g p v.look.offset →
      Inside g p u.look.offset) := by
  -- on the moves; only the steps over tokens could go inside, and none of them does
  induction h with
  | refl => exact ⟨avoids, fun _ => id⟩
  | trans first second ih ih' =>
      obtain ⟨avoids, before⟩ := ih seated sees avoids
      obtain ⟨avoids, after⟩ :=
        ih' (first.seated seated) (first.stable guard.sign.stable seated sees) avoids
      have grows := first.grows.1.size_le
      have grows' := second.grows.1.size_le
      exact ⟨avoids, fun clean inside =>
        before (grows'.trans clean) (after (clean.trans grows) inside)⟩
  | @pass u skipBlanks free =>
      rw [Reading.passing_memo, Reading.passing_look]
      refine ⟨avoids, fun _ => inside_of_ahead (ok_next seated.look skipBlanks).2.1 fun le => .inl ?_⟩
      exact guard.next_le seated.look skipBlanks
        (guard.lt_of_passable sees.look (narrow _ free) le)
  | point dot digits =>
      rw [Reading.passing_look] at digits
      rw [Reading.passing_memo, Reading.passing_look]
      refine ⟨avoids, fun _ => inside_of_ahead (ok_next seated.look true).2.1 fun le => .inl ?_⟩
      exact guard.point_le seated.look digits le
  | segment dot name =>
      have ahead := (Leads.segment dot name).ahead seated
      rw [Reading.passing_look] at name
      rw [Reading.passing_look, Reading.passing_look] at ahead
      rw [Reading.passing_memo, Reading.passing_memo, Reading.passing_look, Reading.passing_look]
      refine ⟨avoids, fun _ => inside_of_ahead ahead fun le => ?_⟩
      exact guard.segment_le seated.look sees.look dot name le
  | @astray u skipBlanks problem place dot =>
      -- an error was reported, so there is nothing to be shown
      refine ⟨avoids, fun clean => absurd clean (Nat.not_le.2 ?_)⟩
      have grows : Grows u.failures (u.passing ρ.env skipBlanks).failures := ⟨_, rfl⟩
      rw [Reading.reporting, Array.size_push]
      exact Nat.lt_succ_of_le grows.size_le
  | report | hint | ident | draw => exact ⟨avoids, fun _ => id⟩
  | resume _ ih => exact ⟨(ih seated sees avoids).1, fun _ => id⟩
  | @remember u v term leads strides ih =>
      obtain ⟨avoids, before⟩ := ih seated sees avoids
      -- the new entry is clean if the reading was, and then it has not gone inside
      refine ⟨fun e he since clean inside => ?_, before⟩
      rcases Memo.mem_push he with rfl | old
      · refine before ?_ inside
        have grows := leads.grows.1.extract
        rw [show v.failures.extract u.failures.size v.failures.size = #[] from clean, Array.append_empty] at grows
        exact (congrArg Array.size grows).le
      · exact avoids e old since clean inside
  | @recollect u e he same =>
      -- what is recalled without errors did not go inside when it was read
      refine ⟨avoids, fun clean inside => ?_⟩
      rw [← same]
      refine avoids e he (same ▸ sees.behind) ?_ inside
      have size : (u.failures ++ e.failures).size ≤ u.failures.size := clean
      rw [Array.size_append] at size
      exact Array.eq_empty_of_size_eq_zero (by omega)

/-! ## Walls -/

/-- A word that starts a clause, with no guard before it. -/
structure Wall (source : String) (b : Post) (c : Cursor) (k : Token) : Prop where
  sign : Sign source b c k
  since : b.offset ≤ c.offset
  word : c.lexeme.kind = .ident
  bars : k = .importKw ∨ k = .packageKw
  bare : ∀ g k', ¬ Guard source b g c k'

/-- What a parser sees that has come to a wall at most. -/
def Within (b : Post) (c : Cursor) (k : Token) (l : Look) : Prop := Sees b c k l ∧ l.offset ≤ c.offset

namespace Wall

/-- Where another token is seen, a wall has not been reached. -/
theorem lt_of_token (h : Wall source b c k) (within : Within b c k l) (importKw : l.token ≠ .importKw)
    (packageKw : l.token ≠ .packageKw) : l.offset < c.offset := by
  refine Nat.lt_of_le_of_ne within.2 fun here => ?_
  rcases h.bars with rfl | rfl
  · exact importKw (within.1.token here)
  · exact packageKw (within.1.token here)

/-- From before a wall a step leads to the wall at most. -/
theorem next (h : Wall ρ.source b c k) (ok : l.Ok ρ.source) (skipBlanks : Bool) (within : Within b c k l)
    (lt : l.offset < c.offset) : Within b c k (Parse.next ρ.env skipBlanks l).look :=
  ⟨h.sign.next ok skipBlanks within.1.since within.1.table,
    next_le ok skipBlanks h.sign.starts (Cursor.significant_of_ident h.word) lt⟩

/-- Moves do not lead past a wall. -/
theorem stable (narrow : ρ.Narrow) (inside : b.In ρ.source) (h : Wall ρ.source b c k) :
    ρ.Stable (Within b c k) where
  pass skipBlanks ok within free := by
    refine h.next ok skipBlanks within (h.lt_of_token within ?_ ?_)
    -- free tokens are those that may be passed, and the words of clauses are none of them
    · exact fun same => absurd (narrow _ free) (by rw [same]; decide)
    · exact fun same => absurd (narrow _ free) (by rw [same]; decide)
  point skipBlanks ok within dot :=
    h.next ok skipBlanks within (h.lt_of_token within (by rw [dot]; decide) (by rw [dot]; decide))
  segment ok within dot name := by
    have lt := h.lt_of_token within (by rw [dot]; decide) (by rw [dot]; decide)
    have there := h.next ok false within lt
    refine h.next (ok_next ok false).1 false there (Nat.lt_of_le_of_ne there.2 fun reached => ?_)
    -- a name behind a point that is right before the wall: then the point were a guard, and there is none
    obtain ⟨d, at', -⟩ := ok
    have kind : d.lexeme.kind = .dot := (at'.shows.plain_iff rfl).1 dot
    have filled : d.rest ≠ [] := fun none => by
      rw [Cursor.lexeme, none] at kind
      cases kind
    have precedes := precedes_next at' false filled reached h.sign.starts
    exact h.bare d .dot ⟨sign_dot inside precedes h.word kind, precedes, h.word,
      at'.offset ▸ within.1.since, .inl rfl⟩
  hints hints within := ⟨h.sign.stable.hints hints within.1, within.2⟩
  ident ok within allowed continues := ⟨h.sign.stable.ident ok within.1 allowed continues, within.2⟩

end Wall

/-! ## Readings that heed walls -/

/-- A parser that comes from a place has gone past no wall, and has not been inside behind a guard without
an error. -/
structure Heeds (ρ : Route) (b : Post) (u : Reading) : Prop where
  seated : ρ.Seated u
  inside : b.In ρ.source
  table : Holds (fun l => l.scanner.keywords = b.table) b.offset u
  sees : ∀ a k, Sign ρ.source b a k → Holds (Sees b a k) b.offset u
  avoids : ∀ g p k, Guard ρ.source b g p k → Avoids g p b.offset u.memo
  walls : ∀ c k, Wall ρ.source b c k → Holds (Within b c k) b.offset u

/-- A reading that is not inside behind a guard. -/
def Outside (source : String) (b : Post) (u : Reading) : Prop :=
  ∀ g p k, Guard source b g p k → ¬ Inside g p u.look.offset

/-- A reading that moves heeds walls as before: what it sees, what it remembers, and where it may not be
are all kept by the moves. -/
theorem Leads.heeds (narrow : ρ.Narrow) (h : ρ.Leads u v) (heeds : ρ.Heeds b u) : ρ.Heeds b v where
  seated := h.seated heeds.seated
  inside := heeds.inside
  table := h.stable (stable_keywords ρ _) heeds.seated heeds.table
  sees a k sign := h.stable sign.stable heeds.seated (heeds.sees a k sign)
  avoids g p k guard :=
    (h.avoids narrow guard heeds.seated (heeds.sees g k guard.sign) (heeds.avoids g p k guard)).1
  walls c k wall := h.stable (wall.stable narrow heeds.inside) heeds.seated (heeds.walls c k wall)

/-- A reading that moves without an error is outside of guards as before. -/
theorem Leads.outside (narrow : ρ.Narrow) (h : ρ.Leads u v) (heeds : ρ.Heeds b u)
    (outside : Outside ρ.source b u) (clean : v.failures.size ≤ u.failures.size) : Outside ρ.source b v :=
  fun g p k guard there => outside g p k guard <|
    (h.avoids narrow guard heeds.seated (heeds.sees g k guard.sign) (heeds.avoids g p k guard)).2 clean there

namespace Heeds

/-- What is remembered later is as good. -/
theorem resumed (h : ρ.Heeds b u) (h' : ρ.Heeds b v) : ρ.Heeds b (u.resumed v) where
  seated := h.seated.resumed h'.seated
  inside := h.inside
  table := ⟨h.table.behind, h.table.look, h'.table.memo⟩
  sees a k sign := ⟨(h.sees a k sign).behind, (h.sees a k sign).look, (h'.sees a k sign).memo⟩
  avoids := h'.avoids
  walls c k wall := ⟨(h.walls c k wall).behind, (h.walls c k wall).look, (h'.walls c k wall).memo⟩

/-- Any token may be passed that is no wall. -/
theorem passing (h : ρ.Heeds b u) (skipBlanks : Bool)
    (apart : ∀ c k, Wall ρ.source b c k → u.look.offset ≠ c.offset) :
    ρ.Heeds b (u.passing ρ.env skipBlanks) where
  seated := h.seated.passing skipBlanks
  inside := h.inside
  table := ⟨h.table.behind.trans (le_passing h.seated skipBlanks),
    (keywords_passing h.seated skipBlanks).trans h.table.look, h.table.memo⟩
  sees a k sign := by
    obtain ⟨behind, sees, memo⟩ := h.sees a k sign
    exact ⟨behind.trans (le_passing h.seated skipBlanks),
      sign.next h.seated.look skipBlanks sees.since sees.table, memo⟩
  avoids := h.avoids
  walls c k wall := by
    obtain ⟨behind, within, memo⟩ := h.walls c k wall
    exact ⟨behind.trans (le_passing h.seated skipBlanks),
      wall.next h.seated.look skipBlanks within (Nat.lt_of_le_of_ne within.2 (apart c k wall)), memo⟩

/-- What is seen where nothing goes on directly is a sign. -/
theorem sign (h : ρ.Heeds b u) (at' : u.look.At ρ.source a) (filled : a.rest ≠ []) (alone : ¬ Adjoined a) :
    Sign ρ.source b a u.look.token := by
  have since := h.table.behind
  rw [at'.offset] at since
  rcases Nat.lt_or_eq_of_le since with later | first
  · have sign : Sign ρ.source b a (a.shown b.table) :=
      ⟨at'.starts, filled, Lexeme.Shows.of_classify a.lexeme h.inside.known _, alone, fun _ => rfl,
        fun same => absurd same later.ne'⟩
    rwa [(h.sees a _ sign).look.token at'.offset]
  · obtain ⟨c, starts, offset, shows⟩ := h.inside.front
    obtain rfl := starts.eq_of_offset at'.starts (offset.trans first)
    have sign : Sign ρ.source b c b.token :=
      ⟨starts, filled, shows, alone, fun later => absurd first later.ne, fun _ => rfl⟩
    rwa [(h.sees c _ sign).look.token at'.offset]

/-- The word of a body that is passed is a guard of the word behind it. -/
theorem guard (h : ρ.Heeds b u) (outside : Outside ρ.source b u) (at' : u.look.At ρ.source a)
    (ifKw : u.look.token = .ifKw) (precedes : a.Precedes ρ.source p) (word : p.lexeme.kind = .ident) :
    Guard ρ.source b a p .ifKw where
  sign := ifKw ▸ h.sign at' (precedes.before.filled precedes.behind precedes.lt) (precedes.not_adjoined word)
  precedes := precedes
  word := word
  since := at'.offset ▸ h.table.behind
  bars := by
    refine .inr ⟨rfl, fun d before since dot => ?_⟩
    have name : a.lexeme.kind = .ident := at'.kind_of_word (by rw [ifKw]; decide)
    refine outside d a .dot ⟨sign_dot h.inside before name dot, before, name, since, .inl rfl⟩ ?_
    rw [at'.offset]
    exact ⟨before.lt, Nat.le_refl _⟩

end Heeds

/-! ## Bodies and rules -/

/-- Where a body is entered there is a significant token. -/
theorem Enters.significant (h : ρ.Enters u w) (seated : ρ.Seated u) :
    ∃ c, w.look.At ρ.source c ∧ c.Significant := by
  have passed {r : Reading} (there : ρ.Seated r) :
      ∃ c, (r.passing ρ.env true).look.At ρ.source c ∧ c.Significant := by
    obtain ⟨c, at', -⟩ := there.look
    obtain ⟨d, step⟩ := next_step ρ.env true at'
    exact ⟨d, step.at', step.blank rfl, step.solid⟩
  cases h with
  | step => exact passed seated
  | leap _ leads => exact passed ((seated.passing true).resumed (leads.seated (seated.passing true)))

/-- A body is not entered behind a wall. -/
theorem Enters.heeds (narrow : ρ.Narrow) (h : ρ.Enters u w) (heeds : ρ.Heeds b u)
    (outside : Outside ρ.source b u) : ρ.Heeds b w := by
  -- the word of a body is not the word of a clause, so the parser is not at the wall yet
  have apart (ifKw : u.look.token = .ifKw) (c : Cursor) (k : Token) (wall : Wall ρ.source b c k) :
      u.look.offset < c.offset :=
    wall.lt_of_token (heeds.walls c k wall).look (by rw [ifKw]; decide) (by rw [ifKw]; decide)
  cases h with
  | step ifKw => exact heeds.passing true fun c k wall => (apart ifKw c k wall).ne
  -- the body is skipped up to where its reading was given up, and one more token is passed there
  | leap ifKw leads =>
      have there := heeds.passing true fun c k wall => (apart ifKw c k wall).ne
      refine (there.resumed (leads.heeds narrow there)).passing true fun c k wall here => ?_
      -- the word of the body would stand right before the wall
      obtain ⟨a, at', -⟩ := heeds.seated.look
      have lt := apart ifKw c k wall
      rw [at'.offset] at lt
      have precedes := precedes_next at' true (at'.starts.filled wall.sign.starts lt) here wall.sign.starts
      exact wall.bare a .ifKw (heeds.guard outside at' ifKw precedes wall.word)

/-- Rules that are read without an error heed walls and guards. -/
theorem Treads.heeds (narrow : ρ.Narrow) (h : ρ.Treads u v) (heeds : ρ.Heeds b u)
    (outside : Outside ρ.source b u) (clean : v.failures.size ≤ u.failures.size) :
    ρ.Heeds b v ∧ Outside ρ.source b v := by
  induction h with
  | lead leads => exact ⟨leads.heeds narrow heeds, leads.outside narrow heeds outside clean⟩
  | @body u w v enters leads strides =>
      have entered := enters.heeds narrow heeds outside
      refine ⟨leads.heeds narrow entered, fun g p k guard there => ?_⟩
      have since := (leads.avoids narrow guard entered.seated (entered.sees g k guard.sign)
        (entered.avoids g p k guard)).2 (clean.trans enters.unbound.grows.1.size_le) there
      -- so the body starts with the word behind the guard, and is read beyond it
      obtain ⟨c, at', major⟩ := enters.significant heeds.seated
      rw [at'.offset] at since strides
      have reached : p.offset ≤ c.offset := by
        -- the gap between a guard and its word has no significant token in it
        by_contra before
        exact guard.precedes.gap c at'.starts since.1 (Nat.lt_of_not_le before) major
      exact absurd there.2 (Nat.not_le.2 (reached.trans_lt strides))
  | trans first second ih ih' =>
      have grows := first.unbound.grows.1.size_le
      have grows' := second.unbound.grows.1.size_le
      obtain ⟨heeds, outside⟩ := ih heeds outside (grows'.trans clean)
      exact ih' heeds outside (clean.trans grows)

/-- An attempt to read rules that leaves no error heeds walls. -/
theorem Lost.heeds (narrow : ρ.Narrow) (h : ρ.Lost u v) (heeds : ρ.Heeds b u)
    (outside : Outside ρ.source b u) (clean : v.failures.size ≤ u.failures.size) : ρ.Heeds b v := by
  cases h with
  | treads h => exact (h.heeds narrow heeds outside clean).1
  | within before enters leads =>
      have grows := (enters.unbound.trans leads.unbound).grows.1.size_le
      obtain ⟨heeds, outside⟩ := before.heeds narrow heeds outside (grows.trans clean)
      exact leads.heeds narrow (enters.heeds narrow heeds outside)

/-! ## From one place to the next -/

/-- Before a place there is nothing inside. -/
theorem outside_of (u : Reading) : Outside source (Post.of u.look) u :=
  fun _ _ _ guard there => absurd there.1 (Nat.not_lt.2 guard.since)

/-- Where nothing is remembered from, everything is heeded. -/
theorem Heeds.of_none (seated : ρ.Seated u) (none : ∀ e ∈ u.memo.entries, e.offset < u.look.offset) :
    ρ.Heeds (Post.of u.look) u where
  seated := seated
  inside := Post.of_in seated.look
  table := ⟨Nat.le_refl _, rfl, fun e he since => absurd since (Nat.not_le.2 (none e he))⟩
  sees _ _ sign := ⟨Nat.le_refl _, ⟨Nat.le_refl _, rfl, fun here => sign.first here.symm⟩,
    fun e he since => absurd since (Nat.not_le.2 (none e he))⟩
  avoids _ _ _ _ e he since := absurd since (Nat.not_le.2 (none e he))
  walls _ _ wall := ⟨Nat.le_refl _, ⟨⟨Nat.le_refl _, rfl, fun here => wall.sign.first here.symm⟩, wall.since⟩,
    fun e he since => absurd since (Nat.not_le.2 (none e he))⟩

/-- Where no reference goes on behind a token, there is no point and no bracket. -/
theorem not_adjoined_of_apart (at' : l.At ρ.source c)
    (apart : continuesRef (Parse.next ρ.env false l).look.token = false) : ¬ Adjoined c := by
  intro adjoined
  obtain ⟨d, step⟩ := next_step ρ.env false at'
  have solid : c.skip.lexeme.kind ≠ .comment := by rcases adjoined with kind | kind <;> rw [kind] <;> decide
  -- neither of the two is passed over, so the step would have come to rest there
  obtain rfl := step.rests solid fun skip => (by cases skip)
  obtain ⟨dot, lbrack⟩ := Bool.or_eq_false_iff.1 apart
  rcases adjoined with kind | kind
  · exact beq_eq_false_iff_ne.1 dot ((step.at'.shows.plain_iff rfl).2 kind)
  · exact beq_eq_false_iff_ne.1 lbrack ((step.at'.shows.plain_iff rfl).2 kind)

/-- Nothing is remembered from behind a word that starts a clause. -/
theorem Heeds.clause (heeds : ρ.Heeds (Post.of u.look) u)
    (clause : u.look.token = .importKw ∨ u.look.token = .packageKw)
    (apart : continuesRef (u.passing ρ.env false).look.token = false) :
    ∀ e ∈ u.memo.entries, e.offset ≤ u.look.offset := by
  obtain ⟨c, at', -⟩ := heeds.seated.look
  have name : c.lexeme.kind = .ident := at'.kind_of_word (by rcases clause with kw | kw <;> rw [kw] <;> decide)
  have filled : c.rest ≠ [] := fun none => by
    rw [Cursor.lexeme, none] at name
    cases name
  have wall : Wall ρ.source (Post.of u.look) c u.look.token :=
    -- the word stands alone, so all parsers from here on see it as it is
    { sign := heeds.sign at' filled (not_adjoined_of_apart at' apart)
      since := at'.offset.le
      word := name
      bars := clause
      bare := fun g k' guard => absurd guard.precedes.lt (Nat.not_lt.2 (at'.offset ▸ guard.since)) }
  intro e he
  by_contra beyond
  have since := (Nat.lt_of_not_le beyond).le
  have le := ((heeds.walls c _ wall).memo e he since).2
  rw [← at'.offset] at le
  exact beyond ((heeds.seated.memo e he).ahead.trans le)

section onward

variable (heeds : ρ.Heeds b u) (outside : Outside ρ.source b u) (later : b.offset < u.look.offset)

include heeds later

/-- A sign from a place on is one from an earlier place on. -/
theorem Sign.earlier (sign : Sign ρ.source (Post.of u.look) a k) (since : u.look.offset ≤ a.offset) :
    Sign ρ.source b a k where
  starts := sign.starts
  filled := sign.filled
  shows := sign.shows
  alone := sign.alone
  shown _ := by
    -- behind the later place the table has stayed; at the place itself the sign is what the parser sees
    rcases Nat.lt_or_eq_of_le since with before | here
    · rw [← sign.shown before]
      exact congrArg a.shown heeds.table.look.symm
    · have shown : Sign ρ.source b a (a.shown b.table) :=
        ⟨sign.starts, sign.filled, Lexeme.Shows.of_classify a.lexeme heeds.inside.known _, sign.alone,
          fun _ => rfl, fun same => absurd (same ▸ here) later.ne'⟩
      rw [← (heeds.sees a _ shown).look.token here]
      exact sign.first here.symm
  first same := absurd (since.trans same.le) (Nat.not_le.2 later)

include outside

/-- A guard from a place on is one from an earlier place on. -/
theorem Guard.earlier (guard : Guard ρ.source (Post.of u.look) g p k) : Guard ρ.source b g p k where
  sign := guard.sign.earlier heeds later guard.since
  precedes := guard.precedes
  word := guard.word
  since := later.le.trans guard.since
  bars := guard.bars.imp_right fun ⟨ifKw, bare⟩ => by
    refine ⟨ifKw, fun d precedes since dot => ?_⟩
    have name : g.lexeme.kind = .ident := (guard.sign.shows.word (by rw [ifKw]; decide)).1
    rcases Nat.lt_or_ge d.offset u.look.offset with before | there
    · exact outside d g .dot ⟨sign_dot heeds.inside precedes name dot, precedes, name, since, .inl rfl⟩
        ⟨before, guard.since⟩
    · exact bare d precedes there dot

/-- A wall from a place on is one from an earlier place on. -/
theorem Wall.earlier (wall : Wall ρ.source (Post.of u.look) c k) : Wall ρ.source b c k where
  sign := wall.sign.earlier heeds later wall.since
  since := later.le.trans wall.since
  word := wall.word
  bars := wall.bars
  bare g k' guard := by
    -- a guard before the later place would have the parser inside, which it is not
    rcases Nat.lt_or_ge g.offset u.look.offset with before | there
    · exact outside g c k' guard ⟨before, wall.since⟩
    · refine wall.bare g k' ⟨⟨guard.sign.starts, guard.sign.filled, guard.sign.shows, guard.sign.alone,
        fun ahead => ?_, fun here => ?_⟩, guard.precedes, guard.word, there,
        guard.bars.imp_right fun ⟨ifKw, bare⟩ => ⟨ifKw, fun d precedes since =>
          bare d precedes (later.le.trans since)⟩⟩
      · rw [← guard.sign.shown (later.trans ahead)]
        exact congrArg g.shown heeds.table.look
      · exact (heeds.sees g k' guard.sign).look.token here.symm

/-- What was heeded from a place on is heeded from a later one on. -/
theorem Heeds.onward : ρ.Heeds (Post.of u.look) u := by
  have table (l : Look) (holds : l.scanner.keywords = b.table) :
      l.scanner.keywords = (Post.of u.look).table := holds.trans heeds.table.look.symm
  have sees {a : Cursor} {k : Token} {l : Look} (sees : Sees b a k l) (since : u.look.offset ≤ l.offset) :
      Sees (Post.of u.look) a k l := ⟨since, table l sees.table, sees.token⟩
  have after (e : MemoEntry) (he : e ∈ u.memo.entries) (since : u.look.offset ≤ e.offset) :
      u.look.offset ≤ e.after.offset := since.trans (heeds.seated.memo e he).ahead
  refine ⟨heeds.seated, Post.of_in heeds.seated.look, ⟨Nat.le_refl _, rfl, fun e he since =>
    table _ (heeds.table.memo e he (later.le.trans since))⟩, fun a k sign => ?_, fun g p k guard e he since =>
      heeds.avoids g p k (guard.earlier heeds outside later) e he (later.le.trans since), fun c k wall => ?_⟩
  -- of a sign that lies behind the parser nothing is left to be shown
  · rcases Nat.lt_or_ge a.offset u.look.offset with behind | ahead
    · exact ⟨Nat.le_refl _, ⟨Nat.le_refl _, rfl, fun here => absurd here behind.ne'⟩, fun e he since =>
        ⟨after e he since, table _ (heeds.table.memo e he (later.le.trans since)), fun here =>
          absurd (here ▸ after e he since) (Nat.not_le.2 behind)⟩⟩
    · have holds := heeds.sees a k (sign.earlier heeds later ahead)
      exact ⟨Nat.le_refl _, sees holds.look (Nat.le_refl _), fun e he since =>
        sees (holds.memo e he (later.le.trans since)) (after e he since)⟩
  · have holds := heeds.walls c k (wall.earlier heeds outside later)
    exact ⟨Nat.le_refl _, ⟨sees holds.look.1 (Nat.le_refl _), holds.look.2⟩, fun e he since =>
      have there := holds.memo e he (later.le.trans since)
      ⟨sees there.1 (after e he since), there.2⟩⟩

end onward

end Route

end RegoSyntax
