/-
# RegoSyntax.Proofs.Moves.Clearance — where it makes no difference that words may stand in references.

A task whose capabilities admit keywords in references reads a reserved word as an identifier in two places:
right before a point or a bracket, and right behind a point.  A strict task reads it as what it is.  So the two
go the same way as long as no reserved word is in such a place (`KeywordTable.Apart`,
`KeywordTable.NoSegment`).

Only what is ahead of the next import clause counts, because no move passes the word that starts one
(`Look.Bounded`); what the words behind it are reserved for is not known before the clause has been read.  A
reading is clear if a strict task would go on from it like any other (`Route.Clear`), and moves lead from clear
readings to clear ones.
-/
import RegoSyntax.Proofs.Moves
import RegoSyntax.Proofs.Tables

namespace RegoSyntax

open Parse
open Course (Adjoined)

/-! ## Words -/

namespace KeywordTable

/-- A table that reserves the words that every dialect reserves. -/
def Based (t : KeywordTable) : Prop := ∀ word, base.contains word = true → t.contains word = true

theorem Based.base : base.Based := fun _ => id

theorem Based.extend {t : KeywordTable} (based : t.Based) (u : KeywordTable) : (t.extend u).Based :=
  fun word held => t.contains_extend u (based word held)

theorem contains_removeAll {t u : KeywordTable} {word : String} (h : (t.removeAll u).contains word = true) :
    t.contains word = true := by
  rw [contains, get?_removeAll] at h
  split at h
  · cases h
  · exact h

/-- The words that every dialect reserves are not words of the future. -/
theorem Based.removeAll {t : KeywordTable} (based : t.Based) : (t.removeAll .future).Based :=
  fun word held => by
  have other : ∀ e ∈ KeywordTable.base.entries, KeywordTable.future.contains e.1 = false := by decide +kernel
  obtain ⟨kind, found⟩ := Option.isSome_iff_exists.1 held
  rw [contains, get?_removeAll, other _ (mem_of_get? found)]
  exact based word held

/-- What starts an import clause is reserved for nothing else. -/
theorem get?_import {t : KeywordTable} (known : t.Known) (based : t.Based) :
    t.get? "import" = some .importKw := by
  have only : ∀ e ∈ baseWords ++ futureWords, e.1 = "import" → e.2 = .importKw := by decide +kernel
  obtain ⟨kind, found⟩ := Option.isSome_iff_exists.1 (based "import" (by decide +kernel))
  exact found.trans (congrArg some (only _ (known.get? found) rfl))

end KeywordTable

namespace Cursor

variable {source : String} {c d : Cursor} {t : KeywordTable} {n : Nat}

theorem significant_of_ident (word : c.lexeme.kind = .ident) : c.Significant :=
  ⟨by rw [word]; decide, by rw [word]; decide⟩

theorem filled_of_ident (word : c.lexeme.kind = .ident) : c.rest ≠ [] := fun none => by
  rw [Cursor.lexeme, none] at word
  cases word

/-- What a word is taken for. -/
theorem shown_of_ident (word : c.lexeme.kind = .ident) (t : KeywordTable) :
    c.shown t = (t.get? c.word).getD .ident := by
  have legal : c.lexeme.faults = [] := by
    by_contra faulty
    rcases Lexeme.kind_of_faults faulty with other | other | other <;>
      exact absurd (word.symm.trans other) (by decide)
  rw [Cursor.shown, legal, word]
  rfl

/-- No word starts where a word ends. -/
theorem skip_not_ident (word : c.lexeme.kind = .ident) : c.skip.lexeme.kind ≠ .ident := by
  obtain ⟨x, s, rest, letter⟩ := Lexeme.letter_of_ident word
  intro behind
  obtain ⟨y, s', rest', letter'⟩ := Lexeme.letter_of_ident behind
  have blank : Lexeme.isBlank x ≠ true := by
    intro blank
    rw [Cursor.lexeme, rest, Lexeme.next, if_pos blank] at word
    cases word
  have size : c.lexeme.size = 1 + Lexeme.run Lexeme.isWordChar s := by
    rw [Cursor.lexeme, rest, Lexeme.next, if_neg blank, if_pos letter]
  have left : s.dropWhile Lexeme.isWordChar = y :: s' := by
    rw [← rest', skip, advanceBy_rest, size, rest, Nat.add_comm, List.drop_succ_cons, Lexeme.run]
    conv_rhs => arg 2; rw [← List.takeWhile_append_dropWhile (p := Lexeme.isWordChar) (l := s)]
    exact List.drop_left.symm
  have stopped := List.head?_dropWhile_not Lexeme.isWordChar s
  rw [left] at stopped
  simp [Lexeme.isWordChar, letter'] at stopped

/-- A word that a table reserves. -/
def IsReserved (t : KeywordTable) (c : Cursor) : Prop :=
  c.lexeme.kind = .ident ∧ t.contains c.word = true

/-- The word that starts an import clause. -/
def IsImport (c : Cursor) : Prop := c.lexeme.kind = .ident ∧ c.word = "import"

theorem IsImport.shown (h : c.IsImport) (known : t.Known) (based : t.Based) : c.shown t = .importKw := by
  rw [shown_of_ident h.1, h.2, t.get?_import known based]
  rfl

/-- No import clause starts between an offset and a token. -/
def Within (source : String) (n : Nat) (c : Cursor) : Prop :=
  ∀ m : Cursor, m.Starts source → m.IsImport → n ≤ m.offset → c.offset ≤ m.offset

end Cursor

namespace KeywordTable

/-- From an offset on, as far as the next import clause, no word of a table stands right before a point or a
bracket, and none that starts a body stands before the clause itself, or before a point with a word behind it. -/
structure Apart (t : KeywordTable) (source : String) (n : Nat) : Prop where
  fronts : ∀ c : Cursor, c.Starts source → n ≤ c.offset → c.Within source n → c.IsReserved t → ¬ Adjoined c
  bodies : ∀ c d : Cursor, c.Precedes source d → n ≤ c.offset → c.Within source n → c.IsReserved t →
    c.word = Token.ifKw.name → ¬ d.IsImport ∧ (d.lexeme.kind = .dot → ¬ d.skip.IsReserved t)

/-- From an offset on, as far as the next import clause, no word of a table stands right behind a point. -/
def NoSegment (t : KeywordTable) (source : String) (n : Nat) : Prop :=
  ∀ c : Cursor, c.Starts source → n ≤ c.offset → c.Within source n → c.lexeme.kind = .dot → ¬ c.skip.IsReserved t

end KeywordTable

/-! ## What is seen -/

/-- A word of the future is taken for itself only where it is reserved. -/
def Look.Backed (l : Look) : Prop :=
  l.token.isFutureKeyword = true → l.scanner.keywords.contains l.token.name = true

/-- What is looked up in a table is reserved there. -/
theorem Look.Backed.of_shown {source : String} {l : Look} {c : Cursor} (at' : l.At source c)
    (shown : l.token = c.shown l.scanner.keywords) : l.Backed := fun future => by
  have kind := at'.kind_of_word (.inr (.inr future))
  have name : c.word = l.token.name := at'.word (.inr future)
  rw [Cursor.shown_of_ident kind] at shown
  rw [← name, KeywordTable.contains]
  rcases found : l.scanner.keywords.get? c.word with _ | other
  · rw [found] at shown
    rw [shown] at future
    cases future
  · rfl

/-- What is seen with a table of words, no further than the next import clause from an offset on. -/
structure Look.Bounded (source : String) (n : Nat) (t : KeywordTable) (l : Look) : Prop where
  table : l.scanner.keywords = t
  backed : l.Backed
  within : ∀ m : Cursor, m.Starts source → m.IsImport → n ≤ m.offset → l.offset ≤ m.offset
  clause : ∀ m : Cursor, m.Starts source → m.IsImport → l.offset = m.offset → l.token = .importKw

namespace KeywordTable

variable {source : String} {t u : KeywordTable} {n k : Nat}

/-- Where no import clause starts in between, less is ahead of a later offset. -/
theorem Apart.since (h : t.Apart source n) (le : n ≤ k)
    (none : ∀ m : Cursor, m.Starts source → m.IsImport → n ≤ m.offset → k ≤ m.offset) : t.Apart source k where
  fronts c starts ahead within := h.fronts c starts (le.trans ahead) fun m begins clause since =>
    within m begins clause (none m begins clause since)
  bodies c d precedes ahead within := h.bodies c d precedes (le.trans ahead) fun m begins clause since =>
    within m begins clause (none m begins clause since)

theorem NoSegment.mono (h : u.NoSegment source n) (more : ∀ word, t.contains word = true → u.contains word = true) :
    t.NoSegment source n :=
  fun c starts ahead within dot word => h c starts ahead within dot ⟨word.1, more _ word.2⟩

end KeywordTable

/-- What is seen from a later offset on. -/
theorem Look.Bounded.since {source : String} {n k : Nat} {t : KeywordTable} {l : Look}
    (h : l.Bounded source n t) (le : n ≤ k) : l.Bounded source k t :=
  { h with within := fun m starts clause since => h.within m starts clause (le.trans since) }

/-- A word that is taken for a keyword is reserved. -/
theorem Look.Bounded.reserved {source : String} {n : Nat} {t : KeywordTable} {l : Look} {c : Cursor}
    (h : l.Bounded source n t) (based : t.Based) (at' : l.At source c)
    (word : l.token.isKeyword ∨ l.token.isFutureKeyword) : c.IsReserved t := by
  refine ⟨at'.kind_of_word (.inr word), ?_⟩
  have text : c.word = l.token.name := at'.word word
  rw [text]
  rcases word with keyword | future
  · refine based _ ?_
    revert keyword
    cases l.token <;> decide +kernel
  · exact h.table ▸ h.backed future

namespace Route

variable {ρ : Route} {a c d p : Cursor} {l : Look} {r s t u v w : Reading} {n : Nat} {τ : KeywordTable}

theorem keywords_next (h : l.Ok ρ.source) (b : Bool) :
    (Parse.next ρ.env b l).look.scanner.keywords = l.scanner.keywords := by
  obtain ⟨c, at', -⟩ := h
  obtain ⟨d, step⟩ := next_step ρ.env b at'
  exact step.keywords

/-- The next token is not before where this one ends. -/
theorem skip_le_next (at' : l.At ρ.source c) (b : Bool) :
    c.skip.offset ≤ (Parse.next ρ.env b l).look.offset := by
  obtain ⟨d, step⟩ := next_step ρ.env b at'
  rw [step.at'.offset]
  exact step.ahead

/-- A token does not get past a significant one. -/
theorem next_le (ok : l.Ok ρ.source) (b : Bool) (starts : p.Starts ρ.source) (major : p.Significant)
    (lt : l.offset < p.offset) : (Parse.next ρ.env b l).look.offset ≤ p.offset := by
  obtain ⟨c, at', -⟩ := ok
  obtain ⟨d, step⟩ := next_step ρ.env b at'
  rw [at'.offset] at lt
  rw [step.at'.offset]
  by_contra past
  exact step.gap p starts lt (Nat.lt_of_not_le past) major

/-- From one word to the next significant one. -/
theorem precedes_next (at' : l.At ρ.source a) (b : Bool) (filled : a.rest ≠ [])
    (here : (Parse.next ρ.env b l).look.offset = p.offset) (starts : p.Starts ρ.source) :
    a.Precedes ρ.source p := by
  obtain ⟨d, step⟩ := next_step ρ.env b at'
  obtain rfl := step.at'.starts.eq_of_offset starts (step.at'.offset.symm.trans here)
  exact ⟨at'.starts, starts, (Cursor.offset_lt_skip filled).trans_le step.ahead, step.gap⟩

/-- What a parser takes for a word of the future behind a token is reserved. -/
theorem backed_next (h : l.Ok ρ.source) (b : Bool) : (Parse.next ρ.env b l).look.Backed := by
  obtain ⟨c, at', -⟩ := h
  obtain ⟨d, step⟩ := next_step ρ.env b at'
  exact .of_shown step.at' step.exact

/-- Where an import clause starts its word is seen. -/
theorem clause_next (ok : l.Ok ρ.source) (b : Bool) (based : l.scanner.keywords.Based) (m : Cursor)
    (starts : m.Starts ρ.source) (clause : m.IsImport)
    (here : (Parse.next ρ.env b l).look.offset = m.offset) :
    (Parse.next ρ.env b l).look.token = .importKw := by
  obtain ⟨c, at', -⟩ := ok
  obtain ⟨d, step⟩ := next_step ρ.env b at'
  obtain rfl := step.at'.starts.eq_of_offset starts (step.at'.offset.symm.trans here)
  rw [step.exact]
  exact clause.shown step.at'.known (step.keywords ▸ based)

/-- Past any token but the word of an import clause nothing is seen beyond the next one. -/
theorem bounded_next (based : τ.Based) (ok : l.Ok ρ.source) (b : Bool) (h : l.Bounded ρ.source n τ)
    (other : l.token ≠ .importKw) : (Parse.next ρ.env b l).look.Bounded ρ.source n τ where
  table := (keywords_next ok b).trans h.table
  backed := backed_next ok b
  within m starts clause since := by
    refine next_le ok b starts (Cursor.significant_of_ident clause.1) ?_
    exact Nat.lt_of_le_of_ne (h.within m starts clause since) fun here =>
      other (h.clause m starts clause here)
  clause := clause_next ok b (h.table ▸ based)

/-- Right behind a word there is none. -/
theorem next_not_word (ok : l.Ok ρ.source)
    (word : l.token = .ident ∨ l.token.isKeyword ∨ l.token.isFutureKeyword) :
    ¬ ((Parse.next ρ.env false l).look.token = .ident ∨ (Parse.next ρ.env false l).look.token.isKeyword ∨
      (Parse.next ρ.env false l).look.token.isFutureKeyword) := by
  obtain ⟨c, at', -⟩ := ok
  obtain ⟨d, step⟩ := next_step ρ.env false at'
  intro behind
  have kind := step.at'.kind_of_word behind
  rcases step.tight rfl with rfl | blank | ended
  · exact Cursor.skip_not_ident (at'.kind_of_word word) kind
  · rw [kind] at blank
    cases blank
  · rw [kind] at ended
    cases ended

/-- A route along which only tokens are passed that the parts of a query may pass. -/
def Narrow (ρ : Route) : Prop := ∀ k, ρ.free k → k.isPassable = true

/-- Moves of a strict task do not pass the word of an import clause. -/
theorem stable_bounded (narrow : ρ.Narrow) (strict : ρ.env.Strict) (based : τ.Based) :
    ρ.Stable (Look.Bounded ρ.source n τ) where
  pass b ok bounded free := bounded_next based ok b bounded fun clause => by
    have passable := narrow _ free
    rw [clause] at passable
    cases passable
  point b ok bounded dot := bounded_next based ok b bounded (by rw [dot]; decide)
  segment ok bounded dot name := by
    refine bounded_next based (ok_next ok false).1 false
      (bounded_next based ok false bounded (by rw [dot]; decide)) ?_
    rcases name with ident | allowed
    · rw [ident]
      decide
    · rw [strict.refuses] at allowed
      cases allowed
  hints _ bounded := { bounded with }
  ident _ _ allowed _ := by
    rw [strict.refuses] at allowed
    cases allowed

/-! ## Clear readings -/

/-- A reading from which words are apart from what is behind them, as far as the next import clause. -/
structure Spaced (ρ : Route) (n : Nat) (τ : KeywordTable) (u : Reading) : Prop where
  narrow : ρ.Narrow
  based : τ.Based
  apart : τ.Apart ρ.source n
  bounded : Holds (Look.Bounded ρ.source n τ) n u

/-- A reading from which a strict task goes on like any other one. -/
def Clear (ρ : Route) (u : Reading) : Prop :=
  ρ.env.Strict → ∃ n τ, ρ.Spaced n τ u ∧ τ.NoSegment ρ.source n

/-- Where words are looked for that should have been imported, every reading is clear. -/
theorem clear_of_suggests (suggests : ρ.env.suggestImports = true) : ρ.Clear u := fun strict => by
  rw [strict.suggest] at suggests
  cases suggests

theorem Leads.spaced (h : ρ.Leads u v) (seated : ρ.Seated u) (strict : ρ.env.Strict)
    (spaced : ρ.Spaced n τ u) : ρ.Spaced n τ v :=
  { spaced with
    bounded := h.stable (stable_bounded spaced.narrow strict spaced.based) seated spaced.bounded }

/-- Where a strict task leads from clear readings to clear ones. -/
theorem Clear.onward (clear : ρ.Clear u)
    (spaced : ∀ n τ, ρ.env.Strict → ρ.Spaced n τ u → ρ.Spaced n τ v) : ρ.Clear v := fun strict => by
  obtain ⟨n, τ, here, noSegment⟩ := clear strict
  exact ⟨n, τ, spaced n τ strict here, noSegment⟩

namespace Spaced

/-- Where a parser stands, no import clause is behind the offset. -/
theorem inside (h : ρ.Spaced n τ u) (at' : u.look.At ρ.source c) :
    n ≤ c.offset ∧ c.Within ρ.source n := by
  rw [← at'.offset]
  refine ⟨h.bounded.behind, fun m starts clause since => ?_⟩
  rw [← at'.offset]
  exact h.bounded.look.within m starts clause since

/-- What is remembered later is as good. -/
theorem resumed (h : ρ.Spaced n τ u) (h' : ρ.Spaced n τ v) : ρ.Spaced n τ (u.resumed v) :=
  { h with bounded := ⟨h.bounded.behind, h.bounded.look, h'.bounded.memo⟩ }

/-- Any token may be passed but the word of an import clause. -/
theorem passing (h : ρ.Spaced n τ u) (seated : ρ.Seated u) (b : Bool) (other : u.look.token ≠ .importKw) :
    ρ.Spaced n τ (u.passing ρ.env b) :=
  { h with
    bounded := ⟨h.bounded.behind.trans (le_passing seated b),
      bounded_next h.based seated.look b h.bounded.look other, h.bounded.memo⟩ }

/-- Behind a token that was gone on to, where nothing is remembered from. -/
theorem of_next (narrow : ρ.Narrow) (seated : ρ.Seated u) (b : Bool) (based : u.look.scanner.keywords.Based)
    (apart : u.look.scanner.keywords.Apart ρ.source (u.passing ρ.env b).look.offset)
    (none : ∀ e ∈ u.memo.entries, e.offset < (u.passing ρ.env b).look.offset) :
    ρ.Spaced (u.passing ρ.env b).look.offset u.look.scanner.keywords (u.passing ρ.env b) where
  narrow := narrow
  based := based
  apart := apart
  bounded := ⟨Nat.le_refl _,
    ⟨keywords_next seated.look b, backed_next seated.look b, fun _ _ _ => id, clause_next seated.look b based⟩,
    fun e he since => absurd since (Nat.not_le.2 (none e he))⟩

/-- Behind the word of a body there is no import clause, and no point with a word behind it. -/
theorem body_apart (h : ρ.Spaced n τ u) (seated : ρ.Seated u) (ifKw : u.look.token = .ifKw) (b : Bool)
    (at' : (Parse.next ρ.env b u.look).look.At ρ.source d) :
    ¬ d.IsImport ∧ (d.lexeme.kind = .dot → ¬ d.skip.IsReserved τ) := by
  obtain ⟨c, here, -⟩ := seated.look
  have reserved := h.bounded.look.reserved h.based here (by rw [ifKw]; decide)
  have word : c.word = u.look.token.name := here.word (by rw [ifKw]; decide)
  obtain ⟨since, within⟩ := h.inside here
  have precedes := precedes_next here b (Cursor.filled_of_ident reserved.1) at'.offset at'.starts
  exact h.apart.bodies c d precedes since within reserved (ifKw ▸ word)

/-- Behind the word of a body no import clause starts. -/
theorem body_other (h : ρ.Spaced n τ u) (seated : ρ.Seated u) (ifKw : u.look.token = .ifKw) (b : Bool) :
    (u.passing ρ.env b).look.token ≠ .importKw := by
  intro clause
  rw [Reading.passing_look] at clause
  obtain ⟨d, at', -⟩ := (ok_next seated.look b).1
  have name : d.word = (Parse.next ρ.env b u.look).look.token.name := at'.word (by rw [clause]; decide)
  refine (h.body_apart seated ifKw b at').1 ⟨at'.kind_of_word (by rw [clause]; decide), ?_⟩
  rw [name, clause]
  decide +kernel

/-- Before a point or a bracket there is no keyword. -/
theorem refuses_continued (h : ρ.Spaced n τ u) (seated : ρ.Seated u) (env : Env)
    (continues : continuesRef (Parse.next ρ.env false u.look).look.token = true) :
    env.allowsInRefs u.look.scanner.keywords u.look.token.name = false := by
  obtain ⟨c, at', -⟩ := seated.look
  rw [Bool.eq_false_iff]
  intro allowed
  have word := Env.word_of_allowsInRefs at'.known allowed
  obtain ⟨since, within⟩ := h.inside at'
  exact h.apart.fronts c at'.starts since within (h.bounded.look.reserved h.based at' word)
    (Course.Reads.adjoined_of_peek at' continues)

/-- Behind a point there is no keyword. -/
theorem refuses_segment (h : ρ.Spaced n τ u) (noSegment : τ.NoSegment ρ.source n) (seated : ρ.Seated u)
    (env : Env) (dot : u.look.token = .dot) :
    env.allowsInRefs (Parse.next ρ.env false u.look).look.scanner.keywords
      (Parse.next ρ.env false u.look).look.token.name = false := by
  have bounded := bounded_next h.based seated.look false h.bounded.look (by rw [dot]; decide)
  obtain ⟨c, at', solid⟩ := seated.look
  obtain ⟨d, step⟩ := next_step ρ.env false at'
  rw [Bool.eq_false_iff]
  intro allowed
  have reserved := bounded.reserved h.based step.at' (Env.word_of_allowsInRefs step.at'.known allowed)
  have next : d = c.skip := by
    rcases step.tight rfl with next | blank | ended
    · exact next
    · rw [reserved.1] at blank
      cases blank
    · rw [reserved.1] at ended
      cases ended
  obtain ⟨since, within⟩ := h.inside at'
  exact noSegment c at'.starts since within ((at'.shows.plain_iff rfl).1 dot) (next ▸ reserved)

end Spaced

/-- What may stand in a reference is the same for both tasks, where there is nothing for a strict one to
refuse. -/
theorem Clear.allowsInRefs (clear : ρ.Clear u) {keywords : KeywordTable} {word : String}
    (refuses : ∀ n τ, ρ.Spaced n τ u → τ.NoSegment ρ.source n → ρ.other.allowsInRefs keywords word = false) :
    ρ.other.allowsInRefs keywords word = ρ.env.allowsInRefs keywords word := by
  rcases ρ.alike.refs with same | strict
  · rw [Env.allowsInRefs, Env.allowsInRefs, same, ρ.alike.version]
  · obtain ⟨n, τ, spaced, noSegment⟩ := clear strict
    rw [refuses n τ spaced noSegment, strict.refuses]

end Route

end RegoSyntax
