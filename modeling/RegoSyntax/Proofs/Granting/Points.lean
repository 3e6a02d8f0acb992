/-
# RegoSyntax.Proofs.Granting.Points — points that a strict task does not get past without an error.

A reference goes on behind a point with a name, and to a strict task a word that is reserved is none.  So where
such a word stands right behind a point, the point is a barrier: no reading that leaves no error leads past it,
be it taken up again or not (`Route.Leads.stops`).  A body that is entered behind whatever stands there could
lead past it, so the word of a body has to stand apart from barriers.

This is why a source that a strict task reads to the end has no such points between its import clauses.
-/
import RegoSyntax.Proofs.History

namespace RegoSyntax

open Parse

/-- A point with a word behind it that is reserved. -/
structure Barrier (source : String) (τ : KeywordTable) (d : Cursor) : Prop where
  starts : d.Starts source
  dot : d.lexeme.kind = .dot
  word : d.skip.IsReserved τ

/-- What is remembered to have been read without an error has not been read past a barrier. -/
def Memo.Halts (source : String) (m : Memo) : Prop :=
  ∀ e ∈ m.entries, e.failures = #[] → ∀ d, Barrier source e.after.scanner.keywords d →
    e.offset ≤ d.offset → e.after.offset ≤ d.offset

theorem KeywordTable.noSegment_of {source : String} {τ : KeywordTable} {n : Nat}
    (none : ∀ d, Barrier source τ d → n ≤ d.offset → ¬ d.Within source n) : τ.NoSegment source n :=
  fun c starts since within dot word => none c ⟨starts, dot, word⟩ since within

namespace Barrier

variable {ρ : Route} {c d : Cursor} {l : Look} {u : Reading} {source : String} {τ σ : KeywordTable}

theorem mono (h : Barrier source τ d) (more : ∀ word, τ.contains word = true → σ.contains word = true) :
    Barrier source σ d := ⟨h.starts, h.dot, h.word.1, more _ h.word.2⟩

theorem significant (h : Barrier source τ d) : d.Significant :=
  ⟨by rw [h.dot]; decide, by rw [h.dot]; decide⟩

/-- At a barrier a point is seen. -/
theorem token (h : Barrier source τ d) (ok : l.Ok source) (here : l.offset = d.offset) : l.token = .dot := by
  obtain ⟨c, at', -⟩ := ok
  obtain rfl := at'.starts.eq_of_offset h.starts (at'.offset.symm.trans here)
  exact (at'.shows.plain_iff rfl).2 h.dot

/-- Where another token is seen, the next one is at a barrier at most. -/
theorem next_le (h : Barrier ρ.source τ d) (ok : l.Ok ρ.source) (b : Bool) (other : l.token ≠ .dot)
    (le : l.offset ≤ d.offset) : (Parse.next ρ.env b l).look.offset ≤ d.offset :=
  Route.next_le ok b h.starts h.significant (Nat.lt_of_le_of_ne le fun here => other (h.token ok here))

/-- Behind a barrier a keyword is seen. -/
theorem next_word (h : Barrier ρ.source l.scanner.keywords d) (ok : l.Ok ρ.source) (b : Bool)
    (here : l.offset = d.offset) : (Parse.next ρ.env b l).look.token.isKeyword ∨
      (Parse.next ρ.env b l).look.token.isFutureKeyword := by
  obtain ⟨c, at', -⟩ := ok
  obtain rfl := at'.starts.eq_of_offset h.starts (at'.offset.symm.trans here)
  obtain ⟨c', step⟩ := next_step ρ.env b at'
  have kind := h.word.1
  obtain rfl := step.rests (by rw [kind]; decide) fun _ => by rw [kind]; decide
  obtain ⟨k, found⟩ := Option.isSome_iff_exists.1 h.word.2
  rw [step.exact, Cursor.shown_of_ident kind, step.keywords, found]
  exact KeywordTable.isKeyword_of_mem (at'.known.get? found)

/-- Digits do not stand behind a barrier. -/
theorem point_le (h : Barrier ρ.source l.scanner.keywords d) (ok : l.Ok ρ.source)
    (digits : (Parse.next ρ.env true l).look.token = .number) (le : l.offset ≤ d.offset) :
    (Parse.next ρ.env true l).look.offset ≤ d.offset := by
  rcases Nat.lt_or_eq_of_le le with lt | here
  · exact Route.next_le ok true h.starts h.significant lt
  · have word := h.next_word ok true here
    rw [digits] at word
    rcases word with word | word <;> cases word

/-- A name does not stand behind a barrier. -/
theorem segment_le (h : Barrier ρ.source l.scanner.keywords d) (ok : l.Ok ρ.source)
    (name : (Parse.next ρ.env false l).look.token = .ident) (le : l.offset ≤ d.offset) :
    (Parse.next ρ.env false (Parse.next ρ.env false l).look).look.offset ≤ d.offset := by
  rcases Nat.lt_or_eq_of_le le with lt | here
  · have reached := Route.next_le ok false h.starts h.significant lt
    exact h.next_le (Route.ok_next ok false).1 false (by rw [name]; decide) reached
  · have word := h.next_word ok false here
    rw [name] at word
    rcases word with word | word <;> cases word

end Barrier

namespace Route

variable {ρ : Route} {d : Cursor} {r s t u v w x : Reading} {n : Nat} {τ : KeywordTable}

/-- A token adds errors at most. -/
theorem passing_grows (u : Reading) (b : Bool) : Grows u.failures (u.passing ρ.env b).failures := ⟨_, rfl⟩

/-- No step without an error leads past a barrier. -/
structure Stops (ρ : Route) (τ : KeywordTable) (u v : Reading) : Prop where
  size_le : u.failures.size ≤ v.failures.size
  le : v.failures.size ≤ u.failures.size → ∀ d, Barrier ρ.source τ d → u.look.offset ≤ d.offset →
    v.look.offset ≤ d.offset

namespace Stops

theorem refl (u : Reading) : ρ.Stops τ u u := ⟨Nat.le_refl _, fun _ _ _ => id⟩

theorem trans (first : ρ.Stops τ u v) (second : ρ.Stops τ v t) : ρ.Stops τ u t where
  size_le := first.size_le.trans second.size_le
  le clean d barrier le := second.le (clean.trans first.size_le) d barrier <|
    first.le (second.size_le.trans clean) d barrier le

/-- Any token may be passed but a point. -/
theorem passing (seated : ρ.Seated u) (b : Bool) (other : u.look.token ≠ .dot) :
    ρ.Stops τ u (u.passing ρ.env b) where
  size_le := (passing_grows u b).size_le
  le _ _ barrier le := barrier.next_le seated.look b other le

/-- What has come to an error is not followed further. -/
theorem of_lt (lt : u.failures.size < v.failures.size) : ρ.Stops τ u v :=
  ⟨lt.le, fun clean => absurd clean (Nat.not_le.2 lt)⟩

/-- Where the parser has not moved. -/
theorem of_offset (size_le : u.failures.size ≤ v.failures.size) (same : v.look.offset = u.look.offset) :
    ρ.Stops τ u v := ⟨size_le, fun _ _ _ le => same ▸ le⟩

end Stops

/-- Moves of a strict task stop at barriers, and so does what is remembered of them. -/
theorem Leads.stops (narrow : ρ.Narrow) (strict : ρ.env.Strict) (h : ρ.Leads u v) (seated : ρ.Seated u)
    (reserves : Reserves τ n u) (halts : u.memo.Halts ρ.source) :
    v.memo.Halts ρ.source ∧ ρ.Stops τ u v := by
  -- on the moves; only those over a point or over a segment can come upon a barrier
  induction h with
  | refl => exact ⟨halts, .refl _⟩
  | trans first _ ih ih' =>
      obtain ⟨halts, stops⟩ := ih seated reserves halts
      obtain ⟨halts, stops'⟩ := ih' (first.seated seated) (first.reserves seated reserves) halts
      exact ⟨halts, stops.trans stops'⟩
  | pass b free =>
      rw [Reading.passing_memo]
      refine ⟨halts, .passing seated b fun dot => ?_⟩
      have passable := narrow _ free
      rw [dot] at passable
      cases passable
  | point _ digits =>
      rw [Reading.passing_look] at digits
      rw [Reading.passing_memo]
      refine ⟨halts, (passing_grows _ true).size_le, fun _ d barrier le => ?_⟩
      rw [Reading.passing_look]
      exact (reserves.look ▸ barrier : Barrier _ _ d).point_le seated.look digits le
  | segment _ name =>
      rw [Reading.passing_look] at name
      rw [Reading.passing_memo, Reading.passing_memo]
      refine ⟨halts, ((passing_grows _ false).trans (passing_grows _ false)).size_le, fun _ d barrier le => ?_⟩
      rw [Reading.passing_look, Reading.passing_look]
      refine (reserves.look ▸ barrier : Barrier _ _ d).segment_le seated.look ?_ le
      refine name.resolve_right fun allowed => ?_
      rw [strict.refuses] at allowed
      cases allowed
  -- an error was reported, so nothing has to stop any more
  | @astray u b problem place dot =>
      refine ⟨halts, .of_lt ?_⟩
      rw [Reading.reporting, Array.size_push]
      exact Nat.lt_succ_of_le (passing_grows u b).size_le
  | @report u problem place =>
      refine ⟨halts, .of_lt ?_⟩
      rw [Reading.reporting, Array.size_push]
      exact Nat.lt_succ_self _
  | hint | ident | draw => exact ⟨halts, .of_offset (Nat.le_refl _) rfl⟩
  | resume _ ih => exact ⟨(ih seated reserves halts).1, .of_offset (Nat.le_refl _) rfl⟩
  | @remember u v term leads _ ih =>
      obtain ⟨halts, stops⟩ := ih seated reserves halts
      -- the new entry is clean if the reading was, and then it stopped at all barriers
      refine ⟨fun e he clean d barrier since => ?_, stops.size_le, stops.le⟩
      rcases Memo.mem_push he with rfl | old
      · have grows := leads.grows.1.extract
        rw [show v.failures.extract u.failures.size v.failures.size = #[] from clean, Array.append_empty] at grows
        have table : v.look.scanner.keywords = τ := (leads.reserves seated reserves).look
        exact stops.le (congrArg Array.size grows).le d (table ▸ barrier) since
      · exact halts e old clean d barrier since
  | @recollect u e he same =>
      -- what is recalled without errors stopped at barriers when it was read
      refine ⟨halts, Grows.size_le ⟨_, rfl⟩, fun clean d barrier le => ?_⟩
      have size : (u.failures ++ e.failures).size ≤ u.failures.size := clean
      rw [Array.size_append] at size
      have table : e.after.scanner.keywords = τ := reserves.memo e he (same ▸ reserves.behind)
      exact halts e he (Array.eq_empty_of_size_eq_zero (by omega)) d (table ▸ barrier) (same ▸ le)

/-! ## Ends

A reading ends well if it has no error and no barrier is ahead.  A parser that stops at points has passed
no barrier on the way there, so it has started well too. -/

/-- A reading without an error, ahead of which no reserved word stands behind a point. -/
structure Ends (ρ : Route) (τ : KeywordTable) (v : Reading) : Prop where
  clean : v.failures = #[]
  noSegment : τ.NoSegment ρ.source v.look.offset

namespace Ends

theorem mono {σ : KeywordTable} (h : ρ.Ends σ v)
    (more : ∀ word, τ.contains word = true → σ.contains word = true) : ρ.Ends τ v :=
  ⟨h.clean, h.noSegment.mono more⟩

/-- Where a parser ends that stops at points, it has not passed any. -/
theorem back (h : ρ.Ends τ v) (stops : ρ.Stops τ u v) (ahead : u.look.offset ≤ v.look.offset) :
    ρ.Ends τ u := by
  have none := stops.size_le
  rw [h.clean] at none
  refine ⟨Array.eq_empty_of_size_eq_zero (Nat.le_zero.1 none),
    KeywordTable.noSegment_of fun d barrier since within => ?_⟩
  have le := stops.le (by rw [h.clean]; exact Nat.zero_le _) d barrier since
  exact h.noSegment d barrier.starts le
    (fun m starts clause since => within m starts clause (ahead.trans since)) barrier.dot barrier.word

end Ends

/-! ## Bodies and rules

To enter a body is no move (`Enters`), so for barriers it is looked at by itself. -/

/-- The words of a clear reading are those of a table. -/
theorem Spaced.reserves (h : ρ.Spaced n τ u) : Reserves τ n u :=
  ⟨h.bounded.behind, h.bounded.look.table, fun e he since => (h.bounded.memo e he since).table⟩

section bodies

variable (strict : ρ.env.Strict)

include strict

/-- No body starts behind a barrier. -/
theorem Enters.stops (h : ρ.Enters u w) (seated : ρ.Seated u) (spaced : ρ.Spaced n τ u)
    (halts : u.memo.Halts ρ.source) : w.memo.Halts ρ.source ∧ ρ.Stops τ u w := by
  have there := seated.passing (ρ := ρ) true
  cases h with
  | step ifKw =>
      rw [Reading.passing_memo]
      exact ⟨halts, .passing seated true (by rw [ifKw]; decide)⟩
  | leap ifKw leads =>
      have entered := spaced.passing seated true (by rw [ifKw]; decide)
      have first : ρ.Stops τ u (u.passing ρ.env true) := .passing seated true (by rw [ifKw]; decide)
      obtain ⟨halts, -⟩ := leads.stops spaced.narrow strict there entered.reserves halts
      rw [Reading.passing_memo]
      refine ⟨halts, first.trans ⟨(passing_grows _ true).size_le, fun _ d barrier le => ?_⟩⟩
      -- what is passed here stands right behind the word of the body, so it is no barrier
      rw [Reading.passing_look]
      refine next_le there.look true barrier.starts barrier.significant (Nat.lt_of_le_of_ne le fun here => ?_)
      obtain ⟨c, at', -⟩ := there.look
      obtain rfl := at'.starts.eq_of_offset barrier.starts (at'.offset.symm.trans here)
      exact (spaced.body_apart seated ifKw true at').2 barrier.dot barrier.word

theorem Treads.stops (h : ρ.Treads u v) (seated : ρ.Seated u) (spaced : ρ.Spaced n τ u)
    (halts : u.memo.Halts ρ.source) : v.memo.Halts ρ.source ∧ ρ.Stops τ u v := by
  induction h with
  | lead leads => exact leads.stops spaced.narrow strict seated spaced.reserves halts
  | body enters leads _ =>
      obtain ⟨halts, stops⟩ := enters.stops strict seated spaced halts
      have entered := enters.spaced strict spaced seated
      obtain ⟨halts, stops'⟩ :=
        leads.stops spaced.narrow strict (enters.seated seated) entered.reserves halts
      exact ⟨halts, stops.trans stops'⟩
  | trans first _ ih ih' =>
      obtain ⟨halts, stops⟩ := ih seated spaced halts
      obtain ⟨halts, stops'⟩ := ih' (first.seated seated) (first.spaced strict spaced seated) halts
      exact ⟨halts, stops.trans stops'⟩

theorem Lost.stops (h : ρ.Lost u v) (seated : ρ.Seated u) (spaced : ρ.Spaced n τ u)
    (halts : u.memo.Halts ρ.source) : v.memo.Halts ρ.source := by
  cases h with
  | treads h => exact (h.stops strict seated spaced halts).1
  | within there enters leads =>
      have before := there.seated seated
      have spaced' := there.spaced strict spaced seated
      obtain ⟨halts, -⟩ := there.stops strict seated spaced halts
      obtain ⟨halts, -⟩ := enters.stops strict before spaced' halts
      have entered := enters.spaced strict spaced' before
      exact (leads.stops spaced.narrow strict (enters.seated before) entered.reserves halts).1

end bodies

end Route

end RegoSyntax
