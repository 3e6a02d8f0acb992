/-
# RegoSyntax.Proofs.Sheets — reading a text under any table of words, below a ceiling.

A `Sheet` is a text with the task that it is read for and the words that are reserved in it.  The judgement
`Sheet.Runs` follows a parser over such a text token by token, for every journal and whatever is taken up
again, as long as there is room for so many productions more: the ceiling may be as low as what the text
itself needs.  So what is proved here holds for the dialects with few words, and for the ceiling that is
in force where none is chosen.

The parser `Stands` where a given rest of the text is left.  All that it remembers are terms before that
place, so no reading of what is to come is taken up again; and no advice is pending, so an error is reported
with its own message.
-/
import RegoSyntax.Proofs.Printing.Roundtrip

namespace RegoSyntax

open Parse Lexeme
open Page (Given)

/-! ## Advice that is pending -/

namespace Parse

theorem hints_reports (l : Location) (errors : List ScanError) (env : Env) (o : Settings)
    {s : ParseState} (none : s.look.hints = []) :
    ((errors.forM fun e => report l (.lexical e.cause)).run env o s).2.look.hints = [] := by
  induction errors generalizing s with
  | nil => exact none
  | cons e errors ih =>
      -- the first error takes whatever advice there is
      exact ih (s := { s with
        failures := s.failures.push ⟨.lexical e.cause, l, s.look.hints⟩
        look := { s.look with hints := [] } }) rfl

theorem hints_take (env : Env) (o : Settings) {s : ParseState} (none : s.look.hints = []) :
    (take.run env o s).2.look.hints = [] := by
  rw [run_take]
  exact hints_reports _ _ env o none

theorem hints_takeUpTo (skipBlanks : Bool) (fuel : Nat) (env : Env) (o : Settings) {s : ParseState}
    (none : s.look.hints = []) : ((takeUpTo skipBlanks fuel).run env o s).2.look.hints = [] := by
  induction fuel generalizing s with
  | zero => exact none
  | succ fuel ih =>
      have taken := hints_take env o none
      rw [takeUpTo, run_bind]
      rcases run : take.run env o s with ⟨_ | a, t⟩
      · have goes := goes_take env o s
        rw [run] at goes
        cases goes
      · rw [run] at taken
        rw [andThen_some, run_bind, run_token, andThen_some]
        split
        · split
          · exact ih taken
          · exact taken
        · exact ih taken
        · exact taken

/-- To go on gives no advice. -/
theorem hints_next (env : Env) (skipBlanks : Bool) {l : Look} (none : l.hints = []) :
    (next env skipBlanks l).look.hints = [] := by
  have left : (leave l).hints = [] := by
    unfold leave
    split <;> exact none
  have steps := hints_takeUpTo skipBlanks ((leave l).scanner.cursor.rest.length + 1) env
    ⟨0, fun _ => true⟩ (s := .bare (leave l)) left
  exact steps

end Parse

/-! ## Sheets -/

/-- A text, what is known of the task that it is read for, and the words that are reserved in it. -/
structure Sheet where
  source : String
  env : Env
  words : KeywordTable

namespace Sheet

variable {d : Sheet}

/-- What the first token of a text is taken for. -/
def shows (d : Sheet) (s : List Char) : Token :=
  if (next s).faults.isEmpty then Scanner.classify d.words (next s).kind (s.take (next s).size)
  else .illegal

/-- The parser has come to where `s` is left, without an error and without advice, whatever it takes the
token there for; and remembers nothing of what it is to read. -/
structure Stands (d : Sheet) (s : List Char) (u : Reading) : Prop where
  at' : ∃ c, u.look.At d.source c ∧ c.rest = s
  words : u.look.scanner.keywords = d.words
  clean : u.failures = #[]
  quiet : u.look.hints = []
  memo : ∀ e ∈ u.memo.entries, e.offset < u.look.offset

/-- The parser has come to where `s` is left, and takes the token there for what the text shows. -/
structure Sees (d : Sheet) (s : List Char) (u : Reading) : Prop extends d.Stands s u where
  token : u.look.token = d.shows s

/-- The parser has come to the last token before the place where `r` is left. -/
def Last (d : Sheet) (r : List Char) (u : Reading) : Prop :=
  ∃ s, d.Stands s u ∧ s ≠ [] ∧ behind s = r

/-! ### What is shown -/

section shows

variable {s r w : List Char} {k : Token} {n : Nat}

theorem shows_of_next (h : next s = ⟨k, n, []⟩) (plain : k ≠ .ident) : d.shows s = k := by
  simp [shows, h, Scanner.classify, plain]

theorem shows_nil : d.shows [] = .eof := shows_of_next (n := 0) rfl nofun

end shows

/-! ### Where the parser stands -/

namespace Stands

variable {s r : List Char} {u : Reading}

theorem known (h : d.Stands s u) : d.words.Known := by
  obtain ⟨c, at', -⟩ := h.at'
  exact h.words ▸ at'.known

/-- What is left says where the parser is. -/
theorem offset_add (h : d.Stands s u) :
    u.look.offset + String.utf8Len s = d.source.utf8ByteSize := by
  obtain ⟨c, at', rfl⟩ := h.at'
  obtain ⟨before, split, place⟩ := at'.starts.in
  rw [at'.offset, place, ← String.utf8Len_toList, split, String.utf8Len_append]

/-- The literal text of a token is what stands in the text. -/
theorem literal_eq (h : d.Stands s u) (solid : (next s).kind ≠ .comment) (filled : s ≠ []) :
    u.look.literal = String.ofList (s.take (next s).size) := by
  obtain ⟨c, at', rfl⟩ := h.at'
  exact at'.literal_eq solid filled

theorem last (h : d.Stands s u) (filled : s ≠ []) : d.Last (behind s) u := ⟨s, h, filled, rfl⟩

/-- A keyword that may stand for an identifier is read as one. -/
theorem asIdent (h : d.Stands s u)
    (allowed : d.env.allowsInRefs u.look.scanner.keywords u.look.token.name = true) :
    d.Stands s { u with look := { u.look with token := .ident } } := by
  obtain ⟨c, at', rest⟩ := h.at'
  exact { h with at' := ⟨c, at'.asIdent allowed, rest⟩ }

/-- Behind a token the parser stands at the next one, if going on has led there over legal tokens. -/
theorem onward {b : Bool} (h : d.Stands s u)
    (there : ∃ c, (Parse.next d.env b u.look).look.At d.source c ∧ c.rest = r)
    (token : (Parse.next d.env b u.look).look.token = d.shows r)
    (words : (Parse.next d.env b u.look).look.scanner.keywords = u.look.scanner.keywords)
    (clean : (Parse.next d.env b u.look).failures = #[])
    (shorter : String.utf8Len r ≤ String.utf8Len s) (depth : Nat) (journal : List (Question × Bool)) :
    d.Sees r ((⟨u, depth, journal⟩ : ParseState).followedBy (Parse.next d.env b u.look)).toReading := by
  have stands : d.Stands r
      ((⟨u, depth, journal⟩ : ParseState).followedBy (Parse.next d.env b u.look)).toReading := by
    have before := h.offset_add
    -- -- what is left of the source fixes the offset
    have offset : (Parse.next d.env b u.look).look.offset + String.utf8Len r = d.source.utf8ByteSize := by
      obtain ⟨c, at', rfl⟩ := there
      obtain ⟨passed, split, place⟩ := at'.starts.in
      rw [at'.offset, place, ← String.utf8Len_toList, split, String.utf8Len_append]
    refine ⟨there, words.trans h.words, ?_, hints_next d.env b h.quiet, fun e he => ?_⟩
    · show u.failures ++ (Parse.next d.env b u.look).failures = #[]
      rw [h.clean, clean]
      rfl
    -- -- the entries lie before the old offset, which the new one is not below
    · have remembered := h.memo e he
      show e.offset < (Parse.next d.env b u.look).look.offset
      omega
  exact ⟨stands, token⟩

end Stands

/-! ## The judgement -/

/-- A parser comes to a result as described, in whatever state it is run, if there is room for so many
productions more. -/
def Runs {α : Type} (d : Sheet) (room : Nat) (x : Parse α) (u : Reading)
    (Q : Option α → Reading → Prop) : Prop :=
  ∀ o depth journal, (o.maxDepth = 0 ∨ depth + room ≤ o.maxDepth) →
    Q (x.run d.env o ⟨u, depth, journal⟩).1 (x.run d.env o ⟨u, depth, journal⟩).2.toReading

section rules

variable {α β : Type} {room : Nat} {u v : Reading} {P : α → Reading → Prop}
  {Q : Option β → Reading → Prop}

theorem runs_pure {a : β} (holds : Q (some a) u) : d.Runs room (pure a) u Q := fun _ _ _ _ => holds

theorem gives_pure {Q : β → Reading → Prop} {a : β} (holds : Q a u) :
    d.Runs room (pure a) u (Given Q) :=
  runs_pure ⟨a, rfl, holds⟩

theorem runs_fail (holds : Q none u) : d.Runs room (fail : Parse β) u Q := fun _ _ _ _ => holds

/-- What can be done with what is known of the source alone. -/
theorem runs_act {f : Env → Reading → Option α × Reading} {g : α → Parse β} {a : α}
    (step : f d.env u = (some a, v)) (rest : d.Runs room (g a) v Q) :
    d.Runs room (act f >>= g) u Q := by
  intro o depth journal enough
  have run : (act f).run d.env o ⟨u, depth, journal⟩ = (some a, ⟨v, depth, journal⟩) := by
    simp only [act, step]
  rw [run_bind, run, andThen_some]
  exact rest o depth journal enough

/-- A parser that is made of such, and nothing else. -/
theorem runs_step {x : Parse α} {f : α → Parse β} {a : α}
    (step : ∀ o depth journal, x.run d.env o ⟨u, depth, journal⟩ = (some a, ⟨v, depth, journal⟩))
    (rest : d.Runs room (f a) v Q) : d.Runs room (x >>= f) u Q := by
  intro o depth journal enough
  rw [run_bind, step o depth journal, andThen_some]
  exact rest o depth journal enough

/-- One parser after the other. -/
theorem runs_bind {x : Parse α} {f : α → Parse β} {P : Option α → Reading → Prop}
    (first : d.Runs room x u P) (failed : ∀ t, P none t → Q none t)
    (rest : ∀ a t, P (some a) t → d.Runs room (f a) t Q) : d.Runs room (x >>= f) u Q := by
  intro o depth journal enough
  have first := first o depth journal enough
  have levels := x.levels d.env o ⟨u, depth, journal⟩
  rw [run_bind]
  rcases h : x.run d.env o ⟨u, depth, journal⟩ with ⟨_ | a, ⟨t, depth', journal'⟩⟩
  · rw [h] at first
    exact failed t first
  · rw [h] at first levels
    -- a parser comes back to the depth that it was entered at, so there is as much room as before
    obtain rfl : depth' = depth := levels
    exact rest a t first o depth' journal' enough

theorem gives_bind {x : Parse α} {f : α → Parse β} (first : d.Runs room x u (Given P))
    (rest : ∀ a t, P a t → d.Runs room (f a) t Q) : d.Runs room (x >>= f) u Q :=
  runs_bind first (fun _ ⟨_, other, _⟩ => nomatch other) fun a t ⟨_, same, holds⟩ =>
    rest a t (Option.some.inj same ▸ holds)

theorem Runs.imp {x : Parse β} {Q' : Option β → Reading → Prop} (h : d.Runs room x u Q)
    (imp : ∀ a t, Q a t → Q' a t) : d.Runs room x u Q' :=
  fun o depth journal enough => imp _ _ (h o depth journal enough)

theorem Runs.imp_given {x : Parse α} {P' : α → Reading → Prop} (h : d.Runs room x u (Given P))
    (imp : ∀ a t, P a t → P' a t) : d.Runs room x u (Given P') :=
  h.imp fun _ t ⟨b, same, holds⟩ => ⟨b, same, imp b t holds⟩

/-- More room does no harm. -/
theorem Runs.mono {x : Parse β} {room' : Nat} (h : d.Runs room x u Q) (le : room ≤ room') :
    d.Runs room' x u Q :=
  fun o depth journal enough => h o depth journal (enough.imp id (Nat.add_le_add_left le depth).trans)

theorem runs_attempt {x : Parse α} {Q : Option (Option α) → Reading → Prop}
    (h : d.Runs room x u fun a t => Q (some a) t) : d.Runs room (attempt x) u Q :=
  fun o depth journal enough => h o depth journal enough

/-- A production takes one place of the room that there is. -/
theorem runs_nested {x : Parse β} (h : d.Runs room x u Q) : d.Runs (room + 1) (nested x) u Q := by
  intro o depth journal enough
  have answer : o.answer (.nest depth) = true := by
    simp only [Settings.answer, DepthLimit.enter?, Bool.and_eq_true, decide_eq_true_eq]
    rw [if_neg (by omega)]
    rfl
  rw [run_nested_granted d.env x answer]
  exact h o (depth + 1) _ (by omega)

theorem runs_modify {f : Reading → Reading} {g : Unit → Parse β} (rest : d.Runs room (g ()) (f u) Q) :
    d.Runs room (modify f >>= g) u Q :=
  runs_step (v := f u) (a := ()) (fun _ _ _ => rfl) rest

/-- Where something stands up to is of no account here. -/
theorem runs_upToLastStop {l : Location} {f : Location → Parse β}
    (rest : ∀ l', d.Runs room (f l') u Q) : d.Runs room (upToLastStop l >>= f) u Q :=
  runs_step (a := { l with text := u.look.text l.offset u.look.lastStop }) (fun _ _ _ => rfl) (rest _)

end rules

/-! ## Going on -/

variable {s r : List Char} {u : Reading} {room : Nat}

/-- To go on leads to the next token, if that is one to stop at. -/
theorem Stands.advance {b : Bool} (h : d.Stands s u) (left : behind s = r) (stops : Stops r)
    (filled : b = true → (next r).kind ≠ .whitespace) :
    d.Runs room (Parse.advance b) u <| Given fun _ v => d.Sees r v := by
  intro o depth journal _
  obtain ⟨c, at', rest⟩ := h.at'
  obtain ⟨c', step⟩ := next_step d.env b at'
  have rest' : c.skip.rest = r := by
    rw [Cursor.skip, Cursor.advanceBy_rest, Cursor.lexeme, rest, ← left, behind]
  have lexeme : c.skip.lexeme = next r := by rw [Cursor.lexeme, rest']
  obtain ⟨rfl, clean⟩ :=
    step.lands at'.starts (lexeme ▸ stops.faults) (lexeme ▸ stops.solid) (lexeme ▸ filled)
  have token : (Parse.next d.env b u.look).look.token = d.shows r := by
    rw [step.exact, step.keywords, h.words, ← rest']
    rfl
  have shorter : String.utf8Len r ≤ String.utf8Len s := left ▸ Page.utf8Len_behind s
  rw [run_advance]
  exact ⟨(), rfl, h.onward ⟨c.skip, step.at', rest'⟩ token step.keywords clean shorter depth journal⟩

namespace Last

theorem advance {b : Bool} (h : d.Last r u) (stops : Stops r)
    (filled : b = true → (next r).kind ≠ .whitespace) :
    d.Runs room (Parse.advance b) u <| Given fun _ v => d.Sees r v := by
  obtain ⟨s, stands, -, left⟩ := h
  exact stands.advance left stops filled

/-- Go on to a token that is no blank. -/
theorem scan (h : d.Last r u) (legal : Legal r) :
    d.Runs room Parse.scan u <| Given fun _ v => d.Sees r v :=
  h.advance legal.toStops fun _ => legal.filled

/-- Go on to a token that may be a blank. -/
theorem scanBlank (h : d.Last r u) (stops : Stops r) :
    d.Runs room Parse.scanBlank u <| Given fun _ v => d.Sees r v :=
  h.advance stops nofun

end Last

/-- A token that is no word starts no reference. -/
theorem Sees.startsRefWithKeyword {α : Type} {f : Bool → Parse α} {Q : Option α → Reading → Prop}
    (h : d.Sees s u)
    (plain : ¬ ((d.shows s).isKeyword = true ∨ (d.shows s).isFutureKeyword = true))
    (rest : d.Runs room (f false) u Q) : d.Runs room (Parse.startsRefWithKeyword >>= f) u Q := by
  have refused : d.env.allowsInRefs u.look.scanner.keywords u.look.token.name = false := by
    rw [Bool.eq_false_iff]
    intro allowed
    rw [h.words, h.token] at allowed
    exact plain (Env.word_of_allowsInRefs h.known allowed)
  refine runs_step (v := u) (a := false) (fun o depth journal => ?_) rest
  unfold Parse.startsRefWithKeyword isRefKeyword
  simp [refused]

/-! ## Remembered terms -/

/-- No reading of what is to be read is taken up again. -/
theorem runs_remembered {α : Type} {f : Option MemoEntry → Parse α} {Q : Option α → Reading → Prop}
    (h : d.Stands s u) (afresh : d.Runs room (f none) u Q) :
    d.Runs room (Parse.remembered >>= f) u Q := by
  have unknown : u.memo.lookup u.look.offset = none := by
    rcases found : u.memo.lookup u.look.offset with _ | e
    · rfl
    · obtain ⟨listed, same⟩ := Memo.lookup_some found
      have before := h.memo e listed
      omega
  refine runs_step (v := u) (a := none) (fun o depth journal => ?_) afresh
  simp only [Parse.remembered, run_bind, run_reading, andThen_some, unknown]
  rfl

/-- A term is remembered, and starts before the place that the parser has come to. -/
theorem Sees.remember {start : Reading} (h : d.Sees r u) (before : d.Stands s start)
    (shorter : String.utf8Len r < String.utf8Len s) (term : Option Term) :
    d.Runs room (Parse.remember start.save term) u <| Given fun _ v => d.Sees r v := by
  intro o depth journal _
  refine ⟨(), rfl, { h with memo := fun e he => ?_ }⟩
  rcases List.mem_cons.1 he with rfl | he
  · have place := before.offset_add
    have here := h.offset_add
    show start.look.offset < u.look.offset
    omega
  · exact h.memo e ((List.dropWhile_sublist _).subset he)

/-! ## Clauses that are not there -/

section clauses

variable {α β : Type}

/-- There is no clause where its keyword does not stand. -/
theorem runs_clause {keyword : Token} {f : Unit → Parse β} (other : u.look.token ≠ keyword) :
    d.Runs room (clauseKeyword keyword >>= f) u fun a v => a = none ∧ v = u := by
  have other : (u.look.token != keyword) = true := bne_iff_ne.2 other
  unfold clauseKeyword
  rw [bind_assoc]
  refine runs_act rfl ?_
  rw [if_pos other]
  exact runs_fail ⟨rfl, rfl⟩

/-- A statement that starts with a keyword is passed over where that does not stand. -/
theorem runs_orElse_clause {x : Parse α} {wrap : α → β} {y : Parse (List β)}
    {Q : Option (List β) → Reading → Prop} (stands : d.Stands s u)
    (missing : d.Runs room x u fun a v => a = none ∧ v = u) (second : d.Runs room y u Q) :
    d.Runs room (orElse u.save (do return [wrap (← x)]) y) u Q := by
  have failed : d.Runs room (attempt do return [wrap (← x)]) u
      (Given fun a v => a = none ∧ v = u) := by
    refine runs_attempt (runs_bind missing (fun v found => ?_) fun _ _ found => nomatch found.1)
    exact ⟨none, rfl, rfl, found.2⟩
  unfold orElse
  refine gives_bind failed fun a v found => ?_
  obtain ⟨rfl, rfl⟩ := found
  have clean : v.failures.isEmpty = true := by
    rw [stands.clean]
    rfl
  refine runs_step (v := v) (a := v.failures.isEmpty) (fun _ _ _ => rfl) ?_
  rw [if_pos clean]
  refine runs_modify ?_
  rw [Reading.restore_save]
  exact second

end clauses

end Sheet

end RegoSyntax
