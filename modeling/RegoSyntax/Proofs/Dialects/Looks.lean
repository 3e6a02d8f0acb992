/-
# RegoSyntax.Proofs.Dialects.Looks — one token, seen with different words reserved.

The dialects reserve different words, and the scanner looks up each word that it comes to.  Everything else about
a token it takes from the source: where the token starts and ends, what its text is and what is wrong with it.  So
two parsers that stand at one token of one source see the same but for the tables they hold and the kinds that
they take the token for (`Look.Beside`), and they go on to one token (`Look.Beside.next`).

What they take it for is the same as well where every word that one of the tables reserves in addition is reserved
by the other one too, or does not stand there (`Cursor.shown_extend`).
-/
import RegoSyntax.Proofs.Moves.Clearance
import RegoSyntax.Proofs.Parallel

namespace RegoSyntax

open Parse

/-! ## Words of the future

Four words are reserved by the newer dialect in addition.  What follows about tables is about adding these
to a table and taking them out. -/

namespace KeywordTable

/-- What a known table reserves a word of the future for is what the language has it for. -/
theorem Known.get?_future {t : KeywordTable} (known : t.Known) {word : String}
    (future : future.contains word = true) (held : t.contains word = true) :
    t.get? word = KeywordTable.future.get? word := by
  -- a word is listed once, so the entry that a known table has is the one of the list
  have one : ∀ e ∈ baseWords ++ futureWords, ∀ e' ∈ baseWords ++ futureWords, e.1 = e'.1 → e.2 = e'.2 := by
    decide +kernel
  obtain ⟨kind, found⟩ := Option.isSome_iff_exists.1 future
  obtain ⟨kind', found'⟩ := Option.isSome_iff_exists.1 held
  rw [found, found']
  exact congrArg some (one _ (known.get? found') _ (known_future.get? found) rfl)

/-- With the words of the future, a table reserves what it reserved for what it did. -/
theorem Known.get?_extend {t : KeywordTable} (known : t.Known) {word : String}
    (held : future.contains word = true → t.contains word = true) :
    (t.extend future).get? word = t.get? word := by
  rw [KeywordTable.get?_extend]
  rcases found : future.get? word with _ | kind
  · rw [Option.none_or]
  · have word : future.contains word = true := by rw [contains, found]; rfl
    rw [known.get?_future word (held word), found]
    rfl

/-- No word is reserved for a blank. -/
theorem Known.classify_whitespace {t : KeywordTable} (known : t.Known) (kind : Token) (text : List Char) :
    Scanner.classify t kind text = .whitespace ↔ kind = .whitespace := by
  unfold Scanner.classify
  split
  · next word =>
      obtain rfl := beq_iff_eq.1 word
      refine iff_of_false (fun white => ?_) (by decide)
      rcases found : t.get? (String.ofList text) with _ | k <;> rw [found] at white
      · cases white
      · obtain rfl : k = .whitespace := white
        exact absurd (isKeyword_of_mem (known.get? found)) (by decide)
  · exact Iff.rfl

/-- From an offset on, words of the future stand only where they are reserved. -/
def Covers (t : KeywordTable) (source : String) (n : Nat) : Prop :=
  ∀ c : Cursor, c.Starts source → n ≤ c.offset → c.lexeme.kind = .ident → future.contains c.word = true →
    t.contains c.word = true

theorem Covers.mono {t u : KeywordTable} {source : String} {n m : Nat} (h : t.Covers source n) (le : n ≤ m)
    (more : ∀ word, t.contains word = true → u.contains word = true) : u.Covers source m :=
  fun c starts behind word future => more _ (h c starts (le.trans behind) word future)

end KeywordTable

/-- Where a word of the future is reserved anyway, the other ones make no difference. -/
theorem Cursor.shown_extend {c : Cursor} {t : KeywordTable} (known : t.Known)
    (held : c.lexeme.kind = .ident → KeywordTable.future.contains c.word = true → t.contains c.word = true) :
    c.shown (t.extend .future) = c.shown t := by
  by_cases word : c.lexeme.kind = .ident
  · rw [shown_of_ident word, shown_of_ident word, known.get?_extend (held word)]
  · simp only [Cursor.shown, Scanner.classify, beq_iff_eq, if_neg word]

/-! ## Side by side

Two looks at one token agree in everything but the table and what a word is taken for. -/

/-- What is seen of one token with two tables of words: the tables may differ, and so may what the token is taken
for. -/
structure Look.Beside (source : String) (c : Cursor) (l l' : Look) : Prop where
  left : l.At source c
  right : l'.At source c
  solid : c.lexeme.kind ≠ .comment
  same : l' = { l.reserving l'.scanner.keywords with token := l'.token }

namespace Look.Beside

variable {source : String} {c : Cursor} {l l' : Look} {p : Token}

/-- A kind that no word has is seen on both sides. -/
theorem plain (h : l.Beside source c l') (plain : p.isPlain) : l'.token = p ↔ l.token = p :=
  (h.right.shows.plain_iff plain).trans (h.left.shows.plain_iff plain).symm

theorem offset (h : l.Beside source c l') : l'.offset = l.offset := by
  rw [h.same]
  rfl

theorem literal (h : l.Beside source c l') : l'.literal = l.literal := by
  rw [h.same]
  rfl

theorem location (h : l.Beside source c l') : l'.location = l.location := by
  rw [h.same]
  rfl

theorem lastStop (h : l.Beside source c l') : l'.lastStop = l.lastStop := by
  rw [h.same]
  rfl

theorem hints (h : l.Beside source c l') : l'.hints = l.hints := by
  rw [h.same]
  rfl

theorem text (h : l.Beside source c l') (start stop : Nat) : l'.text start stop = l.text start stop := by
  rw [h.same]
  rfl

/-- Advice that is pending is no part of a token. -/
theorem hinted (h : l.Beside source c l') (hints : List Hint) :
    ({ l with hints } : Look).Beside source c { l' with hints } where
  left := { h.left with }
  right := { h.right with }
  solid := h.solid
  same := by
    conv_lhs => rw [h.same]
    rfl

/-- Other words may be reserved on both sides. -/
theorem reserving (h : l.Beside source c l') {t t' : KeywordTable} (known : t.Known) (known' : t'.Known) :
    (l.reserving t).Beside source c (l'.reserving t') where
  left := { h.left with known }
  right := { h.right with known := known' }
  solid := h.solid
  same := by
    conv_lhs => rw [h.same]
    rfl

end Look.Beside

/-! ## Going on

The scanner does not look at the table, so it comes to the same tokens whatever is reserved; what it takes
a word for is decided once it has been scanned. -/

/-- States that differ in what they reserve, and in what they take the token for. -/
structure ParseState.Beside (s s' : ParseState) : Prop where
  look : s'.look = { s.look.reserving s'.look.scanner.keywords with token := s'.look.token }
  failures : s'.failures = s.failures
  comments : s'.comments = s.comments

namespace ParseState.Beside

variable {e e' : Env} {o : Settings} {source : String} {c : Cursor} {s s' : ParseState}

theorem reports (l : Location) (errors : List ScanError) (h : s.Beside s') :
    ((errors.forM fun e => Parse.report l (.lexical e.cause)).run e o s).2.Beside
      ((errors.forM fun e => Parse.report l (.lexical e.cause)).run e' o s').2 := by
  induction errors generalizing s s' with
  | nil => exact h
  | cons error errors ih =>
      have hints : s'.look.hints = s.look.hints := by rw [h.look]; rfl
      refine ih ⟨?_, ?_, h.comments⟩
      · show ({ s'.look with hints := [] } : Look) = _
        conv_lhs => rw [h.look]
        rfl
      · show s'.failures.push _ = s.failures.push _
        rw [h.failures, hints]

/-- A scanner reads one token whatever it reserves, but for what a word is taken for. -/
theorem take (file : e'.file = e.file) (before : s.look.Before source c) (before' : s'.look.Before source c)
    (h : s.Beside s') : (Parse.take.run e o s).2.Beside (Parse.take.run e' o s').2 := by
  have scanned : s'.look.scanner = { s.look.scanner with keywords := s'.look.scanner.keywords } := by
    conv_lhs => rw [h.look]
    rfl
  -- whether a blank was taken is no question of the table
  have kind {l : Look} (b : l.Before source c) :
      l.scanner.scan.1.token = .whitespace ↔ c.lexeme.kind = .whitespace := by
    rw [Scanner.scan, b.cursor]
    exact b.known.classify_whitespace _ _
  have blank : (s'.look.scanner.scan.1.token == .whitespace) = (s.look.scanner.scan.1.token == .whitespace) :=
    Bool.eq_iff_iff.2 (by rw [beq_iff_eq, beq_iff_eq, kind before, kind before'])
  have errors : s'.look.scanner.scan.1.errors = s.look.scanner.scan.1.errors := by
    rw [scanned]
    rfl
  have taken : Parse.taken e' s'.look = { (Parse.taken e s.look).reserving s'.look.scanner.keywords with
      token := (Parse.taken e' s'.look).token } := by
    simp only [Parse.taken, blank, file]
    rw [h.look]
    rfl
  rw [run_take, run_take, errors, show (Parse.taken e' s'.look).location = (Parse.taken e s.look).location by
    rw [taken]; rfl]
  exact reports _ _ ⟨taken, h.failures, h.comments⟩

theorem takeUpTo (file : e'.file = e.file) (skipBlanks : Bool) (fuel : Nat)
    (before : s.look.Before source c) (before' : s'.look.Before source c) (h : s.Beside s') :
    ((Parse.takeUpTo skipBlanks fuel).run e o s).2.Beside ((Parse.takeUpTo skipBlanks fuel).run e' o s').2 := by
  -- on the tokens that are taken; what is passed over is a blank or a comment, on both sides
  induction fuel generalizing c s s' with
  | zero => exact h
  | succ fuel ih =>
      have next := h.take (o := o) file before before'
      have took := take_took e o before
      have took' := take_took e' o before'
      have went := goes_take e o s
      have went' := goes_take e' o s'
      rw [Parse.takeUpTo, run_bind, run_bind]
      rcases left : Parse.take.run e o s with ⟨_ | _, t⟩ <;> rw [left] at went next took
      · cases went
      rcases right : Parse.take.run e' o s' with ⟨_ | _, t'⟩ <;> rw [right] at went' next took'
      · cases went'
      have kind {p : Token} (plain : p.isPlain) : t.look.token = p ↔ c.lexeme.kind = p :=
        took.at'.shows.plain_iff plain
      have kind' {p : Token} (plain : p.isPlain) : t'.look.token = p ↔ c.lexeme.kind = p :=
        took'.at'.shows.plain_iff plain
      rw [andThen_some, andThen_some, run_bind, run_bind, run_token, run_token, andThen_some, andThen_some]
      by_cases white : c.lexeme.kind = .whitespace
      · rw [(kind rfl).2 white, (kind' rfl).2 white]
        have minor : ¬ c.Significant := fun major => major.1 white
        dsimp only
        split
        · exact ih (before_skip took.at' minor) (before_skip took'.at' minor) next
        · exact next
      by_cases comment : c.lexeme.kind = .comment
      · rw [(kind rfl).2 comment, (kind' rfl).2 comment]
        have minor : ¬ c.Significant := fun major => major.2 comment
        refine ih (c := c.skip) (before_skip took.at' minor) (before_skip took'.at' minor)
          ⟨next.look, next.failures, ?_⟩
        show t'.comments.push _ = t.comments.push _
        have literal : t'.look.literal = t.look.literal := by rw [next.look]; rfl
        have location : t'.look.location = t.look.location := by rw [next.look]; rfl
        rw [next.comments, literal, location]
      · split
        · next there => exact absurd ((kind rfl).1 there) white
        · next there => exact absurd ((kind rfl).1 there) comment
        · split
          · next there => exact absurd ((kind' rfl).1 there) white
          · next there => exact absurd ((kind' rfl).1 there) comment
          · exact next

/-- Scanners that stand at one cursor go on to the next token alike. -/
theorem next (file : e'.file = e.file) (skipBlanks : Bool) {l l' : Look} (before : (leave l).Before source c)
    (before' : (leave l').Before source c)
    (same : leave l' = { (leave l).reserving l'.scanner.keywords with token := l'.token }) :
    (Parse.next e skipBlanks l).Beside (Parse.next e' skipBlanks l') := by
  have start : (ParseState.bare (leave l)).Beside (.bare (leave l')) := by
    refine ⟨?_, rfl, rfl⟩
    show leave l' = _
    rw [same]
    rfl
  have run (e : Env) (l : Look) : Parse.next e skipBlanks l =
      ((Parse.takeUpTo skipBlanks (l.scanner.cursor.rest.length + 1)).run e ⟨0, fun _ => true⟩
        (.bare (leave l))).2 := by
    rw [← leave_scanner l]
    rfl
  have cursor : l'.scanner.cursor = l.scanner.cursor := by
    rw [← leave_scanner l', ← leave_scanner l, same]
    rfl
  rw [run, run, cursor]
  exact start.takeUpTo file skipBlanks _ before before'

end ParseState.Beside

/-- From one token, parsers go on to one token, whatever words they reserve; on the way they meet the same errors
and comments.  There each of them looks the word up in its own table. -/
theorem Look.Beside.next {e e' : Env} (file : e'.file = e.file) {source : String} {c : Cursor} {l l' : Look}
    (h : l.Beside source c l') (b : Bool) :
    ∃ d, (Parse.next e b l).look.Beside source d (Parse.next e' b l').look ∧
      Step source e b c d l (Parse.next e b l) ∧ Step source e' b c d l' (Parse.next e' b l') ∧
      (Parse.next e' b l').failures = (Parse.next e b l).failures ∧
      (Parse.next e' b l').comments = (Parse.next e b l).comments := by
  obtain ⟨d, step⟩ := next_step e b h.left
  obtain ⟨d', step'⟩ := next_step e' b h.right
  -- -- the two looks differ in the table alone, and leaving one keeps it so
  have left : leave l' = { (leave l).reserving l'.scanner.keywords with token := l'.token } := by
    unfold leave
    by_cases white : l.token = .whitespace
    · rw [if_pos (beq_iff_eq.2 white), if_pos (beq_iff_eq.2 ((h.plain rfl).2 white))]
      exact h.same
    · rw [if_neg (by simpa using fun white' => white ((h.plain rfl).1 white')), if_neg (by simpa using white)]
      rw [h.same]
      rfl
  have near := ParseState.Beside.next file b (before_leave h.left) (before_leave h.right) left
  -- -- the tokens behind them start at one offset, and an offset has one token
  have here : d' = d := by
    have offset : (Parse.next e' b l').look.offset = (Parse.next e b l).look.offset := by rw [near.look]; rfl
    exact step'.at'.starts.eq_of_offset step.at'.starts
      (step'.at'.offset.symm.trans (offset.trans step.at'.offset))
  subst here
  exact ⟨d', ⟨step.at', step'.at', step.solid, near.look⟩, step, step', near.failures, near.comments⟩

end RegoSyntax
