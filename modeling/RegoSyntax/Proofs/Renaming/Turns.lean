/-
# RegoSyntax.Proofs.Renaming.Turns — going on and coming back in step.

Advice that is pending goes with the next error and changes nothing else, so two parsers at one token go on
to one token, over the same errors and comments (`Look.Same.next`).  They come back to places that were
saved in step, and what they remember of a reading is alike, so it is taken up again in step.

A parser that comes back to where it was may have drawn names and left other advice: it was `Quiet`.  One of
two parsers that meet, or both, may do what is quiet, and they still meet (`Meets.quiet`).

The rules of `InStep` follow the parsers they are about: one rule for each primitive of the parser that
moves it, saves a place or returns to one, remembers or draws a name.  With them the productions are read
in step by following their text.
-/
import RegoSyntax.Proofs.Renaming.Steps

namespace RegoSyntax

open Parse

/-! ## Going on

Advice is pending on one side and not on the other, as one of the parsers looks for words to suggest.
Apart from it the states are equal, and going on leaves them so. -/

/-- States that differ in the pending advice and in the advice that went with their errors. -/
structure ParseState.Near (s s' : ParseState) : Prop where
  look : s.look.Same s'.look
  failures : AlikeFailures (fun _ _ => False) s.failures s'.failures
  comments : s'.comments = s.comments

namespace ParseState.Near

variable {e e' : Env} {o : Settings} {s s' : ParseState}

/-- Errors of the scanner are reported on both sides at the same place. -/
theorem reports (l : Location) (errors : List ScanError) (near : s.Near s') :
    ((errors.forM fun e => Parse.report l (.lexical e.cause)).run e o s).2.Near
      ((errors.forM fun e => Parse.report l (.lexical e.cause)).run e' o s').2 := by
  induction errors generalizing s s' with
  | nil => exact near
  | cons error errors ih =>
      exact ih ⟨near.look.hinted [] [], near.failures.push (.mk (.same _)), near.comments⟩

/-- One token is taken on both sides. -/
theorem take (file : e'.file = e.file) (near : s.Near s') :
    (Parse.take.run e o s).2.Near (Parse.take.run e' o s').2 := by
  obtain ⟨hints, same⟩ := near.look
  have taken : Parse.taken e' s'.look = { Parse.taken e s.look with hints } := by
    rw [same]
    simp only [Parse.taken, file]
  have errors : s'.look.scanner.scan.1.errors = s.look.scanner.scan.1.errors := by rw [same]
  rw [run_take, run_take, errors, taken]
  exact reports _ _ ⟨⟨hints, rfl⟩, near.failures, near.comments⟩

/-- Tokens are taken on both sides up to the same one, and comments on the way are kept. -/
theorem takeUpTo (file : e'.file = e.file) (skipBlanks : Bool) (fuel : Nat) (near : s.Near s') :
    ((Parse.takeUpTo skipBlanks fuel).run e o s).2.Near
      ((Parse.takeUpTo skipBlanks fuel).run e' o s').2 := by
  -- on the fuel, since blanks and comments are passed one by one
  induction fuel generalizing s s' with
  | zero => exact near
  | succ fuel ih =>
      have next := near.take (o := o) file
      rw [Parse.takeUpTo, run_bind, run_bind]
      have went := goes_take e o s
      have went' := goes_take e' o s'
      rcases left : Parse.take.run e o s with ⟨_ | _, t⟩ <;> rw [left] at went next
      · cases went
      rcases right : Parse.take.run e' o s' with ⟨_ | _, t'⟩ <;> rw [right] at went' next
      · cases went'
      obtain ⟨hints, same⟩ := next.look
      rw [andThen_some, andThen_some, run_bind, run_bind, run_token, run_token, andThen_some,
        andThen_some, show t'.look.token = t.look.token by rw [same]]
      split
      · split
        · exact ih next
        · exact next
      · refine ih ⟨next.look, next.failures, ?_⟩
        show t'.comments.push _ = t.comments.push _
        rw [next.comments, same]
        rfl
      · exact next

end ParseState.Near

/-- Going on from one token leads to one token, over alike errors and the same comments. -/
theorem Look.Same.next {e e' : Env} (file : e'.file = e.file) {l l' : Look} (same : l.Same l')
    (skipBlanks : Bool) : (Parse.next e skipBlanks l).Near (Parse.next e' skipBlanks l') := by
  obtain ⟨hints, rfl⟩ := same
  have near : (ParseState.bare (leave l)).Near (.bare (leave { l with hints })) := by
    refine ⟨⟨hints, ?_⟩, .nil, rfl⟩
    show leave { l with hints } = { leave l with hints }
    unfold leave
    split <;> rfl
  have run (e : Env) (l : Look) : Parse.next e skipBlanks l =
      ((Parse.takeUpTo skipBlanks (l.scanner.cursor.rest.length + 1)).run e ⟨0, fun _ => true⟩
        (.bare (leave l))).2 := by
    rw [← leave_scanner l]
    rfl
  rw [run, run]
  exact near.takeUpTo file skipBlanks _

/-- What was added to an array up to some place, and what is behind that place. -/
theorem Grows.rejoined {γ : Type} {a b : Array γ} {n : Nat} (grown : Grows (a.take n) b)
    (le : n ≤ a.size) : b.take n ++ a.extract n a.size = a := by
  have size : (a.take n).size = n := by
    rw [Array.take_eq_extract, Array.size_extract]
    omega
  have first := grown.take
  rw [size] at first
  rw [first, Array.take_eq_extract, Array.extract_append_extract]
  simp [le]

namespace Twins

variable {α β γ δ : Type} {τ : Twins} {F G : Floor} {N M : Pairing} {s s' t t' : ParseState}
  {p p' : Snapshot} {R : Pairing → α → β → Prop} {Q : Pairing → γ → δ → Prop} {x : Parse α}
  {x' : Parse β}

/-! ## Floors

To return to a place is to cut errors and comments off at the lengths they had there.  A floor is such a
place, and what is below it is the same on both sides. -/

/-- States that have been reached from a later place have been reached from an earlier one. -/
theorem Meets.lower (meets : τ.Meets (.at s s') N t t') (first : τ.Meets F M s s') : τ.Meets F N t t' :=
  { meets with
    above := first.above.trans meets.above
    above' := first.above'.trans meets.above'
    behind := first.behind.trans meets.behind }

/-- The present place as a floor. -/
theorem Meets.here (meets : τ.Meets F N s s') : τ.Meets (.at s s') N s s' :=
  { meets with
    above := .refl _
    above' := .refl _
    behind := .refl _ }

/-- A place is saved on both sides. -/
theorem Meets.saved (meets : τ.Meets F N s s') : τ.Saved (.at s s') N s.save s'.save where
  look := meets.look
  ok := meets.ok
  failures := meets.failures
  size := rfl
  size' := rfl
  comments := rfl
  comments' := congrArg Array.size meets.comments

/-- Back at the place that was saved. -/
theorem Meets.restored (meets : τ.Meets F N s s') (saved : τ.Saved F N p p') :
    τ.Meets F N { s with toReading := s.restore p } { s' with toReading := s'.restore p' } :=
  -- the errors up to the saved place are those of the floor
  have failures : s.failures.take p.failures = F.failures := saved.size ▸ meets.above.take
  have failures' : s'.failures.take p'.failures = F.failures' := saved.size' ▸ meets.above'.take
  have comments : s.comments.take p.comments = F.comments := saved.comments ▸ meets.behind.take
  have comments' : s'.comments.take p'.comments = F.comments := by
    rw [meets.comments, saved.comments', ← saved.comments]
    exact comments
  { meets with
    look := saved.look
    ok := saved.ok
    failures := by
      show AlikeFailures _ (s.failures.take p.failures) (s'.failures.take p'.failures)
      rw [failures, failures']
      exact saved.failures
    comments := comments'.trans comments.symm
    above := by
      show Grows _ (s.failures.take p.failures)
      rw [failures]
      exact .refl _
    above' := by
      show Grows _ (s'.failures.take p'.failures)
      rw [failures']
      exact .refl _
    behind := by
      show Grows _ (s.comments.take p.comments)
      rw [comments]
      exact .refl _ }

/-- A state has come from a place at which there were no more errors and comments. -/
def Reaches (p : Snapshot) (s : ParseState) : Prop :=
  p.failures ≤ s.failures.size ∧ p.comments ≤ s.comments.size

/-- Both sides have come from the places that were saved. -/
theorem Meets.reaches (meets : τ.Meets F N s s') (saved : τ.Saved F N p p') :
    Reaches p s ∧ Reaches p' s' := by
  refine ⟨⟨?_, ?_⟩, ?_, ?_⟩
  · exact saved.size ▸ meets.above.size_le
  · exact saved.comments ▸ meets.behind.size_le
  · exact saved.size' ▸ meets.above'.size_le
  · rw [meets.comments, saved.comments']
    exact meets.behind.size_le

/-- What has come from a place and returns to it is saved as that place. -/
theorem Reaches.save (h : Reaches p s) : (s.restore p).save = p := by
  obtain ⟨failures, comments⟩ := h
  simp only [Reading.save, Reading.restore, Array.take_eq_extract, Array.size_extract, Nat.sub_zero,
    Nat.min_eq_left failures, Nat.min_eq_left comments]

/-- To read a keyword as an identifier, where it may stand for one. -/
theorem Meets.asIdent (meets : τ.Meets F N s s')
    (allowed : τ.env.allowsInRefs s.look.scanner.keywords s.look.token.name = true) :
    τ.Meets F N { s with look := { s.look with token := .ident } }
      { s' with look := { s'.look with token := .ident } } := by
  obtain ⟨hints, same⟩ := meets.look
  obtain ⟨c, at', solid⟩ := meets.ok
  exact { meets with
    look := ⟨hints, by rw [same]⟩
    ok := ⟨c, at'.asIdent allowed, solid⟩ }

/-! ## Quiet parsers

A parser may look for a word and come back.  Then it has drawn names, which leaves a gap in the numbers on
its side; the pairing need not be by the same number. -/

/-- A parser has come back to where it was, with other advice and with more names drawn. -/
structure Quiet (s t : ParseState) : Prop where
  look : s.look.Same t.look
  failures : t.failures = s.failures
  comments : t.comments = s.comments
  memo : t.memo = s.memo
  depth : t.depth = s.depth
  wildcards : s.wildcards.size ≤ t.wildcards.size

/-- To do nothing is quiet. -/
theorem Quiet.refl (s : ParseState) : Quiet s s :=
  ⟨.refl _, rfl, rfl, rfl, rfl, Nat.le_refl _⟩

/-- To leave other advice is quiet. -/
theorem Quiet.hinted (h : Quiet s t) (hints : List Hint) :
    Quiet s { t with look := { t.look with hints } } :=
  { h with look := h.look.trans ⟨hints, rfl⟩ }

/-- A parser has gone on: errors, comments and names have been added. -/
structure Onward (s t : ParseState) : Prop where
  failures : Grows s.failures t.failures
  comments : Grows s.comments t.comments
  wildcards : s.wildcards.size ≤ t.wildcards.size

/-- Parsers in step have both gone on. -/
theorem Meets.onward (meets : τ.Meets F N s s') (le : N ≤ M) (since : τ.Meets (.at s s') M t t') :
    Onward s t ∧ Onward s' t' :=
  ⟨⟨since.above, since.behind, by rw [meets.left, since.left]; exact le.left⟩,
    ⟨since.above', by rw [meets.comments, since.comments]; exact since.behind,
      by rw [meets.right, since.right]; exact le.right⟩⟩

/-- Whoever has gone on and returns was quiet. -/
theorem Onward.restored (h : Onward s t) (memo : t.memo = s.memo)
    (depth : t.depth = s.depth) : Quiet s { t with toReading := t.restore s.save } where
  look := .refl _
  failures := h.failures.take
  comments := h.comments.take
  memo := memo
  depth := depth
  wildcards := h.wildcards

/-- What either side does quietly does not keep the two from meeting. -/
theorem Meets.quiet (meets : τ.Meets F N s s') (left : Quiet s t) (right : Quiet s' t') :
    ∃ M, N ≤ M ∧ τ.Meets F M t t' := by
  have drawn : N.left ≤ t.wildcards.size := meets.left ▸ left.wildcards
  have drawn' : N.right ≤ t'.wildcards.size := meets.right ▸ right.wildcards
  -- names drawn on one side only are not paired
  refine ⟨N.widen drawn drawn', N.le_widen drawn drawn', ?_⟩
  obtain ⟨hints, same⟩ := left.look
  exact
    { look := (left.look.symm.trans meets.look).trans right.look
      ok := same ▸ meets.ok.hints hints
      failures := by
        rw [left.failures, right.failures]
        exact meets.failures
      comments := by rw [left.comments, right.comments, meets.comments]
      memo := by
        rw [left.memo, right.memo]
        exact meets.memo
      depth := by rw [left.depth, right.depth, meets.depth]
      left := rfl
      right := rfl
      above := left.failures ▸ meets.above
      above' := right.failures ▸ meets.above'
      behind := left.comments ▸ meets.behind }

/-- What is read in step goes on, on both sides. -/
theorem InStep.onward (both : τ.InStep (.at s s') N x x' R) (meets : τ.Meets F N s s') :
    Onward s (x.run τ.env τ.settings s).2 ∧ Onward s' (x'.run τ.env' τ.settings s').2 := by
  have o := both s s' meets.here
  generalize x.run τ.env τ.settings s = r at o ⊢
  generalize x'.run τ.env' τ.settings s' = r' at o ⊢
  cases o with
  | gives le since _ => exact meets.onward le since
  | fails le since => exact meets.onward le since

namespace InStep

/-! ## Going on in step

Going on is one step on both sides. -/

/-- Both sides go on by one token. -/
theorem advance {skipBlanks : Bool} {f : Unit → Parse γ} {f' : Unit → Parse δ}
    (rest : τ.InStep F N (f ()) (f' ()) Q) :
    τ.InStep F N (Parse.advance skipBlanks >>= f) (Parse.advance skipBlanks >>= f') Q :=
  fun s s' meets => by
    have near := meets.look.next (show τ.env'.file = τ.env.file from rfl) skipBlanks
    obtain ⟨c, at', -⟩ := meets.ok
    obtain ⟨d, step⟩ := next_step τ.env skipBlanks at'
    rw [run_bind, run_bind, run_advance, run_advance, andThen_some, andThen_some]
    exact rest _ _
      { look := near.look
        ok := ⟨d, step.at', step.solid⟩
        failures := meets.failures.append (near.failures.mono fun _ _ => False.elim)
        comments := congrArg₂ (· ++ ·) meets.comments near.comments
        memo := meets.memo
        depth := meets.depth
        left := meets.left
        right := meets.right
        above := meets.above.trans ⟨_, rfl⟩
        above' := meets.above'.trans ⟨_, rfl⟩
        behind := meets.behind.trans ⟨_, rfl⟩ }

/-- Both sides go on and skip blanks. -/
theorem scan {f : Unit → Parse γ} {f' : Unit → Parse δ} (rest : τ.InStep F N (f ()) (f' ()) Q) :
    τ.InStep F N (Parse.scan >>= f) (Parse.scan >>= f') Q := advance rest

/-- Both sides go on and stop at blanks. -/
theorem scanBlank {f : Unit → Parse γ} {f' : Unit → Parse δ}
    (rest : τ.InStep F N (f ()) (f' ()) Q) :
    τ.InStep F N (Parse.scanBlank >>= f) (Parse.scanBlank >>= f') Q := advance rest

/-- Both sides see the same token behind the present one. -/
theorem peekBlank {f : Token → Parse γ} {f' : Token → Parse δ}
    (rest : ∀ kind, τ.InStep F N (f kind) (f' kind) Q) :
    τ.InStep F N (Parse.peekBlank >>= f) (Parse.peekBlank >>= f') Q := fun s s' meets => by
  obtain ⟨hints, same⟩ := (meets.look.next (show τ.env'.file = τ.env.file from rfl) false).look
  rw [run_bind, run_bind, run_peekBlank, run_peekBlank, andThen_some, andThen_some, same]
  exact rest _ s s' meets

/-! ## Coming back in step

Coming back is to the floor, so both sides lose what they had added since. -/

/-- Both sides save the place where they are, and it is the floor from then on. -/
theorem save {f : Snapshot → Parse γ} {f' : Snapshot → Parse δ}
    (rest : ∀ G p p', τ.Saved G N p p' → τ.InStep G N (f p) (f' p') Q) :
    τ.InStep F N (Parse.save >>= f) (Parse.save >>= f') Q := fun s s' meets => by
  have o := rest _ _ _ meets.saved s s' meets.here
  show τ.Outcome F N Q ((f s.save).run τ.env τ.settings s) ((f' s'.save).run τ.env' τ.settings s')
  generalize (f s.save).run τ.env τ.settings s = r at o ⊢
  generalize (f' s'.save).run τ.env' τ.settings s' = r' at o ⊢
  cases o with
  | gives le later c => exact .gives le (later.lower meets) c
  | fails le later => exact .fails le (later.lower meets)

/-- Both sides return to places that were saved in step. -/
theorem restore (saved : τ.Saved F N p p') {f : Unit → Parse γ} {f' : Unit → Parse δ}
    (rest : τ.InStep F N (f ()) (f' ()) Q) :
    τ.InStep F N (Parse.restore p >>= f) (Parse.restore p' >>= f') Q := fun _ _ meets =>
  rest _ _ (meets.restored saved)

/-! ## Nesting

The counter of productions is the same on both sides, so both are refused or neither is. -/

/-- Both sides run with one more production under way. -/
theorem deeper (inside : τ.InStep F N x x' R) : τ.InStep F N (Parse.deeper x) (Parse.deeper x') R :=
  fun s s' meets => by
    have o := inside { s with depth := s.depth + 1 } { s' with depth := s'.depth + 1 }
      { meets with depth := congrArg (· + 1) meets.depth }
    have leaves {M : Pairing} {t t' : ParseState} (meets : τ.Meets F M t t') :
        τ.Meets F M { t with depth := t.depth - 1 } { t' with depth := t'.depth - 1 } :=
      { meets with depth := congrArg (· - 1) meets.depth }
    show τ.Outcome F N R
      ((x.run τ.env τ.settings { s with depth := s.depth + 1 }).1,
        { (x.run τ.env τ.settings { s with depth := s.depth + 1 }).2 with
          depth := (x.run τ.env τ.settings { s with depth := s.depth + 1 }).2.depth - 1 })
      ((x'.run τ.env' τ.settings { s' with depth := s'.depth + 1 }).1,
        { (x'.run τ.env' τ.settings { s' with depth := s'.depth + 1 }).2 with
          depth := (x'.run τ.env' τ.settings { s' with depth := s'.depth + 1 }).2.depth - 1 })
    generalize x.run τ.env τ.settings { s with depth := s.depth + 1 } = r at o ⊢
    generalize x'.run τ.env' τ.settings { s' with depth := s'.depth + 1 } = r' at o ⊢
    cases o with
    | gives le meets a => exact .gives le (leaves meets) a
    | fails le meets => exact .fails le (leaves meets)

/-- A production is entered on both sides, or refused. -/
theorem nested (inside : τ.InStep F N x x' R) : τ.InStep F N (Parse.nested x) (Parse.nested x') R :=
  fun s s' meets => by
    -- what is asked is answered by the depth
    have run {ε : Type} (y : Parse ε) (e : Env) (u : ParseState) :
        ∃ j, (Parse.nested y).run e τ.settings u =
          (if τ.settings.answer (.nest u.depth) then Parse.deeper y
            else Parse.reportHere .tooDeep >>= fun _ => Parse.fail).run e τ.settings
            { u with journal := j } := ⟨_, rfl⟩
    obtain ⟨j, left⟩ := run x τ.env s
    obtain ⟨j', right⟩ := run x' τ.env' s'
    have asked : τ.Meets F N { s with journal := j } { s' with depth := s.depth, journal := j' } :=
      { meets with depth := rfl }
    rw [left, right, meets.depth]
    split
    · exact deeper inside _ _ asked
    · exact rejectHere (.same _) _ _ asked

/-! ## Names

A name is drawn by both sides at once, and the two numbers are paired from then on. -/

/-- Both sides draw a name, and these names are paired. -/
theorem freshWildcard {stands : Nat} {f : String → Parse γ} {f' : String → Parse δ}
    (rest : ∀ a b, AlikeName N.draw.pairs a b → τ.InStep F N.draw (f a) (f' b) Q) :
    τ.InStep F N (Parse.freshWildcard stands >>= f) (Parse.freshWildcard stands >>= f') Q :=
  fun s s' meets => by
    have names : AlikeName N.draw.pairs (wildcardName s.wildcards.size)
        (wildcardName s'.wildcards.size) :=
      meets.left ▸ meets.right ▸ .wildcard N.draw_pairs
    have drawn : τ.Meets F N.draw { s with wildcards := s.wildcards.push stands }
        { s' with wildcards := s'.wildcards.push stands } :=
      { meets with
        failures := meets.failures.mono N.le_draw.more
        memo := meets.memo.mono N.le_draw.more
        left := by rw [Array.size_push, meets.left]; rfl
        right := by rw [Array.size_push, meets.right]; rfl }
    exact (rest _ _ names _ _ drawn).since N.le_draw

/-! ## Words

Words may be reserved for a while; what was seen under other words is not remembered. -/

/-- Both sides see whether a keyword may stand for a name. -/
theorem isRefKeyword {f : Bool → Parse γ} {f' : Bool → Parse δ}
    (rest : ∀ word, τ.InStep F N (f word) (f' word) Q) :
    τ.InStep F N (Parse.isRefKeyword >>= f) (Parse.isRefKeyword >>= f') Q := by
  unfold Parse.isRefKeyword
  simp only [bind_assoc, pure_bind]
  exact look fun _ _ => env (rest _)

/-- Both sides see whether there is a name. -/
theorem isIdent {f : Bool → Parse γ} {f' : Bool → Parse δ}
    (rest : ∀ word, τ.InStep F N (f word) (f' word) Q) :
    τ.InStep F N (Parse.isIdent >>= f) (Parse.isIdent >>= f') Q := fun s s' meets => by
  obtain ⟨hints, same⟩ := meets.look
  have words : τ.env'.allowsInRefs s'.look.scanner.keywords s'.look.token.name =
      τ.env.allowsInRefs s.look.scanner.keywords s.look.token.name := by
    rw [same]
    rfl
  rw [run_bind, run_bind, run_isIdent, run_isIdent, words, show s'.look.token = s.look.token by rw [same]]
  split
  · exact rest true s s' meets
  · split
    · next allowed => exact rest true _ _ (meets.asIdent allowed)
    · exact rest false s s' meets

/-- Both sides see whether a keyword starts a reference. -/
theorem startsRefWithKeyword {f : Bool → Parse γ} {f' : Bool → Parse δ}
    (rest : ∀ found, τ.InStep F N (f found) (f' found) Q) :
    τ.InStep F N (Parse.startsRefWithKeyword >>= f) (Parse.startsRefWithKeyword >>= f') Q :=
  fun s s' meets => by
    obtain ⟨hints, same⟩ := meets.look
    have words : τ.env'.allowsInRefs s'.look.scanner.keywords s'.look.token.name =
        τ.env.allowsInRefs s.look.scanner.keywords s.look.token.name := by
      rw [same]
      rfl
    have next : (Parse.next τ.env' false s'.look).look.token =
        (Parse.next τ.env false s.look).look.token := by
      obtain ⟨_, next⟩ := (meets.look.next (show τ.env'.file = τ.env.file from rfl) false).look
      rw [next]
    rw [run_bind, run_bind, run_startsRefWithKeyword, run_startsRefWithKeyword, words, next]
    split
    · next allowed =>
        split
        · exact rest true _ _ (meets.asIdent allowed)
        · exact rest false s s' meets
    · exact rest false s s' meets

/-- Other words are reserved for a while, and nothing is remembered of readings under the present ones. -/
theorem withKeywords {change : Scanner → Scanner}
    (known : ∀ l : Look, l.Ok τ.source → Look.Ok τ.source { l with scanner := change l.scanner })
    (inside : τ.InStep F N x x' R) :
    τ.InStep F N (Parse.withKeywords change x) (Parse.withKeywords change x') R := fun s s' meets => by
  obtain ⟨u, depth, journal⟩ := s
  obtain ⟨u', depth', journal'⟩ := s'
  have under : τ.Meets F N ⟨Route.Takes.Under change u, depth, journal⟩
      ⟨Route.Takes.Under change u', depth', journal'⟩ := by
    obtain ⟨hints, same⟩ := meets.look
    exact { meets with
      look := ⟨hints, by show ({ u'.look with scanner := _ } : Look) = _; rw [show u'.look = _ from same]; rfl⟩
      ok := known _ meets.ok
      memo := .empty }
  have o := inside _ _ under
  rw [Route.Takes.run_withKeywords, Route.Takes.run_withKeywords]
  generalize x.run τ.env τ.settings ⟨Route.Takes.Under change u, depth, journal⟩ = r at o ⊢
  generalize x'.run τ.env' τ.settings ⟨Route.Takes.Under change u', depth', journal'⟩ = r' at o ⊢
  -- behind it both sides have the words and the memory from before
  have closed {M : Pairing} {t t' : ParseState} (le : N ≤ M) (since : τ.Meets F M t t') :
      τ.Meets F M { t with toReading := Route.Takes.Closed u t.toReading }
        { t' with toReading := Route.Takes.Closed u' t'.toReading } := by
    obtain ⟨hints, same⟩ := meets.look
    obtain ⟨c, at', -⟩ := meets.ok
    obtain ⟨hints', same'⟩ := since.look
    obtain ⟨d, stands, solid⟩ := since.ok
    exact { since with
      look := ⟨hints', by
        show Look.mk _ _ _ _ _ _ _ _ = _
        rw [same', show u'.look = _ from same]
        rfl⟩
      ok := ⟨d, { stands with known := at'.known }, solid⟩
      memo := meets.memo.mono le.more }
  cases o with
  | gives le meets a => exact .gives le (closed le meets) a
  | fails le meets => exact .fails le (closed le meets)

/-- Both sides read with all words of the future reserved. -/
theorem withFutureKeywords (inside : τ.InStep F N x x' R) :
    τ.InStep F N (Parse.withFutureKeywords x) (Parse.withFutureKeywords x') R :=
  withKeywords (fun _ ⟨c, at', solid⟩ =>
    ⟨c, { at' with known := at'.known.extend KeywordTable.known_future }, solid⟩) inside

/-- Both sides read with no word of the future reserved. -/
theorem withoutFutureKeywords (inside : τ.InStep F N x x' R) :
    τ.InStep F N (Parse.withoutFutureKeywords x) (Parse.withoutFutureKeywords x') R :=
  withKeywords (fun _ ⟨c, at', solid⟩ =>
    ⟨c, { at' with known := at'.known.removeAll .future }, solid⟩) inside

/-- Both sides leave advice. -/
theorem hint {h : Hint} {f : Unit → Parse γ} {f' : Unit → Parse δ}
    (rest : τ.InStep F N (f ()) (f' ()) Q) :
    τ.InStep F N (Parse.hint h >>= f) (Parse.hint h >>= f') Q := fun _ _ meets =>
  rest _ _ { meets with
    look := meets.look.hinted _ _
    ok := meets.ok.hints _ }

/-! ## Variables

A variable is the text of its token, or a name that was drawn. -/

/-- A word is a variable of its name, or a wildcard that both sides draw a name for. -/
theorem variableHere (meets : τ.Meets F N s s')
    (word : s.look.token = .ident ∨ s.look.token.isKeyword ∨ s.look.token.isFutureKeyword) :
    τ.Outcome F N (fun M => Term.Alike M.pairs) (Parse.variableHere.run τ.env τ.settings s)
      (Parse.variableHere.run τ.env' τ.settings s') := by
  have plain : isWildcardName s.look.literal = false := by
    obtain ⟨c, at', solid⟩ := meets.ok
    have ident := at'.kind_of_word word
    have filled : c.rest ≠ [] := by
      obtain ⟨_, _, rest, -⟩ := Lexeme.letter_of_ident ident
      exact rest ▸ List.cons_ne_nil _ _
    rw [at'.literal_eq solid filled]
    exact Cursor.word_plain ident
  have same : s'.look.literal = s.look.literal := by
    obtain ⟨hints, same⟩ := meets.look
    rw [same]
    rfl
  -- a wildcard is drawn a name, and any other word is its own
  have named (literal : String) (plain : isWildcardName literal = false) :
      τ.InStep F N
        (do Parse.here (.var (← if literal == wildcard then do Parse.freshWildcard (← Parse.offset)
          else Pure.pure literal)))
        (do Parse.here (.var (← if literal == wildcard then do Parse.freshWildcard (← Parse.offset)
          else Pure.pure literal)))
        fun M => Term.Alike M.pairs := by
    split
    · exact offset fun _ => freshWildcard fun _ _ name => here (.var name)
    · exact here (.var (.plain plain))
  have o := named _ plain s s' meets
  unfold Parse.variableHere
  rw [run_bind, run_bind, run_look, run_look, andThen_some, andThen_some, same]
  exact o

/-! ## Remembered terms

What is remembered was read in step, so it is alike; the entries on both sides are at the same offsets. -/

/-- Both sides recall alike entries, or none. -/
theorem remembered {f : Option MemoEntry → Parse γ} {f' : Option MemoEntry → Parse δ}
    (rest : ∀ e e', Option.Rel (MemoEntry.Alike τ.source N.pairs) e e' → τ.InStep F N (f e) (f' e') Q) :
    τ.InStep F N (Parse.remembered >>= f) (Parse.remembered >>= f') Q := fun s s' meets => by
  have recalls : ∀ q, τ.settings.recalls q = true := fun _ => rfl
  obtain ⟨j, left⟩ := run_remembered τ.env recalls s
  obtain ⟨j', right⟩ := run_remembered τ.env' recalls s'
  rw [run_bind, run_bind, left, right, andThen_some, andThen_some]
  refine rest _ _ ?_ _ _ { meets with }
  rw [meets.look.offset]
  exact meets.memo.lookup _

/-- Both sides give again what they recall. -/
theorem replay {e e' : MemoEntry} (alike : e.Alike τ.source N.pairs e') :
    τ.InStep F N (Parse.replay e) (Parse.replay e') fun M => Term.Alike M.pairs := fun s s' meets => by
  refine ofOption (R := fun M => Term.Alike M.pairs) alike.term _ _ { meets with
    look := alike.after
    ok := alike.ok
    failures := meets.failures.append alike.failures
    comments := congrArg₂ (· ++ ·) meets.comments alike.comments
    above := meets.above.trans ⟨_, rfl⟩
    above' := meets.above'.trans ⟨_, rfl⟩
    behind := meets.behind.trans ⟨_, rfl⟩ }

/-- Both sides remember what they have read since the saved place. -/
theorem remember (saved : τ.Saved F N p p') {a b : Option Term} (alike : Option.Rel (Term.Alike N.pairs) a b)
    {f : Unit → Parse γ} {f' : Unit → Parse δ} (rest : τ.InStep F N (f ()) (f' ()) Q) :
    τ.InStep F N (Parse.remember p a >>= f) (Parse.remember p' b >>= f') Q := fun s s' meets => by
  have sizes : p'.failures = p.failures := by rw [saved.size, saved.size', saved.failures.size]
  refine rest _ _ { meets with memo := meets.memo.push ?_ }
  exact
    { before := saved.look
      clean := congrArg (· == 0) sizes
      term := alike
      after := meets.look
      ok := meets.ok
      failures := by
        show AlikeFailures _ (s.failures.extract p.failures s.failures.size)
          (s'.failures.extract p'.failures s'.failures.size)
        rw [sizes]
        exact meets.failures.extract _
      comments := by
        show s'.comments.extract p'.comments s'.comments.size =
          s.comments.extract p.comments s.comments.size
        rw [meets.comments, saved.comments, saved.comments'] }

end InStep

end Twins

end RegoSyntax
