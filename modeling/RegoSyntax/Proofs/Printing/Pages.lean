/-
# RegoSyntax.Proofs.Printing.Pages — reading a text that is known.

What a parser does on a text that is known can be followed token by token.  A `Page` is such a text in the
current dialect, `Page.Here` says that the parser has come to where a given rest of it is left, and
`Page.Runs` is the judgement on a parser: whatever has been asked before, and whatever is to be taken up
again, it comes to a result as described.  There is no ceiling, so no production is refused; and all terms
that are remembered start before the place that the parser has come to, so none is taken up again.
-/
import RegoSyntax.Proofs.Courses
import RegoSyntax.Proofs.Printing.Spelling

namespace RegoSyntax

open Parse Lexeme

/-! ## Landing

Behind a token the next one is reached, or a blank first and then the next one. -/

namespace Parse.Step

variable {source : String} {env : Env} {b : Bool} {c c' : Cursor} {l : Look} {t : ParseState}

/-- A step leads to the next token, if that is one to stop at. -/
theorem lands (h : Step source env b c c' l t) (starts : c.Starts source)
    (faults : c.skip.lexeme.faults = []) (solid : c.skip.lexeme.kind ≠ .comment)
    (filled : b = true → c.skip.lexeme.kind ≠ .whitespace) : c' = c.skip ∧ t.failures = #[] := by
  obtain rfl := h.rests solid filled
  refine ⟨rfl, h.clean fun d hd from' upTo => ?_⟩
  rw [hd.eq_of_offset starts.skip (Nat.le_antisymm upTo from')]
  exact faults

/-- A step over a blank leads to the token behind it. -/
theorem lands_past (h : Step source env true c c' l t) (starts : c.Starts source)
    (blank : c.skip.lexeme = ⟨.whitespace, 1, []⟩) (legal : Legal c.skip.skip.rest) :
    c' = c.skip.skip ∧ t.failures = #[] := by
  have filled : c.skip.rest ≠ [] := by
    intro none
    rw [Cursor.lexeme, none] at blank
    cases blank
  have before : c.offset < c.skip.skip.offset :=
    c.offset_le_skip.trans_lt (Cursor.offset_lt_skip filled)
  -- -- the landing lies neither before the blank nor on it
  have beyond : c.skip.skip.offset ≤ c'.offset := by
    rcases starts.skip.line h.at'.starts with same | ⟨-, le⟩ | ⟨lt, -⟩
    · exact absurd (by rw [← same, blank]) (h.blank rfl)
    · exact le
    · exact absurd h.ahead (Nat.not_le_of_lt lt)
  have reached : c' = c.skip.skip := by
    refine h.at'.starts.eq_of_offset starts.skip.skip (Nat.le_antisymm ?_ beyond)
    -- -- nor behind the token, which is solid and so would have stopped the scan
    refine Nat.le_of_not_lt fun passed => ?_
    exact h.gap _ starts.skip.skip before passed ⟨legal.filled, legal.solid⟩
  subst reached
  -- -- the tokens on the way are the blank and the landing, and neither has a fault
  refine ⟨rfl, h.clean fun d hd from' upTo => ?_⟩
  rcases starts.skip.line hd with rfl | ⟨-, le⟩ | ⟨lt, -⟩
  · rw [blank]
  · rw [hd.eq_of_offset starts.skip.skip (Nat.le_antisymm upTo le)]
    exact legal.faults
  · exact absurd from' (Nat.not_le_of_lt lt)

end Parse.Step

/-! ## Pages

A page is one text, and where the parser is in it is told by what is left of the text.  There are no
errors, and nothing is remembered of what is still to be read. -/

/-- A text that is read in the current dialect. -/
structure Page where
  source : String
  env : Env
  version : env.version = .v1
  capabilities : env.capabilities = .ofVersion .v1

namespace Page

variable {p : Page}

/-- The parser has come to where `s` is left, without an error.  The one keyword that may be a variable may
have been taken for an identifier. -/
structure Sees (p : Page) (s : List Char) (u : Reading) : Prop where
  at' : ∃ c, u.look.At p.source c ∧ c.rest = s
  token : u.look.token = shown s ∨ (shown s = .containsKw ∧ u.look.token = .ident)
  words : u.look.scanner.keywords = .current
  clean : u.failures = #[]

/-- All terms that are remembered start before the place where `s` is left. -/
def Clear (p : Page) (s : List Char) (m : Memo) : Prop :=
  ∀ e ∈ m.entries, e.offset + String.utf8Len s < p.source.utf8ByteSize

/-- The parser has come to where `s` is left, and remembers nothing of what it is to read. -/
structure Here (p : Page) (s : List Char) (u : Reading) : Prop extends p.Sees s u where
  memo : p.Clear s u.memo

/-- The parser has come to the last token before the place where `r` is left. -/
def Last (p : Page) (r : List Char) (u : Reading) : Prop :=
  ∃ s, p.Here s u ∧ s ≠ [] ∧ behind s = r

/-- What is clear before a text is clear before a shorter rest of it. -/
theorem Clear.mono {s s' : List Char} {m : Memo} (h : p.Clear s m)
    (le : String.utf8Len s' ≤ String.utf8Len s) : p.Clear s' m := fun e he =>
  (Nat.add_le_add_left le _).trans_lt (h e he)

/-- Behind a token less is left. -/
theorem utf8Len_behind (s : List Char) : String.utf8Len (behind s) ≤ String.utf8Len s := by
  conv_rhs => rw [← List.take_append_drop (next s).size s, String.utf8Len_append]
  exact Nat.le_add_left _ _

/-- Behind a blank less is left. -/
theorem utf8Len_past (s : List Char) : String.utf8Len (past s) ≤ String.utf8Len s := by
  unfold past
  split
  · rw [String.utf8Len_cons]
    exact Nat.le_add_right _ _
  · exact Nat.le_refl _

namespace Sees

variable {s r : List Char} {u : Reading} {kind : Token}

/-- A token that is no word that may be a variable is what the text shows. -/
theorem token_eq (h : p.Sees s u) (token : shown s = kind) (other : kind ≠ .containsKw) :
    u.look.token = kind := by
  rcases h.token with same | ⟨contains, -⟩
  · exact same.trans token
  · exact absurd (token.symm.trans contains) other

/-- What is left says where the parser is. -/
theorem offset_add (h : p.Sees s u) : u.look.offset + String.utf8Len s = p.source.utf8ByteSize := by
  obtain ⟨c, at', rfl⟩ := h.at'
  obtain ⟨before, split, place⟩ := at'.starts.in
  rw [at'.offset, place, ← String.utf8Len_toList, split, String.utf8Len_append]

/-- The literal text of a token is what stands in the text. -/
theorem literal_eq (h : p.Sees s u) (solid : (Lexeme.next s).kind ≠ .comment) (filled : s ≠ []) :
    u.look.literal = String.ofList (s.take (Lexeme.next s).size) := by
  obtain ⟨c, at', rfl⟩ := h.at'
  exact at'.literal_eq solid filled

/-- Going on leads to a place where `r` is left, over legal tokens. -/
def Leads (p : Page) (b : Bool) (u : Reading) (r : List Char) : Prop :=
  (∃ c, (Parse.next p.env b u.look).look.At p.source c ∧ c.rest = r) ∧
    (Parse.next p.env b u.look).look.token = shown r ∧
    (Parse.next p.env b u.look).look.scanner.keywords = .current ∧
    (Parse.next p.env b u.look).failures = #[]

/-- The next token, if that is one to stop at. -/
theorem leads {b : Bool} (h : p.Sees s u) (left : behind s = r) (stops : Stops r)
    (filled : b = true → (next r).kind ≠ .whitespace) : Leads p b u r := by
  obtain ⟨c, at', rest⟩ := h.at'
  obtain ⟨c', step⟩ := next_step p.env b at'
  have rest : c.skip.rest = r := by
    rw [Cursor.skip, Cursor.advanceBy_rest, Cursor.lexeme, rest, ← left, behind]
  have lexeme : c.skip.lexeme = next r := by rw [Cursor.lexeme, rest]
  obtain ⟨rfl, clean⟩ :=
    step.lands at'.starts (lexeme ▸ stops.faults) (lexeme ▸ stops.solid) (lexeme ▸ filled)
  have words := step.keywords.trans h.words
  refine ⟨⟨c.skip, step.at', rest⟩, ?_, words, clean⟩
  rw [step.exact, words, ← rest]
  rfl

/-- The token behind a blank. -/
theorem leads_past (h : p.Sees s u) (left : behind s = ' ' :: r) (legal : Legal r) :
    Leads p true u r := by
  obtain ⟨c, at', rest⟩ := h.at'
  obtain ⟨c', step⟩ := next_step p.env true at'
  have first : c.skip.rest = ' ' :: r := by
    rw [Cursor.skip, Cursor.advanceBy_rest, Cursor.lexeme, rest, ← left, behind]
  have blank : c.skip.lexeme = ⟨.whitespace, 1, []⟩ := by
    rw [Cursor.lexeme, first]
    rfl
  have rest : c.skip.skip.rest = r := by
    rw [Cursor.skip, Cursor.advanceBy_rest, blank, first]
    rfl
  obtain ⟨rfl, clean⟩ := step.lands_past at'.starts blank (rest ▸ legal)
  have words := step.keywords.trans h.words
  refine ⟨⟨c.skip.skip, step.at', rest⟩, ?_, words, clean⟩
  rw [step.exact, words, ← rest]
  rfl

end Sees

/-! ## The judgement

A run is followed to what is given and to where the parser is then.  The judgement is about a page, so a
parser needs no other assumption. -/

/-- A parser comes to a result as described, in whatever state it is run. -/
def Runs {α : Type} (p : Page) (x : Parse α) (u : Reading) (Q : Option α → Reading → Prop) : Prop :=
  ∀ o depth journal, o.maxDepth = 0 →
    Q (x.run p.env o ⟨u, depth, journal⟩).1 (x.run p.env o ⟨u, depth, journal⟩).2.toReading

/-- A result that is there, and as described. -/
def Given {α : Type} (Q : α → Reading → Prop) (a : Option α) (t : Reading) : Prop :=
  ∃ b, a = some b ∧ Q b t

section rules

variable {α β γ : Type} {u v : Reading} {P : α → Reading → Prop} {Q : Option β → Reading → Prop}

theorem runs_pure {a : β} (holds : Q (some a) u) : p.Runs (pure a) u Q := fun _ _ _ _ => holds

theorem gives_pure {Q : β → Reading → Prop} {a : β} (holds : Q a u) : p.Runs (pure a) u (Given Q) :=
  runs_pure ⟨a, rfl, holds⟩

theorem gives_here {Q : Term → Reading → Prop} {value : Value} (holds : Q ⟨value, some u.look.location⟩ u) :
    p.Runs (here value) u (Given Q) := fun _ _ _ _ => ⟨_, rfl, holds⟩

theorem runs_fail (holds : Q none u) : p.Runs (fail : Parse β) u Q := fun _ _ _ _ => holds

/-- One parser after the other. -/
theorem runs_bind {x : Parse α} {f : α → Parse β} {P : Option α → Reading → Prop}
    (first : p.Runs x u P) (failed : ∀ t, P none t → Q none t)
    (rest : ∀ a t, P (some a) t → p.Runs (f a) t Q) : p.Runs (x >>= f) u Q := by
  intro o depth journal free
  have first := first o depth journal free
  rw [run_bind]
  rcases h : x.run p.env o ⟨u, depth, journal⟩ with ⟨_ | a, ⟨t, depth', journal'⟩⟩
  · rw [h] at first
    exact failed t first
  · rw [h] at first
    exact rest a t first o depth' journal' free

/-- One parser behind another. -/
theorem gives_bind {x : Parse α} {f : α → Parse β} (first : p.Runs x u (Given P))
    (rest : ∀ a t, P a t → p.Runs (f a) t Q) : p.Runs (x >>= f) u Q :=
  runs_bind first (fun _ ⟨_, other, _⟩ => nomatch other) fun a t ⟨_, same, holds⟩ =>
    rest a t (Option.some.inj same ▸ holds)

/-- What is said of a run may be less. -/
theorem Runs.imp {x : Parse β} {Q' : Option β → Reading → Prop} (h : p.Runs x u Q)
    (imp : ∀ a t, Q a t → Q' a t) : p.Runs x u Q' :=
  fun o depth journal free => imp _ _ (h o depth journal free)

/-- What is said of a result may be less. -/
theorem Runs.imp_given {x : Parse α} {P' : α → Reading → Prop} (h : p.Runs x u (Given P))
    (imp : ∀ a t, P a t → P' a t) : p.Runs x u (Given P') :=
  h.imp fun _ t ⟨b, same, holds⟩ => ⟨b, same, imp b t holds⟩

theorem runs_attempt {x : Parse α} {Q : Option (Option α) → Reading → Prop}
    (h : p.Runs x u fun a t => Q (some a) t) : p.Runs (attempt x) u Q :=
  fun o depth journal free => h o depth journal free

theorem runs_ofOption {a : β} (holds : Q (some a) u) : p.Runs (ofOption (some a)) u Q := runs_pure holds

/-- There is no ceiling. -/
theorem runs_nested {x : Parse β} (h : p.Runs x u Q) : p.Runs (nested x) u Q := by
  intro o depth journal free
  have answer : o.answer (.nest depth) = true := by
    simp [Settings.answer, DepthLimit.enter?, free]
  rw [run_nested_granted p.env x answer]
  exact h o (depth + 1) _ free

/-! ### Asking -/

section asking

variable {f : α → Parse β} {x : Parse γ} {g : γ → Parse α}

theorem pure_bind_iff {a : α} : p.Runs (pure a >>= f) u Q ↔ p.Runs (f a) u Q := Iff.rfl

theorem bind_bind_iff :
    p.Runs ((x >>= g) >>= f) u Q ↔ p.Runs (x >>= fun c => g c >>= f) u Q := by
  rw [bind_assoc]

theorem token_iff {f : Token → Parse β} :
    p.Runs (token >>= f) u Q ↔ p.Runs (f u.look.token) u Q := Iff.rfl

theorem location_iff {f : Location → Parse β} :
    p.Runs (location >>= f) u Q ↔ p.Runs (f u.look.location) u Q := Iff.rfl

theorem offset_iff {f : Nat → Parse β} :
    p.Runs (offset >>= f) u Q ↔ p.Runs (f u.look.offset) u Q := Iff.rfl

theorem lastStop_iff {f : Nat → Parse β} :
    p.Runs (lastStop >>= f) u Q ↔ p.Runs (f u.look.lastStop) u Q := Iff.rfl

theorem look_iff {f : Look → Parse β} : p.Runs (look >>= f) u Q ↔ p.Runs (f u.look) u Q := Iff.rfl

theorem reading_iff {f : Reading → Parse β} :
    p.Runs (reading >>= f) u Q ↔ p.Runs (f u) u Q := Iff.rfl

theorem env_iff {f : Env → Parse β} : p.Runs (Parse.env >>= f) u Q ↔ p.Runs (f p.env) u Q := Iff.rfl

theorem save_iff {f : Snapshot → Parse β} : p.Runs (save >>= f) u Q ↔ p.Runs (f u.save) u Q := Iff.rfl

theorem noFailures_iff {f : Bool → Parse β} :
    p.Runs (noFailures >>= f) u Q ↔ p.Runs (f u.failures.isEmpty) u Q := Iff.rfl

theorem placed_iff {t : Term} {l : Location} {start stop : Nat} {f : Term → Parse β} :
    p.Runs (placed t l start stop >>= f) u Q ↔
      p.Runs (f (t.placed { l with text := u.look.text start stop })) u Q := Iff.rfl

/-- A term is put in its place, which does not count. -/
theorem gives_placed {Q : Term → Reading → Prop} {t : Term} {l : Location} {start stop : Nat}
    (holds : ∀ l, Q ⟨t.value, l⟩ u) : p.Runs (placed t l start stop) u (Given Q) :=
  fun _ _ _ _ => ⟨_, rfl, holds _⟩

theorem upToLastStop_iff {l : Location} {f : Location → Parse β} :
    p.Runs (upToLastStop l >>= f) u Q ↔
      p.Runs (f { l with text := u.look.text l.offset u.look.lastStop }) u Q := Iff.rfl

theorem isRefKeyword_iff {f : Bool → Parse β} :
    p.Runs (isRefKeyword >>= f) u Q ↔
      p.Runs (f (p.env.allowsInRefs u.look.scanner.keywords u.look.token.name)) u Q := Iff.rfl

theorem modify_iff {f : Reading → Reading} {g : Unit → Parse β} :
    p.Runs (modify f >>= g) u Q ↔ p.Runs (g ()) (f u) Q := Iff.rfl

theorem modifyLook_iff {f : Look → Look} {g : Unit → Parse β} :
    p.Runs (modifyLook f >>= g) u Q ↔ p.Runs (g ()) { u with look := f u.look } Q := Iff.rfl

theorem restore_iff {s : Snapshot} {g : Unit → Parse β} :
    p.Runs (restore s >>= g) u Q ↔ p.Runs (g ()) (u.restore s) Q := Iff.rfl

theorem peekBlank_iff {f : Token → Parse β} :
    p.Runs (peekBlank >>= f) u Q ↔ p.Runs (f (next p.env false u.look).look.token) u Q := by
  have same (o : Settings) (depth : Nat) (journal : List (Question × Bool)) :
      (peekBlank >>= f).run p.env o ⟨u, depth, journal⟩ =
        (f (next p.env false u.look).look.token).run p.env o ⟨u, depth, journal⟩ := by
    rw [run_bind, run_peekBlank, andThen_some]
  constructor
  · intro h o depth journal free
    rw [← same]
    exact h o depth journal free
  · intro h o depth journal free
    rw [same]
    exact h o depth journal free

end asking

end rules

/-! ## Going on

Going on leads to what is left behind a token, and a blank in front of it is passed over. -/

variable {s r : List Char} {u : Reading}

/-- To go on leads to what is left behind the token. -/
theorem Sees.advance {b : Bool} (h : p.Sees s u) (leads : Sees.Leads p b u r) :
    p.Runs (Parse.advance b) u <| Given fun _ v => p.Sees r v ∧ v.memo = u.memo := by
  intro o depth journal _
  obtain ⟨at', token, words, clean⟩ := leads
  rw [run_advance]
  refine ⟨(), rfl, ⟨at', .inl token, words, ?_⟩, rfl⟩
  show u.failures ++ (next p.env b u.look).failures = #[]
  rw [h.clean, clean]
  rfl

/-- A return leads back to where the parser was, whatever has been remembered since. -/
theorem Sees.restore (h : p.Sees s u) (v : Reading) : p.Sees s (v.restore u.save) where
  at' := h.at'
  token := h.token
  words := h.words
  clean := by
    show v.failures.take u.failures.size = #[]
    rw [h.clean]
    exact Array.extract_zero

/-- A blank is all that may be passed over. -/
theorem Sees.scan (h : p.Sees s u) (legal : Legal (past (behind s))) :
    p.Runs Parse.scan u <| Given fun _ v => p.Sees (past (behind s)) v ∧ v.memo = u.memo := by
  rcases left : behind s with _ | ⟨c, t⟩
  · rw [left] at legal
    exact h.advance (h.leads left legal.toStops fun _ => legal.filled)
  by_cases blank : c = ' '
  · subst blank
    rw [left] at legal
    exact h.advance (h.leads_past left legal)
  · have same : past (c :: t) = c :: t := by
      unfold past
      split
      · next same => exact absurd (List.cons.inj same).1 blank
      · rfl
    rw [left, same] at legal
    rw [same]
    exact h.advance (h.leads left legal.toStops fun _ => legal.filled)

/-- The token behind the current one, blanks included. -/
theorem Sees.scanBlank (h : p.Sees s u) (stops : Stops (behind s)) :
    p.Runs Parse.scanBlank u <| Given fun _ v => p.Sees (behind s) v ∧ v.memo = u.memo :=
  h.advance (h.leads rfl stops nofun)

/-- The token that is seen is the last one, and the rest is behind it. -/
theorem Here.last (h : p.Here s u) (filled : s ≠ []) : p.Last (behind s) u := ⟨s, h, filled, rfl⟩

/-- The parser has come to a token of which the end is known. -/
theorem Here.before {c : Char} (h : p.Here (c :: s) u) (left : behind (c :: s) = r) : p.Last r u :=
  ⟨c :: s, h, List.cons_ne_nil c s, left⟩

namespace Last

/-- Go on from the last token. -/
theorem scan (h : p.Last r u) (legal : Legal (past r)) :
    p.Runs Parse.scan u <| Given fun _ v => p.Here (past r) v := by
  obtain ⟨s, here, -, rfl⟩ := h
  refine (here.scan legal).imp_given fun _ v ⟨sees, memo⟩ => ⟨sees, memo ▸ here.memo.mono ?_⟩
  exact (utf8Len_past _).trans (utf8Len_behind s)

/-- Behind the last token the parser goes on, blanks included. -/
theorem scanBlank (h : p.Last r u) (stops : Stops r) :
    p.Runs Parse.scanBlank u <| Given fun _ v => p.Here r v := by
  obtain ⟨s, here, -, rfl⟩ := h
  exact (here.toSees.scanBlank stops).imp_given fun _ v ⟨sees, memo⟩ =>
    ⟨sees, memo ▸ here.memo.mono (utf8Len_behind s)⟩

end Last

/-! ## Words as identifiers

A keyword may be taken for a name where a reference goes on behind it, and this is seen by a look at the
next token, blanks included. -/

/-- The keywords of the current dialect may stand for identifiers in references, and no other tokens. -/
theorem allowsInRefs (p : Page) (kind : Token) :
    p.env.allowsInRefs .current kind.name = (kind.isKeyword || kind.isFutureKeyword) := by
  have features : (Capabilities.ofVersion .v1).hasFeature Capabilities.keywordsInRefs = true := by
    decide +kernel
  have names : ∀ kind : Token, (Version.v1.reserves kind.name || KeywordTable.current.contains kind.name) =
      (kind.isKeyword || kind.isFutureKeyword) := by
    intro kind
    cases kind <;> decide +kernel
  rw [Env.allowsInRefs, p.capabilities, p.version, features, Bool.true_and, names]

/-- What comes next, blanks included. -/
theorem Sees.peek (h : p.Sees s u) (stops : Stops (behind s)) :
    (next p.env false u.look).look.token = shown (behind s) :=
  (h.leads (b := false) rfl stops nofun).2.1

/-- Where no reference goes on behind a keyword, it is left alone. -/
theorem Sees.startsRefWithKeyword (h : p.Sees s u)
    (alone : (shown s).isKeyword ∨ (shown s).isFutureKeyword →
      Stops (behind s) ∧ continuesRef (shown (behind s)) = false) :
    p.Runs Parse.startsRefWithKeyword u <| Given fun b v => b = false ∧ v = u := by
  unfold Parse.startsRefWithKeyword
  rw [isRefKeyword_iff, h.words, p.allowsInRefs]
  split
  · next word =>
      have word : (shown s).isKeyword ∨ (shown s).isFutureKeyword := by
        rcases h.token with same | ⟨contains, -⟩
        · rw [← same]
          exact Bool.or_eq_true _ _ ▸ word
        · rw [contains]
          exact .inr rfl
      obtain ⟨stops, ends⟩ := alone word
      rw [peekBlank_iff, h.peek stops, ends]
      exact gives_pure ⟨rfl, rfl⟩
  · exact gives_pure ⟨rfl, rfl⟩

/-- The keyword that may be a variable is one in any case. -/
theorem Here.startsRefWithKeyword (h : p.Here s u) (contains : shown s = .containsKw) :
    p.Runs Parse.startsRefWithKeyword u <| Given fun _ v => p.Here s v := by
  unfold Parse.startsRefWithKeyword
  rw [isRefKeyword_iff]
  split
  · next allowed =>
      rw [peekBlank_iff]
      split
      · obtain ⟨c, at', rest⟩ := h.at'
        have asIdent : p.Here s { u with look := { u.look with token := .ident } } :=
          { at' := ⟨c, at'.asIdent allowed, rest⟩, token := .inr ⟨contains, rfl⟩
            words := h.words, clean := h.clean, memo := h.memo }
        rw [Parse.asIdent, modifyLook_iff]
        exact gives_pure asIdent
      · exact gives_pure h
  · exact gives_pure h

end Page

end RegoSyntax
