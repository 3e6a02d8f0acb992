/-
# RegoSyntax.Proofs.Tracks.Primaries — primary terms stand where they start.

A wildcard is the only variable that is drawn, and no word of a source has the name of one.  A term that
is remembered was read from the token that the parser has come back to: its place is as good as it was,
and its wildcards are older than all that are drawn since.

A wildcard draws a name at the offset of its token, and so the pair of name and offset tells it from all
others; `Spans.wildcard` is where the list of drawn names comes in.  All other variables are words, and
`Cursor.word_plain` is why they are never mistaken for wildcards.
-/
import RegoSyntax.Proofs.Primaries
import RegoSyntax.Proofs.Tracks.Collections

namespace RegoSyntax

open Parse

/-- No word is named like a wildcard. -/
theorem Cursor.word_plain {c : Cursor} (word : c.lexeme.kind = .ident) : isWildcardName c.word = false := by
  obtain ⟨x, t, rest, letter⟩ := Lexeme.letter_of_ident word
  have size := Lexeme.size_pos (s := c.rest) (rest ▸ List.cons_ne_nil x t)
  rw [rest] at size
  obtain ⟨n, length⟩ := Nat.exists_eq_succ_of_ne_zero size.ne'
  rw [isWildcardName, Cursor.word, String.toList_ofList, Cursor.lexeme, rest, length, List.take_succ_cons]
  exact beq_false_of_ne fun same => Lexeme.isLetter_ne_mark letter (Option.some.inj same)

/-- The wildcards of a variable. -/
theorem wildcardsOf_var (name : String) (l : Option Location) :
    wildcardsOf (Term.mk (.var name) l).walk = if isWildcardName name then [name] else [] := by
  show [Visit.term _, Visit.value _].filterMap Visit.wildcard? = _
  rw [List.filterMap_cons, Visit.wildcard?]
  by_cases wild : isWildcardName name = true
  · rw [if_pos wild, if_pos wild]
    rfl
  · rw [if_neg wild, if_neg wild]
    rfl

namespace Survey

variable {m : Survey} {c d : Cursor} {r u v w : Reading}

/-- A variable with the name that was drawn for it. -/
theorem Spans.wildcard {W : Array Nat} {n : Nat} {name : String} {l : Location} (drawn : Drawn W name n)
    (blank : m.Blank n) (anchored : m.Anchored l) :
    m.Spans W n (n + 1) (Term.mk (.var name) (some l)).walk := by
  have names : (wildcardsOf (Term.mk (.var name) (some l)).walk).Sublist [name] := by
    rw [wildcardsOf_var]
    split
    · exact .refl _
    · exact List.nil_sublist _
  refine ⟨Nat.le_succ n, fun x hx => ?_, fun x hx => ?_, (List.pairwise_singleton _ name).sublist names⟩
  · rcases List.mem_cons.1 hx with rfl | hx
    · exact ⟨l, rfl, anchored⟩
    · exact List.mem_singleton.1 hx ▸ trivial
  · rw [List.mem_singleton.1 (names.subset hx)]
    exact ⟨n, drawn, blank, Nat.le_refl n, Nat.lt_succ_self n⟩

/-- A variable that is no wildcard. -/
theorem Spans.named {W : Array Nat} {a b : Nat} {name : String} {l : Location} (le : a ≤ b)
    (plain : isWildcardName name = false) (anchored : m.Anchored l) :
    m.Spans W a b (Term.mk (.var name) (some l)).walk := by
  refine .plain le (fun x hx => ?_) ?_
  · rcases List.mem_cons.1 hx with rfl | hx
    · exact ⟨l, rfl, anchored⟩
    · exact List.mem_singleton.1 hx ▸ trivial
  · rw [wildcardsOf_var, plain]
    rfl

namespace Keeps

variable {g : Grammar}

open Tracks

open Course.Keeps (startsNumber lastOfNumber)

/-! ## Scalars and variables

A term without parts has one node.  Where it stands is where its first token is seen; its text starts
there too, save that a sign or a point belongs to it. -/

/-- A term without parts, of which the last token is seen. -/
theorem heads_scalar {value : Value} (sound : m.Sound c u) (later : m.Later u v)
    (proper : c.Proper m.source) (more : v.look.token ≠ .eof)
    (ends : v.look.offset = u.look.location.offset ∨ ∀ d, m.Rests d v.look → d.lexeme.kind.isJoint = true)
    (other : value.isVar = false) (bare : value.walkParts = []) :
    Heads m c v ⟨value, some u.look.location⟩ := by
  have offset : u.look.location.offset = c.offset := sound.offset
  have le : c.offset ≤ v.look.offset := sound.offset ▸ later.ahead
  refine ⟨more, ends, .of_parts ?_ other sound.rests.anchored (.here proper offset (Nat.lt_succ_of_le le))⟩
  rw [bare]
  exact .nil (le.trans (Nat.le_succ _))

/-- A scalar is one token, and stands there. -/
theorem scalar {value : Value} (sound : m.Sound c u) (major : c.lexeme.kind ≠ .whitespace)
    (more : u.look.token ≠ .eof) (other : value.isVar = false) (bare : value.walkParts = []) :
    m.Tracks (m.Later u) (Parse.here value) u fun t v => Heads m c v t :=
  here_self (.pure (.refl sound)
    (heads_scalar sound (.refl sound) (sound.rests.proper more major) more (.inl rfl) other bare))

/-- A sign is passed if it stands there. -/
theorem signMark (sound : m.Sound c u) (mark : Token) (following : List Token) (more : mark ≠ .eof) :
    m.Tracks (m.Later u) (Parse.signMark mark following) u fun b t =>
      (b = true → u.look.token = mark ∧ t.look.token ∈ following) ∧
        (b = false → u.look.token ≠ mark ∧ t = u) := by
  unfold Parse.signMark
  rw [token_iff]
  split
  · next marked =>
      have marked : u.look.token = mark := beq_iff_eq.1 marked
      refine .step (.refl sound) (.scan sound (marked ▸ more)) fun _ t d s l _ _ => ?_
      rw [token_iff]
      split
      · next follows =>
          exact .pure l ⟨fun _ => ⟨marked, List.contains_iff_mem.1 follows⟩, (by cases ·)⟩
      · exact .unexpected_fail l s
  · next other =>
      exact .pure (.refl sound) ⟨(by cases ·), fun _ => ⟨fun same => other (beq_iff_eq.2 same), rfl⟩⟩

/-- A number stands at its first token, which may be a sign or a point, and ends at its digits. -/
theorem number (sound : m.Sound c u) (major : c.lexeme.kind ≠ .whitespace)
    (starts : startsNumber u.look.token) :
    m.Tracks (m.Later u) Parse.number u fun t v => Heads m c v t := by
  unfold Parse.number
  rw [location_iff]
  refine .step (.refl sound) (signMark sound .minus [.number, .dot] (by decide))
    fun negative t₁ d₁ s₁ l₁ _ signed => ?_
  refine .step l₁ (signMark s₁ .dot [.number] (by decide)) fun pointed t₂ d₂ s₂ l₂ _ marked => ?_
  rw [look_iff]
  dsimp only
  split
  · exact .unexpected_fail l₂ s₂
  · split
    · exact .unexpected_fail l₂ s₂
    · split
      · have token := lastOfNumber starts signed marked
        obtain ⟨kind, -⟩ := Lexeme.Shows.number (token ▸ s₂.rests.at'.shows)
        have digits : d₂.lexeme.kind = .number := kind
        -- -- a number starts with a mark or a digit, never at the end of the input
        have more : u.look.token ≠ .eof := fun ended => by
          rcases starts with token | token | token <;> rw [token] at ended <;> cases ended
        refine .pure l₂ (heads_scalar sound l₂ (sound.rests.proper more major) (by rw [token]; decide)
          (.inr fun d rests => ?_) rfl rfl)
        rw [rests.unique s₂.rests, digits]
        rfl
      · exact .reportHere_fail l₂ s₂

/-- A text stands at its token. -/
theorem string (sound : m.Sound c u) (major : c.lexeme.kind ≠ .whitespace) (more : u.look.token ≠ .eof) :
    m.Tracks (m.Later u) Parse.string u fun t v => Heads m c v t := by
  have found (s : String) : m.Tracks (m.Later u) (Parse.here (.string s)) u fun t v => Heads m c v t :=
    scalar sound major more rfl rfl
  unfold Parse.string
  rw [look_iff]
  dsimp only
  split
  · refine .bind (.ofOption (P := fun _ t => t = u) (.refl sound) fun _ _ => rfl) (fun _ later => later)
      fun s t _ same => ?_
    exact same ▸ found s
  · split
    · exact found ""
    · split
      · exact found _
      · exact .reportHere_fail (.refl sound) sound

/-- A variable has been read, and its token is still the current one. -/
structure Names (m : Survey) (c : Cursor) (u v : Reading) (t : Term) : Prop where
  sound : m.Sound c v
  token : v.look.token = u.look.token
  read : m.Read v.wildcards c (c.offset + 1) t

/-- A variable stands at its token, with its own name or with one that was drawn. -/
theorem variableHere (sound : m.Sound c u)
    (word : u.look.token = .ident ∨ u.look.token.isKeyword ∨ u.look.token.isFutureKeyword) :
    m.Tracks (m.Later u) Parse.variableHere u fun t v => Names m c u v t := by
  have kind := sound.rests.at'.kind_of_word word
  have proper := sound.rests.proper_of_word word
  have offset : u.look.location.offset = c.offset := sound.offset
  have root : m.Root c u.look.location.offset (c.offset + 1) :=
    .here proper offset (Nat.lt_succ_self _)
  have literal : u.look.literal = c.word := sound.rests.at'.literal_eq sound.rests.solid proper.filled
  unfold Parse.variableHere
  rw [look_iff]
  dsimp only
  split
  -- -- a wildcard is named afresh at this very token, which is what makes its name its own
  · next wild =>
      rw [offset_iff]
      refine .step (.refl sound) (.freshWildcard sound) fun name t d s l _ ⟨stays, drawn⟩ => ?_
      have same : t.look.location.offset = c.offset := stays.sound.offset
      have blank : m.Blank c.offset :=
        ⟨c, sound.rests.at'.starts, rfl, literal ▸ beq_iff_eq.1 wild⟩
      refine here_self (.pure l ⟨stays.sound, stays.token, ?_, ?_⟩)
      · exact .wildcard (sound.offset ▸ drawn) blank stays.sound.rests.anchored
      · show m.Root c t.look.location.offset _
        rw [same, ← offset]
        exact offset ▸ root
  · refine here_self (.pure (.refl sound) ⟨sound, rfl, ?_, root⟩)
    rw [literal]
    exact .named (Nat.le_succ _) (Cursor.word_plain kind) sound.rests.anchored

/-- A variable may head what follows it. -/
theorem Names.heads {t : Term} (h : Names m c u v t)
    (word : u.look.token = .ident ∨ u.look.token.isKeyword ∨ u.look.token.isFutureKeyword) :
    Heads m c v t := by
  have kind := h.sound.rests.at'.kind_of_word (h.token ▸ word)
  have place : c.offset = t.place.offset := by
    by_contra other
    rw [h.read.root.paren other] at kind
    cases kind
  refine ⟨fun ended => ?_, .inl (h.sound.offset.trans place),
    h.read.mono (.refl _) (Nat.succ_le_succ h.sound.offset.ge)⟩
  rw [← h.token, ended] at word
  rcases word with word | word | word <;> cases word

/-! ## Parentheses

Parentheses leave the term as it was, so its place is behind the one that opens, and its text is known to
start at that one. -/

/-- A term in parentheses stands where it stood, and its text starts at the parenthesis. -/
theorem parenthesized (h : m.Keeps g) (sound : m.Sound c u) (paren : u.look.token = .lparen) :
    m.Tracks (m.Later u) (Parse.parenthesized g) u fun t v => Heads m c v t := by
  have kind := (sound.rests.kind_iff .lparen rfl).1 paren
  unfold Parse.parenthesized
  rw [offset_iff]
  have more : u.look.token ≠ .eof := by rw [paren]; decide
  refine .step (.refl sound) (.scan sound more) fun _ t₁ d₁ s₁ l₁ _ ⟨_, _, _, precedes⟩ => ?_
  refine .step l₁ (h (.compound true) d₁ t₁ s₁ trivial) fun t t₂ d₂ s₂ l₂ _ read => ?_
  rw [token_iff]
  split
  · next closes =>
      have closes : t₂.look.token = .rparen := beq_iff_eq.1 closes
      have precedes := precedes d₁ s₁.rests
      -- the term stands behind this parenthesis and those that open behind it
      have opened : m.Opened c.offset t.place.offset := (Opened.paren precedes kind).trans read.root.opened
      rw [look_iff, text_iff, read.location]
      refine .pure l₂ ⟨by rw [closes]; decide, .inr fun d rests => ?_, ?_, ?_⟩
      · rw [(rests.kind_iff .rparen rfl).1 closes]
        rfl
      · refine (read.spans.mono (.refl _) precedes.lt.le (Nat.le_succ _)).moved ?_
        refine s₂.rests.anchored_text read.anchored.located ?_ s₂.rests.bounds_stop
        exact ⟨c, sound.rests.at'.starts, sound.offset.symm, .inr (.inl ⟨kind, opened⟩)⟩
      · exact ⟨opened, read.root.ahead.trans (Nat.lt_succ_self _),
          sound.rests.proper more (by rw [kind]; decide)⟩
  · exact .reportHere_fail l₂ s₂

/-! ## What primary terms start with

A primary term starts with one token, which tells its form. -/

/-- What a primary term starts with stands at the first token. -/
theorem head (h : m.Keeps g) (sound : m.Sound c u) :
    m.Tracks (m.Later u) (Parse.head g) u fun t v => Heads m c v t := by
  have major (solid : u.look.token ≠ .whitespace) : c.lexeme.kind ≠ .whitespace :=
    mt (sound.rests.kind_iff .whitespace rfl).2 solid
  have variable' (word : u.look.token = .ident ∨ u.look.token.isKeyword ∨ u.look.token.isFutureKeyword) :
      m.Tracks (m.Later u) Parse.variableHere u fun t v => Heads m c v t :=
    (variableHere sound word).weaken (fun _ later => later) fun t v _ names => names.heads word
  -- a constant is a word, so its token is neither white space nor the end
  have constant {value : Value} (token : u.look.token.isKeyword = true) (other : value.isVar = false)
      (bare : value.walkParts = []) :
      m.Tracks (m.Later u) (Parse.here value) u fun t v => Heads m c v t := by
    refine scalar sound (major fun white => ?_) (fun ended => ?_) other bare
    · rw [white] at token
      cases token
    · rw [ended] at token
      cases token
  unfold Parse.head
  rw [token_iff]
  split
  · next token => exact constant (by rw [token]; rfl) rfl rfl
  · next token => exact constant (by rw [token]; rfl) rfl rfl
  · next token => exact constant (by rw [token]; rfl) rfl rfl
  · next token => exact number sound (major (by rw [token]; decide)) (.inl token)
  · next token => exact number sound (major (by rw [token]; decide)) (.inr (.inl token))
  · next token => exact number sound (major (by rw [token]; decide)) (.inr (.inr token))
  · next token => exact string sound (major (by rw [token]; decide)) (by rw [token]; decide)
  · next token => exact variable' (.inl token)
  · next token => exact variable' (.inr (.inr (by rw [token]; rfl)))
  · next token => exact array h sound token
  · next token => exact braced h sound token
  · next token => exact parenthesized h sound token
  · exact .unexpected_fail (.refl sound) sound

/-! ## Remembering

An entry of the memory holds a term and the place it was read from.  What is placed is placed by that
reading, so a term that is taken up again needs no second look. -/

/-- What is remembered is a term that was read from where the entry starts. -/
theorem remember {start : Reading} (there : m.Sound c start) (since : m.Later start u)
    (sound : m.Sound d u) (term : Option Term) (holds : ∀ t ∈ term, m.Reads u c t) :
    m.Tracks (m.Later u) (Parse.remember start.save term) u fun _ v =>
      v.look = u.look ∧ v.wildcards = u.wildcards := by
  have ahead : c.offset ≤ d.offset := by
    rw [← there.offset, ← sound.offset]
    exact since.ahead
  unfold Parse.remember
  refine (Tracks.modify (R := m.Later u) (.of_same (sound.memo fun e he => ?_) rfl rfl)).weaken
    (fun _ later => later) fun _ _ _ same => same ▸ ⟨rfl, rfl⟩
  rcases List.mem_cons.1 he with rfl | he
  · exact ⟨c, d, there.rests.at'.starts, there.offset, sound.rests, ahead,
      fun f hf => sound.failures f (mem_of_extract hf), fun x hx => sound.comments x (mem_of_extract hx),
      fun t ht => sound.offset ▸ holds t ht⟩
  · exact sound.recalls e ((List.dropWhile_sublist _).subset he)

/-- What is remembered was read from the token that the parser has come to. -/
theorem remembered {α : Type} {R : Reading → Prop} {f : Option MemoEntry → Parse α} {P : α → Reading → Prop}
    (found : ∀ e ∈ u.memo.entries, e.offset = u.look.offset → m.Tracks R (f (some e)) u P)
    (none : m.Tracks R (f none) u P) : m.Tracks R (Parse.remembered >>= f) u P := by
  unfold Parse.remembered
  rw [bind_bind_iff, reading_iff]
  split
  · next e looked =>
      rw [bind_bind_iff]
      refine .ask fun again => ?_
      rw [pure_bind_iff]
      split
      · obtain ⟨listed, offset⟩ := Memo.lookup_some looked
        exact found e listed offset
      · exact none
  · exact none

/-- What is taken up again was read from the token at which it is taken up. -/
theorem Recalls.at (recalls : m.Recalls u) (at' : u.look.At m.source c) {e : MemoEntry}
    (listed : e ∈ u.memo.entries) (offset : e.offset = u.look.offset) :
    ∃ d, m.Remembers u.wildcards e c d := by
  obtain ⟨c', d, entry⟩ := recalls e listed
  obtain rfl := entry.starts.eq_of_offset at'.starts
    (entry.before.symm.trans (offset.trans at'.offset))
  exact ⟨d, entry⟩

/-- What is taken up again is read from where it is taken up. -/
theorem replay (sound : m.Sound c u) {e : MemoEntry} (listed : e ∈ u.memo.entries)
    (offset : e.offset = u.look.offset) :
    m.Tracks (m.Later u) (Parse.replay e) u fun t v => m.Reads v c t := by
  obtain ⟨d, entry⟩ := Recalls.at sound.recalls sound.rests.at' listed offset
  have there : m.Sound d { u with
      look := e.after, failures := u.failures ++ e.failures
      comments := u.comments ++ e.comments } := by
    refine ⟨⟨fun f hf => ?_, fun x hx => ?_⟩, entry.after, sound.recalls⟩
    · exact (Array.mem_append.1 hf).elim (sound.failures f) (entry.failures f)
    · exact (Array.mem_append.1 hx).elim (sound.comments x) (entry.comments x)
  have later : m.Later u _ := ⟨⟨d, there⟩, by
    rw [sound.offset, there.offset]
    exact entry.ahead, .refl _⟩
  unfold Parse.replay
  refine .bind (Tracks.modify later) (fun _ later => later) fun _ t after same => ?_
  subst same
  refine .ofOption after fun t ht => ?_
  have read := entry.term t ht
  rwa [← there.offset] at read

/-! ## Primary terms

A term is recalled where it is remembered, and read afresh otherwise; both ways it stands where the parser
was. -/

/-- A term that is read afresh is read from where the parser was. -/
theorem freshTerm (h : m.Keeps g) (sound : m.Sound c u) :
    m.Tracks (m.Later u) (Parse.freshTerm g) u fun t v => m.Reads v c t := by
  unfold Parse.freshTerm
  rw [save_iff]
  have read : m.Tracks (m.Later u) (do let t ← Parse.head g; Parse.finish g t false) u
      fun t v => m.Reads v c t := by
    refine .step (.refl sound) (head h sound) fun t t₁ d₁ s₁ l₁ _ heads => ?_
    exact .tail l₁ (finish h s₁ t false heads) fun _ _ _ reads => reads
  refine .step (.refl sound) (.attempt read) fun t t₁ d₁ s₁ l₁ _ holds => ?_
  refine .step l₁ (remember sound l₁ s₁ t holds) fun _ t₂ d₂ s₂ l₂ n₂ _ => ?_
  exact .ofOption l₂ fun t ht => (holds t ht).later n₂

/-- A primary term is read from where the parser was, in both ways. -/
theorem term (h : m.Keeps g) (sound : m.Sound c u) :
    m.Tracks (m.Later u) (Parse.term g) u fun t v => m.Reads v c t :=
  .nested sound (.refl sound) (remembered (fun _ listed offset => replay sound listed offset)
    (freshTerm h sound))

end Keeps

end Survey

end RegoSyntax
