/-
# RegoSyntax.Proofs.Tracks.Literals — literals cover what they were read from.

A literal, a replacement, a declaration and a quantified query stretch from the token that they start with
up to the last token that was read; the declaration and the quantified query in a literal have a place of
their own beside that of the literal.

A literal is told in two steps.  `Stated` says of the parts of a literal that they stand behind one
another from the token that it starts with; its place is added when it has been read to its end
(`Survey.Fitted`, `Stated.walk`), since only then the text is known.  The parts of a quantified query are
taken out of a membership, whose other nodes are dropped, and what is left is still in order.

Where a declaration is read a second time the parser is back at its keyword, and the wildcards of the
first reading have been drawn for good; `Back` carries what is known of them.
-/
import RegoSyntax.Proofs.Tracks.Operators

namespace RegoSyntax

open Parse

namespace Survey

variable {m : Survey} {c d : Cursor} {r u v w : Reading}

/-- A token from which a parser has gone on is not the end of its source. -/
theorem Sound.proper (here : m.Sound c u) (there : m.Sound d v) (major : c.lexeme.kind ≠ .whitespace)
    (lt : c.offset < v.look.offset) : c.Proper m.source :=
  ⟨here.rests.at'.starts, ⟨major, here.rests.solid⟩,
    here.rests.at'.starts.filled there.rests.at'.starts (there.offset ▸ lt)⟩

/-- The place of a token, with the text from there up to the end of the last token. -/
theorem Sound.spanned_up (here : m.Sound c u) (there : m.Sound d v) (proper : c.Proper m.source)
    (lt : u.look.offset < v.look.offset) :
    m.Spanned { u.look.location with text := v.look.text u.look.location.offset v.look.lastStop } := by
  have spanned := there.rests.spanned_up proper (here.offset ▸ lt)
  rw [here.rests.place]
  exact spanned

namespace Stated

variable {e e' : Expr}

/-- What was stated of a literal stays true as the parser moves on. -/
theorem later (h : m.Stated u c e) (later : m.Later u v) : m.Stated v c e :=
  ⟨h.major, h.ahead.trans_le later.ahead, h.parts.later later, h.fitted⟩

/-- A literal behind a sign. -/
theorem behind (h : m.Stated u d e) (le : c.offset ≤ d.offset) (major : c.lexeme.kind ≠ .whitespace) :
    m.Stated u c e := ⟨major, le.trans_lt h.ahead, h.parts.mono (.refl _) le (Nat.le_refl _), h.fitted⟩

/-- The index, the sign and the place of a literal do not matter to its parts. -/
theorem congr (h : m.Stated u c e) (terms : e'.terms = e.terms) (withs : e'.withs = e.withs) :
    m.Stated u c e' := by
  refine ⟨h.major, h.ahead, ?_, ?_, fun w hw => h.fitted.withs w (withs ▸ hw)⟩
  · rw [terms, withs]
    exact h.parts
  · rw [terms]
    exact h.fitted.terms

/-- The nodes of a literal at its place. -/
theorem walk (h : m.Stated u c e) (located : ∃ l, e.location = some l ∧ m.Spanned l) :
    m.Covers u c.offset e.walk := by
  obtain ⟨l, place, spanned⟩ := located
  exact h.parts.expr h.fitted place spanned

end Stated

namespace Keeps

variable {g : Grammar}

open Tracks

/-! ## Expressions

An expression covers the tokens from its first operand on.  As it is made it has no sign and no
replacement. -/

/-- An expression is stated from where its first operand was read, and has no replacements yet. -/
theorem expression (h : m.Keeps g) (sound : m.Sound c u) :
    m.Tracks (m.Later u) (Parse.expression g) u fun e v => m.Stated v c e ∧ e.withs = [] := by
  unfold Parse.expression
  refine .step (.refl sound) (h (.compound true) c u sound trivial) fun left t₁ d₁ s₁ l₁ _ read => ?_
  -- a query without operands behind it has just the nodes of its terms
  have alone {v : Reading} (later : m.Later t₁ v) {terms : ExprTerms} (plain : m.Declares terms)
      (parts : m.Covers v c.offset terms.walkParts) :
      m.Stated v c (.ofTerms terms) ∧ (Expr.ofTerms terms).withs = [] := by
    refine ⟨⟨read.root.proper.major.1, read.root.lt.trans_le later.ahead, ?_, plain, List.forall_mem_nil _⟩, rfl⟩
    show m.Covers v c.offset (terms.walkParts ++ [])
    rw [List.append_nil]
    exact parts
  rw [token_iff]
  split
  · next assigns =>
      rw [location_iff]
      have more : t₁.look.token ≠ .eof := fun ended => by
        rw [ended] at assigns
        cases assigns
      refine .step l₁ (.scan s₁ more) fun _ t₂ d₂ s₂ l₂ n₂ _ => ?_
      refine .step l₂ (h (.compound true) d₂ t₂ s₂ trivial) fun right t₃ d₃ s₃ l₃ n₃ second =>
        .pure l₃ (alone (n₂.trans n₃) trivial ?_)
      -- the path of the operator has the place of its token
      have op := Spans.operator (W := t₃.wildcards) (Nat.le_refl c.offset) (Token.name_plain t₁.look.token)
        s₁.rests.anchored (List.forall_mem_nil _)
      exact op.append ((read.spans.later n₂).then s₂ n₃ second.path)
  · split
    · next ts called =>
        refine .pure l₁ (alone (.refl s₁) trivial ?_)
        have parts := read.spans.parts
        rwa [called] at parts
    · exact .pure l₁ (alone (.refl s₁) trivial read.spans)

/-! ## Replacements

Each replacement has a place of its own, from its word up to its value. -/

/-- A target that is neither a path nor a variable is reported, and nothing is read. -/
theorem checkTarget (sound : m.Sound c u) (target : Term) :
    m.Tracks (m.Later u) (Parse.checkTarget target) u fun _ _ => True := by
  unfold Parse.checkTarget
  split
  · exact .pure (.refl sound) trivial
  · exact .pure (.refl sound) trivial
  · exact (Tracks.unexpected sound).weaken (fun _ later => later) fun _ _ _ _ => trivial

/-- The value of a replacement stands behind `as`, and the replacement reaches up to its end. -/
theorem replacedBy (h : m.Keeps g) (sound : m.Sound c u) (place : Location) (target : Term) :
    m.Tracks (m.Later u) (Parse.replacedBy g place target) u fun x v =>
      m.Covers v c.offset x.value.walk ∧ x.target = target ∧
        x.location = some { place with text := v.look.text place.offset v.look.lastStop } := by
  unfold Parse.replacedBy
  rw [token_iff]
  dsimp only
  split
  · exact .unexpected_fail (.refl sound) sound
  · next asKw =>
      have asKw : u.look.token = .asKw := by simpa using asKw
      refine .step (.refl sound) (.scan sound (by rw [asKw]; decide)) fun _ t₁ d₁ s₁ l₁ _ _ => ?_
      refine .step l₁ (h (.compound true) d₁ t₁ s₁ trivial) fun value t₂ d₂ s₂ l₂ _ read => ?_
      rw [upToLastStop_iff]
      refine .pure l₂ ⟨read.spans.mono (.refl _) ?_ (Nat.le_refl _), rfl, rfl⟩
      rw [← sound.offset, ← s₁.offset]
      exact l₁.ahead

/-- A replacement stands at its word, and its target in front of its value. -/
theorem replacement (h : m.Keeps g) (sound : m.Sound c u) (withKw : u.look.token = .withKw) :
    m.Tracks (m.Later u) (Parse.replacement g) u fun x v =>
      m.Covers v c.offset (walkWiths [x]) ∧ m.Replaces x := by
  have proper := sound.rests.proper_of_word (.inr (.inl (by rw [withKw]; rfl)))
  unfold Parse.replacement
  rw [location_iff]
  refine .step (.refl sound) (.scan sound (by rw [withKw]; decide)) fun _ t₁ d₁ s₁ l₁ _ ⟨ahead, _⟩ => ?_
  rw [token_iff]
  dsimp only
  split
  · exact .unexpected_fail l₁ s₁
  · refine .step l₁ (h .term d₁ t₁ s₁ trivial) fun target t₂ d₂ s₂ l₂ n₂ read => ?_
    refine .step l₂ (checkTarget s₂ target) fun _ t₃ d₃ s₃ l₃ n₃ _ => ?_
    refine .tail l₃ (replacedBy h s₃ u.look.location target) fun x v n₄ ⟨covers, same, place⟩ => ?_
    -- the text of the replacement is cut where the parser has come to
    obtain ⟨d, there⟩ := n₄.sound
    obtain ⟨target', value, location⟩ := x
    cases same
    have le : c.offset ≤ d₁.offset := by
      rw [← sound.offset, ← s₁.offset]
      exact l₁.ahead
    refine ⟨?_, _, place, sound.spanned_up there proper (ahead.trans_le ?_)⟩
    · rw [walkWiths, walkWiths, List.append_nil]
      exact (((read.spans.later n₃).then s₃ n₄ covers).mono (.refl _) le (Nat.le_refl _))
    · exact ((n₂.trans n₃).trans n₄).ahead

/-- Replacements stand behind those that were read before. -/
theorem replacements (h : m.Keeps g) (sound : m.Sound c u) (withKw : u.look.token = .withKw)
    (read : List With) :
    m.Tracks (m.Later u) (Parse.replacements g read) u fun ws v =>
      ∀ a, m.Covers u a (walkWiths read) → (∀ x ∈ read, m.Replaces x) →
        m.Covers v a (walkWiths ws) ∧ ∀ x ∈ ws, m.Replaces x := by
  refine .step (.refl sound) (replacement h sound withKw) fun x t d s l _ ⟨covers, replaces⟩ => ?_
  have more (a : Nat) (before : m.Covers u a (walkWiths read)) :
      m.Covers t a (walkWiths (read ++ [x])) := by
    rw [walkWiths_append]
    exact before.then sound l covers
  have all (before : ∀ x ∈ read, m.Replaces x) : ∀ y ∈ read ++ [x], m.Replaces y := fun y hy =>
    (List.mem_append.1 hy).elim (before y) fun hy => List.mem_singleton.1 hy ▸ replaces
  rw [token_iff]
  split
  · next further =>
      exact .tail l (h (.replacements (read ++ [x])) d t s (beq_iff_eq.1 further))
        fun ws v _ yields a before places => yields a (more a before) (all places)
  · exact .pure l fun a before places => ⟨more a before, all places⟩

/-- A literal that had no replacements yet. -/
theorem replaced (h : m.Keeps g) (sound : m.Sound d u) {e : Expr} (stated : m.Stated u c e)
    (bare : e.withs = []) :
    m.Tracks (m.Later u) (Parse.replaced g e) u fun e v => m.Stated v c e := by
  unfold Parse.replaced
  rw [token_iff]
  split
  · next withKw =>
      refine .step (.refl sound) (h (.replacements []) d u sound (beq_iff_eq.1 withKw))
        fun ws t _ _ l _ yields => .pure l ?_
      obtain ⟨covers, replaces⟩ := yields d.offset (.nil sound.offset.ge) (List.forall_mem_nil _)
      have parts := stated.parts
      rw [bare, walkWiths, List.append_nil] at parts
      exact ⟨stated.major, stated.ahead.trans_le l.ahead, parts.then sound l covers,
        stated.fitted.terms, replaces⟩
  · exact .pure (.refl sound) stated

/-! ## Declarations

A declaration is tried as a membership, and read as variables if it is none; both start at the word. -/

/-- A literal at the place of its keyword, of which the parts have been read. -/
theorem stated_at {place : Location} {terms : ExprTerms} (major : c.lexeme.kind ≠ .whitespace)
    (ahead : c.offset < u.look.offset) (parts : m.Covers u c.offset terms.walkParts)
    (declares : m.Declares terms) : m.Stated u c ((Expr.ofTerms terms).placed place) := by
  refine ⟨major, ahead, ?_, declares, List.forall_mem_nil _⟩
  show m.Covers u c.offset (terms.walkParts ++ [])
  rw [List.append_nil]
  exact parts

/-- A declaration by a membership stands at its keyword. -/
theorem declaredMembership (h : m.Keeps g) (sound : m.Sound d u) {place : Location} {t : Term}
    {terms : List Term} (major : c.lexeme.kind ≠ .whitespace) (ahead : c.offset < u.look.offset)
    (covers : m.Covers u c.offset t.walk) (spanned : m.Spanned place) :
    m.Tracks (m.Later u) (Parse.declaredMembership g place t terms) u fun e v => m.Stated v c e := by
  unfold Parse.declaredMembership
  split
  · exact .unexpected_fail (.refl sound) sound
  · split
    · refine replaced h sound (stated_at major ahead ?_ ⟨place, rfl, spanned⟩) rfl
      show m.Covers u c.offset (walkTerms [t])
      rwa [walkTerms_single]
    · exact .unexpected_fail (.refl sound) sound

/-- Declared variables stand behind those that were read before. -/
theorem symbols (h : m.Keeps g) (sound : m.Sound c u) (more : u.look.token ≠ .eof) (read : List Term) :
    m.Tracks (m.Later u) (Parse.symbols g read) u fun ts v => u.look.offset < v.look.offset ∧
      ∀ a, m.Covers u a (walkTerms read) → m.Covers v a (walkTerms ts) := by
  refine .step (.refl sound) (.scan sound more) fun _ t₁ d₁ s₁ l₁ _ ⟨ahead, _⟩ => ?_
  rw [token_iff]
  dsimp only
  split
  · exact .unexpected_fail l₁ s₁
  · next ident =>
      have ident : t₁.look.token = .ident := by simpa using ident
      refine .step l₁ (variableHere s₁ (.inl ident)) fun t t₂ d₂ s₂ l₂ n₂ names => ?_
      refine .step l₂ (.scan s₂ (by rw [names.token, ident]; decide))
        fun _ t₃ d₃ s₃ l₃ n₃ ⟨onward, _⟩ => ?_
      -- a keyword and a name have been passed, so the reading has come ahead
      have lt : u.look.offset < t₃.look.offset := ahead.trans_le (n₂.trans n₃).ahead
      have name : m.Covers t₃ d₁.offset (walkTerms [t]) := by
        rw [walkTerms_single]
        exact names.read.spans.mono n₃.drawn (Nat.le_refl _) (names.sound.offset ▸ onward)
      have all (a : Nat) (before : m.Covers u a (walkTerms read)) :
          m.Covers t₃ a (walkTerms (read ++ [t])) := by
        rw [walkTerms_append]
        exact (before.later l₁).then s₁ (n₂.trans n₃) name
      rw [token_iff]
      split
      · next comma =>
          have comma : t₃.look.token = .comma := beq_iff_eq.1 comma
          have more : t₃.look.token ≠ .eof := by
            rw [comma]
            decide
          exact .tail l₃ (h (.symbols (read ++ [t])) d₃ t₃ s₃ more)
            fun ts v later ⟨_, yields⟩ => ⟨lt.trans_le later.ahead, fun a before => yields a (all a before)⟩
      · exact .pure l₃ ⟨lt, all⟩

/-- A parser that has come back to a keyword looks whether there is a membership behind it, and comes
back again. -/
theorem suggestIn (h : m.Keeps g) (there : m.Sound c w) (back : Back m c w v u)
    (more : w.look.token ≠ .eof) :
    m.Tracks (m.Later w) (Parse.suggestIn g w.save) u fun _ t => t.look.token = w.look.token := by
  unfold Parse.suggestIn
  rw [env_iff]
  split
  · refine .step back.later (.scan back.sound (back.look ▸ more)) fun _ t₁ d₁ s₁ l₁ _ _ => ?_
    refine .step l₁ (.withFutureKeywords (P := fun _ _ => True) s₁ fun x there _ _ => ?_)
      fun t t₂ d₂ s₂ l₂ _ _ => ?_
    · exact (Tracks.attempt (h (.compound true) d₁ x there trivial)).weaken (fun _ later => later)
        fun _ _ _ _ => trivial
    · refine .restore there l₂ fun t' again => ?_
      split
      · refine .tail again.later (.hint again.sound) fun _ t _ stays => ?_
        rw [stays.token, again.look]
      · exact .pure again.later (by rw [again.look])
  · exact .pure back.later (by rw [back.look])

/-- A declaration of variables stands at its keyword. -/
theorem declaredSymbols (h : m.Keeps g) (there : m.Sound c w) (before : m.Later w v)
    (proper : c.Proper m.source) (more : w.look.token ≠ .eof) :
    m.Tracks (m.Later w) (Parse.declaredSymbols g w.look.location w.save) v
      fun e t => m.Stated t c e := by
  refine .restore there before fun t back => ?_
  refine .bind (suggestIn h there back more) (fun _ later => later) fun _ t₁ l₁ same => ?_
  obtain ⟨d, s₁⟩ := l₁.sound
  have filled : t₁.look.token ≠ .eof := by rwa [same]
  refine .step l₁ (h (.symbols []) d t₁ s₁ filled) fun ts t₂ d₂ s₂ l₂ n₂ ⟨lt, yields⟩ => .pure l₂ ?_
  have le : c.offset ≤ d.offset := by
    rw [← there.offset, ← s₁.offset]
    exact l₁.ahead
  refine stated_at proper.major.1 ?_ ?_ ⟨_, rfl, there.rests.spanned proper⟩
  · rw [← there.offset]
    exact l₁.ahead.trans_lt lt
  · exact (yields d.offset (.nil s₁.offset.ge)).mono (.refl _) le (Nat.le_refl _)

/-- A declaration is stated from its keyword on, in both of its forms. -/
theorem declaration (h : m.Keeps g) (sound : m.Sound c u) (someKw : u.look.token = .someKw) :
    m.Tracks (m.Later u) (Parse.declaration g) u fun e v => m.Stated v c e := by
  have more : u.look.token ≠ .eof := by
    rw [someKw]
    decide
  -- a keyword has characters, so the place of the declaration has a text
  have proper := sound.rests.proper_of_word (.inr (.inl (by rw [someKw]; rfl)))
  unfold Parse.declaration
  rw [location_iff, save_iff]
  refine .step (.refl sound) (.scan sound more) fun _ t₁ d₁ s₁ l₁ _ ⟨ahead, _⟩ => ?_
  refine .step l₁ (.attempt (h (.compound true) d₁ t₁ s₁ trivial)) fun a t₂ d₂ s₂ l₂ n₂ read => ?_
  split
  · next t =>
      split
      · have read := read t rfl
        have le : c.offset ≤ d₁.offset := by
          rw [← sound.offset, ← s₁.offset]
          exact l₁.ahead
        refine .tail l₂ (declaredMembership (c := c) h s₂ proper.major.1 ?_ ?_ (sound.rests.spanned proper))
          fun _ _ _ stated => stated
        · rw [← sound.offset]
          exact ahead.trans_le n₂.ahead
        · exact read.spans.mono (.refl _) le (Nat.le_refl _)
      · exact declaredSymbols h sound l₂ proper more
  · exact declaredSymbols h sound l₂ proper more

/-! ## Quantified queries

A quantified query is read as a membership too.  The variables and the domain are taken out of it, and its
query stands behind them. -/

/-- What a quantified query is made of is in the membership it was read as. -/
theorem covers_quantified {t value domain : Term} {key : Option Term} {n : Nat}
    (covers : m.Covers u n t.walk) (made : quantified t = .ok (key, value, domain)) :
    m.Covers u n (walkKey key ++ value.walk ++ domain.walk) := by
  have parts := covers.parts
  -- what the query keeps is a part of the membership, in the same order
  have among {ms ns : List Visit} (sub : ms.Sublist ns) (all : m.Covers u n ns) : m.Covers u n ms :=
    all.sub (fun x hx => all.placed x (sub.subset hx)) (sub.filterMap _)
  unfold quantified at made
  split at made
  · next ts called =>
      rw [called] at parts
      unfold quantifiedTerms at made
      split at made
      · next op v d _ =>
          split at made
          · cases made
            refine among ?_ parts
            simp [Value.walkParts, walkTerms, walkKey]
          · cases made
      · next op k v d _ =>
          split at made
          · cases made
          · split at made
            · cases made
            · cases made
              refine among ?_ parts
              simp [Value.walkParts, walkTerms, walkKey]
      · cases made
      · cases made
  · cases made

/-- The body of a quantified query stands behind its domain. -/
theorem quantifiedQuery (h : m.Keeps g) (sound : m.Sound d u) {place : Location} {key : Option Term}
    {value domain : Term} (major : c.lexeme.kind ≠ .whitespace) (le : c.offset ≤ u.look.offset)
    (covers : m.Covers u c.offset (walkKey key ++ value.walk ++ domain.walk)) (spanned : m.Spanned place) :
    m.Tracks (m.Later u) (Parse.quantifiedQuery g place key value domain) u fun e v => m.Stated v c e := by
  unfold Parse.quantifiedQuery
  rw [token_iff]
  dsimp only
  split
  · exact .unexpected_fail (.refl sound) sound
  · next opens =>
      have opens : u.look.token = .lbrace := by simpa using opens
      refine .step (.refl sound) (.scan sound (by rw [opens]; decide)) fun _ t₁ d₁ s₁ l₁ _ ⟨ahead, _⟩ => ?_
      refine .step l₁ (h (.body .rbrace) d₁ t₁ s₁ trivial) fun b t₂ d₂ s₂ l₂ n₂ ⟨closes, body⟩ => ?_
      refine .step l₂ (.scan s₂ (by rw [closes]; decide)) fun _ t₃ d₃ s₃ l₃ n₃ _ => ?_
      refine .tail l₃ (replaced (c := c) h s₃ (stated_at major ?_ ?_ ⟨place, rfl, spanned⟩) rfl)
        fun _ _ _ stated => stated
      · exact (le.trans_lt ahead).trans_le (n₂.trans n₃).ahead
      · exact (covers.later l₁).then s₁ (n₂.trans n₃) (body.body.later n₃)

/-- A quantified query is stated from its keyword on. -/
theorem quantifier (h : m.Keeps g) (sound : m.Sound c u) (proper : c.Proper m.source)
    (more : u.look.token ≠ .eof) :
    m.Tracks (m.Later u) (Parse.quantifier g) u fun e v => m.Stated v c e := by
  unfold Parse.quantifier
  rw [location_iff]
  refine .step (.refl sound) (.scan sound more) fun _ t₁ d₁ s₁ l₁ _ _ => ?_
  refine .step l₁ (h (.compound true) d₁ t₁ s₁ trivial) fun t t₂ d₂ s₂ l₂ _ read => ?_
  split
  · exact .unexpected_fail l₂ s₂
  · next key value domain made =>
      have le : c.offset ≤ d₁.offset := by
        rw [← sound.offset, ← s₁.offset]
        exact l₁.ahead
      refine .tail l₂ (quantifiedQuery (c := c) h s₂ proper.major.1 (sound.offset ▸ l₂.ahead) ?_
        (sound.rests.spanned proper)) fun _ _ _ stated => stated
      exact covers_quantified (read.spans.mono (.refl _) le (Nat.le_refl _)) made

/-! ## Literals

A literal gets its place last, when all of it has been read: from its first token up to the last one that
was passed. -/

/-- To look for a quantified query leaves everything where it was. -/
theorem suggestEvery (h : m.Keeps g) (there : m.Sound c w) (before : m.Later w u) (sound : m.Sound d u)
    (proper : c.Proper m.source) (more : w.look.token ≠ .eof) (e : Expr) :
    m.Tracks (m.Later u) (Parse.suggestEvery g w.save e) u fun _ _ => True := by
  unfold Parse.suggestEvery
  rw [env_iff]
  split
  · refine .step (.refl sound) (.probe (P := fun _ _ => True) there sound before fun t back => ?_)
      fun q t₁ d₁ s₁ l₁ _ _ => ?_
    · refine (Tracks.withFutureKeywords (P := fun _ _ => True) back.sound fun x again _ token => ?_).weaken
        (fun _ later => later) fun _ _ _ _ => trivial
      have filled : x.look.token ≠ .eof := by rwa [token, back.look]
      exact (quantifier h again proper filled).weaken (fun _ later => later) fun _ _ _ _ => trivial
    · split
      · exact .tail l₁ (.hint s₁) fun _ _ _ _ => trivial
      · exact .pure l₁ trivial
  · exact .pure (.refl sound) trivial

/-- A plain literal is an expression with its replacements. -/
theorem plainLiteral (h : m.Keeps g) (sound : m.Sound c u) (negated : Bool) :
    m.Tracks (m.Later u) (Parse.plainLiteral g negated) u fun e v => m.Stated v c e := by
  unfold Parse.plainLiteral
  rw [save_iff]
  refine .step (.refl sound) (expression h sound) fun e t₁ d₁ s₁ l₁ _ ⟨stated, bare⟩ => ?_
  have proper := sound.proper s₁ stated.major stated.ahead
  have more : u.look.token ≠ .eof := fun ended =>
    proper.filled (Lexeme.next_kind_eof.1 ((sound.rests.kind_iff .eof rfl).1 ended))
  refine .step l₁ (replaced h s₁ (e := { e with negated }) (stated.congr rfl rfl) bare)
    fun e t₂ d₂ s₂ l₂ _ stated => ?_
  exact .step l₂ (suggestEvery h sound l₂ s₂ proper more e) fun _ t₃ _ _ l₃ n₃ _ =>
    .pure l₃ (stated.later n₃)

/-- The word of a negation is passed; without one the parser stands where it stood. -/
theorem negation (sound : m.Sound c u) :
    m.Tracks (m.Later u) Parse.negation u fun b t =>
      (b = false → t = u) ∧ (b = true → c.lexeme.kind ≠ .whitespace) := by
  unfold Parse.negation
  rw [token_iff]
  split
  · exact .pure (.refl sound) ⟨fun _ => rfl, (by cases ·)⟩
  · next notKw =>
      have notKw : u.look.token = .notKw := by simpa using notKw
      rw [peekBlank_iff]
      split
      · exact .pure (.refl sound) ⟨fun _ => rfl, (by cases ·)⟩
      · refine .step (.refl sound) (.scan sound (by rw [notKw]; decide)) fun _ _ _ _ l _ _ =>
          .pure l ⟨(by cases ·), fun _ => ?_⟩
        exact (sound.rests.proper_of_word (.inr (.inl (by rw [notKw]; rfl)))).major.1

/-- A literal of any form is stated from the token that it starts with. -/
theorem unplacedLiteral (h : m.Keeps g) (sound : m.Sound c u) :
    m.Tracks (m.Later u) (Parse.unplacedLiteral g) u fun e v => m.Stated v c e := by
  unfold Parse.unplacedLiteral
  refine .step (.refl sound) (.startsRefWithKeyword sound) fun keyword t₁ d₁ s₁ l₁ _ same => ?_
  -- whether or not a keyword starts a reference, the parser stands where it stood
  have here : m.Sound c t₁ := by
    rcases same with ⟨-, rfl⟩ | ⟨-, named⟩
    · exact sound
    · exact named.sound
  split
  · exact .tail l₁ (plainLiteral h here false) fun _ _ _ stated => stated
  · refine .step l₁ (negation here) fun negated t₂ d₂ s₂ l₂ n₂ ⟨unsigned, signed⟩ => ?_
    rw [token_iff]
    have le : c.offset ≤ d₂.offset := by
      rw [← sound.offset, ← s₂.offset]
      exact l₂.ahead
    split
    · next someKw =>
        split
        · exact .unexpected_fail l₂ s₂
        · next positive =>
            obtain rfl := unsigned (Bool.eq_false_iff.2 positive)
            exact .tail l₂ (declaration h here someKw) fun _ _ _ stated => stated
    · next everyKw =>
        split
        · exact .unexpected_fail l₂ s₂
        · next positive =>
            obtain rfl := unsigned (Bool.eq_false_iff.2 positive)
            have proper := here.rests.proper_of_word (.inr (.inr (by rw [everyKw]; rfl)))
            exact .tail l₂ (quantifier h here proper (by rw [everyKw]; decide)) fun _ _ _ stated => stated
    · cases negated with
      | false =>
          obtain rfl := unsigned rfl
          exact .tail l₂ (plainLiteral h here false) fun _ _ _ stated => stated
      | true =>
          exact .tail l₂ (plainLiteral h s₂ true) fun _ _ _ stated => stated.behind le (signed rfl)

/-- A literal stretches over all that it was read from. -/
theorem literal (h : m.Keeps g) (sound : m.Sound c u) :
    m.Tracks (m.Later u) (Parse.literal g) u fun e v =>
      m.Stated v c e ∧ ∃ l, e.location = some l ∧ m.Spanned l := by
  unfold Parse.literal
  rw [location_iff]
  refine .step (.refl sound) (unplacedLiteral h sound) fun e t d s l _ stated => ?_
  rw [upToLastStop_iff]
  refine .pure l ⟨stated.congr rfl rfl, _, rfl, ?_⟩
  exact sound.spanned_up s (sound.proper s stated.major stated.ahead) (sound.offset ▸ stated.ahead)

/-! ## Queries

The literals of a query cover one stretch after the other, and a query with a mark at its end stops there.
-/

/-- What was read before is covered still, and each further literal stands behind it. -/
theorem literals (h : m.Keeps g) (sound : m.Sound c u) (oneLine : Bool) (stop : Token) (read : Body) :
    m.Tracks (m.Later u) (Parse.literals g oneLine stop read) u fun b v =>
      (oneLine = false → v.look.token = stop) ∧
        ∀ a, m.Covers u a (walkExprs read) → m.Covers v a (walkExprs b) := by
  unfold Parse.literals
  refine .step (.refl sound) (h .literal c u sound trivial) fun e t₁ d₁ s₁ l₁ _ read => ?_
  obtain ⟨stated, located⟩ := read
  have indexed : m.Stated t₁ c { e with index := read.length } := stated.congr rfl rfl
  -- the query read joins those before it, which lie in front of it
  have more (a : Nat) (before : m.Covers u a (walkExprs read)) :
      m.Covers t₁ a (walkExprs (Body.push read e)) := by
    rw [Body.push, walkExprs_append, walkExprs, walkExprs, List.append_nil]
    exact before.then sound l₁ (indexed.walk located)
  have onward {t : Reading} {d : Cursor} (s : m.Sound d t) (l : m.Later u t) (n : m.Later t₁ t) :
      m.Tracks (m.Later u) (g (.literals oneLine stop (Body.push read e))) t fun b v =>
        (oneLine = false → v.look.token = stop) ∧
          ∀ a, m.Covers u a (walkExprs read) → m.Covers v a (walkExprs b) :=
    .tail l (h (.literals oneLine stop (Body.push read e)) d t s trivial)
      fun b v _ yields => ⟨yields.1, fun a before => yields.2 a ((more a before).later n)⟩
  rw [token_iff]
  dsimp only
  split
  · next semicolon =>
      have semicolon : t₁.look.token = .semicolon := beq_iff_eq.1 semicolon
      exact .step l₁ (.scan s₁ (by rw [semicolon]; decide)) fun _ t₂ d₂ s₂ l₂ n₂ _ => onward s₂ l₂ n₂
  · split
    -- at the stop the body ends; on the next line it goes on, and elsewhere it is an error
    · next ends =>
        refine .pure l₁ ⟨fun several => ?_, more⟩
        rw [several, Bool.or_false] at ends
        exact beq_iff_eq.1 ends
    · rw [look_iff]
      split
      · exact onward s₁ l₁ (.refl s₁)
      · rw [noFailures_iff]
        split
        · exact .unexpected_fail l₁ s₁
        · exact .fail l₁

/-- A query covers what lies between its first token and its mark. -/
theorem query (h : m.Keeps g) (sound : m.Sound c u) (oneLine : Bool) (stop : Token) :
    m.Tracks (m.Later u) (Parse.query g oneLine stop) u fun b v =>
      (oneLine = false → v.look.token = stop) ∧ m.Covers v c.offset (walkExprs b) := by
  unfold Parse.query
  rw [token_iff]
  split
  · exact .reportHere_fail (.refl sound) sound
  · exact (h (.literals oneLine stop []) c u sound trivial).weaken (fun _ later => later)
      fun _ _ _ ⟨closes, yields⟩ => ⟨closes, yields c.offset (.nil sound.offset.ge)⟩

theorem body (h : m.Keeps g) (sound : m.Sound c u) (stop : Token) :
    m.Tracks (m.Later u) (Parse.body g stop) u fun b v =>
      v.look.token = stop ∧ m.Covers v c.offset (walkExprs b) :=
  .nested sound (.refl sound) ((query h sound false stop).weaken (fun _ later => later)
    fun _ _ _ ⟨closes, covers⟩ => ⟨closes rfl, covers⟩)

end Keeps

end Survey

end RegoSyntax
