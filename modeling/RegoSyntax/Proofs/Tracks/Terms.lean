/-
# RegoSyntax.Proofs.Tracks.Terms — terms are placed where they were read.

`Production.Ready` is what a production relies on to go on from where the parser rests, and
`Production.Yields` says where the nodes of its result stand and where their wildcards were drawn: behind
those of what had been read before, and up to where the parser has come to.

Both are told by cursors into the source.  A term is read from a cursor `first` if the tokens from there
up to the parser hold exactly its nodes (`Survey.Reads`); what a production is handed, an operand that has
been read or the path so far, is told by what it was read from, so that the result can be told from the
same cursor.  The text of a term is another matter: it may start at a later token than the term does, and
`Opens`, `Faces` and `Leads` say at which.

`Survey.Keeps` is the statement that is proved by induction over the grammar.  Here are its cases for
references, calls and paths; those of collections, operators, primary terms, literals and rules have
modules of their own.
-/
import RegoSyntax.Proofs.Tracking

namespace RegoSyntax

open Parse

namespace Survey

variable {m : Survey} {c d : Cursor} {u v w r : Reading}

/-! ## What productions yield -/

/-- Where the text of an operation may start of which the left operand is read from a cursor on: there, or
at a key before the comma that stands right before the operand. -/
def Faces (m : Survey) (start : Nat) (c : Cursor) : Prop :=
  ∃ a : Cursor, a.Starts m.source ∧ a.offset = start ∧ (a = c ∨ ∃ q : Cursor, q.lexeme.kind = .comma ∧
    a.offset < q.offset ∧ q.Precedes m.source c)

/-- So may the text of the operation start once the left operand has been read, behind parentheses or not. -/
theorem Faces.opens {start n stop : Nat} (h : m.Faces start c) (root : m.Root c n stop) :
    m.Opens start n := by
  obtain ⟨a, starts, offset, same | ⟨q, comma, before, precedes⟩⟩ := h
  · subst same
    by_cases here : a.offset = n
    · exact ⟨a, starts, offset, .inl here⟩
    · exact ⟨a, starts, offset, .inr (.inl ⟨root.paren here, root.opened⟩)⟩
  · exact ⟨a, starts, offset, .inr (.inr (.inr ⟨q, precedes.before, comma, before,
      precedes.lt.trans_le root.opened.le, (Opened.behind precedes).trans root.opened⟩))⟩

/-- The text of an operation may start where its left operand is to be read, or before the place of the
operand that has been read. -/
def Leads (m : Survey) (left : Option Term) (start : Nat) (c : Cursor) : Prop :=
  match left with
  | none => m.Faces start c
  | some t => m.Opens start t.place.offset ∧ start < c.offset

/-- A left operand was read from a token, or is to be read from there. -/
def Left (m : Survey) (left : Option Term) (c : Cursor) (u : Reading) (first : Cursor) : Prop :=
  match left with
  | none => first = c
  | some t => m.Reads u first t

/-- A term that was read from some token has led to another one, which then was read from there too. -/
def Extends (m : Survey) (u v : Reading) (t t' : Term) : Prop :=
  ∀ first, m.Reads u first t → m.Reads v first t'

/-- Readings that extend a term one after the other extend it together. -/
theorem Extends.trans {t t' t'' : Term} (h : m.Extends u v t t') (h' : m.Extends v w t' t'') :
    m.Extends u w t t'' := fun first reads => h' first (h first reads)

/-- A term stays read from where it was as the parser moves on. -/
theorem Extends.of_later {t : Term} (later : m.Later u v) : m.Extends u v t t :=
  fun _ reads => reads.later later

/-- A literal that was read from a token, wherever it is placed. -/
structure Stated (m : Survey) (v : Reading) (c : Cursor) (e : Expr) : Prop where
  major : c.lexeme.kind ≠ .whitespace
  ahead : c.offset < v.look.offset
  parts : m.Covers v c.offset (e.terms.walkParts ++ walkWiths e.withs)
  fitted : m.Fitted e

end Survey

namespace Production

variable (m : Survey)

/-- What a production relies on. -/
def Ready : {α : Type} → Production α → Cursor → Reading → Prop
  | _, .reference head start, _, _ => m.Located head.place ∧ m.Opens start head.place.offset
  | _, .segments place start _, _, _ => m.Located place ∧ m.Opens start place.offset
  | _, .membership _ left start, c, _ => m.Leads left start c
  | _, .operation _ left start, c, _ => m.Leads left start c
  | _, .replacements _, _, u => u.look.token = .withKw
  | _, .symbols _, _, u => u.look.token ≠ .eof
  | _, .alternative _, _, u => u.look.token = .elseKw
  | _, _, _, _ => True

/-- What a production yields. -/
def Yields : {α : Type} → Production α → Cursor → Reading → α → Reading → Prop
  | _, .term, c, _, t, v => m.Reads v c t
  | _, .reference head _, _, u, t, v => m.Extends u v head t
  | _, .segments place _ path, _, u, t, v => ∀ first, m.Root first place.offset u.look.offset →
    m.Covers u first.offset (walkTerms path) → m.Reads v first t
  | _, .elements stop read, _, u, ts, v => v.look.token = stop ∧
    ∀ a, m.Covers u a (walkTerms read) → m.Covers v a (walkTerms ts)
  | _, .pairs stop read, _, u, ps, v => v.look.token = stop ∧
    ∀ a, m.Covers u a (walkPairs read) → m.Covers v a (walkPairs ps)
  | _, .compound _, c, _, t, v => m.Reads v c t
  | _, .membership _ left _, c, u, t, v => ∀ first, m.Left left c u first → m.Reads v first t
  | _, .operation _ left _, c, u, t, v => ∀ first, m.Left left c u first → m.Reads v first t
  | _, .body stop, c, _, b, v => v.look.token = stop ∧ m.Covers v c.offset (walkExprs b)
  | _, .literals oneLine stop read, _, u, b, v => (oneLine = false → v.look.token = stop) ∧
    ∀ a, m.Covers u a (walkExprs read) → m.Covers v a (walkExprs b)
  | _, .literal, c, _, e, v => m.Stated v c e ∧ ∃ l, e.location = some l ∧ m.Spanned l
  | _, .replacements read, _, u, ws, v => ∀ a, m.Covers u a (walkWiths read) → (∀ x ∈ read, m.Replaces x) →
    m.Covers v a (walkWiths ws) ∧ ∀ x ∈ ws, m.Replaces x
  | _, .symbols read, _, u, ts, v => u.look.offset < v.look.offset ∧
    ∀ a, m.Covers u a (walkTerms read) → m.Covers v a (walkTerms ts)
  | _, .alternative head, _, u, r, v => ∀ H : Nat → Prop, (∀ n, H n → n < u.look.offset) →
    m.Strewn u.wildcards H head.nodes →
    m.Clear v.wildcards H u.look.offset v.look.offset r.inBodies r.inHeads ∧ m.Laid r
  | _, .siblings first read, _, u, rs, v => ∀ (H : Nat → Prop) (a : Nat), (∀ n, H n → n < a) →
    m.Strewn u.wildcards H first.head.nodes →
    m.Clear u.wildcards H a u.look.offset (read.flatMap Rule.inBodies) (read.flatMap Rule.inHeads) →
    (∀ r ∈ read, m.Laid r) →
    m.Clear v.wildcards H a v.look.offset (rs.flatMap Rule.inBodies) (rs.flatMap Rule.inHeads) ∧
      ∀ r ∈ rs, m.Laid r

end Production

namespace Survey

variable {m : Survey} {c d : Cursor} {u v w r : Reading}

/-- Every production yields what it is to yield, where it has what it relies on. -/
def Keeps (m : Survey) (g : Grammar) : Prop :=
  ∀ ⦃α : Type⦄ (p : Production α) (c : Cursor) (u : Reading), m.Sound c u → p.Ready m c u →
    m.Tracks (m.Later u) (g p) u fun a v => p.Yields m c u a v

/-- The place of a term with text of the source. -/
theorem Rests.anchored_text {l : Look} {place : Location} {start stop : Nat} (h : m.Rests d l)
    (located : m.Located place) (opens : m.Opens start place.offset) (bounds : m.Bounds stop) :
    m.Anchored { place with text := l.text start stop } :=
  h.text start stop ▸ located.anchored opens bounds

/-- A term that is no variable, by what is below. -/
theorem Read.of_parts {W : Array Nat} {n : Nat} {value : Value} {place : Location}
    (parts : m.Spans W c.offset n value.walkParts) (other : value.isVar = false)
    (anchored : m.Anchored place) (root : m.Root c place.offset n) : m.Read W c n ⟨value, some place⟩ :=
  ⟨parts.term anchored other, root⟩

/-- A term at the same place with another text. -/
theorem Read.moved {W : Array Nat} {n : Nat} {t : Term} {place : Location} (h : m.Read W c n t)
    (anchored : m.Anchored place) (same : place.offset = t.place.offset) :
    m.Read W c n { t with location := some place } :=
  ⟨h.spans.moved anchored, by
    show m.Root c place.offset n
    rw [same]
    exact h.root⟩

/-- A path of one term. -/
theorem Reads.path {t : Term} (h : m.Reads u c t) : m.Covers u c.offset (walkTerms [t]) := by
  rw [walkTerms_single]
  exact h.spans

namespace Keeps

variable {g : Grammar}

open Tracks

/-! ## References and calls -/

/-- A call is located where its operator is, and extends it by the arguments. -/
theorem call (h : m.Keeps g) (sound : m.Sound c u) (paren : u.look.token = .lparen) (operator : Term)
    (start : Nat) (located : m.Located operator.place) (opens : m.Opens start operator.place.offset) :
    m.Tracks (m.Later u) (Parse.call g operator start) u fun t v =>
      m.Located t.place ∧ m.Opens start t.place.offset ∧ m.Extends u v operator t := by
  refine .nested sound (.refl sound) ?_
  refine .step (.refl sound) (.scan sound (by rw [paren]; decide)) fun _ t₁ d₁ s₁ l₁ _ _ => ?_
  rw [token_iff]
  split
  · next closes =>
      have closes : t₁.look.token = .rparen := beq_iff_eq.1 closes
      rw [look_iff]
      refine .step l₁ (.scanBlank s₁ (by rw [closes]; decide)) fun _ t₂ d₂ s₂ l₂ _ _ => ?_
      have anchored : m.Anchored { operator.place with text := t₂.look.text start t₁.look.stop } :=
        s₂.rests.anchored_text located opens s₁.rests.bounds_stop
      refine placed_self (.pure l₂ ⟨anchored.located, opens, fun first reads => ?_⟩)
      have reads := reads.later l₂
      -- without arguments the call is the operator alone
      split
      · exact .of_parts (.nil reads.spans.le) rfl anchored reads.root
      · exact .of_parts reads.path rfl anchored reads.root
  · refine .step l₁ (h _ d₁ t₁ s₁ trivial) fun ts t₂ d₂ s₂ l₂ _ ⟨closes, covers⟩ => ?_
    -- the arguments have been read up to the parenthesis, which ends the text of the call
    rw [look_iff]
    refine .step l₂ (.scanBlank s₂ (by rw [closes]; decide)) fun _ t₃ d₃ s₃ l₃ n₃ _ => ?_
    have anchored : m.Anchored { operator.place with text := t₃.look.text start t₂.look.stop } :=
      s₃.rests.anchored_text located opens s₂.rests.bounds_stop
    refine placed_self (.pure l₃ ⟨anchored.located, opens, fun first reads => ?_⟩)
    exact .of_parts ((covers _ (reads.later l₁).path).later n₃) rfl anchored (reads.later l₃).root

/-- A reference extends its head: it goes on from the last token of the head as a path of one term. -/
theorem reference (h : m.Keeps g) (sound : m.Sound c u) (head : Term) (start : Nat)
    (located : m.Located head.place) (opens : m.Opens start head.place.offset) :
    m.Tracks (m.Later u) (Parse.reference g head start) u fun t v => m.Extends u v head t := by
  refine .nested sound (.refl sound) ?_
  dsimp only
  split
  · refine .step (.refl sound) (.report sound located) fun _ t d s l _ _ => ?_
    exact .tail l (h _ d t s ⟨located, opens⟩) fun a v _ yields first reads =>
      yields first (reads.later l).root (reads.later l).path
  · exact (h (.segments head.place start [head]) c u sound ⟨located, opens⟩).weaken
      (fun _ later => later) fun t v _ yields first reads => yields first reads.root reads.path

/-- A segment has been read behind a path. -/
theorem namedSegment (sound : m.Sound c u) (more : u.look.token ≠ .eof) :
    m.Tracks (m.Later u) Parse.namedSegment u fun t v =>
      ∀ (path : Ref) (a : Nat), m.Covers u a (walkTerms path) → m.Covers v a (walkTerms (path ++ [t])) := by
  refine .step (.refl sound) (.scanBlank sound more) fun _ t₁ d₁ s₁ l₁ _ _ => ?_
  rw [token_iff, isRefKeyword_iff]
  split
  · next word =>
      -- a word is never the end of the source, so there is a token to step to
      have more : t₁.look.token ≠ .eof := fun ended => by
        rw [ended, Bool.or_eq_true] at word
        rcases word with word | word
        · cases word
        · rcases Env.word_of_allowsInRefs s₁.rests.at'.known word with word | word <;> cases word
      rw [look_iff]
      refine .step l₁ (.scanBlank s₁ more) fun _ t₂ d₂ s₂ l₂ _ _ => .pure l₂ fun path a covers => ?_
      rw [walkTerms_append, walkTerms_single]
      have covers := covers.later l₂
      refine covers.append (.term (.nil (Nat.le_refl _)) s₁.rests.anchored rfl)
  · exact .unexpected_fail l₁ s₁

/-- A segment between brackets adds the nodes of its term to those of the path. -/
theorem bracketSegment (h : m.Keeps g) (sound : m.Sound c u) (more : u.look.token ≠ .eof) :
    m.Tracks (m.Later u) (Parse.bracketSegment g) u fun t v =>
      ∀ (path : Ref) (a : Nat), m.Covers u a (walkTerms path) → m.Covers v a (walkTerms (path ++ [t])) := by
  refine .step (.refl sound) (.scan sound more) fun _ t₁ d₁ s₁ l₁ _ _ => ?_
  refine .step l₁ (h (.compound true) d₁ t₁ s₁ trivial) fun t t₂ d₂ s₂ l₂ n₂ read => ?_
  rw [token_iff]
  split
  · next closes =>
      have closes : t₂.look.token = .rbrack := beq_iff_eq.1 closes
      refine .step l₂ (.scanBlank s₂ (by rw [closes]; decide)) fun _ t₃ d₃ s₃ l₃ n₃ _ => .pure l₃ ?_
      intro path a covers
      rw [walkTerms_append, walkTerms_single]
      exact (covers.later l₁).then s₁ (n₂.trans n₃) (read.later n₃).spans
  · exact .unexpected_fail l₂ s₂

/-- A path that ends at the last token. -/
theorem endReference (sound : m.Sound c u) (place : Location) (start : Nat) (path : Ref)
    (located : m.Located place) (opens : m.Opens start place.offset) :
    m.Tracks (m.Later u) (Parse.endReference place start path) u fun t v => v = u ∧
      ∀ first, m.Root first place.offset u.look.offset → m.Covers u first.offset (walkTerms path) →
        m.Reads u first t := by
  unfold Parse.endReference
  rw [lastStop_iff]
  refine placed_self (.pure (.refl sound) ⟨rfl, fun first root covers => ?_⟩)
  exact .of_parts covers rfl (sound.rests.anchored_text located opens
    (sound.rests.bounds_lastStop root.proper root.lt)) root

/-- A path is read from where its first term was, however it goes on: with a segment, with a call, or not
at all. -/
theorem segments (h : m.Keeps g) (sound : m.Sound c u) (place : Location) (start : Nat) (path : Ref)
    (located : m.Located place) (opens : m.Opens start place.offset) :
    m.Tracks (m.Later u) (Parse.segments g place start path) u fun t v =>
      ∀ first, m.Root first place.offset u.look.offset → m.Covers u first.offset (walkTerms path) →
        m.Reads v first t := by
  -- the path has grown by a segment, and its nodes by those of the segment
  have onward {t : Reading} {e : Cursor} (s : m.Sound e t) (l : m.Later u t) {segment : Term}
      (read : ∀ (path : Ref) (a : Nat), m.Covers u a (walkTerms path) →
        m.Covers t a (walkTerms (path ++ [segment]))) :
      m.Tracks (m.Later u) (g (.segments place start (path ++ [segment]))) t fun a v =>
        ∀ first, m.Root first place.offset u.look.offset → m.Covers u first.offset (walkTerms path) →
          m.Reads v first a :=
    .tail l (h _ e t s ⟨located, opens⟩) fun a v _ yields first root covers =>
      yields first (root.mono l.ahead) (read path _ covers)
  unfold Parse.segments
  rw [token_iff]
  -- a segment behind a dot or between brackets, a call, or the end of the path
  split
  · next dot =>
      exact .step (.refl sound) (namedSegment sound (by rw [dot]; decide)) fun t t₁ d₁ s₁ l₁ _ read =>
        onward s₁ l₁ read
  · next bracket =>
      exact .step (.refl sound) (bracketSegment h sound (by rw [bracket]; decide))
        fun t t₁ d₁ s₁ l₁ _ read => onward s₁ l₁ read
  · next paren =>
      -- the call takes the text so far as its operator, and what is read of it is the path with the
      -- arguments
      rw [offset_iff, placed_iff]
      have anchored : m.Anchored { place with text := u.look.text start u.look.offset } :=
        sound.rests.anchored_text located opens (sound.rests.bounds_paren paren)
      refine .step (.refl sound) (call h sound paren _ start anchored.located opens)
        fun t t₁ d₁ s₁ l₁ _ ⟨there, begins, called⟩ => ?_
      have called (first : Cursor) (root : m.Root first place.offset u.look.offset)
          (covers : m.Covers u first.offset (walkTerms path)) : m.Reads t₁ first t :=
        called first (.of_parts covers rfl anchored root)
      -- what is called may be gone on with, as the head of another reference
      have onward : m.Tracks (m.Later u) (g (.reference t start)) t₁ fun a v =>
          ∀ first, m.Root first place.offset u.look.offset → m.Covers u first.offset (walkTerms path) →
            m.Reads v first a :=
        .tail l₁ (h _ d₁ t₁ s₁ ⟨there, begins⟩) fun a v _ yields first root covers =>
          yields first (called first root covers)
      rw [token_iff]
      split
      · next blank =>
          exact .step l₁ (.scan s₁ (by rw [blank]; decide)) fun _ t₂ d₂ s₂ l₂ n₂ _ =>
            .pure l₂ fun first root covers => (called first root covers).later n₂
      · exact onward
      · exact onward
      · exact .pure l₁ called
  · next blank =>
      -- a blank ends the path, and is then passed; no node stands in it
      refine .step (.refl sound) (endReference sound place start path located opens)
        fun t t₁ d₁ s₁ l₁ _ ⟨same, read⟩ => ?_
      subst same
      exact .step l₁ (.scan s₁ (by rw [blank]; decide)) fun _ t₂ d₂ s₂ l₂ n₂ _ =>
        .pure l₂ fun first root covers => (read first root covers).later n₂
  · exact (endReference sound place start path located opens).weaken (fun _ later => later)
      fun t v _ ⟨same, read⟩ => same ▸ read

/-- What a primary term starts with, up to and with the token that the parser rests at: the one where the
term stands, or one behind which a path may go on. -/
structure Heads (m : Survey) (c : Cursor) (v : Reading) (t : Term) : Prop where
  more : v.look.token ≠ .eof
  ends : v.look.offset = t.place.offset ∨ ∀ d, m.Rests d v.look → d.lexeme.kind.isJoint = true
  read : m.Read v.wildcards c (v.look.offset + 1) t

/-- Where a path goes on behind what a primary term starts with, its text may start at the last token. -/
theorem Heads.opens {t : Term} (h : Heads m c u t) (sound : m.Sound d u) {e : Cursor}
    (precedes : d.Precedes m.source e) (onward : e.lexeme.kind.goesOn = true) :
    m.Opens u.look.offset t.place.offset := by
  refine ⟨d, precedes.before, sound.offset.symm, ?_⟩
  rcases h.ends with same | joint
  · exact .inl (sound.offset.symm.trans same)
  · have le : t.place.offset ≤ d.offset := sound.offset ▸ Nat.le_of_lt_succ h.read.root.ahead
    exact .inr (.inr (.inl ⟨joint d sound.rests, le, e, precedes, onward⟩))

/-- A variable on its own may be a path. -/
theorem reads_alone {t : Term} (read : m.Reads v c t) :
    m.Reads v c (if isRoot t.value = true then ⟨.ref [t], t.location⟩ else t) := by
  split
  · exact read.location ▸ .of_parts read.path rfl read.anchored read.root
  · exact read

/-- A term that may be the head of a path is read from where it started, with the path or without. -/
theorem finish (h : m.Keeps g) (sound : m.Sound d u) (head : Term) (b : Bool) (heads : Heads m c u head) :
    m.Tracks (m.Later u) (Parse.finish g head b) u fun t v => m.Reads v c t := by
  unfold Parse.finish
  rw [offset_iff]
  refine .step (.refl sound) (.advance b sound heads.more)
    fun _ t₁ d₁ s₁ l₁ _ ⟨ahead, drawn, _, precedes⟩ => ?_
  have read : m.Reads t₁ c head := heads.read.mono l₁.drawn ahead
  -- a path goes on: its text starts at the token that has just been passed
  have onward {k : Token} (token : t₁.look.token = k) (plain : k.isPlain = true) (more : k.goesOn = true) :
      m.Tracks (m.Later u) (g (.reference head u.look.offset)) t₁ fun t v => m.Reads v c t := by
    have kind := (s₁.rests.kind_iff k plain).1 token
    have opens := heads.opens sound (precedes d₁ s₁.rests) (kind ▸ more)
    exact .tail l₁ (h _ d₁ t₁ s₁ ⟨read.anchored.located, opens⟩) fun a v _ yields => yields c read
  rw [token_iff]
  split
  · next token => exact onward token rfl rfl
  · next token => exact onward token rfl rfl
  · next token => exact onward token rfl rfl
  -- no path goes on: a variable on its own is a path of one term, anything else stays what it is
  · dsimp only
    split
    · next blank =>
        have blank : t₁.look.token = .whitespace := beq_iff_eq.1 blank
        exact .step l₁ (.scan s₁ (by rw [blank]; decide)) fun _ t₂ d₂ s₂ l₂ n₂ _ =>
          .pure l₂ (reads_alone (read.later n₂))
    · exact .pure l₁ (reads_alone read)

end Keeps

end Survey

end RegoSyntax
