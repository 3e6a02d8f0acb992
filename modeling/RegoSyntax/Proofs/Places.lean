/-
# RegoSyntax.Proofs.Places — the places of a parsed source.

A place names a file and a token in it, and has the text that a node covers.  All nodes of the statements, all
comments and all errors have places that are those of tokens (`parse_places`).  The text of a clause, a rule,
a head, a literal and what has a place in one is that of a stretch of tokens from there on
(`parse_spans`).

The text of a term need not start where the term stands (`parse_terms`).  A term takes its place from the
head that it starts with, and its text from a token that the parser remembers beside it.  So the text of what
is in parentheses starts at one of the parentheses before it, that of a path or call whose head has more than
one token at the last token of the head, and that of an operation in the value of a keyed membership at the
key before the comma.  In each case the statement says which token that is.
-/
import RegoSyntax.Proofs.Stream
import RegoSyntax.Proofs.Tracks.Outcome
import RegoSyntax.Proofs.WellFormed

namespace RegoSyntax

/-! ## What has a place -/

/-- The place of a declaration or a quantified query. -/
def ExprTerms.places : ExprTerms → List (Option Location)
  | .some _ l | .every _ _ _ _ l => [l]
  | _ => []

/-- The places of a node that is a literal. -/
def Visit.spans : Visit → List (Option Location)
  | .expr e => e.location :: (e.terms.places ++ e.withs.map (·.location))
  | _ => []

/-- A node that is a term. -/
def Visit.term? : Visit → Option Term
  | .term t => some t
  | _ => none

namespace Statement

/-- The terms of a statement. -/
def terms (s : Statement) : List Term := s.nodes.filterMap Visit.term?

/-- The places of a clause, or of the rules and heads that a statement consists of. -/
def frame : Statement → List (Option Location)
  | .package p => [p.location]
  | .importClause i => [i.location]
  | .rule r => r.links.flatMap fun link => [link.location, link.head.location]
  | _ => []

/-- The places in a statement that are not those of terms. -/
def spans (s : Statement) : List (Option Location) := s.frame ++ s.nodes.flatMap Visit.spans

/-- All places in a statement. -/
def places (s : Statement) : List (Option Location) := s.spans ++ s.terms.map (·.location)

/-- A node of a statement stands in a head or elsewhere. -/
theorem mem_nodes {s : Statement} {n : Visit} (h : n ∈ s.nodes) : n ∈ s.inHeads ∨ n ∈ s.inBodies := by
  cases s with
  | rule r =>
      obtain ⟨link, hl, hn⟩ := List.mem_flatMap.1 h
      rcases List.mem_append.1 hn with hn | hn
      · exact .inl (List.mem_flatMap.2 ⟨link, hl, hn⟩)
      · exact .inr (List.mem_flatMap.2 ⟨link, hl, hn⟩)
  | _ => exact .inr h

end Statement

namespace Location

/-- A place is that of a token of a source. -/
def IsOf (l : Location) (source file : String) : Prop :=
  ∃ x ∈ tokensOf source, l.file = file ∧ l.offset = x.position.offset ∧ l.row = x.position.row ∧
    l.col = x.position.col ∧ l.tabs = x.position.tabs

/-- A place has the text of the source from there on. -/
def IsExact (l : Location) (source : String) : Prop := l.text = textBetween source l.offset l.stop

/-- A place has the text from the start of one token up to the end of another one. -/
def Spans (l : Location) (source : String) : Prop :=
  l.text ≠ "" ∧ l.IsExact source ∧
    (∃ x ∈ tokensOf source, x.isSolid ∧ x.position.offset = l.offset) ∧
      ∃ x ∈ tokensOf source, x.isSolid ∧ x.position.stop = l.stop

/-- All tokens between two offsets, blanks and comments apart, are parentheses that open. -/
def OnlyOpens (source : String) (start stop : Nat) : Prop :=
  ∀ x ∈ tokensOf source, x.isSolid = true → start ≤ x.position.offset → x.position.offset < stop →
    x.token = .lparen

/-- A text ends at an offset: there is the end of a token, or the parenthesis of a call starts there. -/
def Ends (source : String) (stop : Nat) : Prop :=
  ∃ x ∈ tokensOf source, x.position.stop = stop ∨ x.token = .lparen ∧ x.position.offset = stop

/-- A text starts at a parenthesis before a term, with nothing but more of them between the two. -/
def Enclosed (source : String) (x : Scanned) (place : Nat) : Prop :=
  x.token = .lparen ∧ x.position.offset < place ∧ OnlyOpens source x.position.offset place

/-- A text starts at the last token of the head of a path, behind the place of the term: the next token is
the one that the path goes on with. -/
def Continued (source : String) (x : Scanned) (place : Nat) : Prop :=
  x.token.isJoint = true ∧ place < x.position.offset ∧ ∃ y ∈ tokensOf source, y.token.goesOn = true ∧
    x.position.offset < y.position.offset ∧ ∀ z ∈ tokensOf source, z.isSolid = true →
      x.position.offset < z.position.offset → y.position.offset ≤ z.position.offset

/-- A text starts before the comma behind which a term stands, with nothing but parentheses that open between
the comma and the term. -/
def Keyed (source : String) (x : Scanned) (place : Nat) : Prop :=
  ∃ y ∈ tokensOf source, y.token = .comma ∧ x.position.offset < y.position.offset ∧
    y.position.offset < place ∧ OnlyOpens source y.position.stop place

/-- A place has a text that starts at another token: at a parenthesis that opens before it, at the last token
of the head of a path, or at the key of a membership. -/
def IsShifted (l : Location) (source : String) : Prop :=
  ∃ x ∈ tokensOf source, (∃ stop, Ends source stop ∧ l.text = textBetween source x.position.offset stop) ∧
    (Enclosed source x l.offset ∨ Continued source x l.offset ∨ Keyed source x l.offset)

instance (l : Location) (source : String) : Decidable (l.IsExact source) :=
  inferInstanceAs (Decidable (_ = _))

end Location

namespace Survey

variable {m : Survey} {l : Location} {s : Statement} {W : Array Nat} {a b : Nat} {ss : List Statement}

/-! ## Places by tokens -/

theorem Located.isOf (h : m.Located l) : l.IsOf m.source m.env.file := by
  obtain ⟨c, text, starts, rfl⟩ := h
  exact ⟨c.scanned m.source, mem_tokensOf.2 ⟨c, starts, rfl⟩, rfl, rfl, rfl, rfl, rfl⟩

theorem Spanned.spans (h : m.Spanned l) : l.Spans m.source := by
  obtain ⟨c, e, proper, ends, le, rfl⟩ := h
  have lt := le.trans_lt (Cursor.offset_lt_skip ends.filled)
  have size := textBetween_size proper.starts.in ends.starts.in.skip lt
  refine ⟨fun none => ?_, ?_, ⟨c.scanned m.source, mem_tokensOf.2 ⟨c, proper.starts, rfl⟩,
    (c.scanned_solid m.source).2 ⟨proper.major, proper.filled⟩, rfl⟩, e.scanned m.source,
    mem_tokensOf.2 ⟨e, ends.starts, rfl⟩, (e.scanned_solid m.source).2 ⟨ends.major, ends.filled⟩, size.symm⟩
  · have none : textBetween m.source c.offset e.skip.offset = "" := none
    rw [none, String.utf8ByteSize_empty] at size
    omega
  · show textBetween m.source c.offset e.skip.offset = textBetween m.source c.offset
      (c.offset + (textBetween m.source c.offset e.skip.offset).utf8ByteSize)
    rw [size]

/-- What is no word is the same token whatever words are reserved. -/
theorem scanned_of_other {c : Cursor} (other : c.lexeme.kind ≠ .ident) :
    (c.scanned m.source).token = c.lexeme.kind := if_neg fun ident => other (beq_iff_eq.1 ident)

theorem Opened.onlyOpens (h : m.Opened a b) : Location.OnlyOpens m.source a b := by
  intro x listed solid le lt
  obtain ⟨c, starts, rfl⟩ := mem_tokensOf.1 listed
  exact (c.scanned_plain m.source rfl).2 (h.only c starts le lt ((c.scanned_solid m.source).1 solid).1)

theorem Bounds.ends {n : Nat} (h : m.Bounds n) : Location.Ends m.source n := by
  obtain ⟨e, starts, stop | ⟨paren, offset⟩⟩ := h
  · exact ⟨e.scanned m.source, mem_tokensOf.2 ⟨e, starts, rfl⟩, .inl stop⟩
  · exact ⟨e.scanned m.source, mem_tokensOf.2 ⟨e, starts, rfl⟩,
      .inr ⟨(e.scanned_plain m.source rfl).2 paren, offset⟩⟩

theorem Bounds.inside {n : Nat} (h : m.Bounds n) : ∃ e : Cursor, e.In m.source ∧ e.offset = n := by
  obtain ⟨e, starts, stop | ⟨-, offset⟩⟩ := h
  · exact ⟨e.skip, starts.in.skip, stop⟩
  · exact ⟨e, starts.in, offset⟩

/-- A text that starts where its term stands is what the source has there. -/
theorem exact_of_same {c : Cursor} {stop : Nat} (starts : c.Starts m.source) (bounds : m.Bounds stop)
    (same : c.offset = l.offset) (text : l.text = textBetween m.source c.offset stop) :
    l.IsExact m.source := by
  obtain ⟨e, inside, rfl⟩ := bounds.inside
  rw [Location.IsExact, Location.stop, text, ← same]
  by_cases lt : c.offset < e.offset
  · rw [textBetween_size starts.in inside lt]
  · rw [textBetween_of_le (Nat.le_of_not_lt lt), String.utf8ByteSize_empty, Nat.add_zero,
      textBetween_of_le (Nat.le_refl _)]

/-- The text of a term starts where the term stands, or else at another token, which the term stands behind or
whose path goes on there. -/
theorem Anchored.exact_or_shifted (h : m.Anchored l) : l.IsExact m.source ∨ l.IsShifted m.source := by
  obtain ⟨-, start, stop, ⟨c, starts, rfl, begins⟩, bounds, text⟩ := h
  by_cases same : c.offset = l.offset
  · exact .inl (exact_of_same starts bounds same text)
  refine .inr ⟨c.scanned m.source, mem_tokensOf.2 ⟨c, starts, rfl⟩, ⟨stop, bounds.ends, text⟩, ?_⟩
  -- one case for each way in which a text may begin before its term
  rcases begins with here | ⟨paren, opened⟩ | ⟨joint, le, d, precedes, onward⟩ |
    ⟨q, point, comma, before, behind, opened⟩
  · exact absurd here same
  · exact .inl ⟨(c.scanned_plain m.source rfl).2 paren, Nat.lt_of_le_of_ne opened.le same, opened.onlyOpens⟩
  · refine .inr (.inl ⟨?_, Nat.lt_of_le_of_ne le (Ne.symm same), d.scanned m.source,
      mem_tokensOf.2 ⟨d, precedes.behind, rfl⟩, ?_, precedes.lt, fun z listed solid after => ?_⟩)
    · rwa [scanned_of_other fun ident => by rw [ident] at joint; cases joint]
    · rwa [scanned_of_other fun ident => by rw [ident] at onward; cases onward]
    · obtain ⟨e, there, rfl⟩ := mem_tokensOf.1 listed
      exact Nat.le_of_not_lt fun lt => precedes.gap e there after lt ((e.scanned_solid m.source).1 solid).1
  · exact .inr (.inr ⟨q.scanned m.source, mem_tokensOf.2 ⟨q, point, rfl⟩,
      (q.scanned_plain m.source rfl).2 comma, before, behind, opened.onlyOpens⟩)

/-! ## Statements -/

namespace Passage

theorem placed (h : m.Passage W a b ss) (hs : s ∈ ss) : ∀ n ∈ s.nodes, m.Placed n := fun n hn => by
  rcases Statement.mem_nodes hn with hn | hn
  · exact h.clear.heads.placed n (List.mem_flatMap.2 ⟨s, hs, hn⟩)
  · exact h.clear.bodies.placed n (List.mem_flatMap.2 ⟨s, hs, hn⟩)

theorem frame (h : m.Passage W a b ss) (hs : s ∈ ss) : ∀ p ∈ s.frame, ∃ l ∈ p, m.Spanned l := by
  have sets := h.sets s hs
  cases s with
  | package | importClause => exact fun p hp => List.mem_singleton.1 hp ▸ sets
  | rule r =>
      intro p hp
      obtain ⟨link, hl, hp⟩ := List.mem_flatMap.1 hp
      obtain ⟨place, head⟩ := sets link hl
      rcases List.mem_cons.1 hp with rfl | hp
      · exact place
      · exact List.mem_singleton.1 hp ▸ head
  | body | annotations => exact List.forall_mem_nil _

/-- The places of a statement that are not those of terms cover stretches of tokens. -/
theorem spans (h : m.Passage W a b ss) (hs : s ∈ ss) : ∀ p ∈ s.spans, ∃ l ∈ p, m.Spanned l := by
  intro p hp
  rcases List.mem_append.1 hp with hp | hp
  · exact h.frame hs p hp
  obtain ⟨n, hn, hp⟩ := List.mem_flatMap.1 hp
  have placed := h.placed hs n hn
  cases n with
  | expr e =>
      obtain ⟨place, fitted⟩ := placed
      rcases List.mem_cons.1 hp with rfl | hp
      · exact place
      rcases List.mem_append.1 hp with hp | hp
      · have declares := fitted.terms
        generalize e.terms = terms at declares hp
        rcases terms with t | ts | ⟨ts, l⟩ | ⟨k, v, d, b, l⟩
        · cases hp
        · cases hp
        · exact List.mem_singleton.1 hp ▸ declares
        · exact List.mem_singleton.1 hp ▸ declares
      · obtain ⟨w, hw, rfl⟩ := List.mem_map.1 hp
        exact fitted.withs w hw
  | _ => cases hp

theorem terms (h : m.Passage W a b ss) (hs : s ∈ ss) : ∀ t ∈ s.terms, ∃ l ∈ t.location, m.Anchored l := by
  intro t ht
  obtain ⟨n, hn, same⟩ := List.mem_filterMap.1 ht
  have placed := h.placed hs n hn
  cases n with
  | term t' => exact Option.some.inj same ▸ placed
  | _ => cases same

theorem places (h : m.Passage W a b ss) (hs : s ∈ ss) : ∀ p ∈ s.places, ∃ l ∈ p, m.Located l := by
  intro p hp
  rcases List.mem_append.1 hp with hp | hp
  · obtain ⟨l, place, spanned⟩ := h.spans hs p hp
    exact ⟨l, place, spanned.anchored.located⟩
  · obtain ⟨t, ht, rfl⟩ := List.mem_map.1 hp
    obtain ⟨l, place, anchored⟩ := h.terms hs t ht
    exact ⟨l, place, anchored.located⟩

end Passage

end Survey

/-! ## Sources -/

/-- What is read from a source stands in it, under options that fit together or not. -/
theorem forall_parsed {source file : String} {o : Options} {P : Statement → Prop}
    (holds : ∀ (m : Survey) (W : Array Nat) (stop : Nat) (ss : List Statement), m.source = source →
      m.Passage W 0 stop ss → ∀ s ∈ ss, P s) : ∀ s ∈ (parse source file o).statements, P s := by
  rcases settled : o.negotiate with problem | words
  · rw [parse_unsettled settled]
    exact List.forall_mem_nil _
  · obtain ⟨W, stop, passage⟩ := (parse_holds source file settled).statements
    exact holds _ W stop _ rfl passage

/-- Every node of a statement, every comment and every error has a place, and it is that of a token. -/
theorem parse_places (source file : String) (o : Options) (settled : o.negotiate.isOk = true) :
    (∀ s ∈ (parse source file o).statements, ∀ place ∈ s.places, ∃ l ∈ place, l.IsOf source file) ∧
      (∀ c ∈ (parse source file o).comments, c.location.IsOf source file) ∧
        ∀ e ∈ (parse source file o).errors, ∃ l ∈ e.location, l.IsOf source file := by
  rcases negotiated : o.negotiate with problem | words <;> rw [negotiated] at settled
  · cases settled
  obtain ⟨⟨W, stop, passage⟩, comments, errors⟩ := parse_holds source file negotiated
  refine ⟨fun s hs place hp => ?_, fun c hc => (comments c hc).isOf, fun e he => ?_⟩
  · obtain ⟨l, same, located⟩ := passage.places hs place hp
    exact ⟨l, same, located.isOf⟩
  · obtain ⟨l, same, located⟩ := errors e he
    exact ⟨l, same, located.isOf⟩

/-- A source with a clause, a rule, a comment and an error. -/
theorem places_of_policy :
    let source := "package p\nq := [1] # r\ns :="
    ({} : Options).negotiate.isOk = true ∧
      (∀ s ∈ (parse source "p.rego" {}).statements, ∀ place ∈ s.places, ∃ l ∈ place, l.IsOf source "p.rego") ∧
        (∀ c ∈ (parse source "p.rego" {}).comments, c.location.IsOf source "p.rego") ∧
          ∀ e ∈ (parse source "p.rego" {}).errors, ∃ l ∈ e.location, l.IsOf source "p.rego" := by
  have settled : ({} : Options).negotiate.isOk = true := by decide +kernel
  exact ⟨settled, parse_places _ _ _ settled⟩

/-- A clause, a rule, a head, a literal, a replacement, a declaration and a quantified query have the text of
a stretch of tokens, from where they stand. -/
theorem parse_spans (source file : String) (o : Options) :
    ∀ s ∈ (parse source file o).statements, ∀ place ∈ s.spans, ∃ l ∈ place, l.Spans source :=
  forall_parsed fun m _ _ _ same passage s hs place hp => by
    obtain ⟨l, here, spanned⟩ := passage.spans hs place hp
    exact ⟨l, here, same ▸ spanned.spans⟩

/-- A literal of a query. -/
theorem spans_of_query : ∃ s ∈ (parse "not x # c" "" {}).statements, ∃ place ∈ s.spans,
    ∃ l ∈ place, l.Spans "not x # c" := by
  have found : ((parse "not x # c" "" {}).statements.any fun s => !s.spans.isEmpty) = true := by
    decide +kernel
  obtain ⟨s, hs, filled⟩ := List.any_eq_true.1 found
  obtain ⟨place, hp⟩ := List.exists_mem_of_ne_nil s.spans (by simpa using filled)
  exact ⟨s, hs, place, hp, parse_spans "not x # c" "" {} s hs place hp⟩

/-- A term has the text from where it stands, or one that starts at a parenthesis before it, at the last token
of the head of its path, or at the key of the membership whose value it is in. -/
theorem parse_terms (source file : String) (o : Options) :
    ∀ s ∈ (parse source file o).statements, ∀ t ∈ s.terms,
      ∃ l ∈ t.location, l.IsExact source ∨ l.IsShifted source :=
  forall_parsed fun m _ _ _ same passage s hs t ht => by
    obtain ⟨l, here, anchored⟩ := passage.terms hs t ht
    exact ⟨l, here, same ▸ anchored.exact_or_shifted⟩

/-- A query with a term in parentheses, a path behind a bracket and the value of a keyed membership: each of
the three has a text that starts elsewhere than the term, and there is no fourth one. -/
theorem terms_of_query :
    let source := "(a) == [1,2][0]; k, v == 1 in xs"
    ∃ s ∈ (parse source "" {}).statements,
      (s.terms.countP fun t => !decide (t.place.IsExact source)) = 3 ∧
        ∀ t ∈ s.terms, ∃ l ∈ t.location, l.IsExact source ∨ l.IsShifted source := by
  intro source
  have found : ((parse source "" {}).statements.any fun s =>
      (s.terms.countP fun t => !decide (t.place.IsExact source)) == 3) = true := by decide +kernel
  obtain ⟨s, hs, three⟩ := List.any_eq_true.1 found
  exact ⟨s, hs, beq_iff_eq.1 three, parse_terms source "" {} s hs⟩

/-- The text of a path starts at the bracket that closes its head. -/
theorem terms_shifted : ¬ ∀ s ∈ (parse "[1,2][0]" "" {}).statements, ∀ t ∈ s.terms,
    ∃ l ∈ t.location, l.IsExact "[1,2][0]" := by
  decide +kernel

end RegoSyntax
