/-
# RegoSyntax.Proofs.Printing.Collections — lists, queries and what stands between brackets is read back.

What a bracket opens is decided by the first element, which is read as a primary term; and as a printed
term has no operators, what stands behind it decides the matter.  So no collection is ever read twice.

The statements have one form.  The parser is where a text starts (`Here`), there is depth enough for it
(`Deep`), and the text is that of a tree whose parts are known to be read back (`Back`); then the
production gives a tree that is the same but for places and positions, and leaves the parser at what
stands behind the text.  The lemmas at the end forget the depth and the reading, and say of the terms
themselves that they begin as they should (`Begins`).

A list is read by induction on its elements.  The text of what is left gets shorter with each of them, and
that is what `Deep.shorter` is about.
-/
import RegoSyntax.Proofs.Printing.Operands

namespace RegoSyntax

open Parse Lexeme
open Page (Given)

/-! ## Sameness

What is read back is the same as what was printed up to places and indexes, so lists are compared entry by
entry and a read list is longer by what was appended last. -/

/-- Queries that are the same one after the other are the same. -/
theorem sameBodies_append {a b c d : List Expr} (first : sameBodies a c = true)
    (rest : sameBodies b d = true) : sameBodies (a ++ b) (c ++ d) = true := by
  induction a generalizing c with
  | nil =>
      cases c with
      | nil => exact rest
      | cons => simp [sameBodies] at first
  | cons t a ih =>
      cases c with
      | nil => simp [sameBodies] at first
      | cons u c =>
          simp only [sameBodies, List.cons_append, Bool.and_eq_true] at first ⊢
          exact ⟨first.1, ih first.2⟩

/-- The position of an expression does not count. -/
theorem Expr.same_index {e f : Expr} (h : e.same f = true) (n : Nat) :
    e.same { f with index := n } = true := by
  cases e
  cases f
  simpa only [Expr.same] using h

namespace Page

variable {p : Page} {n : Nat} {r s : List Char} {u : Reading}

/-! ## Lists

A list is read from one element on, with those before it already in hand.  The induction is on the
elements that are still to come; each is followed by a comma or by the mark that ends the list. -/

/-- The tokens that end a list, and their characters. -/
def closers : List (Token × Char) := [(.rparen, ')'), (.rbrack, ']'), (.rbrace, '}')]

/-- What is known of a token that closes a list. -/
theorem closers_mark {stop : Token} {close : Char} (listed : (stop, close) ∈ closers) :
    close ∈ closingMarks ∧ shown (close :: s) = stop ∧ behind (close :: s) = s ∧
      past (close :: s) = close :: s ∧ stop ∉ openingTokens ∧ stop ≠ .comma ∧ stop ≠ .containsKw := by
  simp only [closers, List.mem_cons, Prod.mk.injEq, List.not_mem_nil, or_false] at listed
  rcases listed with ⟨rfl, rfl⟩ | ⟨rfl, rfl⟩ | ⟨rfl, rfl⟩ <;>
    exact ⟨by decide, rfl, rfl, rfl, by decide, by decide, by decide⟩

/-- What stands behind an element of a list: a comma and further elements, or its end. -/
theorem rests_more {α : Type} {text : α → List Char} {mark close : Char} (marks : mark ∈ closingMarks)
    (closes : close ∈ closingMarks) (xs : List α) : Rests (more mark text xs ++ close :: s) := by
  cases xs with
  | nil => exact .mark closes
  | cons x xs => exact .mark marks

section lists

variable {stop : Token} {close : Char} {t : Term} {ts read read' : List Term}

/-- An element of a list, and what is behind it: the end of the list, or a comma. -/
theorem runs_element {Q : Option (List Term) → Reading → Prop} (element : t.Back p) (rests : Rests r)
    (opens : stop ∉ openingTokens) (here : p.Here (t.text ++ r) u) (deep : Deep n (t.text ++ r) 8)
    (ended : ∀ t' v, v.look.token = stop → t.same t' = true → p.Here (past r) v →
      Q (some (read ++ [t'])) v)
    (further : ∀ t' v, v.look.token = .comma → t.same t' = true → p.Here (past r) v →
      p.Runs (scan >>= fun _ => grammar n (.elements stop (read ++ [t']))) v Q)
    (either : shown (past r) = stop ∨ shown (past r) = .comma) (other : stop ≠ .comma) :
    p.Runs (elements (grammar n) stop read) u Q := by
  -- -- an element opens with a token that no closing mark is
  have starts : u.look.token ≠ stop := by
    rintro rfl
    exact opens (here.token_opening (element.plain.first rests.closes).2)
  unfold elements
  rw [token_iff, beq_eq_false_iff_ne.2 starts]
  refine gives_bind (runs_compound element.echoes rests nofun here deep) fun t' v ⟨same, there⟩ => ?_
  rw [token_iff]
  have token : v.look.token = shown (past r) := there.token_eq rfl fun word =>
    absurd (word ▸ rests.token) (by decide)
  -- -- what stands behind the element decides whether the list goes on
  rcases either with shows | shows
  · rw [token, shows, beq_self_eq_true]
    exact runs_pure (ended t' v (token.trans shows) same there)
  · rw [token, shows, beq_eq_false_iff_ne.2 (Ne.symm other)]
    exact further t' v (token.trans shows) same there

/-- The elements of a list, from one of them on. -/
theorem runs_elements (listed : (stop, close) ∈ closers) (first : t.Back p)
    (others : ∀ t ∈ ts, t.Back p) (same : sameTerms read read' = true)
    (here : p.Here (t.text ++ (more ',' Term.text ts ++ close :: s)) u)
    (deep : Deep n (t.text ++ (more ',' Term.text ts ++ close :: s)) 9) :
    p.Runs (grammar n (.elements stop read')) u (Given fun ts' v =>
      sameTerms (read ++ t :: ts) ts' = true ∧ p.Here (close :: s) v) := by
  obtain ⟨closes, shows, -, stays, opens, comma, plain⟩ := closers_mark (s := s) listed
  induction ts generalizing n t read read' u with
  | nil =>
      obtain ⟨m, rfl, within⟩ := deep.enter
      refine runs_element first (.mark closes) opens here within ?_ ?_ (.inl (by rwa [stays])) comma
      · intro t' v token same' there
        exact ⟨_, rfl, sameTerms_append same (sameTerms_singleton same'), stays ▸ there⟩
      · intro t' v token same' there
        rw [stays] at there
        -- behind the last element stands the token that closes, and no comma
        exact absurd ((there.token_eq shows plain).symm.trans token) comma
  | cons x xs ih =>
      obtain ⟨m, rfl, within⟩ := deep.enter
      refine runs_element first (rests_more (.head _) closes (x :: xs)) opens here within ?_ ?_ (.inr rfl) comma
      · intro t' v token same' there
        exact absurd (token.symm.trans (there.token_eq rfl nofun)) comma
      · intro t' v token same' there
        have ahead := others x List.mem_cons_self
        have rests : Rests (more ',' Term.text xs ++ close :: s) := rests_more (.head _) closes xs
        have there : p.Here (',' :: ' ' :: (x.text ++ (more ',' Term.text xs ++ close :: s))) v := by
          rw [more_cons, List.cons_append, List.cons_append, List.append_assoc] at there
          exact there
        refine gives_bind ((there.before rfl).scan (ahead.plain.first rests.closes).1) fun _ w there => ?_
        have shorter : (x.text ++ (more ',' Term.text xs ++ close :: s)).length <
            (t.text ++ (more ',' Term.text (x :: xs) ++ close :: s)).length := by
          simp only [more_cons, List.length_append, List.length_cons]
          omega
        refine (ih ahead (fun t ht => others t (List.mem_cons_of_mem _ ht))
          (sameTerms_append same (sameTerms_singleton same')) there
          (within.shorter shorter (by decide))).imp_given fun ts' x h => ?_
        simpa using h

/-- A comma, and the elements behind it. -/
theorem runs_further {α : Type} {f : List Term → Parse α} {Q : Option α → Reading → Prop} {x : Term}
    {xs : List Term} (listed : (stop, close) ∈ closers) (others : ∀ t ∈ x :: xs, t.Back p)
    (same : sameTerms read read' = true)
    (here : p.Here (more ',' Term.text (x :: xs) ++ close :: s) u)
    (deep : Deep n (more ',' Term.text (x :: xs) ++ close :: s) 0)
    (rest : ∀ ts' v, sameTerms (read ++ x :: xs) ts' = true → p.Here (close :: s) v →
      p.Runs (f ts') v Q) :
    p.Runs (scan >>= fun _ => grammar n (.elements stop read') >>= f) u Q := by
  have first := others x List.mem_cons_self
  have rests : Rests (more ',' Term.text xs ++ close :: s) :=
    rests_more (.head _) (closers_mark (s := s) listed).1 xs
  have closes := rests.closes
  rw [more_cons, List.cons_append, List.cons_append, List.append_assoc] at here deep
  refine gives_bind ((here.before rfl).scan (first.plain.first closes).1) fun _ w there => ?_
  refine gives_bind (runs_elements listed first (fun t ht => others t (List.mem_cons_of_mem _ ht)) same
    there ?_) fun ts' v h => rest ts' v h.1 h.2
  exact deep.shorter (by simp only [List.length_cons]; omega) (by decide)

/-- A key and the colon behind it. -/
theorem entryText_append (q : Term × Term) (r : List Char) :
    entryText q ++ r = q.1.text ++ ':' :: ' ' :: (q.2.text ++ r) := by
  rw [entryText, List.append_assoc]
  rfl

/-- An entry of an object, and what is behind it: the end of the object, or a comma. -/
theorem runs_entry {k v : Term} {read : List (Term × Term)} {Q : Option (List (Term × Term)) → Reading → Prop}
    (key : k.Back p) (value : v.Back p) (rests : Rests r)
    (here : p.Here (entryText (k, v) ++ r) u) (deep : Deep n (entryText (k, v) ++ r) 8)
    (ended : ∀ k' v' w, w.look.token = .rbrace → k.same k' = true → v.same v' = true →
      p.Here (past r) w → Q (some (read ++ [(k', v')])) w)
    (further : ∀ k' v' w, w.look.token = .comma → k.same k' = true → v.same v' = true →
      p.Here (past r) w →
      p.Runs (scan >>= fun _ => grammar n (.pairs .rbrace (read ++ [(k', v')]))) w Q)
    (either : shown (past r) = .rbrace ∨ shown (past r) = .comma) :
    p.Runs (pairs (grammar n) .rbrace read) u Q := by
  rw [entryText_append] at here deep
  -- -- a key opens with a token, and a brace is none of those
  have starts : u.look.token ≠ .rbrace := fun same => by
    have opening := here.token_opening (key.plain.first .colon).2
    rw [same] at opening
    exact absurd opening (by decide)
  unfold pairs
  rw [token_iff, beq_eq_false_iff_ne.2 starts]
  refine gives_bind (runs_compound key.echoes .colon nofun here deep) fun k' x ⟨sameKey, there⟩ => ?_
  have colon : p.Here (':' :: ' ' :: (v.text ++ r)) x := there
  rw [token_iff, colon.token_eq rfl nofun]
  refine gives_bind ((colon.before rfl).scan (value.plain.first rests.closes).1) fun _ y there => ?_
  -- -- the value is shorter than the entry, which is all the depth it needs
  have shorter : (v.text ++ r).length < (k.text ++ ':' :: ' ' :: (v.text ++ r)).length := by
    simp only [List.length_append, List.length_cons]
    omega
  refine gives_bind (runs_compound value.echoes rests nofun there (deep.shorter shorter (by decide))) ?_
  rintro v' z ⟨sameValue, there⟩
  rw [token_iff]
  have token : z.look.token = shown (past r) := there.token_eq rfl fun word =>
    absurd (word ▸ rests.token) (by decide)
  rcases either with shows | shows
  · rw [token, shows]
    exact runs_pure (ended k' v' z (token.trans shows) sameKey sameValue there)
  · rw [token, shows]
    exact further k' v' z (token.trans shows) sameKey sameValue there

/-- The entries of an object, from one of them on. -/
theorem runs_pairs {q : Term × Term} {qs read read' : List (Term × Term)}
    (first : q.1.Back p ∧ q.2.Back p) (others : ∀ q ∈ qs, q.1.Back p ∧ q.2.Back p)
    (same : samePairs read read' = true)
    (here : p.Here (entryText q ++ (more ',' entryText qs ++ '}' :: s)) u)
    (deep : Deep n (entryText q ++ (more ',' entryText qs ++ '}' :: s)) 9) :
    p.Runs (grammar n (.pairs .rbrace read')) u (Given fun qs' v =>
      samePairs (read ++ q :: qs) qs' = true ∧ p.Here ('}' :: s) v) := by
  induction qs generalizing n q read read' u with
  | nil =>
      obtain ⟨m, rfl, within⟩ := deep.enter
      refine runs_entry first.1 first.2 (.mark (c := '}') (by decide)) here within ?_ ?_ (.inl rfl)
      · intro k' v' w token sameKey sameValue there
        exact ⟨_, rfl, samePairs_append same (samePairs_singleton sameKey sameValue), there⟩
      · intro k' v' w token sameKey sameValue there
        -- -- the last entry is followed by the brace, never by a comma
        exact absurd (token.symm.trans (there.token_eq rfl nofun)) nofun
  | cons x xs ih =>
      obtain ⟨m, rfl, within⟩ := deep.enter
      have closes : '}' ∈ closingMarks := by decide
      refine runs_entry first.1 first.2 (rests_more (.head _) closes (x :: xs)) here within ?_ ?_ (.inr rfl)
      · intro k' v' w token sameKey sameValue there
        -- -- another entry follows, so no brace stands here
        exact absurd (token.symm.trans (there.token_eq rfl nofun)) nofun
      · intro k' v' w token sameKey sameValue there
        have ahead := others x List.mem_cons_self
        have there : p.Here (',' :: ' ' :: (entryText x ++ (more ',' entryText xs ++ '}' :: s))) w := by
          rw [more_cons, List.cons_append, List.cons_append, List.append_assoc] at there
          exact there
        have legal : Legal (entryText x ++ (more ',' entryText xs ++ '}' :: s)) := by
          rw [entryText_append]
          exact (ahead.1.plain.first .colon).1
        refine gives_bind ((there.before rfl).scan legal) fun _ w there => ?_
        have shorter : (entryText x ++ (more ',' entryText xs ++ '}' :: s)).length <
            (entryText q ++ (more ',' entryText (x :: xs) ++ '}' :: s)).length := by
          simp only [more_cons, List.length_append, List.length_cons]
          omega
        refine (ih ahead (fun q hq => others q (List.mem_cons_of_mem _ hq))
          (samePairs_append same (samePairs_singleton sameKey sameValue)) there
          (within.shorter shorter (by decide))).imp_given fun qs' x h => ?_
        simpa using h

end lists

/-! ## Queries

A query is a list with semicolons, whose end is told by the mark behind it. -/

/-- What stands behind an expression of a query: further expressions, or what ends the query. -/
theorem ends_more (ends : Ends r) (es : List Expr) : Ends (more ';' Expr.text es ++ r) := by
  cases es with
  | nil => exact ends
  | cons e es => exact .mark (c := ';') (.head _)

/-- A query that is the same stays so with one more literal on both sides. -/
theorem sameBodies_push {read read' : List Expr} {e e' : Expr} (same : sameBodies read read' = true)
    (last : e.same e' = true) : sameBodies (read ++ [e]) (Body.push read' e') = true := by
  refine sameBodies_append same ?_
  simp [sameBodies, Expr.same_index last]

/-- The expressions of a query, up to what ends it. -/
theorem runs_literals {oneLine : Bool} {stop : Token} {e : Expr} {es read read' : List Expr}
    (first : e.Back p) (others : ∀ e ∈ es, e.Back p) (ends : Ends r) (stops : shown (past r) = stop)
    (mark : stop ≠ .semicolon) (same : sameBodies read read' = true)
    (here : p.Here (e.text ++ (more ';' Expr.text es ++ r)) u)
    (deep : Deep n (e.text ++ (more ';' Expr.text es ++ r)) 10) :
    p.Runs (grammar n (.literals oneLine stop read')) u (Given fun es' v =>
      sameBodies (read ++ e :: es) es' = true ∧ p.Here (past r) v) := by
  induction es generalizing n e read read' u with
  | nil =>
      obtain ⟨m, rfl, within⟩ := deep.enter
      refine gives_bind (first.echoes m r u ends here within) fun e' v ⟨same', there⟩ => ?_
      -- -- the mark behind the body ends the literals, as it is no word that could open one
      have token : v.look.token = stop := there.token_eq stops fun word => by
        have listed := (Rests.of_ends ends).token
        rw [stops, word] at listed
        exact absurd listed (by decide)
      rw [token_iff, token, beq_eq_false_iff_ne.2 mark, beq_self_eq_true]
      exact gives_pure ⟨sameBodies_push same same', there⟩
  | cons x xs ih =>
      obtain ⟨m, rfl, within⟩ := deep.enter
      refine gives_bind (first.echoes m _ u (ends_more ends (x :: xs)) here within) ?_
      rintro e' v ⟨same', there⟩
      have ahead := others x List.mem_cons_self
      have there : p.Here (';' :: ' ' :: (x.text ++ (more ';' Expr.text xs ++ r))) v := by
        rw [more_cons, List.cons_append, List.cons_append, List.append_assoc] at there
        exact there
      rw [token_iff, there.token_eq rfl nofun]
      have legal := (ahead.first _ (Rests.of_ends (ends_more ends xs)).closes).1
      refine gives_bind ((there.before rfl).scan legal) fun _ w there => ?_
      have shorter : (x.text ++ (more ';' Expr.text xs ++ r)).length <
          (e.text ++ (more ';' Expr.text (x :: xs) ++ r)).length := by
        simp only [more_cons, List.length_append, List.length_cons]
        omega
      refine (ih ahead (fun e he => others e (List.mem_cons_of_mem _ he)) (sameBodies_push same same')
        there (within.shorter shorter (by decide))).imp_given fun es' y h => ?_
      simpa using h

/-- A query, up to what ends it. -/
theorem runs_body {stop : Token} {e : Expr} {es : List Expr} (first : e.Back p)
    (others : ∀ e ∈ es, e.Back p) (ends : Ends r) (stops : shown (past r) = stop)
    (mark : stop ∉ .semicolon :: literalTokens)
    (here : p.Here (e.text ++ (more ';' Expr.text es ++ r)) u)
    (deep : Deep n (e.text ++ (more ';' Expr.text es ++ r)) 11) :
    p.Runs (grammar n (.body stop)) u (Given fun es' v =>
      sameBodies (e :: es) es' = true ∧ p.Here (past r) v) := by
  obtain ⟨m, rfl, within⟩ := deep.enter
  refine runs_nested ?_
  have starts : u.look.token ≠ stop := fun same => by
    have listed := (first.first _ (Rests.of_ends (ends_more ends es)).closes).2
    rcases here.token with token | ⟨-, token⟩
    · exact mark (.tail _ (same ▸ token ▸ listed))
    · rw [← same, token] at mark
      exact mark (by decide)
  unfold query
  rw [token_iff, beq_eq_false_iff_ne.2 starts]
  exact runs_literals first others ends stops (fun same => mark (same ▸ .head _))
    (show sameBodies [] [] = true by rw [sameBodies]) here within

/-! ## Brackets

Behind a bracket the first element is a primary term.  As printed terms are, it is followed at once by a
comma, a bar or the bracket that closes. -/

/-- Quantities between brackets are moved, and nothing else. -/
theorem runs_bracketed {x : Parse Value} {P : Value → Prop} {R : Reading → Prop}
    (h : p.Runs x u (Given fun v w => P v ∧ R w)) :
    p.Runs (bracketed x) u (Given fun t w => P t.value ∧ R w) := by
  unfold bracketed
  refine runs_nested ?_
  rw [location_iff]
  refine gives_bind h fun v w ⟨holds, there⟩ => ?_
  rw [look_iff]
  exact gives_placed fun l => ⟨holds, there⟩

/-- No comma comes first. -/
theorem runs_leadingComma (opening : u.look.token ∈ openingTokens) :
    p.Runs leadingComma u (Given fun b v => b = false ∧ v = u) := by
  have other : u.look.token ≠ .comma := fun same => by
    rw [same] at opening
    exact absurd opening (by decide)
  unfold leadingComma
  rw [token_iff, beq_eq_false_iff_ne.2 other]
  exact gives_pure ⟨rfl, rfl⟩

/-- The first element between brackets is read as a primary term, and decides how it goes on. -/
theorem runs_first {α : Type} {stop : Token} {empty : α} {f : Bool → Snapshot → Term → Parse α}
    {Q : Option α → Reading → Prop} {t : Term} (first : t.Back p) (closes : Closes s)
    (opens : stop ∉ openingTokens) (last : p.Last (t.text ++ s) u) (deep : Deep n (t.text ++ s) 1)
    (rest : ∀ start t' v, t.same t' = true → p.Here (past s) v → p.Runs (f false start t') v Q) :
    p.Runs (do
      scan
      if (← token) == stop then return empty
      else
        let plain ← leadingComma
        let start ← save
        let head ← grammar n .term
        f plain start head) u Q := by
  -- -- the first term opens with a token of its own, so neither the mark nor a comma stands there
  obtain ⟨legal, opening⟩ := first.plain.first closes
  have stays := past_of_legal legal
  refine gives_bind (last.scan (stays.symm ▸ legal)) fun _ v there => ?_
  rw [stays] at there
  have opening := there.token_opening opening
  have other : v.look.token ≠ stop := fun same => opens (same ▸ opening)
  rw [token_iff, beq_eq_false_iff_ne.2 other]
  refine gives_bind (runs_leadingComma opening) ?_
  rintro _ _ ⟨rfl, rfl⟩
  rw [save_iff]
  exact gives_bind (first.echoes n s _ closes there deep) fun t' w ⟨same, there⟩ => rest _ t' w same there

/-- Behind the bar of a comprehension there is a blank, so the bar is a sign of its own. -/
theorem legal_bar (s : List Char) : Legal ('|' :: ' ' :: s) := ⟨⟨rfl, nofun⟩, nofun⟩

/-- The query of a comprehension, behind its bar. -/
theorem runs_barred {stop : Token} {close : Char} (listed : (stop, close) ∈ [(.rbrack, ']'), (.rbrace, '}')])
    {e : Expr} {es : List Expr} (first : e.Back p) (others : ∀ e ∈ es, e.Back p)
    (here : p.Here ('|' :: ' ' :: (e.text ++ (more ';' Expr.text es ++ close :: s))) u)
    (deep : Deep n ('|' :: ' ' :: (e.text ++ (more ';' Expr.text es ++ close :: s))) 0) :
    p.Runs scan u (Given fun _ v => p.Runs (grammar n (.body stop)) v (Given fun b w =>
      sameBodies (e :: es) b = true ∧ p.Here (close :: s) w)) := by
  have ends : Ends (close :: s) ∧ shown (past (close :: s)) = stop ∧ past (close :: s) = close :: s ∧
      stop ∉ .semicolon :: literalTokens := by
    simp only [List.mem_cons, Prod.mk.injEq, List.not_mem_nil, or_false] at listed
    rcases listed with ⟨rfl, rfl⟩ | ⟨rfl, rfl⟩ <;>
      exact ⟨.mark (by decide), rfl, rfl, by decide⟩
  obtain ⟨ends, shows, stays, other⟩ := ends
  have legal := (first.first _ (Rests.of_ends (ends_more ends es)).closes).1
  refine ((here.before rfl).scan legal).imp_given fun _ v there => ?_
  have within : Deep _ (e.text ++ (more ';' Expr.text es ++ close :: s)) 11 := deep.shorter
    (by simp only [List.length_cons]; omega) (by decide)
  exact stays ▸ runs_body first others ends shows other there within

section arrays

variable {t : Term} {ts : List Term} {e : Expr} {es : List Expr}

/-- An empty array. -/
theorem runs_array_nil {g : Grammar} (here : p.Here ('[' :: ']' :: r) u) :
    p.Runs (array g) u (Given fun t v => Value.same (.array []) t.value = true ∧ p.Here (']' :: r) v) := by
  refine runs_bracketed (P := fun v => Value.same (.array []) v = true) ?_
  unfold arrayElements
  refine gives_bind ((here.before rfl).scan ⟨⟨rfl, nofun⟩, nofun⟩) fun _ v there => ?_
  have there : p.Here (']' :: r) v := there
  rw [token_iff, there.token_eq rfl nofun]
  exact gives_pure ⟨by rw [Value.same, sameTerms], there⟩

/-- An array. -/
theorem runs_array_cons (first : t.Back p) (others : ∀ t ∈ ts, t.Back p)
    (here : p.Here ('[' :: (t.text ++ (more ',' Term.text ts ++ ']' :: r))) u)
    (deep : Deep n ('[' :: (t.text ++ (more ',' Term.text ts ++ ']' :: r))) 0) :
    p.Runs (array (grammar n)) u (Given fun t' v =>
      Value.same (.array (t :: ts)) t'.value = true ∧ p.Here (']' :: r) v) := by
  have closes : ']' ∈ closingMarks := by decide
  refine runs_bracketed (P := fun v => Value.same (.array (t :: ts)) v = true) ?_
  unfold arrayElements
  have within : Deep _ (t.text ++ (more ',' Term.text ts ++ ']' :: r)) 9 := deep.shorter
    (Nat.lt_succ_self _) (by decide)
  refine runs_first first (rests_more (.head _) closes ts).closes (by decide) (here.before rfl)
    (within.mono (by decide)) fun start t' v same there => ?_
  -- with one element the list ends behind it; with more there is a comma
  cases ts with
  | nil =>
      have there : p.Here (']' :: r) v := there
      rw [token_iff, there.token_eq rfl (by decide : Token.rbrack ≠ .containsKw)]
      exact gives_pure ⟨by rw [Value.same]; exact sameTerms_singleton same, there⟩
  | cons x xs =>
      have comma : v.look.token = .comma := there.token_eq rfl (by decide)
      have enough : Deep n (more ',' Term.text (x :: xs) ++ ']' :: r) 0 := deep.shorter (by
        simp only [List.length_append, List.length_cons]
        omega) (by decide)
      rw [token_iff, comma]
      refine runs_further (by decide) others (sameTerms_singleton same) there enough ?_
      intro ts' w same there
      exact gives_pure ⟨by rw [Value.same]; exact same, there⟩

/-- An array comprehension. -/
theorem runs_arrayComprehension (element : t.Back p) (first : e.Back p) (others : ∀ e ∈ es, e.Back p)
    (here : p.Here ('[' :: (t.text ++ ' ' :: '|' :: ' ' ::
      (e.text ++ (more ';' Expr.text es ++ ']' :: r)))) u)
    (deep : Deep n ('[' :: (t.text ++ ' ' :: '|' :: ' ' ::
      (e.text ++ (more ';' Expr.text es ++ ']' :: r)))) 0) :
    p.Runs (array (grammar n)) u (Given fun t' v =>
      Value.same (.arrayComprehension t (e :: es)) t'.value = true ∧ p.Here (']' :: r) v) := by
  refine runs_bracketed (P := fun v => Value.same (.arrayComprehension t (e :: es)) v = true) ?_
  unfold arrayElements
  refine runs_first element (.blank (legal_bar _)) (by decide) (here.before rfl)
    (deep.shorter (Nat.lt_succ_self _) (by decide)) fun start t' v same there => ?_
  have there : p.Here ('|' :: ' ' :: (e.text ++ (more ';' Expr.text es ++ ']' :: r))) v := there
  rw [token_iff, there.token_eq rfl nofun]
  refine gives_bind (runs_barred (.head _) first others there (deep.shorter (by
    simp only [List.length_append, List.length_cons]
    omega) (by decide))) fun _ w read => ?_
  refine gives_bind (runs_attempt (read.imp fun _ _ h => ⟨_, rfl, h⟩)) ?_
  rintro _ x ⟨b, rfl, body, ended⟩
  exact gives_pure ⟨by rw [Value.same, same, body]; rfl, ended⟩

end arrays

/-! ## Braces

Braces hold a set, an object or a comprehension of either.  The token behind the first element tells an
object from the others, and a bar tells a comprehension. -/

section braces

variable {t k v : Term} {ts : List Term} {q : Term × Term} {qs : List (Term × Term)} {e : Expr}
  {es : List Expr}

/-- An empty object. -/
theorem runs_object_nil {g : Grammar} (here : p.Here ('{' :: '}' :: r) u) :
    p.Runs (braced g) u (Given fun t v => Value.same (.object []) t.value = true ∧ p.Here ('}' :: r) v) := by
  refine runs_bracketed (P := fun v => Value.same (.object []) v = true) ?_
  unfold bracedElements
  refine gives_bind ((here.before rfl).scan ⟨⟨rfl, nofun⟩, nofun⟩) fun _ v there => ?_
  have there : p.Here ('}' :: r) v := there
  rw [token_iff, there.token_eq rfl nofun]
  exact gives_pure ⟨by rw [Value.same, samePairs], there⟩

/-- A set. -/
theorem runs_set_cons (first : t.Back p) (others : ∀ t ∈ ts, t.Back p)
    (here : p.Here ('{' :: (t.text ++ (more ',' Term.text ts ++ '}' :: r))) u)
    (deep : Deep n ('{' :: (t.text ++ (more ',' Term.text ts ++ '}' :: r))) 0) :
    p.Runs (braced (grammar n)) u (Given fun t' v =>
      Value.same (.set (t :: ts)) t'.value = true ∧ p.Here ('}' :: r) v) := by
  have closes : '}' ∈ closingMarks := by decide
  refine runs_bracketed (P := fun v => Value.same (.set (t :: ts)) v = true) ?_
  unfold bracedElements
  refine runs_first first (rests_more (.head _) closes ts).closes (by decide) (here.before rfl)
    (deep.shorter (Nat.lt_succ_self _) (by decide)) fun start t' v same there => ?_
  cases ts with
  | nil =>
      -- -- one element is a set of itself, with the brace behind it
      have brace : v.look.token = .rbrace := there.token_eq rfl (by decide)
      have there : p.Here ('}' :: r) v := there
      rw [token_iff, brace]
      refine runs_nested ?_
      rw [token_iff, brace]
      exact gives_pure ⟨by rw [Value.same]; exact sameTerms_singleton same, there⟩
  | cons x xs =>
      -- -- a comma behind the first element leaves the rest to the loop over elements
      have comma : v.look.token = .comma := there.token_eq rfl (by decide)
      have enough : Deep n (more ',' Term.text (x :: xs) ++ '}' :: r) 0 := deep.shorter (by
        simp only [List.length_append, List.length_cons]
        omega) (by decide)
      rw [token_iff, comma]
      refine runs_nested ?_
      rw [token_iff, comma]
      refine runs_further (by decide) others (sameTerms_singleton same) there enough ?_
      intro ts' w same there
      exact gives_pure ⟨by rw [Value.same]; exact same, there⟩

/-- A set comprehension. -/
theorem runs_setComprehension (element : t.Back p) (first : e.Back p) (others : ∀ e ∈ es, e.Back p)
    (here : p.Here ('{' :: (t.text ++ ' ' :: '|' :: ' ' ::
      (e.text ++ (more ';' Expr.text es ++ '}' :: r)))) u)
    (deep : Deep n ('{' :: (t.text ++ ' ' :: '|' :: ' ' ::
      (e.text ++ (more ';' Expr.text es ++ '}' :: r)))) 0) :
    p.Runs (braced (grammar n)) u (Given fun t' v =>
      Value.same (.setComprehension t (e :: es)) t'.value = true ∧ p.Here ('}' :: r) v) := by
  refine runs_bracketed (P := fun v => Value.same (.setComprehension t (e :: es)) v = true) ?_
  unfold bracedElements
  refine runs_first element (.blank (legal_bar _)) (by decide) (here.before rfl)
    (deep.shorter (Nat.lt_succ_self _) (by decide)) fun start t' v same there => ?_
  have there : p.Here ('|' :: ' ' :: (e.text ++ (more ';' Expr.text es ++ '}' :: r))) v := there
  -- -- the bar makes it a comprehension; the element has been read by then
  have bar : v.look.token = .bar := there.token_eq rfl nofun
  rw [token_iff, bar]
  refine runs_nested ?_
  rw [token_iff, bar]
  refine gives_bind (runs_barred (.tail _ (.head _)) first others there (deep.shorter (by
    simp only [List.length_append, List.length_cons]
    omega) (by decide))) fun _ w read => ?_
  refine gives_bind (runs_attempt (read.imp fun _ _ h => ⟨_, rfl, h⟩)) ?_
  rintro _ x ⟨b, rfl, body, ended⟩
  exact gives_pure ⟨by rw [Value.same, same, body]; rfl, ended⟩

/-- The first key of an object, and its value, decide how it goes on. -/
theorem runs_object {P : Value → Prop} {R : Reading → Prop} (key : k.Back p) (value : v.Back p)
    (closes : Closes s) (here : p.Here ('{' :: (entryText (k, v) ++ s)) u)
    (deep : Deep n ('{' :: (entryText (k, v) ++ s)) 0)
    (either : shown (past s) ∈ [Token.rbrace, .comma, .bar])
    (rest : ∀ k' v' w, k.same k' = true → v.same v' = true → p.Here (past s) w →
      p.Runs (objectRest (grammar n) k' v' false) w (Given fun v w => P v ∧ R w)) :
    p.Runs (braced (grammar n)) u (Given fun t w => P t.value ∧ R w) := by
  rw [entryText_append] at here deep
  refine runs_bracketed ?_
  unfold bracedElements
  refine runs_first key .colon (by decide) (here.before rfl)
    (deep.shorter (Nat.lt_succ_self _) (by decide)) fun start k' w sameKey there => ?_
  have colon : p.Here (':' :: ' ' :: (v.text ++ s)) w := there
  rw [token_iff, colon.token_eq rfl nofun]
  refine runs_nested ?_
  refine gives_bind ((colon.before rfl).scan (value.plain.first closes).1) fun _ x there => ?_
  have there : p.Here (v.text ++ s) x := there
  rw [save_iff]
  have within : Deep n (v.text ++ s) 1 := deep.shorter (by
    simp only [List.length_append, List.length_cons]
    omega) (by decide)
  refine gives_bind (value.echoes n s x closes there within) fun v' y ⟨sameValue, there⟩ => ?_
  have read : p.Runs (attempt (objectRest (grammar n) k' v' false)) y
      (Given fun a w => ∃ v, a = some v ∧ P v ∧ R w) :=
    runs_attempt ((rest k' v' y sameKey sameValue there).imp fun _ _ h => ⟨_, rfl, h⟩)
  rw [if_neg Bool.false_ne_true]
  have token := there.token_mem either (by decide)
  simp only [List.mem_cons, List.not_mem_nil, or_false] at token
  -- each of the three tokens has the rest of an object read behind it
  rcases token with same | same | same <;> rw [token_iff, same]
  all_goals
    refine gives_bind read ?_
    rintro _ z ⟨value, rfl, h⟩
    exact gives_pure h

/-- An object. -/
theorem runs_object_cons (first : q.1.Back p ∧ q.2.Back p) (others : ∀ q ∈ qs, q.1.Back p ∧ q.2.Back p)
    (here : p.Here ('{' :: (entryText q ++ (more ',' entryText qs ++ '}' :: r))) u)
    (deep : Deep n ('{' :: (entryText q ++ (more ',' entryText qs ++ '}' :: r))) 0) :
    p.Runs (braced (grammar n)) u (Given fun t v =>
      Value.same (.object (q :: qs)) t.value = true ∧ p.Here ('}' :: r) v) := by
  have closes : '}' ∈ closingMarks := by decide
  obtain ⟨k, v⟩ := q
  refine runs_object (P := fun w => Value.same (.object ((k, v) :: qs)) w = true) first.1 first.2
    (rests_more (.head _) closes qs).closes here deep ?_ fun k' v' w sameKey sameValue there => ?_
  · cases qs with
    | nil => exact .head _
    | cons => exact .tail _ (.head _)
  refine runs_nested ?_
  cases qs with
  | nil =>
      have there : p.Here ('}' :: r) w := there
      rw [token_iff, there.token_eq rfl (by decide : Token.rbrace ≠ .containsKw)]
      exact gives_pure ⟨by rw [Value.same]; exact samePairs_singleton sameKey sameValue, there⟩
  | cons x xs =>
      have ahead := others x List.mem_cons_self
      have there : p.Here (',' :: ' ' :: (entryText x ++ (more ',' entryText xs ++ '}' :: r))) w := by
        rw [more_cons, List.cons_append, List.cons_append, List.append_assoc] at there
        exact there
      have legal : Legal (entryText x ++ (more ',' entryText xs ++ '}' :: r)) := by
        rw [entryText_append]
        exact (ahead.1.plain.first .colon).1
      rw [token_iff, there.token_eq rfl (by decide : Token.comma ≠ .containsKw)]
      refine gives_bind ((there.before rfl).scan legal) fun _ y there => ?_
      refine gives_bind (runs_pairs ahead
        (fun q hq => others q (List.mem_cons_of_mem _ hq)) (samePairs_singleton sameKey sameValue) there
        (deep.shorter (by
          simp only [more_cons, List.length_append, List.length_cons]
          omega) (by decide))) ?_
      rintro qs' z ⟨same, ended⟩
      exact gives_pure ⟨by rw [Value.same]; exact same, ended⟩

/-- An object comprehension. -/
theorem runs_objectComprehension (key : k.Back p) (value : v.Back p) (first : e.Back p)
    (others : ∀ e ∈ es, e.Back p)
    (here : p.Here ('{' :: (entryText (k, v) ++ ' ' :: '|' :: ' ' ::
      (e.text ++ (more ';' Expr.text es ++ '}' :: r)))) u)
    (deep : Deep n ('{' :: (entryText (k, v) ++ ' ' :: '|' :: ' ' ::
      (e.text ++ (more ';' Expr.text es ++ '}' :: r)))) 0) :
    p.Runs (braced (grammar n)) u (Given fun t v' =>
      Value.same (.objectComprehension k v (e :: es)) t.value = true ∧ p.Here ('}' :: r) v') := by
  refine runs_object (P := fun w => Value.same (.objectComprehension k v (e :: es)) w = true) key value
    (.blank (legal_bar _)) here deep (.tail _ (.tail _ (.head _))) fun k' v' w sameKey sameValue there => ?_
  have there : p.Here ('|' :: ' ' :: (e.text ++ (more ';' Expr.text es ++ '}' :: r))) w := there
  refine runs_nested ?_
  rw [token_iff, there.token_eq rfl nofun]
  refine gives_bind (runs_barred (.tail _ (.head _)) first others there (deep.shorter (by
    simp only [List.length_append, List.length_cons]
    omega) (by decide))) fun _ x read => ?_
  refine gives_bind read fun b y ⟨body, ended⟩ => ?_
  exact gives_pure ⟨by rw [Value.same, sameKey, sameValue, body]; rfl, ended⟩

end braces

end Page

/-! ## Collections that are read back

Each form of collection begins with its bracket and is read back from there, if its parts are read back.
-/

section collections

variable {p : Page} {l : Option Location} {r : List Char} {t k v : Term} {ts : List Term}
  {q : Term × Term} {qs : List (Term × Term)} {e : Expr} {es : List Expr}

/-- What is read between brackets. -/
theorem begins_bracketed (h : ∀ n u, p.Here (t.text ++ r) u → Deep n (t.text ++ r) 0 →
    p.Runs (array (grammar n)) u (Given fun t' w => t.value.same t'.value = true ∧ p.Here (']' :: r) w))
    (text : ∃ s, t.text = '[' :: s) : t.Begins p r := by
  obtain ⟨s, text⟩ := text
  intro n u here deep
  have token : u.look.token = .lbrack := by
    rw [text] at here
    exact here.token_eq rfl nofun
  unfold head
  rw [Page.token_iff, token]
  refine (h n u here deep).imp_given fun t' w ⟨same, ended⟩ => ⟨(Term.same_eq _ _).trans same, ?_⟩
  exact ended.before rfl

/-- What is read between braces. -/
theorem begins_braced (h : ∀ n u, p.Here (t.text ++ r) u → Deep n (t.text ++ r) 0 →
    p.Runs (braced (grammar n)) u (Given fun t' w => t.value.same t'.value = true ∧ p.Here ('}' :: r) w))
    (text : ∃ s, t.text = '{' :: s) : t.Begins p r := by
  obtain ⟨s, text⟩ := text
  intro n u here deep
  have token : u.look.token = .lbrace := by
    rw [text] at here
    exact here.token_eq rfl nofun
  unfold head
  rw [Page.token_iff, token]
  refine (h n u here deep).imp_given fun t' w ⟨same, ended⟩ => ⟨(Term.same_eq _ _).trans same, ?_⟩
  exact ended.before rfl

/-- An array begins at its bracket. -/
theorem begins_array (elements : ∀ t ∈ ts, t.Back p) : Term.Begins p ⟨.array ts, l⟩ r := by
  cases ts with
  | nil =>
      refine begins_bracketed (fun n u here deep => ?_) ⟨_, text_array_nil⟩
      rw [text_array_nil] at here
      exact Page.runs_array_nil here
  | cons t ts =>
      refine begins_bracketed (fun n u here deep => ?_) ⟨_, text_array_cons t ts⟩
      rw [text_array_cons, List.cons_append, List.append_assoc, List.append_assoc] at here deep
      exact Page.runs_array_cons (elements t List.mem_cons_self)
        (fun t ht => elements t (List.mem_cons_of_mem _ ht)) here deep

/-- A set begins at its brace; the empty one is printed as a call. -/
theorem begins_set (elements : ∀ t ∈ ts, t.Back p) (filled : ts ≠ []) : Term.Begins p ⟨.set ts, l⟩ r := by
  cases ts with
  | nil => exact absurd rfl filled
  | cons t ts =>
      refine begins_braced (fun n u here deep => ?_) ⟨_, text_set_cons t ts⟩
      rw [text_set_cons, List.cons_append, List.append_assoc, List.append_assoc] at here deep
      exact Page.runs_set_cons (elements t List.mem_cons_self)
        (fun t ht => elements t (List.mem_cons_of_mem _ ht)) here deep

/-- An object begins at its brace. -/
theorem begins_object (entries : ∀ q ∈ qs, q.1.Back p ∧ q.2.Back p) :
    Term.Begins p ⟨.object qs, l⟩ r := by
  cases qs with
  | nil =>
      refine begins_braced (fun n u here deep => ?_) ⟨_, text_object_nil⟩
      rw [text_object_nil] at here
      exact Page.runs_object_nil here
  | cons q qs =>
      refine begins_braced (fun n u here deep => ?_) ⟨_, text_object_cons q qs⟩
      rw [text_object_cons, List.cons_append, List.append_assoc, List.append_assoc] at here deep
      exact Page.runs_object_cons (entries q List.mem_cons_self)
        (fun q hq => entries q (List.mem_cons_of_mem _ hq)) here deep

section comprehensions

variable (body : es ≠ []) (exprs : ∀ e ∈ es, e.Back p)
include body exprs

/-- A comprehension of an array begins at its bracket. -/
theorem begins_arrayComprehension (element : t.Back p) :
    Term.Begins p ⟨.arrayComprehension t es, l⟩ r := by
  obtain ⟨e, es, rfl⟩ := List.exists_cons_of_ne_nil body
  refine begins_bracketed (fun n u here deep => ?_) ⟨_, text_arrayComprehension t e es⟩
  rw [text_arrayComprehension] at here deep
  simp only [List.cons_append, List.append_assoc, List.nil_append] at here deep
  exact Page.runs_arrayComprehension element (exprs e List.mem_cons_self)
    (fun e he => exprs e (List.mem_cons_of_mem _ he)) here deep

/-- A comprehension of a set begins at its brace. -/
theorem begins_setComprehension (element : t.Back p) :
    Term.Begins p ⟨.setComprehension t es, l⟩ r := by
  obtain ⟨e, es, rfl⟩ := List.exists_cons_of_ne_nil body
  refine begins_braced (fun n u here deep => ?_) ⟨_, text_setComprehension t e es⟩
  rw [text_setComprehension] at here deep
  simp only [List.cons_append, List.append_assoc, List.nil_append] at here deep
  exact Page.runs_setComprehension element (exprs e List.mem_cons_self)
    (fun e he => exprs e (List.mem_cons_of_mem _ he)) here deep

/-- A comprehension of an object begins at its brace. -/
theorem begins_objectComprehension (key : k.Back p) (value : v.Back p) :
    Term.Begins p ⟨.objectComprehension k v es, l⟩ r := by
  obtain ⟨e, es, rfl⟩ := List.exists_cons_of_ne_nil body
  refine begins_braced (fun n u here deep => ?_) ⟨_, text_objectComprehension k v e es⟩
  rw [text_objectComprehension] at here deep
  simp only [List.cons_append, List.append_assoc, List.nil_append] at here deep
  exact Page.runs_objectComprehension key value (exprs e List.mem_cons_self)
    (fun e he => exprs e (List.mem_cons_of_mem _ he)) here deep

end comprehensions

end collections

end RegoSyntax
