/-
# RegoSyntax.Proofs.Printing.Declarations — declarations and quantified queries are read back.

A declaration of memberships and a quantified query show the membership with its word, so it is read as
one.  A declaration of variables is read more than once: it is taken for a membership first, given up, and
looked at again for advice.  What has been remembered on the way are variables of its own, and these are
behind the parser when it goes on.

Each kind of expression that starts with a word has a lemma that runs the parser over it
(`Page.runs_declaration_member`, `Page.runs_declaration`, `Page.runs_quantifier`), and from each of them
it follows that the expression is read back (`Expr.back_of_word`).  What `e.Back p` asks of an expression
is said in terms of any page, so the same lemmas serve all places that an expression can stand in.
-/
import RegoSyntax.Proofs.Printing.Literals

namespace RegoSyntax

open Parse Lexeme
open Page (Given inText inText_append closes_inText)

/-! ## Operators of membership

A membership is a call in the tree, with an operator that the program names itself.  The operator is told
by its path, and the number of operands by the operator. -/

/-- The text of a membership operator is its path. -/
theorem render_member {op : Term} {n : Nat} (member : op.IsMember n)
    (bare : isBareSegment (memberSegment n) = true) :
    op.render = memberRoot ++ ("." ++ memberSegment n ++ "") := by
  obtain ⟨l₁, l₂, value⟩ := member
  obtain ⟨v, l⟩ := op
  obtain rfl : v = _ := value
  rw [Term.render, Value.render, renderRef, renderSegments, if_pos bare, Term.render, Value.render,
    renderSegments]

/-- The text of the operator of a membership of values. -/
theorem render_member_two {op : Term} (member : op.IsMember 2) : op.render = memberName :=
  (render_member member (by decide +kernel)).trans (by decide +kernel)

/-- The text of the operator of a membership of keys and values. -/
theorem render_member_three {op : Term} (member : op.IsMember 3) : op.render = memberWithKeyName :=
  (render_member member (by decide +kernel)).trans (by decide +kernel)

/-- A call of the operator for values has two operands. -/
theorem memberArity_two {op : Term} (member : op.IsMember 2) (args : List Term) :
    memberArity? (operatorName (op :: args)) = some 3 := by
  show memberArity? op.render = some 3
  rw [render_member_two member]
  decide +kernel

/-- A call of the operator for keys and values has three operands. -/
theorem memberArity_three {op : Term} (member : op.IsMember 3) (args : List Term) :
    memberArity? (operatorName (op :: args)) = some 4 := by
  show memberArity? op.render = some 4
  rw [render_member_three member]
  decide +kernel

/-- Operators of the same arity are the same. -/
theorem same_member {op op' : Term} {n : Nat} (member : op.IsMember n) (member' : op'.IsMember n) :
    op.same op' = true := by
  obtain ⟨l₁, l₂, value⟩ := member
  obtain ⟨m₁, m₂, value'⟩ := member'
  rw [Term.same_eq, value, value']
  simp [Value.same, sameTerms, Term.same]

namespace Page

variable {p : Page} {n : Nat} {r s : List Char} {u : Reading} {a k d : Term} {ws : List With}

/-! ## Declarations of memberships

Behind `some` a membership is read just as it would be without the word, and then put in the form of a
declaration. -/

/-- A declaration or a quantified query is read where its word stands. -/
theorem runs_worded {w : String} {kind : Token} {Q : Option Expr → Reading → Prop} {g : Grammar}
    (listed : (w, kind) ∈ [("some", Token.someKw), ("every", .everyKw)])
    (here : p.Here (w.toList ++ ' ' :: s) u) (declares : kind = .someKw → p.Runs (declaration g) u Q)
    (quantifies : kind = .everyKw → p.Runs (quantifier g) u Q) : p.Runs (unplacedLiteral g) u Q := by
  have word : (w, kind) ∈ literalWords := List.mem_cons_of_mem _ (List.mem_append_left _ listed)
  have token := (here.word word).1
  -- neither word is a sign
  have noSign : p.Runs negation u (Given fun b w => b = false ∧ w = u) := by
    have other : ∀ e ∈ [("some", Token.someKw), ("every", .everyKw)], (e.2 != .notKw) = true := by decide
    unfold negation
    rw [token_iff, token, other _ listed]
    exact gives_pure ⟨rfl, rfl⟩
  unfold unplacedLiteral
  refine gives_bind (here.word_alone word) ?_
  rintro _ _ ⟨rfl, rfl⟩
  rw [if_neg Bool.false_ne_true]
  refine gives_bind noSign ?_
  rintro _ _ ⟨rfl, rfl⟩
  rw [token_iff, token]
  simp only [List.mem_cons, Prod.mk.injEq, List.not_mem_nil, or_false] at listed
  rcases listed with ⟨-, rfl⟩ | ⟨-, rfl⟩
  · exact declares rfl
  · exact quantifies rfl

/-- What is read of a membership that is shown with its word. -/
def Membership (p : Page) (t : Term) (s : List Char) (t' : Term) (v : Reading) : Prop :=
  (∃ terms, t'.value = .call terms ∧ memberArity? (operatorName terms) = some terms.length) ∧
    t.same t' = true ∧ p.Here (past s) v

/-- The declaration of a membership. -/
theorem runs_declaration_member {t : Term} {l : Option Location} (legal : Legal s)
    (here : p.Here ("some".toList ++ ' ' :: s) u) (withs : ∀ w ∈ ws, w.Back p) (ends : Ends r)
    (read : ∀ v, p.Here s v → p.Runs (grammar n (.compound true)) v
      (Given (Membership p t (withsText ws ++ r))))
    (deep : Deep n (past (withsText ws ++ r)) 1) :
    p.Runs (declaration (grammar n)) u (Given fun e v =>
      (e.negated = false ∧ ExprTerms.same (.some [t] l) e.terms = true ∧ sameWiths ws e.withs = true) ∧
        p.Here (past r) v) := by
  unfold declaration
  rw [location_iff, save_iff]
  refine gives_bind ((here.word (show (_, Token.someKw) ∈ literalWords by decide)).2.scan legal) fun _ v there => ?_
  refine gives_bind (runs_attempt ((read v there).imp fun _ _ h => ⟨_, rfl, h⟩)) ?_
  -- what was read is a membership, so it is not given up
  rintro _ w ⟨t', rfl, ⟨terms, call, arity⟩, same, there⟩
  dsimp only
  rw [call]
  dsimp only
  unfold declaredMembership
  rw [arity]
  dsimp only
  rw [beq_self_eq_true, if_pos rfl]
  refine (runs_replaced rfl withs ends there deep).imp_given ?_
  rintro _ x ⟨⟨ws', rfl, sameWiths⟩, ended⟩
  refine ⟨⟨rfl, ?_, sameWiths⟩, ended⟩
  rw [Expr.placed, Expr.ofTerms, ExprTerms.same]
  exact sameTerms_singleton same

/-- A membership of a value. -/
theorem runs_member_two {op : Term} {l : Option Location} (member : op.IsMember 2) (value : a.Back p)
    (domain : d.Back p) (rests : Rests s) (here : p.Here (a.text ++ ' ' :: inText (d.text ++ s)) u)
    (deep : Deep n (a.text ++ ' ' :: inText (d.text ++ s)) 8) :
    p.Runs (grammar n (.compound true)) u (Given (Membership p ⟨.call [op, a, d], l⟩ s)) := by
  refine (runs_compound_in value domain rests here deep).imp_given ?_
  rintro t' v ⟨⟨op', a', d', call, member', sameValue, sameDomain⟩, ended⟩
  refine ⟨⟨_, call, memberArity_two member' _⟩, ?_, ended⟩
  rw [Term.same_eq, call, Value.same]
  simp [sameTerms, same_member member member', sameValue, sameDomain]

/-- A membership of a key and a value. -/
theorem runs_member_three {op : Term} {l : Option Location} (member : op.IsMember 3) (key : k.Back p)
    (value : a.Back p) (domain : d.Back p) (rests : Rests s)
    (here : p.Here (k.text ++ ',' :: ' ' :: (a.text ++ ' ' :: inText (d.text ++ s))) u)
    (deep : Deep n (k.text ++ ',' :: ' ' :: (a.text ++ ' ' :: inText (d.text ++ s))) 8) :
    p.Runs (grammar n (.compound true)) u (Given (Membership p ⟨.call [op, k, a, d], l⟩ s)) := by
  refine (runs_compound_keyed key value domain rests here deep).imp_given ?_
  rintro t' v ⟨⟨op', k', a', d', call, member', sameKey, sameValue, sameDomain⟩, ended⟩
  refine ⟨⟨_, call, memberArity_three member' _⟩, ?_, ended⟩
  rw [Term.same_eq, call, Value.same]
  simp [sameTerms, same_member member member', sameKey, sameValue, sameDomain]

/-! ## Declarations of variables

The parser tries a membership first.  It finds a variable with no `in` behind it, gives this up, looks
whether `in` was meant, and comes back to read the variables; what it has remembered of the first is
dropped on the way. -/

/-- Advice on a word is looked for where all words are reserved already, and nothing is remembered of it. -/
theorem runs_withFutureKeywords {α : Type} {x : Parse α} {P : α → Prop} (sees : p.Sees s u)
    (h : ∀ v, p.Here s v → p.Runs x v (Given fun a _ => P a)) :
    p.Runs (withFutureKeywords x) u (Given fun a v => P a ∧ v.memo = u.memo) := by
  unfold withFutureKeywords withKeywords
  rw [reading_iff, modify_iff]
  have unchanged : u.look.scanner.withKeywords .future = u.look.scanner := by
    rw [Scanner.withKeywords, sees.words, KeywordTable.current_extend, ← sees.words]
  dsimp only
  rw [unchanged]
  have fresh : p.Here s { u with memo := .empty } :=
    { at' := sees.at', token := sees.token, words := sees.words, clean := sees.clean
      memo := List.forall_mem_nil _ }
  refine gives_bind (runs_attempt ((h _ fresh).imp fun _ _ h => ⟨_, rfl, h⟩)) ?_
  rintro _ v ⟨a, rfl, holds⟩
  rw [modify_iff]
  exact runs_ofOption ⟨a, rfl, holds, rfl⟩

end Page

/-- A variable that is declared: it is taken for a term first, and is one or the root of a document. -/
structure Term.Symbol (p : Page) (t : Term) : Prop where
  named : ∃ name, t.value = .var name ∧ IsWord name.toList ∧ name ≠ wildcard ∧ Unreserved name
  guess : ∃ g : Term, g.Back p ∧ g.text = t.text ∧ g.value.call? = none

/-- A declared variable starts with a character that may stand in a source. -/
theorem Term.Symbol.legal {p : Page} {t : Term} (h : t.Symbol p) (r : List Char) : Legal (t.text ++ r) := by
  obtain ⟨name, value, word, -⟩ := h.named
  obtain ⟨v, l⟩ := t
  obtain rfl : v = .var name := value
  rw [text_var]
  exact legal_of_word word r

namespace Page

variable {p : Page} {n : Nat} {r s : List Char} {u : Reading} {t : Term} {ts read read' : List Term}

/-- What stands behind a variable that is declared: further variables, or what ends the declaration. -/
theorem rests_symbols (ends : Ends r) (ts : List Term) : Rests (more ',' Term.text ts ++ r) := by
  cases ts with
  | nil => exact .of_ends ends
  | cons t ts => exact .mark (c := ',') (.head _)

/-- A declared variable, where the parser stands at it. -/
theorem runs_variableHere (symbol : t.Symbol p) (apart : Apart r) (sees : p.Sees (t.text ++ r) u) :
    u.look.token = .ident ∧ behind (t.text ++ r) = r ∧
      p.Runs variableHere u (Given fun t' v => t.same t' = true ∧ v = u) := by
  obtain ⟨name, value, word, named, free⟩ := symbol.named
  obtain ⟨v, l⟩ := t
  obtain rfl : v = .var name := value
  rw [text_var] at sees ⊢
  have token := next_word word apart
  have filled : name.toList ++ r ≠ [] := by
    obtain ⟨c, w, cons, -⟩ := word
    rw [cons]
    exact List.cons_ne_nil _ _
  have literal : u.look.literal = name := by
    rw [sees.literal_eq (by rw [token]; nofun) filled, token, List.take_left, String.ofList_toList]
  refine ⟨sees.token_eq ?_ nofun, behind_word word apart, ?_⟩
  · rw [shown_word word apart, String.ofList_toList, free]
    rfl
  · unfold variableHere
    rw [look_iff, literal, if_neg (by simpa using named)]
    exact gives_here ⟨by rw [Term.same_eq, Value.same, beq_self_eq_true], rfl⟩

/-- A variable of a declaration, behind the token that precedes it. -/
theorem runs_symbol {Q : Option (List Term) → Reading → Prop} (symbol : t.Symbol p) (rests : Rests r)
    (sees : p.Sees s u) (left : behind s = ' ' :: (t.text ++ r))
    (rest : ∀ t' v, t.same t' = true → v.memo = u.memo → p.Sees (past r) v →
      p.Runs (if v.look.token == .comma then grammar n (.symbols (read ++ [t'])) else pure (read ++ [t'])) v Q) :
    p.Runs (symbols (grammar n) read) u Q := by
  have apart := rests.closes.apart
  unfold symbols
  refine gives_bind (sees.scan (by rw [left]; exact symbol.legal r)) fun _ v ⟨there, memo⟩ => ?_
  rw [left] at there
  have there : p.Sees (t.text ++ r) v := there
  obtain ⟨ident, left, read⟩ := runs_variableHere symbol apart there
  rw [token_iff, ident]
  refine gives_bind read ?_
  rintro t' _ ⟨same, rfl⟩
  refine gives_bind (there.scan (by rw [left]; exact rests.closes.legal)) fun _ w ⟨there, memo'⟩ => ?_
  rw [left] at there
  rw [token_iff]
  exact rest t' w same (memo'.trans memo) there

/-- The variables of a declaration, from one of them on. -/
theorem runs_symbols (first : t.Symbol p) (others : ∀ t ∈ ts, t.Symbol p) (ends : Ends r)
    (same : sameTerms read read' = true) (sees : p.Sees s u)
    (left : behind s = ' ' :: (t.text ++ (more ',' Term.text ts ++ r)))
    (deep : Deep n (t.text ++ (more ',' Term.text ts ++ r)) 1) :
    p.Runs (grammar n (.symbols read')) u (Given fun ts' v =>
      (sameTerms (read ++ t :: ts) ts' = true ∧ v.memo = u.memo) ∧ p.Sees (past r) v) := by
  -- on the variables still to come; those that were read agree with those that were written
  induction ts generalizing n t read read' s u with
  | nil =>
      obtain ⟨m, rfl, within⟩ := deep.enter
      refine runs_symbol first (rests_symbols ends []) sees left fun t' v same' memo there => ?_
      have there : p.Sees (past r) v := there
      have other : v.look.token ≠ .comma := by
        rw [there.token_eq rfl fun word => absurd (word ▸ (Rests.of_ends ends).token) (by decide)]
        have noComma := withs_not_comma ends []
        rwa [withsText_nil, List.nil_append] at noComma
      rw [beq_eq_false_iff_ne.2 other]
      exact gives_pure ⟨⟨sameTerms_append same (sameTerms_singleton same'), memo⟩, there⟩
  | cons x xs ih =>
      obtain ⟨m, rfl, within⟩ := deep.enter
      refine runs_symbol first (rests_symbols ends (x :: xs)) sees left fun t' v same' memo there => ?_
      have there : p.Sees (',' :: ' ' :: (x.text ++ (more ',' Term.text xs ++ r))) v := by
        rw [more_cons, List.cons_append, List.cons_append, List.append_assoc] at there
        exact there
      rw [there.token_eq rfl nofun]
      refine (ih (others x List.mem_cons_self) (fun t ht => others t (List.mem_cons_of_mem _ ht))
        (sameTerms_append same (sameTerms_singleton same')) there rfl (within.shorter (by
          simp only [more_cons, List.length_append, List.length_cons]
          omega) (by decide))).imp_given ?_
      rintro ts' w ⟨⟨same, memo'⟩, ended⟩
      exact ⟨⟨by simpa using same, memo'.trans memo⟩, ended⟩

/-- What is taken for a membership first is the first variable.  What is remembered of it is behind the
parser when it goes on. -/
theorem runs_guess (first : t.Symbol p) (others : ∀ t ∈ ts, t.Symbol p) (ends : Ends r)
    (here : p.Here (t.text ++ (more ',' Term.text ts ++ r)) u)
    (deep : Deep n (t.text ++ (more ',' Term.text ts ++ r)) 8) :
    p.Runs (grammar n (.compound true)) u (Given fun t' v =>
      t'.value.call? = none ∧ p.Clear (past r) v.memo) := by
  obtain ⟨g, back, text, plain⟩ := first.guess
  have uncalled {t' : Term} (same : g.same t' = true) : t'.value.call? = none := by
    rw [Term.same_eq] at same
    obtain ⟨v, l⟩ := g
    obtain ⟨w, m⟩ := t'
    cases v <;> cases w <;> simp_all [Value.same, Value.call?]
  rw [← text] at here deep
  -- a single variable is followed by what ends the declaration, and any other one by a comma
  cases ts with
  | nil =>
      have comma := withs_not_comma ends []
      rw [withsText_nil] at comma
      refine (runs_compound back.echoes (rests_symbols ends []) (fun _ => comma) here deep).imp_given ?_
      rintro t' v ⟨same, ended⟩
      exact ⟨uncalled same, ended.memo⟩
  | cons x xs =>
      obtain ⟨g', back', text', -⟩ := (others x List.mem_cons_self).guess
      have rests := rests_symbols ends xs
      rw [more_cons, List.cons_append, List.cons_append, List.append_assoc, ← text'] at here deep
      refine (runs_compound_listed back back' rests here deep).imp_given ?_
      rintro t' v ⟨same, -, clear⟩
      refine ⟨uncalled same, clear.mono ?_⟩
      cases xs with
      | nil => exact Nat.le_refl _
      | cons y ys =>
          have later := utf8Len_past r
          show _ ≤ String.utf8Len (more ',' Term.text (y :: ys) ++ r)
          rw [String.utf8Len_append]
          omega

section declarations

variable (first : t.Symbol p) (others : ∀ t ∈ ts, t.Symbol p) (ends : Ends r)
  (legal : Legal (t.text ++ (more ',' Term.text ts ++ r)))
  (deep : Deep n (t.text ++ (more ',' Term.text ts ++ r)) 8)
include first others ends legal deep

/-- Advice on a declaration of variables is looked for, and none is found. -/
theorem runs_suggestIn {start : Reading}
    (before : p.Sees ("some".toList ++ ' ' :: (t.text ++ (more ',' Term.text ts ++ r))) start)
    (sees : p.Sees ("some".toList ++ ' ' :: (t.text ++ (more ',' Term.text ts ++ r))) u) :
    p.Runs (suggestIn (grammar n) start.save) u (Given fun _ v =>
      v.memo = u.memo ∧ p.Sees ("some".toList ++ ' ' :: (t.text ++ (more ',' Term.text ts ++ r))) v) := by
  obtain ⟨word, reserved, -⟩ := literalWords_reserved ("some", .someKw) (by decide)
  have left := (shown_keyword word reserved (t.text ++ (more ',' Term.text ts ++ r))).2.1
  unfold suggestIn
  rw [env_iff]
  split
  · refine gives_bind (sees.scan (by rw [left]; exact legal)) fun _ v ⟨there, memo⟩ => ?_
    rw [left] at there
    have there : p.Sees (t.text ++ (more ',' Term.text ts ++ r)) v := there
    -- under whatever words, the first variable is no membership
    have noCall (v : Reading) (here : p.Here (t.text ++ (more ',' Term.text ts ++ r)) v) :
        p.Runs (attempt (grammar n (.compound true))) v
          (Given fun a _ => ∃ t' : Term, a = some t' ∧ t'.value.call? = none) :=
      runs_attempt ((runs_guess first others ends here deep).imp
        fun _ _ ⟨t', given, uncalled, _⟩ => ⟨_, rfl, t', given, uncalled⟩)
    refine gives_bind (runs_withFutureKeywords there noCall) ?_
    rintro _ w ⟨⟨t', rfl, uncalled⟩, memo'⟩
    have other : isMembership t' = false := by
      unfold isMembership
      split
      · next terms call =>
          rw [call] at uncalled
          cases uncalled
      · rfl
    rw [restore_iff, Option.any_some, other, if_neg Bool.false_ne_true]
    exact gives_pure ⟨memo'.trans memo, before.restore w⟩
  · exact gives_pure ⟨rfl, sees⟩

/-- The declaration of variables. -/
theorem runs_declaration {l : Option Location}
    (here : p.Here ("some".toList ++ ' ' :: (t.text ++ (more ',' Term.text ts ++ r))) u) :
    p.Runs (declaration (grammar n)) u (Given fun e v =>
      (e.negated = false ∧ ExprTerms.same (.some (t :: ts) l) e.terms = true ∧ e.withs = []) ∧
        p.Here (past r) v) := by
  obtain ⟨word, reserved, -⟩ := literalWords_reserved ("some", .someKw) (by decide)
  have left := (shown_keyword word reserved (t.text ++ (more ',' Term.text ts ++ r))).2.1
  unfold declaration
  rw [location_iff, save_iff]
  refine gives_bind ((here.word (show (_, Token.someKw) ∈ literalWords by decide)).2.scan legal) fun _ v there => ?_
  have there : p.Here (t.text ++ (more ',' Term.text ts ++ r)) v := there
  refine gives_bind (P := fun a w => ∃ t' : Term, a = some t' ∧ t'.value.call? = none ∧
    p.Clear (past r) w.memo) (runs_attempt ((runs_guess first others ends there deep).imp
      fun _ _ ⟨t', given, h⟩ => ⟨_, rfl, t', given, h⟩)) ?_
  rintro _ w ⟨t', rfl, uncalled, clear⟩
  -- the guess is given up, and the variables are read from the word on
  have read : p.Runs (declaredSymbols (grammar n) u.look.location u.save) w (Given fun e v =>
      (e.negated = false ∧ ExprTerms.same (.some (t :: ts) l) e.terms = true ∧ e.withs = []) ∧
        p.Here (past r) v) := by
    unfold declaredSymbols
    rw [restore_iff]
    refine gives_bind (runs_suggestIn first others ends legal deep here.toSees (here.restore w)) ?_
    rintro _ x ⟨memo, sees⟩
    refine gives_bind (runs_symbols first others ends (show sameTerms [] [] = true by rw [sameTerms]) sees left
      (deep.mono (by decide))) ?_
    rintro ts' y ⟨⟨same, memo'⟩, ended⟩
    refine gives_pure ⟨⟨rfl, ?_, rfl⟩, { ended with memo := ?_ }⟩
    · rw [Expr.placed, Expr.ofTerms, ExprTerms.same]
      exact same
    · rw [memo', memo]
      exact clear
  dsimp only
  split
  · next terms call =>
      rw [call] at uncalled
      cases uncalled
  · exact read

end declarations

end Page

/-! ## Quantified queries

A quantified query has a membership in front of its query, and the braces of the query are its own. -/

namespace Page

variable {p : Page} {n : Nat} {r s : List Char} {u : Reading} {k : Option Term} {v d : Term} {e : Expr}
  {es : List Expr} {ws : List With}

/-- The query of a quantified query, with its braces. -/
theorem runs_quantifiedQuery {place : Location} {key : Option Term} {value domain : Term} (first : e.Back p)
    (others : ∀ e ∈ es, e.Back p) (withs : ∀ w ∈ ws, w.Back p) (ends : Ends r)
    (here : p.Here ('{' :: ' ' :: (e.text ++ (more ';' Expr.text es ++ ' ' :: '}' :: (withsText ws ++ r)))) u)
    (deep : Deep n ('{' :: ' ' :: (e.text ++ (more ';' Expr.text es ++ ' ' :: '}' :: (withsText ws ++ r)))) 0) :
    p.Runs (quantifiedQuery (grammar n) place key value domain) u (Given fun x w =>
      (x.negated = false ∧ (∃ b, x.terms = .every key value domain b (some place) ∧
        sameBodies (e :: es) b = true) ∧ sameWiths ws x.withs = true) ∧ p.Here (past r) w) := by
  have brace : Ends (' ' :: '}' :: (withsText ws ++ r)) := .brace
  have legal := (first.first _ (Rests.of_ends (ends_more brace es)).closes).1
  have closes := (rests_withs (Rests.of_ends ends) ws).closes
  unfold quantifiedQuery
  rw [token_iff, here.token_eq rfl nofun]
  refine gives_bind ((here.before rfl).scan legal) fun _ x there => ?_
  refine gives_bind (runs_body first others brace rfl (by decide) there (deep.shorter (by
    simp only [List.length_cons]
    omega) (by decide))) fun b y ⟨same, there⟩ => ?_
  have there : p.Here ('}' :: (withsText ws ++ r)) y := there
  have last : p.Last (withsText ws ++ r) y := there.before rfl
  refine gives_bind (last.scan closes.legal) fun _ z there => ?_
  -- what is behind the brace is shorter, so there is depth for it
  have within : Deep n (past (withsText ws ++ r)) 1 := deep.shorter (by
    have le := length_past (withsText ws ++ r)
    simp only [List.length_append, List.length_cons] at le ⊢
    omega) (by decide)
  refine (runs_replaced rfl withs ends there within).imp_given ?_
  rintro _ w ⟨⟨ws', rfl, sameWiths⟩, ended⟩
  exact ⟨⟨rfl, ⟨b, rfl, same⟩, sameWiths⟩, ended⟩

/-- A quantified query. -/
theorem runs_quantifier {l : Option Location} (first : e.Back p) (others : ∀ e ∈ es, e.Back p)
    (withs : ∀ w ∈ ws, w.Back p) (ends : Ends r) (legal : Legal s)
    (here : p.Here ("every".toList ++ ' ' :: s) u)
    (read : ∀ x, p.Here s x → p.Runs (grammar n (.compound true)) x (Given fun t w =>
      (∃ k' v' d', quantified t = .ok (k', v', d') ∧ sameKeys k k' = true ∧ v.same v' = true ∧
        d.same d' = true) ∧
      p.Here ('{' :: ' ' :: (e.text ++ (more ';' Expr.text es ++ ' ' :: '}' :: (withsText ws ++ r)))) w))
    (deep : Deep n ('{' :: ' ' :: (e.text ++ (more ';' Expr.text es ++ ' ' :: '}' :: (withsText ws ++ r)))) 0) :
    p.Runs (quantifier (grammar n)) u (Given fun x w =>
      (x.negated = false ∧ ExprTerms.same (.every k v d (e :: es) l) x.terms = true ∧
        sameWiths ws x.withs = true) ∧ p.Here (past r) w) := by
  unfold quantifier
  rw [location_iff]
  refine gives_bind ((here.word (show (_, Token.everyKw) ∈ literalWords by decide)).2.scan legal) fun _ x there => ?_
  refine gives_bind (read x there) ?_
  rintro t y ⟨⟨k', v', d', quantified, sameKey, sameValue, sameDomain⟩, there⟩
  rw [quantified]
  refine (runs_quantifiedQuery first others withs ends there deep).imp_given ?_
  rintro x w ⟨⟨sign, ⟨b, terms, body⟩, sameWiths⟩, ended⟩
  refine ⟨⟨sign, ?_, sameWiths⟩, ended⟩
  rw [terms, ExprTerms.same, sameKey, sameValue, sameDomain, body]
  rfl

end Page

/-! ## Expressions that start with a word

All forms that start with a word are read from that word on, so what is common to them is proved once and
each of them adds its own reading. -/

section back

variable {p : Page} {e : Expr} {l m : Option Location}

/-- An expression that starts with a word is read back, if it is from that word on. -/
theorem Expr.back_of_word {w : String} {kind : Token} {q : List Char → List Char}
    (listed : (w, kind) ∈ [("some", Token.someKw), ("every", .everyKw)]) (sign : e.negated = false)
    (text : e.terms.text = w.toList ++ ' ' :: q [])
    (behind : ∀ r, q [] ++ (withsText e.withs ++ r) = q (withsText e.withs ++ r))
    (read : ∀ n r u, Ends r → p.Here (w.toList ++ ' ' :: q (withsText e.withs ++ r)) u →
      Deep n (q (withsText e.withs ++ r)) 8 →
      p.Runs (unplacedLiteral (grammar n)) u (Given fun e' v =>
        (e'.negated = false ∧ e.terms.same e'.terms = true ∧ sameWiths e.withs e'.withs = true) ∧
          p.Here (past r) v)) : e.Back p := by
  have text (r : List Char) : e.text ++ r = w.toList ++ ' ' :: q (withsText e.withs ++ r) := by
    rw [Expr.text_eq, sign, text, ← behind]
    simp
  constructor
  · intro r closes
    rw [text]
    exact word_first (List.mem_cons_of_mem _ listed) _
  · intro n r u ends here deep
    rw [text] at here deep
    refine Page.runs_literal (fun m within => ?_) deep
    refine (read m r u ends here (within.shorter (by
      simp only [List.length_append, List.length_cons]
      omega) (by decide))).imp_given ?_
    rintro e' v ⟨⟨sign', terms, withs⟩, ended⟩
    exact ⟨Expr.same_of (sign'.trans sign.symm) terms withs, ended⟩

/-- A declaration of variables is read back. -/
theorem Expr.back_of_symbols {t : Term} {ts : List Term} (terms : e.terms = .some (t :: ts) l)
    (sign : e.negated = false) (bare : e.withs = []) (symbols : ∀ u ∈ t :: ts, u.Symbol p) : e.Back p := by
  have vars : ∀ u ∈ t :: ts, u.value.isVar = true := fun u hu => by
    obtain ⟨name, value, -⟩ := (symbols u hu).named
    rw [value]
    rfl
  refine Expr.back_of_word (q := fun r => t.text ++ (more ',' Term.text ts ++ r)) (.head _) sign ?_ ?_ ?_
  · rw [terms, text_some t ts vars, List.append_nil]
  · intro r
    simp
  · intro n r u ends here deep
    rw [bare, withsText_nil, List.nil_append] at here deep
    have first := symbols t List.mem_cons_self
    have others : ∀ u ∈ ts, u.Symbol p := fun u hu => symbols u (List.mem_cons_of_mem _ hu)
    have legal := first.legal (more ',' Term.text ts ++ r)
    refine Page.runs_worded (.head _) here (fun _ => ?_) nofun
    refine (Page.runs_declaration (l := l) first others ends legal deep here).imp_given ?_
    rintro e' v ⟨⟨sign', same, bare'⟩, ended⟩
    exact ⟨⟨sign', terms ▸ same, by rw [bare, bare', sameWiths]⟩, ended⟩

section memberships

variable {op a k d : Term} (sign : e.negated = false) (withs : ∀ w ∈ e.withs, w.Back p) (value : a.Back p)
  (domain : d.Back p)
include sign withs value domain

/-- A declaration of the elements of a collection is read back. -/
theorem Expr.back_of_member (terms : e.terms = .some [⟨.call [op, a, d], m⟩] l) (member : op.IsMember 2) :
    e.Back p := by
  refine Expr.back_of_word (q := fun r => a.text ++ ' ' :: inText (d.text ++ r)) (.head _) sign ?_ ?_ ?_
  · rw [terms, text_some_member (render_member_two member), List.append_nil]
    rfl
  · intro r
    simp only [inText_append, List.append_assoc, List.cons_append, List.nil_append]
  · intro n r u ends here deep
    have rests := rests_withs (Rests.of_ends ends) e.withs
    have legal := (value.plain.first (closes_inText (d.text ++ (withsText e.withs ++ r)))).1
    refine Page.runs_worded (.head _) here (fun _ => ?_) nofun
    rw [terms]
    refine Page.runs_declaration_member legal here withs ends (fun v there => ?_) (deep.shorter ?_ (by decide))
    · exact Page.runs_member_two member value domain rests there deep
    · have le := length_past (withsText e.withs ++ r)
      simp only [inText, List.length_append, List.length_cons] at le ⊢
      omega

/-- A declaration of the keys and elements of a collection is read back. -/
theorem Expr.back_of_keyed (terms : e.terms = .some [⟨.call [op, k, a, d], m⟩] l) (member : op.IsMember 3)
    (key : k.Back p) : e.Back p := by
  refine Expr.back_of_word (q := fun r => k.text ++ ',' :: ' ' :: (a.text ++ ' ' :: inText (d.text ++ r)))
    (.head _) sign ?_ ?_ ?_
  · rw [terms, text_some_keyed (render_member_three member), List.append_nil]
    rfl
  · intro r
    simp only [inText_append, List.append_assoc, List.cons_append, List.nil_append]
  · intro n r u ends here deep
    have rests := rests_withs (Rests.of_ends ends) e.withs
    have legal := (key.plain.first (.mark (c := ',') (s := ' ' :: (a.text ++ ' ' ::
      inText (d.text ++ (withsText e.withs ++ r)))) (.head _))).1
    refine Page.runs_worded (.head _) here (fun _ => ?_) nofun
    rw [terms]
    refine Page.runs_declaration_member legal here withs ends (fun v there => ?_) (deep.shorter ?_ (by decide))
    · exact Page.runs_member_three member key value domain rests there deep
    · have le := length_past (withsText e.withs ++ r)
      simp only [inText, List.length_append, List.length_cons] at le ⊢
      omega

end memberships

/-! ### Quantified queries

The membership of a quantified query has one variable or two on its left, and the tree has them apart from
the domain. -/

/-- Terms that are the same are both variables or both none. -/
theorem isVar_of_same {t t' : Term} (h : t.same t' = true) : t'.value.isVar = t.value.isVar := by
  rw [Value.isVar, Value.isVar, Value.varName?_of_same ((Term.same_eq t t').symm.trans h)]

/-- A membership of a variable is what a quantified query asks for. -/
theorem quantified_two {t op a d : Term} (call : t.value = .call [op, a, d]) (member : op.IsMember 2)
    (value : a.value.isVar = true) : quantified t = .ok (none, a, d) := by
  rw [quantified, call]
  simp only [quantifiedTerms, memberArity_two member, value, if_true]

/-- A membership of two variables is what a quantified query asks for. -/
theorem quantified_three {t op k a d : Term} (call : t.value = .call [op, k, a, d])
    (member : op.IsMember 3) (key : k.value.isVar = true) (value : a.value.isVar = true) :
    quantified t = .ok (some k, a, d) := by
  rw [quantified, call]
  simp [quantifiedTerms, memberArity_three member, key, value]

section quantified

variable {k v d : Term} {f : Expr} {fs : List Expr} (sign : e.negated = false)
  (withs : ∀ w ∈ e.withs, w.Back p) (value : v.Back p) (isVar : v.value.isVar = true) (domain : d.Back p)
  (first : f.Back p) (others : ∀ e ∈ fs, e.Back p)
include sign withs value isVar domain first others

/-- A quantified query over values is read back. -/
theorem Expr.back_of_every (terms : e.terms = .every none v d (f :: fs) l) : e.Back p := by
  refine Expr.back_of_word (q := fun r => v.text ++ ' ' :: inText (d.text ++ ' ' :: '{' :: ' ' ::
    (f.text ++ (more ';' Expr.text fs ++ ' ' :: '}' :: r)))) (.tail _ (.head _)) sign ?_ ?_ ?_
  · rw [terms, text_every, List.append_assoc (Expr.text f)]
    rfl
  · intro r
    simp only [inText_append, List.append_assoc, List.cons_append, List.nil_append]
  · intro n r u ends here deep
    have legal := (value.plain.first (closes_inText (d.text ++ ' ' :: '{' :: ' ' :: (f.text ++
      (more ';' Expr.text fs ++ ' ' :: '}' :: (withsText e.withs ++ r)))))).1
    refine Page.runs_worded (.tail _ (.head _)) here nofun fun _ => ?_
    rw [terms]
    refine Page.runs_quantifier first others withs ends legal here (fun x there => ?_)
      (deep.shorter ?_ (by decide))
    · refine (Page.runs_compound_in value domain (.brace (c := '{') (.head _)) there deep).imp_given ?_
      rintro t y ⟨⟨op, v', d', call, member, sameValue, sameDomain⟩, ended⟩
      exact ⟨⟨none, v', d', quantified_two call member ((isVar_of_same sameValue).trans isVar), by
        rw [sameKeys], sameValue, sameDomain⟩, ended⟩
    · simp only [inText, List.length_append, List.length_cons]
      omega

/-- A quantified query over keys and values is read back. -/
theorem Expr.back_of_every_keyed (terms : e.terms = .every (some k) v d (f :: fs) l) (key : k.Back p)
    (keyVar : k.value.isVar = true) : e.Back p := by
  refine Expr.back_of_word (q := fun r => k.text ++ ',' :: ' ' :: (v.text ++ ' ' :: inText (d.text ++
    ' ' :: '{' :: ' ' :: (f.text ++ (more ';' Expr.text fs ++ ' ' :: '}' :: r))))) (.tail _ (.head _))
    sign ?_ ?_ ?_
  · rw [terms, text_every_keyed, List.append_assoc (Expr.text f)]
    rfl
  · intro r
    simp only [inText_append, List.append_assoc, List.cons_append, List.nil_append]
  · intro n r u ends here deep
    have legal := (key.plain.first (.mark (c := ',') (s := ' ' :: (v.text ++ ' ' :: inText (d.text ++
      ' ' :: '{' :: ' ' :: (f.text ++ (more ';' Expr.text fs ++ ' ' :: '}' ::
        (withsText e.withs ++ r)))))) (.head _))).1
    refine Page.runs_worded (.tail _ (.head _)) here nofun fun _ => ?_
    rw [terms]
    refine Page.runs_quantifier first others withs ends legal here (fun x there => ?_)
      (deep.shorter ?_ (by decide))
    · refine (Page.runs_compound_keyed key value domain (.brace (c := '{') (.head _)) there deep).imp_given ?_
      rintro t y ⟨⟨op, k', v', d', call, member, sameKey, sameValue, sameDomain⟩, ended⟩
      exact ⟨⟨some k', v', d', quantified_three call member ((isVar_of_same sameKey).trans keyVar)
        ((isVar_of_same sameValue).trans isVar), by rw [sameKeys, sameKey], sameValue, sameDomain⟩, ended⟩
    · simp only [inText, List.length_append, List.length_cons]
      omega

end quantified

end back

end RegoSyntax
