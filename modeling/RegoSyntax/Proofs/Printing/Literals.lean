/-
# RegoSyntax.Proofs.Printing.Literals — expressions are read back.

An expression starts with its first term, or with a word that says what it is.  Its replacements come
last.  A declaration of variables is the one expression that is read more than once: it is taken for a
membership first, given up, and looked at again for advice; what has been remembered on the way are terms
of its own, and these are behind the parser when it goes on.

`e.Back p` says that on page `p` the text of `e` is read as an expression that is the same as `e`, up to
what may follow an expression (`Ends`).  For terms and calls it is shown here (`Expr.back_of_term`), and
for declarations and quantified queries behind this module.
-/
import RegoSyntax.Proofs.Printing.Paths

namespace RegoSyntax

open Parse Lexeme
open Page (Given)

/-! ## Words

Five words stand in expressions, each with a blank behind it; a word with a blank behind it is a keyword
and no part of a reference. -/

/-- The words of expressions. -/
def literalWords : List (String × Token) :=
  [("not", .notKw), ("some", .someKw), ("every", .everyKw), ("with", .withKw), ("as", .asKw)]

/-- The words of expressions are reserved in the current dialect. -/
theorem literalWords_reserved : ∀ e ∈ literalWords, IsWord e.1.toList ∧
    KeywordTable.current.get? e.1 = some e.2 ∧ e.2 ≠ .containsKw := by
  simp only [literalWords, List.forall_mem_cons]
  decide +kernel

namespace Page

variable {p : Page} {n : Nat} {r s : List Char} {u : Reading} {w : String} {kind : Token}

/-- A word with a blank behind it. -/
theorem Here.word (h : p.Here (w.toList ++ ' ' :: s) u) (listed : (w, kind) ∈ literalWords) :
    u.look.token = kind ∧ p.Last (' ' :: s) u := by
  obtain ⟨word, reserved, other⟩ := literalWords_reserved _ listed
  obtain ⟨token, left, -⟩ := shown_keyword word reserved s
  refine ⟨h.token_eq token other, left ▸ h.last ?_⟩
  obtain ⟨c, t, cons, -⟩ := word
  rw [cons]
  exact List.cons_ne_nil _ _

/-- A word with a blank behind it starts no reference. -/
theorem Here.word_alone (h : p.Here (w.toList ++ ' ' :: s) u) (listed : (w, kind) ∈ literalWords) :
    p.Runs Parse.startsRefWithKeyword u (Given fun b v => b = false ∧ v = u) := by
  obtain ⟨word, reserved, -⟩ := literalWords_reserved _ listed
  refine h.toSees.startsRefWithKeyword fun _ => ?_
  rw [(shown_keyword word reserved s).2.1]
  exact ⟨⟨rfl, nofun⟩, rfl⟩

end Page

/-! ## Replacements

Replacements are read until there is no further `with`.  What they are behind has to end before the word,
and what is behind them must not be taken for one. -/

/-- A replacement that is read back. -/
structure With.Back (p : Page) (w : With) : Prop where
  target : w.target.Back p
  value : w.value.Back p
  path : w.target.value.isVar = true ∨ w.target.value.ref?.isSome = true
  lead : ∃ name s, IsWord name.toList ∧ Unreserved name ∧ w.target.text = name.toList ++ s ∧
    (s = [] ∨ Opens s)

/-- Behind an expression, replacements do not go on with it. -/
theorem rests_withs {r : List Char} (rests : Rests r) (ws : List With) : Rests (withsText ws ++ r) := by
  cases ws with
  | nil =>
      rw [withsText_nil]
      exact rests
  | cons w ws =>
      rw [withsText_cons, List.cons_append, List.append_assoc]
      exact .word (w := "with") (by decide)

/-- Replacements close what stands in front of them. -/
theorem closes_withs {r : List Char} (closes : Closes r) (ws : List With) : Closes (withsText ws ++ r) := by
  cases ws with
  | nil =>
      rw [withsText_nil]
      exact closes
  | cons w ws =>
      rw [withsText_cons, List.cons_append, List.append_assoc]
      exact (Rests.word (w := "with") (by decide)).closes

namespace Page

variable {p : Page} {n : Nat} {r s : List Char} {u : Reading}

/-- What can be replaced. -/
theorem runs_checkTarget {t t' : Term} (path : t.value.isVar = true ∨ t.value.ref?.isSome = true)
    (same : t.same t' = true) : p.Runs (checkTarget t') u (Given fun _ v => v = u) := by
  rw [Term.same_eq] at same
  have either : (∃ name, t'.value = .var name) ∨ ∃ path, t'.value = .ref path := by
    obtain ⟨v, l⟩ := t
    obtain ⟨w, m⟩ := t'
    cases v <;> cases w <;> simp_all [Value.same, Value.isVar, Value.varName?, Value.ref?]
  unfold checkTarget
  rcases either with ⟨name, value⟩ | ⟨path, value⟩ <;> rw [value] <;> exact gives_pure rfl

/-- A replacement. -/
theorem runs_replacement {w : With} (back : w.Back p) (rests : Rests s) (comma : shown (past s) ≠ .comma)
    (here : p.Here ("with".toList ++ ' ' :: (w.target.text ++
      ' ' :: ("as".toList ++ ' ' :: (w.value.text ++ s)))) u)
    (deep : Deep n ("with".toList ++ ' ' :: (w.target.text ++
      ' ' :: ("as".toList ++ ' ' :: (w.value.text ++ s)))) 0) :
    p.Runs (replacement (grammar n)) u (Given fun w' v => w.same w' = true ∧ p.Here (past s) v) := by
  have closes : Closes (' ' :: ("as".toList ++ ' ' :: (w.value.text ++ s))) :=
    (Rests.word (w := "as") (by decide)).closes
  obtain ⟨legal, -⟩ := back.target.plain.first closes
  unfold replacement
  rw [location_iff]
  -- the word `with` is the token looked at, and behind it the target begins
  refine gives_bind ((here.word (show (_, Token.withKw) ∈ literalWords by decide)).2.scan legal) fun _ v there => ?_
  have there : p.Here (w.target.text ++ ' ' :: ("as".toList ++ ' ' :: (w.value.text ++ s))) v := there
  -- a target is a path, so its first token is an identifier and no other keyword
  have ident : v.look.token = .ident := by
    obtain ⟨name, t, word, free, text, behind⟩ := back.lead
    have apart : Apart (t ++ ' ' :: ("as".toList ++ ' ' :: (w.value.text ++ s))) := by
      rcases behind with rfl | opens
      · exact apart_blank _
      · exact (opens.append _).apart
    refine there.token_eq ?_ nofun
    rw [text, List.append_assoc, shown_word word apart, String.ofList_toList, free]
    rfl
  rw [token_iff, ident]
  refine gives_bind (back.target.echoes n _ v closes there (deep.shorter (by
    simp only [List.length_append, List.length_cons]
    omega) (by decide))) fun target x ⟨sameTarget, there⟩ => ?_
  have there : p.Here ("as".toList ++ ' ' :: (w.value.text ++ s)) x := there
  refine gives_bind (runs_checkTarget back.path sameTarget) ?_
  rintro _ _ rfl
  -- behind the target stands the word `as`
  obtain ⟨asKw, last⟩ := there.word (show (_, Token.asKw) ∈ literalWords by decide)
  unfold replacedBy
  rw [token_iff, asKw]
  refine gives_bind (last.scan (back.value.plain.first rests.closes).1) fun _ y there => ?_
  have there : p.Here (w.value.text ++ s) y := there
  refine gives_bind (runs_compound back.value.echoes rests (fun _ => comma) there (deep.shorter (by
    simp only [List.length_append, List.length_cons]
    omega) (by decide))) fun value z ⟨sameValue, ended⟩ => ?_
  rw [upToLastStop_iff]
  refine gives_pure ⟨?_, ended⟩
  obtain ⟨target', value', l⟩ := w
  rw [With.same, sameTarget, sameValue]
  rfl

/-- What stands behind replacements is no comma. -/
theorem withs_not_comma (ends : Ends r) (ws : List With) :
    shown (past (withsText ws ++ r)) ≠ .comma := by
  cases ws with
  | nil =>
      rw [withsText_nil, List.nil_append]
      cases ends with
      | atEnd | brace => nofun
      | @mark c s mark =>
          simp only [List.mem_cons, List.not_mem_nil, or_false] at mark
          rcases mark with rfl | rfl | rfl <;> nofun
  | cons w ws =>
      rw [withsText_cons, List.cons_append, List.append_assoc]
      have reserved : KeywordTable.current.get? "with" = some .withKw := by decide +kernel
      have token := (shown_keyword (by decide +kernel) reserved
        ((w.target.text ++ ' ' :: ("as".toList ++ ' ' :: (w.value.text ++ withsText ws))) ++ r)).1
      exact fun comma => nomatch token.symm.trans comma

/-- Replacements are compared one by one. -/
theorem sameWiths_append {a b c d : List With} (first : sameWiths a c = true)
    (rest : sameWiths b d = true) : sameWiths (a ++ b) (c ++ d) = true := by
  induction a generalizing c with
  | nil =>
      cases c with
      | nil => exact rest
      | cons => simp [sameWiths] at first
  | cons t a ih =>
      cases c with
      | nil => simp [sameWiths] at first
      | cons u c =>
          simp only [sameWiths, List.cons_append, Bool.and_eq_true] at first ⊢
          exact ⟨first.1, ih first.2⟩

/-- A single replacement is compared as itself. -/
theorem sameWiths_singleton {w w' : With} (h : w.same w' = true) : sameWiths [w] [w'] = true := by
  simp [sameWiths, h]

/-- What stands behind an expression is no replacement. -/
theorem ends_not_with (ends : Ends r) : shown (past r) ≠ .withKw := by
  cases ends with
  | atEnd | brace => nofun
  | @mark c s mark =>
      simp only [List.mem_cons, List.not_mem_nil, or_false] at mark
      rcases mark with rfl | rfl | rfl <;> nofun

/-- What stands behind an expression is no word that may be a variable. -/
theorem Here.token_past (h : p.Here (past s) u) (rests : Rests s) : u.look.token = shown (past s) :=
  h.token_eq rfl fun word => absurd (word ▸ rests.token) (by decide)

/-- The replacements of an expression, from one of them on. -/
theorem runs_replacements {w : With} {ws read read' : List With} (first : w.Back p)
    (others : ∀ w ∈ ws, w.Back p) (ends : Ends r) (same : sameWiths read read' = true)
    (here : p.Here (past (withsText (w :: ws) ++ r)) u)
    (deep : Deep n (past (withsText (w :: ws) ++ r)) 1) :
    p.Runs (grammar n (.replacements read')) u (Given fun ws' v =>
      sameWiths (read ++ w :: ws) ws' = true ∧ p.Here (past r) v) := by
  have text (w : With) (ws : List With) : past (withsText (w :: ws) ++ r) =
      "with".toList ++ ' ' :: (w.target.text ++ ' ' :: ("as".toList ++ ' ' :: (w.value.text ++
        (withsText ws ++ r)))) := by
    rw [withsText_cons]
    simp only [List.cons_append, List.append_assoc]
    rfl
  -- on the replacements still to come; what has been read agrees with what was written so far
  induction ws generalizing n w read read' u with
  | nil =>
      obtain ⟨m, rfl, within⟩ := deep.enter
      rw [text] at here within
      have rests := rests_withs (Rests.of_ends ends) []
      refine gives_bind (runs_replacement first rests (withs_not_comma ends []) here within) ?_
      rintro w' v ⟨same', ended⟩
      rw [withsText_nil, List.nil_append] at ended
      -- behind the last replacement stands the end, where no further `with` begins
      have other : v.look.token ≠ .withKw := by
        rw [ended.token_past (Rests.of_ends ends)]
        exact ends_not_with ends
      rw [token_iff, beq_eq_false_iff_ne.2 other]
      exact gives_pure ⟨sameWiths_append same (sameWiths_singleton same'), ended⟩
  | cons x xs ih =>
      obtain ⟨m, rfl, within⟩ := deep.enter
      rw [text] at here within
      have rests := rests_withs (Rests.of_ends ends) (x :: xs)
      refine gives_bind (runs_replacement first rests (withs_not_comma ends _) here within) ?_
      rintro w' v ⟨same', there⟩
      -- another replacement begins with the word, so the parser goes on
      have further : v.look.token = .withKw := by
        rw [text] at there
        exact (there.word (by decide)).1
      rw [token_iff, further]
      refine (ih (others x List.mem_cons_self) (fun w hw => others w (List.mem_cons_of_mem _ hw))
        (sameWiths_append same (sameWiths_singleton same')) there ?_).imp_given fun ws' y h => ?_
      · rw [text x xs]
        refine within.shorter ?_ (by decide)
        rw [withsText_cons]
        simp only [List.length_append, List.length_cons]
        omega
      · simpa using h

/-- The replacements of an expression, if there are any. -/
theorem runs_replaced {e : Expr} {ws : List With} (bare : e.withs = []) (back : ∀ w ∈ ws, w.Back p)
    (ends : Ends r) (here : p.Here (past (withsText ws ++ r)) u)
    (deep : Deep n (past (withsText ws ++ r)) 1) :
    p.Runs (replaced (grammar n) e) u (Given fun e' v =>
      (∃ ws', e' = { e with withs := ws' } ∧ sameWiths ws ws' = true) ∧ p.Here (past r) v) := by
  unfold replaced
  cases ws with
  | nil =>
      rw [withsText_nil, List.nil_append] at here
      have other : u.look.token ≠ .withKw := by
        rw [here.token_past (Rests.of_ends ends)]
        exact ends_not_with ends
      rw [token_iff, beq_eq_false_iff_ne.2 other]
      exact gives_pure ⟨⟨[], by cases e; cases bare; rfl, by rw [sameWiths]⟩, here⟩
  | cons w ws =>
      have further : u.look.token = .withKw := by
        have there := here
        rw [withsText_cons, List.cons_append, List.append_assoc] at there
        exact (Here.word (w := "with") there (by decide)).1
      rw [token_iff, further]
      refine gives_bind (runs_replacements (back w List.mem_cons_self)
        (fun w hw => back w (List.mem_cons_of_mem _ hw)) ends (show sameWiths [] [] = true by rw [sameWiths])
        here deep) ?_
      rintro ws' v ⟨same, ended⟩
      exact gives_pure ⟨⟨ws', rfl, same⟩, ended⟩

end Page

/-! ## Terms and calls

The common form of an expression is a term.  A term that is a call becomes a call of the expression, which
prints the same. -/

/-- The term that is read where an expression is a term or a call. -/
inductive ExprTerms.Of : ExprTerms → Term → Prop where
  | term {t : Term} : t.value.call? = none → Of (.term t) t
  | call {ts : List Term} {l : Option Location} : Of (.call ts) ⟨.call ts, l⟩

/-- The text of an expression is that of its term. -/
theorem ExprTerms.Of.text {terms : ExprTerms} {t : Term} (h : terms.Of t) : terms.text = t.text := by
  cases h with
  | term _ => exact text_term t
  | call => exact text_call _

/-- A variable that is not reserved is no word of a quantified query. -/
theorem not_everyVar {terms : ExprTerms} {t : Term} {e : Expr} (of : terms.Of t) (plain : t.Plain)
    (same : terms.same e.terms = true) : isEveryVar e = false := by
  have other : t.value.isVarNamed everyWord = false := by
    obtain ⟨v, l⟩ := t
    cases v with
    | var name =>
        refine Bool.eq_false_iff.2 fun named => ?_
        obtain rfl : name = everyWord := by simpa [Value.isVarNamed, Value.varName?] using named
        -- `every` is reserved, and it is not the word that may be a variable
        rcases plain.speakable.free with free | contains
        · have reserved : KeywordTable.current.get? everyWord ≠ none := by decide +kernel
          exact reserved free
        · exact absurd contains (by decide)
    | _ => rfl
  obtain ⟨i, g, negated, terms', ws, l⟩ := e
  cases of with
  | term _ =>
      cases terms' with
      | term t' =>
          rw [ExprTerms.same, Term.same_eq] at same
          exact (Value.isVarNamed_of_same same everyWord).trans other
      | _ => rfl
  | call =>
      cases terms' with
      | term t' => simp [ExprTerms.same] at same
      | _ => rfl

/-- What an expression consists of, and its sign and replacements, are all that counts. -/
theorem Expr.same_of {e e' : Expr} (sign : e'.negated = e.negated) (terms : e.terms.same e'.terms = true)
    (withs : sameWiths e.withs e'.withs = true) : e.same e' = true := by
  cases e
  cases e'
  simp_all [Expr.same]

namespace Page

variable {p : Page} {n : Nat} {r s : List Char} {u : Reading} {t : Term} {terms : ExprTerms}

/-- A term with operators, or a call. -/
theorem runs_expression (of : terms.Of t) (rests : Rests s)
    (read : p.Runs (grammar n (.compound true)) u
      (Given fun t' v => t.same t' = true ∧ p.Here (past s) v)) :
    p.Runs (expression (grammar n)) u (Given fun e v =>
      (e.withs = [] ∧ terms.same e.terms = true) ∧ p.Here (past s) v) := by
  unfold expression
  refine gives_bind read ?_
  rintro t' v ⟨same, ended⟩
  have token := rests.token
  rw [← ended.token_past rests] at token
  -- what follows is no assignment, so the expression ends with the term
  have other : ∀ kind ∈ Rests.tokens, (kind == .assign || kind == .unify) = false := by decide
  rw [token_iff, other _ token, if_neg Bool.false_ne_true]
  rw [Term.same_eq] at same
  cases of with
  | term plain =>
      split
      · next ts call =>
          rw [call] at same
          obtain ⟨v, l⟩ := t
          cases v <;> simp_all [Value.same, Value.call?]
      · refine gives_pure ⟨⟨rfl, ?_⟩, ended⟩
        rw [Expr.ofTerm, Expr.ofTerms, ExprTerms.same, Term.same_eq]
        exact same
  | call =>
      split
      · next ts' call =>
          refine gives_pure ⟨⟨rfl, ?_⟩, ended⟩
          rw [call, Value.same] at same
          rw [Expr.ofTerms, ExprTerms.same]
          exact same
      · next other =>
          obtain ⟨w, m⟩ := t'
          cases w <;> simp_all [Value.same]

/-- An expression that is no word of a quantified query, with its replacements. -/
theorem runs_replacedExpression {negated : Bool} {ws : List With} (withs : ∀ w ∈ ws, w.Back p)
    (ends : Ends r) (other : ∀ e : Expr, terms.same e.terms = true → isEveryVar e = false)
    (read : p.Runs (expression (grammar n)) u (Given fun e v =>
      (e.withs = [] ∧ terms.same e.terms = true) ∧ p.Here (past (withsText ws ++ r)) v))
    (deep : Deep n (past (withsText ws ++ r)) 1) :
    p.Runs (plainLiteral (grammar n) negated) u (Given fun e v =>
      (e.negated = negated ∧ terms.same e.terms = true ∧ sameWiths ws e.withs = true) ∧
        p.Here (past r) v) := by
  unfold plainLiteral
  rw [save_iff]
  refine gives_bind read ?_
  rintro e v ⟨⟨bare, same⟩, there⟩
  refine gives_bind (runs_replaced (e := { e with negated }) bare withs ends there deep) ?_
  rintro _ w ⟨⟨ws', rfl, sameWiths⟩, ended⟩
  have noEvery : isEveryVar { e with negated, withs := ws' } = false := other _ same
  have silent : p.Runs (suggestEvery (grammar n) u.save { e with negated, withs := ws' }) w
      (Given fun _ v => v = w) := by
    unfold suggestEvery
    rw [env_iff, noEvery, Bool.and_false]
    exact gives_pure rfl
  refine gives_bind silent ?_
  rintro _ _ rfl
  exact gives_pure ⟨⟨rfl, same, sameWiths⟩, ended⟩

/-- An expression with its replacements. -/
theorem runs_plainLiteral {negated : Bool} {ws : List With} (of : terms.Of t) (back : t.Back p)
    (withs : ∀ w ∈ ws, w.Back p) (ends : Ends r) (here : p.Here (t.text ++ (withsText ws ++ r)) u)
    (deep : Deep n (t.text ++ (withsText ws ++ r)) 8) :
    p.Runs (plainLiteral (grammar n) negated) u (Given fun e v =>
      (e.negated = negated ∧ terms.same e.terms = true ∧ sameWiths ws e.withs = true) ∧
        p.Here (past r) v) := by
  have rests := rests_withs (Rests.of_ends ends) ws
  have comma := withs_not_comma ends ws
  refine runs_replacedExpression withs ends (fun e => not_everyVar of back.plain)
    (runs_expression of rests (runs_compound back.echoes rests (fun _ => comma) here deep)) ?_
  refine deep.shorter ?_ (by decide)
  have filled := List.length_pos_of_ne_nil (back.plain.opening.filled back.plain.1)
  have le := length_past (withsText ws ++ r)
  rw [List.length_append]
  omega

/-- A term starts no reference with a keyword, but perhaps with the one that may be a variable. -/
theorem Here.startsRef (here : p.Here (t.text ++ s) u) (plain : t.Plain) (closes : Closes s) :
    p.Runs Parse.startsRefWithKeyword u (Given fun _ v => p.Here (t.text ++ s) v) := by
  by_cases contains : shown (t.text ++ s) = .containsKw
  · exact here.startsRefWithKeyword contains
  · refine (here.toSees.startsRefWithKeyword fun word => ?_).imp_given ?_
    · rw [plain.opening.alone plain.1 closes word contains]
      refine ⟨closes.stops, ?_⟩
      have ends : ∀ kind ∈ closingTokens, continuesRef kind = false := by decide
      rcases closes.token with ⟨token, -⟩ | ⟨token, -⟩
      · rw [token]
        rfl
      · exact ends _ token
    · rintro _ _ ⟨-, rfl⟩
      exact here

/-- A term or a call, not negated. -/
theorem runs_unsigned {ws : List With} (of : terms.Of t) (back : t.Back p)
    (withs : ∀ w ∈ ws, w.Back p) (ends : Ends r) (here : p.Here (t.text ++ (withsText ws ++ r)) u)
    (deep : Deep n (t.text ++ (withsText ws ++ r)) 8) :
    p.Runs (unplacedLiteral (grammar n)) u (Given fun e v =>
      (e.negated = false ∧ terms.same e.terms = true ∧ sameWiths ws e.withs = true) ∧
        p.Here (past r) v) := by
  have closes := (rests_withs (Rests.of_ends ends) ws).closes
  have opening := (back.plain.first closes).2
  unfold unplacedLiteral
  refine gives_bind (here.startsRef back.plain closes) fun asIdent v there => ?_
  split
  · exact runs_plainLiteral of back withs ends there deep
  have token := there.token_opening opening
  -- no term starts with `not`
  have noSign : p.Runs negation v (Given fun b w => b = false ∧ w = v) := by
    have other : (v.look.token != .notKw) = true := by
      refine bne_iff_ne.2 fun same => ?_
      rw [same] at token
      exact absurd token (by decide)
    unfold negation
    rw [token_iff, other]
    exact gives_pure ⟨rfl, rfl⟩
  refine gives_bind noSign ?_
  rintro _ w ⟨rfl, rfl⟩
  rw [token_iff]
  split
  · next same =>
      rw [same] at token
      exact absurd token (by decide)
  · next same =>
      rw [same] at token
      exact absurd token (by decide)
  · exact runs_plainLiteral of back withs ends there deep

/-- A term or a call, negated. -/
theorem runs_negated {ws : List With} (of : terms.Of t) (back : t.Back p)
    (withs : ∀ w ∈ ws, w.Back p) (ends : Ends r)
    (here : p.Here ("not".toList ++ ' ' :: (t.text ++ (withsText ws ++ r))) u)
    (deep : Deep n (t.text ++ (withsText ws ++ r)) 8) :
    p.Runs (unplacedLiteral (grammar n)) u (Given fun e v =>
      (e.negated = true ∧ terms.same e.terms = true ∧ sameWiths ws e.withs = true) ∧
        p.Here (past r) v) := by
  have closes := (rests_withs (Rests.of_ends ends) ws).closes
  obtain ⟨legal, opening⟩ := back.plain.first closes
  obtain ⟨notKw, last⟩ := here.word (show (_, Token.notKw) ∈ literalWords by decide)
  unfold unplacedLiteral
  refine gives_bind (here.word_alone (show (_, Token.notKw) ∈ literalWords by decide)) ?_
  rintro _ v ⟨rfl, rfl⟩
  rw [if_neg Bool.false_ne_true]
  -- the blank behind `not` makes it a sign
  have sign : p.Runs negation v (Given fun b w => b = true ∧ p.Here (t.text ++ (withsText ws ++ r)) w) := by
    have peek : (Parse.next p.env false v.look).look.token = .whitespace := by
      obtain ⟨word, reserved, -⟩ := literalWords_reserved ("not", .notKw) (by decide)
      have left := (shown_keyword word reserved (t.text ++ (withsText ws ++ r))).2.1
      rw [here.peek (by rw [left]; exact ⟨rfl, nofun⟩), left]
      rfl
    unfold negation
    rw [token_iff, notKw, bne_self_eq_false, if_neg Bool.false_ne_true, peekBlank_iff, peek]
    exact gives_bind (last.scan legal) fun _ w there => gives_pure ⟨rfl, there⟩
  refine gives_bind sign ?_
  rintro _ w ⟨rfl, there⟩
  have token := there.token_opening opening
  rw [token_iff]
  split
  · next same =>
      rw [same] at token
      exact absurd token (by decide)
  · next same =>
      rw [same] at token
      exact absurd token (by decide)
  · exact runs_plainLiteral of back withs ends there deep

/-- A literal is put in its place. -/
theorem runs_literal {e : Expr} (h : ∀ m, Deep m s 8 → p.Runs (unplacedLiteral (grammar m)) u
    (Given fun e' v => e.same e' = true ∧ p.Here (past r) v)) (deep : Deep n s 9) :
    p.Runs (grammar n .literal) u (Given fun e' v => e.same e' = true ∧ p.Here (past r) v) := by
  obtain ⟨m, rfl, within⟩ := deep.enter
  show p.Runs (literal (grammar m)) u _
  unfold literal
  rw [location_iff]
  refine gives_bind (h m within) fun e' v ⟨same, ended⟩ => ?_
  rw [upToLastStop_iff]
  refine gives_pure ⟨?_, ended⟩
  cases e
  cases e'
  rw [Expr.same] at same
  rw [Expr.placed, Expr.same]
  exact same

end Page

/-- A word with a blank behind it starts an expression. -/
theorem word_first {w : String} {kind : Token} (listed : (w, kind) ∈ literalWords.take 3) (s : List Char) :
    Legal (w.toList ++ ' ' :: s) ∧ shown (w.toList ++ ' ' :: s) ∈ literalTokens := by
  obtain ⟨word, reserved, -⟩ := literalWords_reserved _ (List.mem_of_mem_take listed)
  obtain ⟨token, -, legal⟩ := shown_keyword word reserved s
  have kinds : ∀ e ∈ literalWords.take 3, e.2 ∈ literalTokens := by decide
  exact ⟨legal, token ▸ kinds _ listed⟩

/-- A term or a call is read back where it is an expression. -/
theorem Expr.back_of_term {p : Page} {e : Expr} {t : Term} (of : e.terms.Of t) (back : t.Back p)
    (withs : ∀ w ∈ e.withs, w.Back p) : e.Back p := by
  have text (r : List Char) : e.text ++ r = (if e.negated then "not".toList ++ [' '] else []) ++
      (t.text ++ (withsText e.withs ++ r)) := by
    rw [Expr.text_eq, of.text, List.append_assoc, List.append_assoc]
  -- with a sign the word stands in front, and the rest is read the same way
  rcases sign : e.negated with _ | _
  · have text (r : List Char) : e.text ++ r = t.text ++ (withsText e.withs ++ r) := by
      rw [text, sign]
      rfl
    constructor
    · intro r closes
      obtain ⟨legal, opening⟩ := back.plain.first (closes_withs closes e.withs)
      exact ⟨text r ▸ legal, text r ▸ List.mem_append_left _ opening⟩
    · intro n r u ends here deep
      rw [text] at here deep
      refine Page.runs_literal (fun m within => ?_) deep
      refine (Page.runs_unsigned of back withs ends here within).imp_given ?_
      rintro e' v ⟨⟨sign', terms, withs⟩, ended⟩
      exact ⟨Expr.same_of (sign'.trans sign.symm) terms withs, ended⟩
  · have text (r : List Char) : e.text ++ r = "not".toList ++ ' ' :: (t.text ++ (withsText e.withs ++ r)) := by
      rw [text, sign]
      exact List.append_assoc _ _ _
    constructor
    · intro r closes
      rw [text]
      exact word_first (show ("not", Token.notKw) ∈ literalWords.take 3 by decide) _
    · intro n r u ends here deep
      rw [text] at here deep
      refine Page.runs_literal (fun m within => ?_) deep
      refine (Page.runs_negated of back withs ends here (within.shorter (by
        simp only [List.length_append, List.length_cons]
        omega) (by decide))).imp_given ?_
      rintro e' v ⟨⟨sign', terms, withs⟩, ended⟩
      exact ⟨Expr.same_of (sign'.trans sign.symm) terms withs, ended⟩

end RegoSyntax
