/-
# RegoSyntax.Proofs.Printing.Texts — the texts of trees, piece by piece.

The text of a list is that of its first element and what its further elements add to it, so that a reader
of the list meets the pieces one by one.

Each constructor has a lemma for its text, with the empty list apart from the others, since the empty set
and a call without arguments are printed in their own way.
-/
import RegoSyntax.Proofs.Rendering
import RegoSyntax.Tree.Equality

namespace RegoSyntax

open Parse

/-! ## Pieces -/

/-- The characters of the text of a term. -/
def Term.text (t : Term) : List Char := t.render.toList

/-- The characters of the text of an expression. -/
def Expr.text (e : Expr) : List Char := e.render.toList

/-- The characters of the text of an entry of an object. -/
def entryText (p : Term × Term) : List Char := p.1.text ++ ':' :: ' ' :: p.2.text

/-- What further elements add to the text of a list, each with a mark and a blank in front. -/
def more {α : Type} (mark : Char) (text : α → List Char) (xs : List α) : List Char :=
  xs.flatMap fun x => mark :: ' ' :: text x

@[simp] theorem more_nil {α : Type} (mark : Char) (text : α → List Char) : more mark text [] = [] := rfl

@[simp] theorem more_cons {α : Type} (mark : Char) (text : α → List Char) (x : α) (xs : List α) :
    more mark text (x :: xs) = mark :: ' ' :: (text x ++ more mark text xs) := rfl

/-- Texts that are joined with a mark and a blank. -/
theorem joinWith_cons (mark : Char) (s : String) (texts : List String) :
    (joinWith (String.ofList [mark, ' ']) (s :: texts)).toList =
      s.toList ++ more mark String.toList texts := by
  induction texts generalizing s with
  | nil => simp [joinWith]
  | cons r texts ih =>
      rw [joinWith, String.toList_append, String.toList_append, ih, more_cons, String.toList_ofList,
        List.append_assoc]
      · rfl
      · exact nofun

/-- The texts of terms, one by one. -/
theorem renderTerms_eq (ts : List Term) : renderTerms ts = ts.map Term.render := by
  induction ts with
  | nil => rw [renderTerms, List.map_nil]
  | cons t ts ih => rw [renderTerms, ih, List.map_cons]

/-- The texts of entries, one by one. -/
theorem renderPairs_eq (ps : List (Term × Term)) :
    renderPairs ps = ps.map fun p => p.1.render ++ ": " ++ p.2.render := by
  induction ps with
  | nil => rw [renderPairs, List.map_nil]
  | cons p ps ih =>
      obtain ⟨k, v⟩ := p
      rw [renderPairs, ih, List.map_cons]

/-- The text of a list of terms. -/
theorem terms_text (t : Term) (ts : List Term) :
    (joinWith ", " (renderTerms (t :: ts))).toList = t.text ++ more ',' Term.text ts := by
  rw [renderTerms_eq, List.map_cons]
  refine (joinWith_cons ',' _ _).trans ?_
  rw [more, more, List.flatMap_map]
  rfl

/-- The text of the entries of an object. -/
theorem pairs_text (p : Term × Term) (ps : List (Term × Term)) :
    (joinWith ", " (renderPairs (p :: ps))).toList = entryText p ++ more ',' entryText ps := by
  have entry (p : Term × Term) : (p.1.render ++ ": " ++ p.2.render).toList = entryText p := by
    rw [String.toList_append, String.toList_append, List.append_assoc]
    rfl
  rw [renderPairs_eq, List.map_cons]
  refine (joinWith_cons ',' _ _).trans ?_
  rw [more, more, List.flatMap_map, entry]
  simp only [entry]

/-- The text of a query. -/
theorem body_text (e : Expr) (es : List Expr) :
    (renderBody (e :: es)).toList = e.text ++ more ';' Expr.text es := by
  induction es generalizing e with
  | nil => simp [renderBody, Expr.text]
  | cons f es ih =>
      rw [renderBody, String.toList_append, String.toList_append, ih, more_cons, List.append_assoc]
      · rfl
      · exact nofun

/-! ## Values -/

section values

variable {l : Option Location}

theorem text_string (s : String) : Term.text ⟨.string s, l⟩ = (Quoted.json s).toList := rfl

theorem text_number (spelling : String) : Term.text ⟨.number spelling, l⟩ = spelling.toList := rfl

theorem text_var (name : String) : Term.text ⟨.var name, l⟩ = name.toList := rfl

theorem text_ref (t : Term) (ts : List Term) :
    Term.text ⟨.ref (t :: ts), l⟩ = t.text ++ (renderSegments ts).toList := by
  rw [Term.text, Term.render_ref, String.toList_append, Term.text]

theorem text_call_nil (op : Term) : Term.text ⟨.call [op], l⟩ = op.text ++ ['(', ')'] := by
  simp [Term.text, Term.render_call, renderTerms, joinWith]

theorem text_call_cons (op t : Term) (ts : List Term) :
    Term.text ⟨.call (op :: t :: ts), l⟩ =
      op.text ++ '(' :: (t.text ++ more ',' Term.text ts ++ [')']) := by
  rw [Term.text, Term.render_call, String.toList_append, String.toList_append, String.toList_append,
    terms_text]
  simp [Term.text]

theorem text_array_nil : Term.text ⟨.array [], l⟩ = ['[', ']'] := by
  simp [Term.text, Term.render_array, renderTerms, joinWith]

theorem text_array_cons (t : Term) (ts : List Term) :
    Term.text ⟨.array (t :: ts), l⟩ = '[' :: (t.text ++ more ',' Term.text ts ++ [']']) := by
  rw [Term.text, Term.render_array, String.toList_append, String.toList_append, terms_text]
  rfl

theorem text_set_nil : Term.text ⟨.set [], l⟩ = ['s', 'e', 't', '(', ')'] := by
  simp [Term.text, Term.render_set_nil]

theorem text_set_cons (t : Term) (ts : List Term) :
    Term.text ⟨.set (t :: ts), l⟩ = '{' :: (t.text ++ more ',' Term.text ts ++ ['}']) := by
  rw [Term.text, Term.render_set, String.toList_append, String.toList_append, terms_text]
  rfl

theorem text_object_nil : Term.text ⟨.object [], l⟩ = ['{', '}'] := by
  simp [Term.text, Term.render_object, renderPairs, joinWith]

theorem text_object_cons (q : Term × Term) (ps : List (Term × Term)) :
    Term.text ⟨.object (q :: ps), l⟩ = '{' :: (entryText q ++ more ',' entryText ps ++ ['}']) := by
  rw [Term.text, Term.render_object, String.toList_append, String.toList_append, pairs_text]
  rfl

theorem text_arrayComprehension (t : Term) (e : Expr) (es : List Expr) :
    Term.text ⟨.arrayComprehension t (e :: es), l⟩ =
      '[' :: (t.text ++ ' ' :: '|' :: ' ' :: (e.text ++ more ';' Expr.text es ++ [']'])) := by
  simp only [Term.text, Term.render_arrayComprehension, String.toList_append, body_text]
  simp

theorem text_setComprehension (t : Term) (e : Expr) (es : List Expr) :
    Term.text ⟨.setComprehension t (e :: es), l⟩ =
      '{' :: (t.text ++ ' ' :: '|' :: ' ' :: (e.text ++ more ';' Expr.text es ++ ['}'])) := by
  simp only [Term.text, Term.render_setComprehension, String.toList_append, body_text]
  simp

theorem text_objectComprehension (k v : Term) (e : Expr) (es : List Expr) :
    Term.text ⟨.objectComprehension k v (e :: es), l⟩ =
      '{' :: (entryText (k, v) ++ ' ' :: '|' :: ' ' :: (e.text ++ more ';' Expr.text es ++ ['}'])) := by
  simp only [Term.text, Term.render_objectComprehension, String.toList_append, body_text, entryText]
  simp

end values

/-! ## Segments -/

/-- There is no text without segments. -/
theorem no_segments_text : (renderSegments []).toList = [] := by
  rw [renderSegments, String.toList_empty]

/-- A segment is written behind a point, if it is a word, and between brackets. -/
theorem segments_text (t : Term) (ts : List Term) :
    (∃ s, t.value = .string s ∧ Lexeme.IsWord s.toList ∧
      (renderSegments (t :: ts)).toList = '.' :: (s.toList ++ (renderSegments ts).toList)) ∨
    (renderSegments (t :: ts)).toList = '[' :: (t.text ++ ']' :: (renderSegments ts).toList) := by
  obtain ⟨v, l⟩ := t
  cases v with
  | string s =>
      rw [renderSegments]
      split
      · next bare =>
          refine .inl ⟨s, rfl, (isBareSegment_iff s).1 bare, ?_⟩
          rw [String.toList_append, String.toList_append]
          rfl
      · refine .inr ?_
        simp [Term.text, Term.render_string]
  | _ =>
      refine .inr ?_
      simp [renderSegments, Term.text]

/-! ## Expressions -/

/-- The characters of the text of what an expression consists of. -/
def ExprTerms.text (t : ExprTerms) : List Char := t.render.toList

/-- The characters of the texts of replacements, each with a blank in front. -/
def withsText (ws : List With) : List Char := (renderWiths ws).toList

@[simp] theorem withsText_nil : withsText [] = [] := by
  rw [withsText, renderWiths, String.toList_empty]

/-- A replacement stands behind a blank. -/
theorem withsText_cons (w : With) (ws : List With) :
    withsText (w :: ws) = ' ' :: ("with".toList ++ ' ' :: (w.target.text ++
      ' ' :: ("as".toList ++ ' ' :: (w.value.text ++ withsText ws)))) := by
  obtain ⟨target, value, l⟩ := w
  simp only [withsText, renderWiths, With.render, String.toList_append, Term.text]
  simp

/-- The text of an expression has its sign first and its replacements last. -/
theorem Expr.text_eq (e : Expr) :
    e.text = (if e.negated then "not".toList ++ [' '] else []) ++ (e.terms.text ++ withsText e.withs) := by
  obtain ⟨i, g, negated, terms, withs, l⟩ := e
  rw [Expr.text, Expr.render, String.toList_append, String.toList_append, List.append_assoc]
  cases negated <;> rfl

section expressions

variable {l m : Option Location}

theorem text_term (t : Term) : ExprTerms.text (.term t) = t.text := by
  rw [ExprTerms.text, ExprTerms.render, Term.text]

theorem text_call (ts : List Term) : ExprTerms.text (.call ts) = Term.text ⟨.call ts, l⟩ := by
  rfl

/-- A declaration of variables. -/
theorem text_some (t : Term) (ts : List Term) (vars : ∀ u ∈ t :: ts, u.value.isVar = true) :
    ExprTerms.text (.some (t :: ts) l) = "some".toList ++ ' ' :: (t.text ++ more ',' Term.text ts) := by
  have list : (renderSymbols (t :: ts)).toList = t.text ++ more ',' Term.text ts := by
    rcases ts with _ | ⟨u, us⟩
    · obtain ⟨v, m⟩ := t
      have isVar := vars _ List.mem_cons_self
      cases v with
      | var name => simp [renderSymbols, Term.text]
      | _ => cases isVar
    · rw [renderSymbols, ← renderTerms, ← renderTerms, terms_text]
  rw [ExprTerms.text, ExprTerms.render, String.toList_append, list]
  rfl

/-- A declaration of the elements of a collection. -/
theorem text_some_member {op a d : Term} (member : op.render = memberName) :
    ExprTerms.text (.some [⟨.call [op, a, d], m⟩] l) =
      "some".toList ++ ' ' :: (a.text ++ ' ' :: ("in".toList ++ ' ' :: d.text)) := by
  rw [ExprTerms.text, ExprTerms.render, String.toList_append, renderSymbols]
  simp [renderTerms, member, joinWith, Term.text]

/-- A declaration of the keys and elements of a collection. -/
theorem text_some_keyed {op k a d : Term} (member : op.render = memberWithKeyName) :
    ExprTerms.text (.some [⟨.call [op, k, a, d], m⟩] l) =
      "some".toList ++ ' ' :: (k.text ++ ',' :: ' ' :: (a.text ++ ' ' :: ("in".toList ++ ' ' :: d.text))) := by
  rw [ExprTerms.text, ExprTerms.render, String.toList_append, renderSymbols]
  simp [renderTerms, member, joinWith, Term.text]

/-- A quantified query, over values. -/
theorem text_every (v d : Term) (e : Expr) (es : List Expr) :
    ExprTerms.text (.every none v d (e :: es) l) =
      "every".toList ++ ' ' :: (v.text ++ ' ' :: ("in".toList ++ ' ' :: (d.text ++
        ' ' :: '{' :: ' ' :: (e.text ++ more ';' Expr.text es ++ [' ', '}'])))) := by
  simp only [ExprTerms.text, ExprTerms.render, renderKey, String.toList_append, body_text, Term.text]
  simp

/-- A quantified query, over keys and values. -/
theorem text_every_keyed (k v d : Term) (e : Expr) (es : List Expr) :
    ExprTerms.text (.every (some k) v d (e :: es) l) =
      "every".toList ++ ' ' :: (k.text ++ ',' :: ' ' :: (v.text ++ ' ' :: ("in".toList ++ ' ' :: (d.text ++
        ' ' :: '{' :: ' ' :: (e.text ++ more ';' Expr.text es ++ [' ', '}']))))) := by
  simp only [ExprTerms.text, ExprTerms.render, renderKey, String.toList_append, body_text, Term.text]
  simp

end expressions

end RegoSyntax
