/-
# RegoSyntax.Proofs.Rendering — what can be told of a tree from its text.

Whether a call is a membership is decided by the text of its operator.  No other path of a formed tree has
that text, so the decision is one about the tree: words end where a point, a bracket or a parenthesis
follows, and a text that starts with a letter is that of a variable, or of a call.
-/
import Mathlib.Data.List.TakeWhile
import RegoSyntax.Proofs.Formed

namespace RegoSyntax

open Parse

/-! ## Words in front

A word ends where its characters do, so the text of a path tells where its first word ends. -/

theorem Lexeme.IsWord.all {s : List Char} (h : Lexeme.IsWord s) :
    ∀ x ∈ s, Lexeme.isWordChar x = true := by
  obtain ⟨c, t, rfl, letter, rest⟩ := h
  intro x hx
  rcases List.mem_cons.1 hx with rfl | hx
  · rw [Lexeme.isWordChar, letter, Bool.true_or]
  · exact rest x hx

/-- What is written behind a point is a word. -/
theorem isBareSegment_iff (s : String) : isBareSegment s = true ↔ Lexeme.IsWord s.toList := by
  have chars (x : Char) : (x.isAlphanum || x == '_') = Lexeme.isWordChar x := by
    rw [Lexeme.isWordChar, Lexeme.isLetter, Char.isAlphanum, Bool.or_right_comm]
  unfold isBareSegment
  split
  · next none =>
      rw [none]
      constructor
      · intro h
        cases h
      · rintro ⟨_, _, cons, -⟩
        cases cons
  · next c cs cons =>
      rw [cons, Bool.and_eq_true, List.all_eq_true]
      simp only [chars]
      constructor
      · exact fun h => ⟨c, cs, rfl, h⟩
      · rintro ⟨d, ds, same, h⟩
        obtain ⟨rfl, rfl⟩ := List.cons.inj same
        exact h

/-- A word in front of something else is told by its characters. -/
theorem word_append {a b c d : List Char} (ha : ∀ x ∈ a, Lexeme.isWordChar x = true)
    (hb : ∀ x ∈ b, Lexeme.isWordChar x = true) (hc : ∀ x ∈ c.head?, Lexeme.isWordChar x = false)
    (hd : ∀ x ∈ d.head?, Lexeme.isWordChar x = false) (h : a ++ c = b ++ d) : a = b ∧ c = d := by
  have front {s t : List Char} (hs : ∀ x ∈ s, Lexeme.isWordChar x = true)
      (ht : ∀ x ∈ t.head?, Lexeme.isWordChar x = false) :
      (s ++ t).takeWhile Lexeme.isWordChar = s := by
    rw [List.takeWhile_append_of_pos hs]
    cases t with
    | nil => simp
    | cons x t => simp [ht x rfl]
  have same : a = b := by rw [← front ha hc, h, front hb hd]
  exact ⟨same, List.append_cancel_left (same ▸ h)⟩

/-! ## Segments

What is behind the head of a path starts with a point or a bracket, neither of which is a character of a
word. -/

/-- The text of segments starts with a point or a bracket. -/
theorem renderSegments_cons (t : Term) (ts : List Term) :
    ∃ rest, (renderSegments (t :: ts)).toList = '.' :: rest ∨
      (renderSegments (t :: ts)).toList = '[' :: rest := by
  obtain ⟨v, l⟩ := t
  cases v with
  | string s =>
      rw [renderSegments]
      split
      · exact ⟨_, .inl (by rw [String.toList_append, String.toList_append]; rfl)⟩
      · exact ⟨_, .inr (by simp only [String.toList_append]; rfl)⟩
  | _ => exact ⟨_, .inr (by simp only [renderSegments, String.toList_append]; rfl)⟩

/-- No word goes on into segments. -/
theorem renderSegments_head (ts : List Term) :
    ∀ x ∈ (renderSegments ts).toList.head?, Lexeme.isWordChar x = false := by
  cases ts with
  | nil => simp [renderSegments]
  | cons t ts =>
      obtain ⟨rest, point | bracket⟩ := renderSegments_cons t ts
      · rw [point]
        rintro x hx
        obtain rfl : '.' = x := Option.some.inj hx
        decide
      · rw [bracket]
        rintro x hx
        obtain rfl : '[' = x := Option.some.inj hx
        decide

/-- A point and a word, if they are all there is, are the text of that one segment. -/
theorem eq_of_renderSegments {ts : List Term} {s : String} (word : Lexeme.IsWord s.toList)
    (h : (renderSegments ts).toList = '.' :: s.toList) : ∃ l, ts = [⟨.string s, l⟩] := by
  have chars := word.all
  cases ts with
  | nil => simp [renderSegments] at h
  | cons t ts =>
      obtain ⟨v, l⟩ := t
      cases v with
      | string r =>
          rw [renderSegments] at h
          split at h
          · next bare =>
              have split' : r.toList ++ (renderSegments ts).toList = s.toList ++ [] := by
                rw [String.toList_append, String.toList_append] at h
                rw [List.append_nil]
                exact (List.cons.inj h).2
              have charsOfBare := ((isBareSegment_iff r).1 bare).all
              obtain ⟨same, none⟩ := word_append charsOfBare chars (renderSegments_head ts)
                (by simp) split'
              -- a second segment would put a dot or a bracket into the word
              have rest : ts = [] := by
                cases ts with
                | nil => rfl
                | cons u us =>
                    obtain ⟨rest, point | bracket⟩ := renderSegments_cons u us
                    · rw [point] at none
                      cases none
                    · rw [bracket] at none
                      cases none
              exact ⟨l, by rw [rest, String.toList_inj.1 same]⟩
          -- a string that is no name stands between brackets, not behind a point
          · simp only [String.toList_append] at h
            cases h
      | _ =>
          simp only [renderSegments, String.toList_append] at h
          cases h

/-! ## Heads of paths

The head of a formed path is a variable, a collection, a comprehension or a call, of which only variables
and calls start with a letter. -/

/-- The head of a path is a variable if the text of the path starts with a letter and there is no
parenthesis in that of the head: only variables and calls start with one. -/
theorem eq_var_of_render {names : String → Prop} {head : Term} (heads : canHeadRef head.value = true)
    (formed : head.Formed names) (rest : List Char)
    (letter : (head.render.toList ++ rest).head?.all Lexeme.isLetter = true)
    (paren : '(' ∉ head.render.toList) :
    ∃ name l, head = ⟨.var name, l⟩ ∧ Lexeme.IsWord name.toList := by
  obtain ⟨v, l⟩ := head
  have own := (Term.formed_iff.1 formed).1
  cases v with
  | var name =>
      -- the name of a wildcard does not start with a letter
      rcases own with wild | ⟨word, -⟩
      · rw [isWildcardName, beq_iff_eq, List.head?_eq_some_iff] at wild
        obtain ⟨rest', wild⟩ := wild
        rw [Term.render_var, wild] at letter
        exact absurd letter Bool.false_ne_true
      · exact ⟨name, l, rfl, word⟩
  | call ts =>
      obtain ⟨op, path, args, rfl, -⟩ := own
      rw [Term.render_call] at paren
      exact absurd (by simp) paren
  | set ts =>
      -- the empty set is written as a call and has a parenthesis, the others open with a brace
      rcases ts with _ | ⟨t, ts⟩
      · rw [Term.render_set_nil] at paren
        exact absurd (by decide) paren
      · simp only [Term.render_set, String.toList_append] at letter
        exact absurd letter Bool.false_ne_true
  | array _ | object _ | arrayComprehension _ _ | setComprehension _ _ | objectComprehension _ _ _ =>
      simp only [Term.render_array, Term.render_object, Term.render_arrayComprehension,
        Term.render_setComprehension, Term.render_objectComprehension, String.toList_append] at letter
      exact absurd letter Bool.false_ne_true
  | _ => cases heads

/-! ## Operators of membership

The operators of membership are paths of two segments.  By the steps above a formed path with their text
has the same two segments, so it is the operator. -/

theorem memberRoot_toList : memberRoot.toList = ['i', 'n', 't', 'e', 'r', 'n', 'a', 'l'] := by
  decide +kernel

/-- A formed operator with the text of one of membership is one. -/
theorem isMember_of_render {names : String → Prop} {op : Term} {path : Ref} {n : Nat}
    (operates : op.value = .ref path) (formed : op.Formed names)
    (segment : Lexeme.IsWord (memberSegment n).toList)
    (text : op.render.toList = memberRoot.toList ++ '.' :: (memberSegment n).toList) :
    op.IsMember n := by
  obtain ⟨v, l⟩ := op
  obtain rfl : v = .ref path := operates
  obtain ⟨⟨head, segments, rfl, heads, -⟩, below⟩ := Term.formed_iff.1 formed
  have headFormed : head.Formed names := forall_walkTerms.1 below head List.mem_cons_self
  have text : head.render.toList ++ (renderSegments segments).toList =
      memberRoot.toList ++ '.' :: (memberSegment n).toList := by
    rw [← text, ← String.toList_append, Term.render_ref]
  have root : ∀ x ∈ memberRoot.toList, Lexeme.isWordChar x = true := by
    rw [memberRoot_toList]
    exact List.all_eq_true.1 (by decide)
  have letter : (head.render.toList ++ (renderSegments segments).toList).head?.all Lexeme.isLetter =
      true := by
    rw [text, memberRoot_toList]
    rfl
  -- neither word of the operator has a parenthesis, so the head is no call
  have paren : '(' ∉ head.render.toList := by
    intro hx
    have hx : '(' ∈ memberRoot.toList ++ '.' :: (memberSegment n).toList :=
      text ▸ List.mem_append_left _ hx
    rcases List.mem_append.1 hx with hx | hx
    · exact absurd (root _ hx) (by decide)
    · rcases List.mem_cons.1 hx with point | hx
      · cases point
      · exact absurd (segment.all _ hx) (by decide)
  obtain ⟨name, m, rfl, word⟩ := eq_var_of_render heads headFormed _ letter paren
  rw [Term.render_var] at text
  have point : ∀ x ∈ ('.' :: (memberSegment n).toList).head?, Lexeme.isWordChar x = false := by
    rintro x hx
    obtain rfl : '.' = x := Option.some.inj hx
    decide
  -- both texts are a word, a point and the rest, so they are equal part by part
  obtain ⟨same, rest⟩ := word_append word.all root (renderSegments_head segments) point text
  obtain ⟨k, rfl⟩ := eq_of_renderSegments segment rest
  exact ⟨m, k, by rw [String.toList_inj.1 same]⟩

/-- What is taken for a membership is one. -/
theorem isMember_of_arity {names : String → Prop} {op : Term} {path args : List Term} {n : Nat}
    (operates : op.value = .ref path) (formed : op.Formed names)
    (arity : memberArity? (operatorName (op :: args)) = some n) :
    (n = 3 ∧ op.IsMember 2) ∨ (n = 4 ∧ op.IsMember 3) := by
  have named : memberArity? op.render = some n := arity
  unfold memberArity? at named
  split at named
  · next same =>
      refine .inl ⟨(Option.some.inj named).symm, isMember_of_render operates formed ?_ ?_⟩
      · decide +kernel
      · rw [beq_iff_eq.1 same]
        decide +kernel
  · split at named
    · next same =>
        refine .inr ⟨(Option.some.inj named).symm, isMember_of_render operates formed ?_ ?_⟩
        · decide +kernel
        · rw [beq_iff_eq.1 same]
          decide +kernel
    · cases named

end RegoSyntax
