/-
# RegoSyntax.Proofs.Commentary — the comments of a source, and those between two of its tokens.

What the comments of a source are is said by its tokens alone: `commentsOf` keeps the comments of the list
that a scanner gives.  A parser meets them one by one, in passing, and not in one go: it looks ahead, comes
back and reads the same stretch again.  So the comments are also told stretch by stretch.  `Met c cs d` says
that `cs` are the comments from the token at `c` up to the one at `d`, which does not count; stretches that
follow one another add up, and the stretch that is the whole source has all comments of the source.
-/
import RegoSyntax.Proofs.Tokens
import RegoSyntax.Statement

namespace RegoSyntax

/-! ## The comments of a source -/

/-- The comment that a token is: what stands behind its first character, and its place. -/
def Scanned.comment (x : Scanned) (source file : String) : Comment where
  text := String.ofList ((textBetween source x.position.offset x.literalStop).toList.drop 1)
  location :=
    { file, row := x.position.row, col := x.position.col, offset := x.position.offset
      text := textBetween source x.position.offset x.position.stop, tabs := x.position.tabs }

/-- The comments among some tokens. -/
def commentsAmong (source file : String) (tokens : List Scanned) : List Comment :=
  (tokens.filter (·.token == .comment)).map (·.comment source file)

/-- The comments of a source, in their order. -/
def commentsOf (source file : String) : List Comment :=
  commentsAmong source file (Scanner.new source).scanAll.1

/-! ## The comments of a stretch -/

namespace Cursor

/-- The comment that the token at a cursor is. -/
def comment (source file : String) (c : Cursor) : Comment :=
  (Scanner.scan ⟨source, c, .empty⟩).1.comment source file

/-- The place of the token at a cursor, with the text of the token. -/
def place (source file : String) (c : Cursor) : Location := (c.comment source file).location

/-- The comments from the token at one cursor up to the token at another one. -/
inductive Met (source file : String) : Cursor → List Comment → Cursor → Prop where
  | nil (c : Cursor) : Met source file c [] c
  | pass {c d : Cursor} {cs : List Comment} : c.lexeme.kind ≠ .comment →
      Met source file c.skip cs d → Met source file c cs d
  | comment {c d : Cursor} {cs : List Comment} : c.lexeme.kind = .comment →
      Met source file c.skip cs d → Met source file c (c.comment source file :: cs) d

variable {source file : String} {c d e : Cursor} {cs ds : List Comment}

theorem Met.trans (first : Met source file c cs d) (second : Met source file d ds e) :
    Met source file c (cs ++ ds) e := by
  induction first with
  | nil c => exact second
  | pass other _ ih => exact .pass other (ih second)
  | comment kind _ ih => exact .comment kind (ih second)

/-- The comments that are met are tokens of the source. -/
theorem Met.starts (h : Met source file c cs d) (starts : c.Starts source) :
    ∀ x ∈ cs, ∃ e : Cursor, e.Starts source ∧ x = e.comment source file := by
  induction h with
  | nil => exact List.forall_mem_nil _
  | pass _ _ ih => exact ih starts.skip
  | @comment c _ _ _ _ ih => exact List.forall_mem_cons.2 ⟨⟨c, starts, rfl⟩, ih starts.skip⟩

/-! ## Scanning -/

/-- Words are never taken for comments. -/
theorem classify_comment {keywords : KeywordTable}
    (words : ∀ e ∈ keywords.entries, e.2 ≠ .comment ∧ e.2 ≠ .eof) {kind : Token} {text : List Char}
    {k : Token} (special : k = .comment ∨ k = .eof) :
    Scanner.classify keywords kind text = k ↔ kind = k := by
  unfold Scanner.classify
  split
  · next ident =>
      have ident : kind = .ident := by simpa using ident
      subst ident
      constructor
      · intro shown
        exfalso
        -- the table has neither comments nor the end of the text
        rcases found : keywords.get? (String.ofList text) with _ | word
        · rw [found] at shown
          rcases special with rfl | rfl <;> cases shown
        · rw [found, Option.getD_some] at shown
          obtain ⟨entry, listed, rfl⟩ := Option.map_eq_some_iff.1 found
          have word := words entry (List.mem_of_find?_eq_some listed)
          rcases special with rfl | rfl
          · exact word.1 shown
          · exact word.2 shown
      · intro same
        rcases special with rfl | rfl <;> cases same
  · exact Iff.rfl

/-- What a scanner that has come to a cursor reads there. -/
theorem scan_fst (s : Scanner) : s.scan.1.comment s.source file = s.cursor.comment s.source file := rfl

theorem scan_cursor (s : Scanner) : s.scan.2.cursor = s.cursor.skip := rfl

/-- A scanner that reads to the end lists the comments that are met on the way. -/
theorem Met.scanUpTo (met : Met source file c cs d) (atEnd : d.rest = []) {s : Scanner}
    (text : s.source = source) (place : s.cursor = c)
    (words : ∀ e ∈ s.keywords.entries, e.2 ≠ .comment ∧ e.2 ≠ .eof) {fuel : Nat}
    (enough : c.rest.length < fuel) : commentsAmong source file (s.scanUpTo fuel).1 = cs := by
  -- on the tokens that are met, with a step for each character that is left
  induction met generalizing s fuel with
  | nil c =>
      subst place
      obtain ⟨fuel, rfl⟩ : ∃ n, fuel = n + 1 := ⟨fuel - 1, by omega⟩
      have kind : s.cursor.lexeme.kind = .eof := by rw [lexeme, atEnd]; rfl
      have token : s.scan.1.token = .eof := (classify_comment words (.inr rfl)).2 kind
      simp [Scanner.scanUpTo, token, commentsAmong]
  | pass other _ ih =>
      subst place
      -- at the end of the text nothing is stepped over, so no step is used up
      by_cases filled : s.cursor.rest = []
      · exact ih atEnd text (skip_of_end filled).symm words (by rwa [skip_of_end filled])
      obtain ⟨fuel, rfl⟩ : ∃ n, fuel = n + 1 := ⟨fuel - 1, by omega⟩
      have shorter : s.cursor.skip.rest.length < s.cursor.rest.length := length_skip filled
      have more : s.scan.1.token ≠ .eof := fun token =>
        filled (Lexeme.next_kind_eof.1 ((classify_comment words (.inr rfl)).1 token))
      have plain : s.scan.1.token ≠ .comment := fun token =>
        other ((classify_comment words (.inl rfl)).1 token)
      have rest := ih atEnd (s := s.scan.2) text rfl words
        (show s.cursor.skip.rest.length < fuel by omega)
      simpa [Scanner.scanUpTo, more, commentsAmong, plain] using rest
  | comment kind _ ih =>
      subst place
      have filled : s.cursor.rest ≠ [] := by
        intro none
        rw [lexeme, none] at kind
        cases kind
      obtain ⟨fuel, rfl⟩ : ∃ n, fuel = n + 1 := ⟨fuel - 1, by omega⟩
      have shorter : s.cursor.skip.rest.length < s.cursor.rest.length := length_skip filled
      have token : s.scan.1.token = .comment := (classify_comment words (.inl rfl)).2 kind
      have rest := ih atEnd (s := s.scan.2) text rfl words
        (show s.cursor.skip.rest.length < fuel by omega)
      subst text
      rw [← scan_fst]
      simpa [Scanner.scanUpTo, commentsAmong, token] using rest

/-- The comments that are met in a source up to its end are the comments of the source. -/
theorem Met.commentsOf (met : Met source file (start source.toList) cs d) (atEnd : d.rest = []) :
    cs = commentsOf source file := by
  refine (met.scanUpTo atEnd (s := .new source) rfl rfl ?_ (Nat.lt_succ_self _)).symm
  have words : ∀ e ∈ KeywordTable.base.entries, e.2 ≠ .comment ∧ e.2 ≠ .eof := by decide
  exact words

end Cursor

end RegoSyntax
