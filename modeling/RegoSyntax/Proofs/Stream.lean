/-
# RegoSyntax.Proofs.Stream — the tokens of a source, as a scanner lists them.

`Cursor.Starts` says where tokens start, and says it without a scanner.  A scanner that reads a source to its
end lists the tokens that start somewhere, each as it is, and no others (`mem_tokensOf`).
-/
import RegoSyntax.Proofs.Position

namespace RegoSyntax

/-- The tokens of a source: blanks and comments and the end are among them. -/
def tokensOf (source : String) : List Scanned := (Scanner.new source).scanAll.1

namespace Scanned

/-- The text of a token. -/
def text (x : Scanned) (source : String) : String := textBetween source x.position.offset x.position.stop

/-- A token is neither a blank nor a comment, nor the end. -/
def isSolid (x : Scanned) : Bool := x.token != .whitespace && x.token != .comment && x.token != .eof

/-- A token is a word: an identifier, or reserved. -/
def isWord (x : Scanned) : Bool := x.token == .ident || x.token.isKeyword || x.token.isFutureKeyword

end Scanned

namespace Cursor

variable {source : String} {c : Cursor} {x : Scanned}

/-- The token at a cursor, as a scanner reads it that reserves the base words. -/
def scanned (source : String) (c : Cursor) : Scanned := (Scanner.scan ⟨source, c, .base⟩).1

/-- A kind of token that is plain is not changed when words are looked up. -/
theorem scanned_plain (source : String) (c : Cursor) {p : Token} (plain : p.isPlain) :
    (c.scanned source).token = p ↔ c.lexeme.kind = p := by
  show Scanner.classify .base c.lexeme.kind (c.rest.take c.lexeme.size) = p ↔ c.lexeme.kind = p
  unfold Scanner.classify
  split
  -- -- a word is looked up, and what the table gives is a keyword, which no plain token is
  · next ident =>
      have ident : c.lexeme.kind = .ident := beq_iff_eq.1 ident
      rw [ident]
      constructor
      · intro shown
        exfalso
        rcases found : KeywordTable.base.get? (String.ofList (c.rest.take c.lexeme.size)) with _ | word
        · rw [found, Option.getD_none] at shown
          subst shown
          cases plain
        · rw [found, Option.getD_some] at shown
          subst shown
          exact word.not_word_of_isPlain plain
            (KeywordTable.isKeyword_of_mem (KeywordTable.known_base.get? found))
      · rintro rfl
        cases plain
  · exact Iff.rfl

theorem scanned_solid (source : String) (c : Cursor) :
    (c.scanned source).isSolid = true ↔ c.Significant ∧ c.rest ≠ [] := by
  have white := c.scanned_plain source (p := .whitespace) rfl
  have comment := c.scanned_plain source (p := .comment) rfl
  have ended := c.scanned_plain source (p := .eof) rfl
  rw [lexeme, Lexeme.next_kind_eof] at ended
  simp [Scanned.isSolid, Significant, white, comment, ended]

/-- A word is read from letters. -/
theorem scanned_word (word : (c.scanned source).isWord = true) : c.lexeme.kind = .ident := by
  have shows := Lexeme.Shows.of_classify c.lexeme KeywordTable.known_base (c.rest.take c.lexeme.size)
  have word : (c.scanned source).token = .ident ∨ (c.scanned source).token.isKeyword ∨
      (c.scanned source).token.isFutureKeyword := by
    simpa [Scanned.isWord, or_assoc] using word
  by_cases legal : c.lexeme.faults = []
  · rw [legal, List.isEmpty_nil, if_pos rfl] at shows
    exact (shows.word word).1
  · have kind := Lexeme.kind_of_faults legal
    have other : c.lexeme.kind ≠ .ident := by
      rcases kind with kind | kind | kind <;> rw [lexeme, kind] <;> decide
    have same : (c.scanned source).token = c.lexeme.kind :=
      if_neg fun ident => other (beq_iff_eq.1 ident)
    exfalso
    rw [same] at word
    rcases kind with kind | kind | kind <;> rw [lexeme, kind] at word <;> revert word <;> decide

/-- The text of a token is what is read there. -/
theorem scanned_text (starts : c.Starts source) (filled : c.rest ≠ []) :
    (c.scanned source).text source = c.word :=
  text_skip starts.in filled

/-- A scanner lists the token that it has come to, and goes on unless that is the end. -/
theorem scanUpTo_succ (fuel : Nat) (s : Scanner) : (s.scanUpTo (fuel + 1)).1 =
    if s.scan.1.token = .eof then [s.scan.1] else s.scan.1 :: (s.scan.2.scanUpTo fuel).1 := by
  rcases scan : s.scan with ⟨y, t⟩
  rw [Scanner.scanUpTo, scan]
  by_cases ended : y.token = .eof <;> simp [ended]

/-- A scanner that has come to some token lists this one and all behind it. -/
theorem mem_scanUpTo {n fuel : Nat} (enough : (nth source n).rest.length < fuel) :
    x ∈ (Scanner.scanUpTo fuel ⟨source, nth source n, .base⟩).1 ↔
      ∃ k, n ≤ k ∧ x = (nth source k).scanned source := by
  induction fuel generalizing n with
  | zero => omega
  | succ fuel ih =>
      have last := (nth source n).scanned_plain source (p := .eof) rfl
      rw [lexeme, Lexeme.next_kind_eof] at last
      -- at the end of the text every further token is the last one again
      by_cases atEnd : (nth source n).rest = []
      · have listed : (Scanner.scanUpTo (fuel + 1) ⟨source, nth source n, .base⟩).1 =
            [(nth source n).scanned source] :=
          (scanUpTo_succ _ _).trans (if_pos (last.2 atEnd))
        rw [listed, List.mem_singleton]
        constructor
        · exact fun same => ⟨n, Nat.le_refl n, same⟩
        · rintro ⟨k, le, rfl⟩
          rw [nth_of_end le atEnd]
      · have shorter : (nth source (n + 1)).rest.length < fuel := by
          have := length_skip atEnd
          rw [nth]
          omega
        have listed : (Scanner.scanUpTo (fuel + 1) ⟨source, nth source n, .base⟩).1 =
            (nth source n).scanned source ::
              (Scanner.scanUpTo fuel ⟨source, nth source (n + 1), .base⟩).1 :=
          (scanUpTo_succ _ _).trans (if_neg (mt last.1 atEnd))
        rw [listed, List.mem_cons, ih shorter]
        constructor
        · rintro (same | ⟨k, lt, same⟩)
          · exact ⟨n, Nat.le_refl n, same⟩
          · exact ⟨k, Nat.le_of_succ_le lt, same⟩
        · rintro ⟨k, le, same⟩
          rcases Nat.eq_or_lt_of_le le with rfl | lt
          · exact .inl same
          · exact .inr ⟨k, lt, same⟩

end Cursor

/-- The tokens of a source are those that start somewhere. -/
theorem mem_tokensOf {source : String} {x : Scanned} :
    x ∈ tokensOf source ↔ ∃ c : Cursor, c.Starts source ∧ x = c.scanned source := by
  have listed : x ∈ tokensOf source ↔ ∃ k, 0 ≤ k ∧ x = (Cursor.nth source k).scanned source :=
    Cursor.mem_scanUpTo (n := 0) (Nat.lt_succ_self _)
  rw [listed]
  constructor
  · rintro ⟨k, -, same⟩
    exact ⟨_, ⟨k, rfl⟩, same⟩
  · rintro ⟨_, ⟨k, rfl⟩, same⟩
    exact ⟨k, Nat.zero_le k, same⟩

end RegoSyntax
