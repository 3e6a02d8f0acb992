/-
# RegoSyntax.Proofs.Tiling — the tokens of a source, whatever words are reserved in between.

The words that a scanner reserves may change before every token that it reads.  A `Schedule` says how: it
lists the changes that are made before the token with a number.  No schedule moves a scanner
(`Schedule.due_cursor`), so all of them cut a source into the same tokens, and these lie side by side from
the byte-order mark to the end.  What a schedule decides is only what a word stands for.

A table may reserve a word for any kind of token, and so for `eof` as well: such a word is shown as the end
of the source wherever it stands.  Otherwise the end is shown at the end and nowhere else.
-/
import RegoSyntax.Proofs.Printing.Spelling

namespace RegoSyntax

/-! ## Schedules -/

/-- A change of the words that a scanner reserves. -/
inductive TableChange where
  | add (word : String) (kind : Token)
  | extend (words : KeywordTable)
  | free (words : KeywordTable)
  | set (table : KeywordTable)

/-- The scanner at the same place behind a change of its words. -/
def Scanner.change (s : Scanner) : TableChange → Scanner
  | .add word kind => s.addKeyword word kind
  | .extend words => s.withKeywords words
  | .free words => s.withoutKeywords words
  | .set table => { s with keywords := table }

@[simp] theorem Scanner.change_source (s : Scanner) (c : TableChange) :
    (s.change c).source = s.source := by
  cases c <;> rfl

@[simp] theorem Scanner.change_cursor (s : Scanner) (c : TableChange) :
    (s.change c).cursor = s.cursor := by
  cases c <;> rfl

/-- The changes that are made before the token with a number is read. -/
def Schedule : Type := Nat → List TableChange

namespace Schedule

/-- The scanner that is about to read the token with a number. -/
def due (σ : Schedule) (source : String) : Nat → Scanner
  | 0 => (σ 0).foldl Scanner.change (.new source)
  | n + 1 => (σ (n + 1)).foldl Scanner.change (due σ source n).scan.2

/-- The token with a number. -/
def scanned (σ : Schedule) (source : String) (n : Nat) : Scanned := (σ.due source n).scan.1

/-- The text of the token with a number. -/
def text (σ : Schedule) (source : String) (n : Nat) : String :=
  (σ.due source n).text (σ.scanned source n).position.offset (σ.scanned source n).position.stop

/-- The place of the token with a number. -/
def place (σ : Schedule) (source : String) (n : Nat) : Position := (σ.scanned source n).position

/-- The words that are reserved when the token with a number is read. -/
def table (σ : Schedule) (source : String) (n : Nat) : KeywordTable := (σ.due source n).keywords

end Schedule

/-! ## Tilings -/

/-- The number of bytes of the byte-order mark of a source, if it opens with one. -/
def markSize (source : String) : Nat :=
  if source.toList.head? = some '\uFEFF' then '\uFEFF'.utf8Size else 0

/-- A source without its byte-order mark. -/
def withoutMark (source : String) : String :=
  if source.toList.head? = some '\uFEFF' then String.ofList source.toList.tail else source

/-- The tokens that are read on a schedule lie side by side between the byte-order mark and the end of the
source. -/
structure Schedule.Tiles (σ : Schedule) (source : String) : Prop where
  first : (σ.place source 0).offset = markSize source
  joined (n : Nat) : (σ.place source (n + 1)).offset = (σ.place source n).stop
  bounds (n : Nat) : String.Pos.Raw.IsValid source ⟨(σ.place source n).offset⟩ ∧
    String.Pos.Raw.IsValid source ⟨(σ.place source n).stop⟩
  /-- A token that does not start at the end has some text. -/
  filled (n : Nat) : (σ.place source n).offset ≠ source.utf8ByteSize →
    (σ.place source n).offset < (σ.place source n).stop
  /-- The token at the end is the end, and so are all that are read later. -/
  ended {n m : Nat} : (σ.place source n).offset = source.utf8ByteSize → n ≤ m →
    (σ.scanned source m).token = .eof ∧ σ.place source m = σ.place source n
  /-- Before the end of the source, only a word is shown as the end that is reserved for it. -/
  marked (n : Nat) : (σ.scanned source n).token = .eof →
    (σ.place source n).offset = source.utf8ByteSize ∨
      (Lexeme.IsWord (σ.text source n).toList ∧
        (σ.table source n).get? (σ.text source n) = some .eof)
  reached : ∃ n, (σ.place source n).offset = source.utf8ByteSize
  /-- The texts of the tokens before the end are the source. -/
  whole (n : Nat) : (σ.place source n).offset = source.utf8ByteSize →
    String.join ((List.range n).map (σ.text source)) = withoutMark source

/-- Two tokens are the same but for what they stand for. -/
structure Scanned.SameExtent (x y : Scanned) : Prop where
  position : x.position = y.position
  literalStop : x.literalStop = y.literalStop
  errors : x.errors = y.errors

/-! ## What a scanner reads -/

namespace Cursor

/-- A source is read from behind its byte-order mark. -/
theorem start_behind_mark (source : String) :
    (start source.toList).offset = markSize source ∧
      (start source.toList).rest = (withoutMark source).toList := by
  unfold start markSize withoutMark
  split
  · next s h => simp [h]
  · next s h =>
      have unmarked : source.toList.head? ≠ some '\uFEFF' := by
        rcases split : source.toList with _ | ⟨c, t⟩
        · simp
        · intro mark
          rw [List.head?_cons, Option.some.injEq] at mark
          exact h t (by rw [split, mark])
      simp [unmarked]

/-- A cursor of a source stands between two characters. -/
theorem In.isValid {source : String} {c : Cursor} (h : c.In source) :
    String.Pos.Raw.IsValid source ⟨c.offset⟩ := by
  obtain ⟨before, split, place⟩ := h
  rw [String.Pos.Raw.isValid_iff_exists_append]
  refine ⟨String.ofList before, String.ofList c.rest, ?_, ?_⟩
  · rw [← String.ofList_append, ← split, String.ofList_toList]
  · rw [String.rawEndPos_ofList, place]

/-- There is something left at a cursor that stands before the end of the bytes. -/
theorem In.rest_of_offset {source : String} {c : Cursor} (h : c.In source) :
    c.rest = [] ↔ c.offset = source.utf8ByteSize := by
  refine ⟨h.offset_of_end, fun atEnd => ?_⟩
  obtain ⟨before, split, place⟩ := h
  rw [← String.utf8Len_toList, split, String.utf8Len_append, place] at atEnd
  rcases rest : c.rest with _ | ⟨x, s⟩
  · rfl
  · rw [rest, String.utf8Len_cons] at atEnd
    have := x.utf8Size_pos
    omega

/-- From token to token, the end of a source is reached. -/
theorem nth_reaches (source : String) (n : Nat) :
    (nth source n).rest = [] ∨ (nth source n).rest.length + n ≤ source.toList.length := by
  induction n with
  | zero =>
      refine .inr ?_
      obtain ⟨before, split, -⟩ := start_in source
      have length := congrArg List.length split
      rw [List.length_append] at length
      rw [nth]
      omega
  | succ n ih =>
      by_cases atEnd : (nth source n).rest = []
      · rw [nth, skip_of_end atEnd]
        exact .inl atEnd
      · have shorter := length_skip atEnd
        have := ih.resolve_left atEnd
        exact .inr (by rw [nth]; omega)

/-- The words of the first tokens and what is behind them are the source. -/
theorem join_words (source : String) (n : Nat) :
    (withoutMark source).toList =
      (String.join ((List.range n).map fun k => (nth source k).word)).toList ++ (nth source n).rest := by
  induction n with
  | zero => simp [nth, (start_behind_mark source).2]
  | succ n ih =>
      have token : (nth source n).word.toList ++ (nth source (n + 1)).rest = (nth source n).rest := by
        rw [word, String.toList_ofList, nth, skip, advanceBy_rest, List.take_append_drop]
      rw [List.range_succ, List.map_append, String.join_append, String.toList_append, List.append_assoc]
      simpa [token] using ih

end Cursor

namespace Scanner

/-- What a scanner reads stands where the cursor goes next. -/
theorem scan_cursor (s : Scanner) : s.scan.2.cursor = s.cursor.skip := rfl

theorem scan_offset (s : Scanner) : s.scan.1.position.offset = s.cursor.offset := rfl

theorem scan_stop (s : Scanner) : s.scan.1.position.stop = s.cursor.skip.offset := rfl

/-- The words that a scanner reserves decide only what it takes a token for. -/
theorem scan_sameExtent {s t : Scanner} (h : s.cursor = t.cursor) :
    s.scan.1.SameExtent t.scan.1 := by
  constructor <;> simp only [scan, h]

/-- A scanner takes a word for what it is reserved for. -/
theorem scan_word {s : Scanner} (word : s.cursor.lexeme.kind = .ident) :
    s.scan.1.token = (s.keywords.get? s.cursor.word).getD .ident :=
  if_pos (beq_iff_eq.2 word)

/-- What is no word is taken for what it is. -/
theorem scan_other {s : Scanner} (other : s.cursor.lexeme.kind ≠ .ident) :
    s.scan.1.token = s.cursor.lexeme.kind :=
  if_neg fun ident => other (beq_iff_eq.1 ident)

end Scanner

namespace Schedule

variable (σ : Schedule) (source : String)

private theorem foldl_change (s : Scanner) (changes : List TableChange) :
    (changes.foldl Scanner.change s).source = s.source ∧
      (changes.foldl Scanner.change s).cursor = s.cursor := by
  induction changes generalizing s with
  | nil => exact ⟨rfl, rfl⟩
  | cons c changes ih =>
      obtain ⟨source, cursor⟩ := ih (s.change c)
      exact ⟨source.trans (s.change_source c), cursor.trans (s.change_cursor c)⟩

/-- A scanner stays in its source. -/
@[simp] theorem due_source (n : Nat) : (σ.due source n).source = source := by
  induction n with
  | zero => exact (foldl_change _ (σ 0)).1
  | succ n ih => exact (foldl_change _ (σ (n + 1))).1.trans ih

/-- A scanner goes from token to token, whatever words are reserved on the way. -/
@[simp] theorem due_cursor (n : Nat) : (σ.due source n).cursor = .nth source n := by
  induction n with
  | zero => exact (foldl_change _ (σ 0)).2
  | succ n ih =>
      rw [due, (foldl_change _ (σ (n + 1))).2, Scanner.scan_cursor, ih, Cursor.nth]

theorem place_offset (n : Nat) : (σ.place source n).offset = (Cursor.nth source n).offset := by
  rw [place, scanned, Scanner.scan_offset, due_cursor]

theorem place_stop (n : Nat) : (σ.place source n).stop = (Cursor.nth source (n + 1)).offset := by
  rw [place, scanned, Scanner.scan_stop, due_cursor, Cursor.nth]

variable {σ source} {n : Nat}

theorem place_at_end :
    (σ.place source n).offset = source.utf8ByteSize ↔ (Cursor.nth source n).rest = [] := by
  rw [place_offset, (Cursor.nth_in source n).rest_of_offset]

theorem text_eq_word : σ.text source n = (Cursor.nth source n).word := by
  have span : σ.text source n =
      textBetween source (Cursor.nth source n).offset (Cursor.nth source n).skip.offset := by
    rw [← Cursor.nth, ← σ.place_stop, ← σ.place_offset, text, Scanner.text, due_source, place]
  rw [span]
  by_cases atEnd : (Cursor.nth source n).rest = []
  · rw [Cursor.skip_of_end atEnd, textBetween_of_le (Nat.le_refl _), Cursor.word, atEnd, List.take_nil]
  · exact Cursor.text_skip (Cursor.nth_in source n) atEnd

/-- A token that is spelled like a word is taken for what the word is reserved for. -/
theorem token_of_ident (word : (Cursor.nth source n).lexeme.kind = .ident) :
    (σ.scanned source n).token = ((σ.table source n).get? (σ.text source n)).getD .ident := by
  rw [scanned, Scanner.scan_word (by rwa [due_cursor]), due_cursor, text_eq_word, table]

theorem token_of_other (other : (Cursor.nth source n).lexeme.kind ≠ .ident) :
    (σ.scanned source n).token = (Cursor.nth source n).lexeme.kind := by
  rw [scanned, Scanner.scan_other (by rwa [due_cursor]), due_cursor]

theorem isWord_text (word : (Cursor.nth source n).lexeme.kind = .ident) :
    Lexeme.IsWord (σ.text source n).toList := by
  rw [text_eq_word, Cursor.word, String.toList_ofList]
  exact Lexeme.isWord_of_ident word

/-! ## The theorem -/

theorem tiles (σ : Schedule) (source : String) : σ.Tiles source where
  first := by rw [place_offset, Cursor.nth, (Cursor.start_behind_mark source).1]
  joined n := by rw [place_offset, place_stop]
  bounds n := by
    rw [place_offset, place_stop]
    exact ⟨(Cursor.nth_in source n).isValid, (Cursor.nth_in source (n + 1)).isValid⟩
  filled n before := by
    rw [place_offset, place_stop]
    exact Cursor.offset_lt_skip (mt place_at_end.2 before)
  ended {n m} atEnd le := by
    have same := Cursor.nth_of_end le (place_at_end.1 atEnd)
    have empty : (Cursor.nth source m).lexeme.kind = .eof := by
      rw [same]
      exact Lexeme.next_kind_eof.2 (place_at_end.1 atEnd)
    refine ⟨?_, ?_⟩
    · rw [token_of_other (by simp [empty]), empty]
    · exact (Scanner.scan_sameExtent (by rw [due_cursor, due_cursor, same])).position
  marked n shown := by
    -- a word shows the end only if the table reserves it for that; any other token at the end only
    by_cases word : (Cursor.nth source n).lexeme.kind = .ident
    · rw [token_of_ident word] at shown
      rcases found : (σ.table source n).get? (σ.text source n) with _ | kind
      · rw [found] at shown
        cases shown
      · rw [found, Option.getD_some] at shown
        exact .inr ⟨isWord_text word, congrArg some shown⟩
    · rw [token_of_other word] at shown
      exact .inl (place_at_end.2 (Lexeme.next_kind_eof.1 shown))
  reached := by
    refine ⟨source.toList.length, place_at_end.2 ?_⟩
    rcases Cursor.nth_reaches source source.toList.length with atEnd | short
    · exact atEnd
    · exact List.length_eq_zero_iff.1 (by omega)
  whole n atEnd := by
    have texts : σ.text source = fun k => (Cursor.nth source k).word := funext fun _ => text_eq_word
    have parts := Cursor.join_words source n
    rw [place_at_end.1 atEnd, List.append_nil] at parts
    rw [texts, ← String.toList_inj, parts]

/-- **Tokens tile the source.**  On every schedule the tokens lie side by side between the byte-order mark
and the end, and no two schedules differ in anything but in what words are taken for. -/
theorem tiles_alike (σ : Schedule) (source : String) :
    σ.Tiles source ∧ ∀ (τ : Schedule) (n : Nat),
      (σ.scanned source n).SameExtent (τ.scanned source n) ∧
      ((σ.scanned source n).token ≠ (τ.scanned source n).token →
        Lexeme.IsWord (σ.text source n).toList) := by
  refine ⟨σ.tiles source, fun τ n => ⟨?_, fun differ => ?_⟩⟩
  · exact Scanner.scan_sameExtent (by rw [due_cursor, due_cursor])
  · by_contra other
    have other : (Cursor.nth source n).lexeme.kind ≠ .ident := mt isWord_text other
    exact differ ((token_of_other other).trans (token_of_other other).symm)

/-- A word that is reserved for the end of the source is shown as the end where it stands. -/
theorem shown_as_end :
    (Schedule.scanned (fun _ => [.add "a" .eof]) "a" 0).token = .eof ∧
      (Schedule.place (fun _ => [.add "a" .eof]) "a" 0).offset ≠ "a".utf8ByteSize ∧
      (Schedule.scanned (fun _ => [.add "a" .eof]) "a" 0).position.stop = 1 := by
  decide +kernel

end Schedule

end RegoSyntax
