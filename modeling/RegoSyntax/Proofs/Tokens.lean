/-
# RegoSyntax.Proofs.Tokens — the places where the tokens of a source start.

A source is cut into tokens in one way only: `Cursor.nth` goes from token to token, whatever words
are reserved and whoever asks.  The cursors that it passes are the places where a token starts, and
everything that is said of a parser's position is said of one of them.

Two facts are used throughout.  Starts are in a line: of two different ones, one lies behind the
token of the other.  And the text between two of them is the list of the characters between them.
-/
import Mathlib.Data.String.Basic
import RegoSyntax.Scanner

namespace RegoSyntax

/-! ## Lexemes -/

namespace Lexeme

/-- The rest of a quoted text is counted on from what was read. -/
theorem le_quotedRest (state : EscapeState) (n : Nat) (s : List Char) :
    n ≤ (quotedRest state n s).1 := by
  induction s generalizing state n with
  | nil => exact Nat.le_refl n
  | cons c s ih =>
      unfold quotedRest
      dsimp only
      generalize (if state.refuses (some c) = true then EscapeState.plain else state) = state
      split
      · exact Nat.le_succ n
      split
      · exact Nat.le_refl n
      · exact Nat.le_of_succ_le (ih _ (n + 1))

/-- Punctuation is one character at least. -/
theorem punctuation_size_pos (c : Char) (s : List Char) : 0 < (punctuation c s).size := by
  have quotedSize : 1 ≤ (quoted s).size := le_quotedRest .plain 1 s
  have rawSize : 0 < (raw s).size := by
    unfold raw
    dsimp only
    split <;> exact Nat.succ_pos _
  have eitherSize (d : Char) (long short : Token) : 0 < (either d long short s).size := by
    unfold either
    split
    · split <;> exact Nat.succ_pos _
    · exact Nat.one_pos
  unfold punctuation
  split <;> first
    | exact quotedSize
    | exact rawSize
    | exact eitherSize _ _ _
    | exact Nat.lt_of_lt_of_le Nat.one_pos (Nat.le_add_right _ _)
    | exact Nat.one_pos
    | (split <;> exact Nat.succ_pos _)

/-- Only the end of a text has a token without characters. -/
theorem size_pos {s : List Char} (h : s ≠ []) : 0 < (next s).size := by
  cases s with
  | nil => exact absurd rfl h
  | cons c s =>
      unfold next
      dsimp only
      split
      · exact Nat.one_pos
      split
      · exact Nat.lt_of_lt_of_le Nat.one_pos (Nat.le_add_right _ _)
      split
      · next digit =>
          have one : 0 < run Char.isDigit (c :: s) := by
            rw [run, List.takeWhile_cons_of_pos digit]
            exact Nat.succ_pos _
          simp only [number]
          omega
      · exact punctuation_size_pos c s

/-- Faults lie in numbers, in strings and in characters that start no token. -/
theorem kind_of_faults {s : List Char} (h : (next s).faults ≠ []) :
    (next s).kind = .number ∨ (next s).kind = .string ∨ (next s).kind = .illegal := by
  cases s with
  | nil => exact absurd rfl h
  | cons c s =>
      revert h
      unfold next
      dsimp only
      -- blanks and words have no faults; a number, a string or a sign may have one
      split
      · exact fun h => absurd rfl h
      split
      · exact fun h => absurd rfl h
      split
      · exact fun _ => .inl rfl
      · unfold punctuation
        split <;> first
          | exact fun h => absurd rfl h
          | exact fun h => absurd (either_faults _ _ _ _) h
          | exact fun _ => .inr (.inl rfl)
          | exact fun _ => .inr (.inl (raw_kind s))
          | exact fun _ => .inr (.inr rfl)
          | (split <;> first | exact fun h => absurd rfl h | exact fun _ => .inr (.inr rfl))

/-- Punctuation is no word and no number, and something. -/
theorem punctuation_kind (c : Char) (s : List Char) :
    (punctuation c s).kind ≠ .eof ∧ (punctuation c s).kind ≠ .ident ∧
      (punctuation c s).kind ≠ .number := by
  unfold punctuation
  split <;> first
    | exact ⟨fun h => Token.noConfusion h, fun h => Token.noConfusion h, fun h => Token.noConfusion h⟩
    | exact raw_kind s ▸ ⟨by decide, by decide, by decide⟩
    | (rcases either_kind _ _ _ s with h | h <;> rw [h] <;> exact ⟨by decide, by decide, by decide⟩)
    | (split <;> exact
        ⟨fun h => Token.noConfusion h, fun h => Token.noConfusion h, fun h => Token.noConfusion h⟩)

/-- The end is where nothing is left. -/
theorem next_kind_eof {s : List Char} : (next s).kind = .eof ↔ s = [] := by
  constructor
  · intro h
    cases s with
    | nil => rfl
    | cons c s =>
        exfalso
        revert h
        unfold next
        dsimp only
        split
        · exact fun h => Token.noConfusion h
        split
        · exact fun h => Token.noConfusion h
        split
        · exact fun h => Token.noConfusion h
        · exact (punctuation_kind c s).1
  · rintro rfl
    rfl

/-- A kind of token that a parser may take a lexeme for: words stand for identifiers or for what they
are reserved for, and a lexeme with a fault is illegal. -/
def Shows (x : Lexeme) (kind : Token) : Prop :=
  if x.faults ≠ [] then kind = .illegal
  else if x.kind = .ident then kind = .ident ∨ kind.isKeyword ∨ kind.isFutureKeyword
  else kind = x.kind

end Lexeme

/-! ## Cursors -/

namespace Cursor

/-- A cursor in a text: what is before it and what is still to be read make up the text. -/
def In (source : String) (c : Cursor) : Prop :=
  ∃ before, source.toList = before ++ c.rest ∧ c.offset = String.utf8Len before

/-- To arrive at a token takes nothing of the source. -/
@[simp] theorem arrive_rest (c : Cursor) : c.arrive.rest = c.rest := by
  unfold arrive
  split
  · rfl
  · split <;> simp_all

/-- To arrive at a token does not change the offset. -/
@[simp] theorem arrive_offset (c : Cursor) : c.arrive.offset = c.offset := by
  unfold arrive
  split
  · rfl
  · split <;> rfl

/-- To advance takes as many characters. -/
theorem advanceBy_rest (n : Nat) (c : Cursor) : (advanceBy n c).rest = c.rest.drop n := by
  induction n generalizing c with
  | zero => rfl
  | succ n ih =>
      rw [advanceBy, ih]
      rcases h : c.rest with _ | ⟨x, s⟩
      · simp [advance, h]
      · simp [advance, h]

/-- To advance adds the bytes of the characters that are taken. -/
theorem advanceBy_offset (n : Nat) (c : Cursor) :
    (advanceBy n c).offset = c.offset + String.utf8Len (c.rest.take n) := by
  induction n generalizing c with
  | zero => rfl
  | succ n ih =>
      rw [advanceBy, ih]
      rcases h : c.rest with _ | ⟨x, s⟩
      · simp [advance, h]
      · simp [advance, h]
        omega

/-- At the end there is nothing to advance by. -/
theorem advanceBy_of_end {c : Cursor} (h : c.rest = []) (n : Nat) : advanceBy n c = c := by
  induction n generalizing c with
  | zero => rfl
  | succ n ih =>
      have stays : c.advance = c := by rw [advance, h]
      rw [advanceBy, stays, ih h]

/-- To advance stays inside the source. -/
theorem In.advanceBy {source : String} {c : Cursor} (h : c.In source) (n : Nat) :
    (c.advanceBy n).In source := by
  obtain ⟨before, split, place⟩ := h
  refine ⟨before ++ c.rest.take n, ?_, ?_⟩
  · rw [split, advanceBy_rest, List.append_assoc, List.take_append_drop]
  · rw [advanceBy_offset, place, String.utf8Len_append]

/-- The first cursor is inside the source. -/
theorem start_in (source : String) : (start source.toList).In source := by
  unfold start
  split
  · next s h => exact ⟨['\uFEFF'], by simp [h], by simp⟩
  · next s h => exact ⟨[], by simp, by simp⟩

/-- There are no more characters than bytes. -/
theorem length_le_utf8Len (s : List Char) : s.length ≤ String.utf8Len s := by
  induction s with
  | nil => exact Nat.le_refl _
  | cons c s ih => exact Nat.add_le_add ih c.utf8Size_pos

/-- There are no more characters left than there are bytes. -/
theorem In.length_le {source : String} {c : Cursor} (h : c.In source) :
    c.rest.length ≤ source.utf8ByteSize := by
  obtain ⟨before, split, -⟩ := h
  calc c.rest.length
    _ ≤ (before ++ c.rest).length := List.length_append ▸ Nat.le_add_left _ _
    _ = source.toList.length := by rw [split]
    _ ≤ String.utf8Len source.toList := length_le_utf8Len _
    _ = source.utf8ByteSize := String.utf8Len_toList source

/-- A cursor inside the source is not behind its end. -/
theorem In.offset_le {source : String} {c : Cursor} (h : c.In source) :
    c.offset ≤ source.utf8ByteSize := by
  obtain ⟨before, split, place⟩ := h
  rw [place, ← String.utf8Len_toList, split, String.utf8Len_append]
  exact Nat.le_add_right _ _

/-- There is nothing left at a cursor that stands at the end of the bytes. -/
theorem In.offset_of_end {source : String} {c : Cursor} (h : c.In source) (atEnd : c.rest = []) :
    c.offset = source.utf8ByteSize := by
  obtain ⟨before, split, place⟩ := h
  rw [← String.utf8Len_toList, split, atEnd, List.append_nil, place]

/-! ### From token to token -/

/-- What the token at a cursor is. -/
def lexeme (c : Cursor) : Lexeme := Lexeme.next c.rest

/-- The cursor behind the token at a cursor. -/
def skip (c : Cursor) : Cursor := c.advanceBy c.lexeme.size

/-- To skip a token stays inside the source. -/
theorem In.skip {source : String} {c : Cursor} (h : c.In source) : c.skip.In source :=
  h.advanceBy _

/-- At the end there is no token to skip. -/
theorem skip_of_end {c : Cursor} (h : c.rest = []) : c.skip = c := advanceBy_of_end h _

/-- To skip a token leads on, unless it is the end. -/
theorem offset_lt_skip {c : Cursor} (h : c.rest ≠ []) : c.offset < c.skip.offset := by
  have size := Lexeme.size_pos h
  rw [skip, advanceBy_offset, lexeme]
  obtain ⟨x, s, cons⟩ := List.exists_cons_of_ne_nil h
  obtain ⟨n, succ⟩ := Nat.exists_eq_succ_of_ne_zero size.ne'
  rw [succ, cons, List.take_succ_cons, String.utf8Len_cons]
  have := x.utf8Size_pos
  omega

/-- To step over a token is to leave less to be read. -/
theorem length_skip {c : Cursor} (h : c.rest ≠ []) : c.skip.rest.length < c.rest.length := by
  have size := Lexeme.size_pos h
  have filled := List.length_pos_of_ne_nil h
  rw [skip, advanceBy_rest, List.length_drop, lexeme]
  omega

/-- To skip a token does not lead back. -/
theorem offset_le_skip (c : Cursor) : c.offset ≤ c.skip.offset := by
  rw [skip, advanceBy_offset]
  exact Nat.le_add_right _ _

/-- The cursor at the start of the token with a number. -/
def nth (source : String) : Nat → Cursor
  | 0 => start source.toList
  | n + 1 => (nth source n).skip

/-- A token starts at a cursor. -/
def Starts (source : String) (c : Cursor) : Prop := ∃ n, nth source n = c

/-- The first token starts at the first cursor. -/
theorem starts_first (source : String) : Starts source (start source.toList) := ⟨0, rfl⟩

/-- Behind a token the next one starts. -/
theorem Starts.skip {source : String} {c : Cursor} (h : Starts source c) : Starts source c.skip := by
  obtain ⟨n, rfl⟩ := h
  exact ⟨n + 1, rfl⟩

/-- A list that has the first cursor, and with each one the next, has all cursors at which tokens start. -/
theorem Starts.mem_of_closed {source : String} {cs : List Cursor} {c : Cursor} (h : c.Starts source)
    (first : Cursor.start source.toList ∈ cs) (closed : ∀ c ∈ cs, c.skip ∈ cs) : c ∈ cs := by
  obtain ⟨n, rfl⟩ := h
  induction n with
  | zero => exact first
  | succ n ih => exact closed _ ih

/-- Every token is inside the source. -/
theorem nth_in (source : String) (n : Nat) : (nth source n).In source := by
  induction n with
  | zero => exact start_in source
  | succ n ih => exact ih.skip

/-- Where a token starts is inside the source. -/
theorem Starts.in {source : String} {c : Cursor} (h : Starts source c) : c.In source := by
  obtain ⟨n, rfl⟩ := h
  exact nth_in source n

/-- Later tokens start no earlier. -/
theorem nth_offset_le (source : String) {n m : Nat} (h : n ≤ m) :
    (nth source n).offset ≤ (nth source m).offset := by
  induction h with
  | refl => exact Nat.le_refl _
  | step _ ih => exact ih.trans (offset_le_skip _)

/-- Behind the end there is nothing but the end. -/
theorem nth_of_end {source : String} {n m : Nat} (h : n ≤ m) (atEnd : (nth source n).rest = []) :
    nth source m = nth source n := by
  induction h with
  | refl => rfl
  | step _ ih => rw [nth, ih, skip_of_end atEnd]

/-- Starts are in a line: a later one lies behind the token of an earlier one. -/
theorem Starts.line {source : String} {c d : Cursor} (hc : Starts source c) (hd : Starts source d) :
    c = d ∨ (c.offset < d.offset ∧ c.skip.offset ≤ d.offset) ∨
      (d.offset < c.offset ∧ d.skip.offset ≤ c.offset) := by
  have apart {n m : Nat} (h : n < m) : nth source n = nth source m ∨
      ((nth source n).offset < (nth source m).offset ∧
        (nth source n).skip.offset ≤ (nth source m).offset) := by
    by_cases atEnd : (nth source n).rest = []
    · exact .inl (nth_of_end h.le atEnd).symm
    · have behind := nth_offset_le source h
      exact .inr ⟨(offset_lt_skip atEnd).trans_le behind, behind⟩
  obtain ⟨n, rfl⟩ := hc
  obtain ⟨m, rfl⟩ := hd
  rcases Nat.lt_trichotomy n m with h | rfl | h
  · exact (apart h).imp id .inl
  · exact .inl rfl
  · exact (apart h).imp Eq.symm .inr

/-- The offset of a start determines it. -/
theorem Starts.eq_of_offset {source : String} {c d : Cursor} (hc : Starts source c)
    (hd : Starts source d) (h : c.offset = d.offset) : c = d := by
  rcases hc.line hd with rfl | ⟨lt, -⟩ | ⟨lt, -⟩
  · rfl
  · omega
  · omega

/-- A start behind another one lies behind its token. -/
theorem Starts.skip_le {source : String} {c d : Cursor} (hc : Starts source c)
    (hd : Starts source d) (h : c.offset < d.offset) : c.skip.offset ≤ d.offset := by
  rcases hc.line hd with rfl | ⟨-, le⟩ | ⟨lt, -⟩
  · omega
  · exact le
  · omega

/-- There is something at a start that another one lies behind. -/
theorem Starts.filled {source : String} {c d : Cursor} (hc : Starts source c)
    (hd : Starts source d) (h : c.offset < d.offset) : c.rest ≠ [] := by
  intro atEnd
  have size := hc.in.offset_of_end atEnd
  have := hd.in.offset_le
  omega

end Cursor

/-! ## Text -/

/-- There is no text up to an earlier offset. -/
theorem textBetween_of_le {source : String} {a b : Nat} (h : b ≤ a) : textBetween source a b = "" := by
  unfold textBetween
  split
  · exact if_pos h
  · rfl

/-- The text between two cursors of a source is what is between them. -/
theorem textBetween_of_in {source : String} {c d : Cursor} (hc : c.In source) (hd : d.In source)
    (h : c.offset < d.offset) :
    ∃ between, c.rest = between ++ d.rest ∧ d.offset = c.offset + String.utf8Len between ∧
      textBetween source c.offset d.offset = String.ofList between := by
  obtain ⟨before, split, place⟩ := hc
  obtain ⟨before', split', place'⟩ := hd
  -- the longer of the two beginnings of the source goes on behind the shorter
  obtain ⟨between, rfl⟩ : before <+: before' := by
    rcases List.prefix_or_prefix_of_prefix (split ▸ List.prefix_append before c.rest)
      (split' ▸ List.prefix_append before' d.rest) with pre | pre
    · exact pre
    · have := String.utf8Len_le_of_prefix pre
      omega
  have rest : c.rest = between ++ d.rest := by
    rw [split', List.append_assoc] at split
    exact (List.append_cancel_left split).symm
  have length : d.offset = c.offset + String.utf8Len between := by
    rw [place', String.utf8Len_append, place]
  refine ⟨between, rest, length, ?_⟩
  have whole : source = String.ofList (before ++ between ++ d.rest) := by
    rw [← split', String.ofList_toList]
  have size : source.utf8ByteSize = d.offset + String.utf8Len d.rest := by
    rw [← String.utf8Len_toList, split', String.utf8Len_append, place']
  -- both offsets lie between characters, so the text is cut there and not read as empty
  have validStart : String.Pos.Raw.isValid source ⟨c.offset⟩ = true := by
    rw [String.Pos.Raw.isValid_eq_true_iff, String.Pos.Raw.isValid_iff_exists_append]
    refine ⟨String.ofList before, String.ofList (between ++ d.rest), ?_, ?_⟩
    · rw [← String.ofList_append, ← List.append_assoc, whole]
    · rw [String.rawEndPos_ofList, place]
  have validStop : String.Pos.Raw.isValid source ⟨d.offset⟩ = true := by
    rw [String.Pos.Raw.isValid_eq_true_iff, String.Pos.Raw.isValid_iff_exists_append]
    refine ⟨String.ofList (before ++ between), String.ofList d.rest, ?_, ?_⟩
    · rw [← String.ofList_append, whole]
    · rw [String.rawEndPos_ofList, place']
  have inside : c.offset < source.utf8ByteSize := by omega
  have ordered : c.offset ≤ d.offset := h.le
  have ends : d.offset ≤ source.utf8ByteSize := by omega
  rw [textBetween, validStart, validStop]
  simp only [inside, ordered, ends, decide_true, Bool.and_true, if_true]
  rw [whole, length, place, String.extract_of_valid]

/-- The text between two cursors has as many bytes as there are between them. -/
theorem textBetween_size {source : String} {c d : Cursor} (hc : c.In source) (hd : d.In source)
    (h : c.offset < d.offset) :
    c.offset + (textBetween source c.offset d.offset).utf8ByteSize = d.offset := by
  obtain ⟨between, -, length, text⟩ := textBetween_of_in hc hd h
  rw [text, length, ← String.utf8Len_toList, String.toList_ofList]

/-- The text of a token has as many bytes as the token. -/
theorem textBetween_skip {source : String} {c : Cursor} (h : c.In source) :
    c.offset + (textBetween source c.offset c.skip.offset).utf8ByteSize = c.skip.offset := by
  by_cases atEnd : c.rest = []
  · have none : textBetween source c.offset c.offset = "" := by
      simp [textBetween, h.offset_of_end atEnd]
    rw [Cursor.skip_of_end atEnd, none]
    rfl
  · exact textBetween_size h h.skip (Cursor.offset_lt_skip atEnd)

end RegoSyntax
