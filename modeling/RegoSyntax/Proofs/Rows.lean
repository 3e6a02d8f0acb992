/-
# RegoSyntax.Proofs.Rows — rows, columns and tabs, counted on the text.

A cursor does not count: it carries a row, a column and the tabs of its line along and corrects them
with every character that it steps over.  Here the three are read off the text instead.  The row is the
number of the line breaks, the column is the length of the last line and the tabs are the tabs of the
last line, all of the text *up to and including* the character a cursor stands at (`Cursor.Reckoned`).

The character itself is part of that text.  So a line break belongs to the row that it opens, with
nothing before it on its line; and at the end of the text, where there is no character to be counted,
nothing has changed since the last one.
-/
import Mathlib.Data.List.DropRight
import RegoSyntax.Proofs.Tiling

namespace RegoSyntax

/-! ## Counting on a text -/

/-- What stands behind the last line break of a text. -/
def lastLine (text : List Char) : List Char := text.rtakeWhile (· ≠ '\n')

/-- The columns of the tabs on a line, in increasing order. -/
structure TabsOf (text : List Char) (tabs : List Nat) : Prop where
  increasing : tabs.Pairwise (· < ·)
  mem_iff (k : Nat) : k ∈ tabs ↔ ∃ i, text[i]? = some '\t' ∧ k = i + 1

/-- The row, the column and the tabs of a character behind a text. -/
structure Position.MarksOf (p : Position) (before : List Char) (c : Char) : Prop where
  /-- A line break opens the row that it stands in. -/
  opens : c = '\n' → p.row = 1 + before.count '\n' + 1 ∧ p.col = 0 ∧ p.tabs = []
  plain : c ≠ '\n' → p.row = 1 + before.count '\n' ∧ p.col = (lastLine before).length + 1 ∧
    TabsOf (lastLine before ++ [c]) p.tabs

/-- The row, the column and the tabs of a place between two parts of a text: those of the character it
stands before, and at the end those of the last character. -/
structure Position.MarksAt (p : Position) (before behind : List Char) : Prop where
  here {c : Char} {more : List Char} : behind = c :: more → p.MarksOf before c
  atEnd {but : List Char} {c : Char} : behind = [] → before = but ++ [c] → p.MarksOf but c
  empty : behind = [] → before = [] → p.row = 1 ∧ p.col = 0 ∧ p.tabs = []

theorem lastLine_nil : lastLine [] = [] := List.rtakeWhile_nil _

theorem lastLine_break (text : List Char) : lastLine (text ++ ['\n']) = [] :=
  List.rtakeWhile_concat_neg _ _ _ (by simp)

theorem lastLine_plain (text : List Char) {c : Char} (plain : c ≠ '\n') :
    lastLine (text ++ [c]) = lastLine text ++ [c] :=
  List.rtakeWhile_concat_pos _ _ _ (by simpa using plain)

namespace TabsOf

variable {line : List Char} {tabs : List Nat}

theorem nil : TabsOf [] [] where
  increasing := .nil
  mem_iff := by simp

theorem of_nil (h : TabsOf [] tabs) : tabs = [] := by
  refine List.eq_nil_iff_forall_not_mem.2 fun k mem => ?_
  obtain ⟨i, tab, -⟩ := (h.mem_iff k).1 mem
  simp at tab

theorem le_length (h : TabsOf line tabs) {k : Nat} (mem : k ∈ tabs) : k ≤ line.length := by
  obtain ⟨i, tab, rfl⟩ := (h.mem_iff k).1 mem
  exact (List.getElem?_eq_some_iff.1 tab).1

/-- A tab is one more, in the last column. -/
theorem tab (h : TabsOf line tabs) : TabsOf (line ++ ['\t']) (tabs ++ [line.length + 1]) where
  increasing := by
    rw [List.pairwise_append]
    refine ⟨h.increasing, List.pairwise_singleton _ _, fun k mem l last => ?_⟩
    have := h.le_length mem
    rw [List.mem_singleton.1 last]
    omega
  mem_iff k := by
    rw [List.mem_append, List.mem_singleton, h.mem_iff]
    constructor
    · rintro (⟨i, tab, rfl⟩ | rfl)
      · exact ⟨i, List.getElem?_append_left (List.getElem?_eq_some_iff.1 tab).1 ▸ tab, rfl⟩
      · exact ⟨line.length, List.getElem?_concat_length, rfl⟩
    · rintro ⟨i, tab, rfl⟩
      rw [List.getElem?_append] at tab
      split at tab
      · exact .inl ⟨i, tab, rfl⟩
      · have := (List.getElem?_eq_some_iff.1 tab).1
        rw [List.length_singleton] at this
        exact .inr (by omega)

theorem plain (h : TabsOf line tabs) {c : Char} (plain : c ≠ '\t') : TabsOf (line ++ [c]) tabs where
  increasing := h.increasing
  mem_iff k := by
    rw [h.mem_iff]
    refine exists_congr fun i => and_congr_left fun _ => ?_
    rw [List.getElem?_append]
    split
    · rfl
    · next behind =>
        rw [List.getElem?_eq_none (by omega)]
        have other : [c][i - line.length]? ≠ some '\t' := by
          rw [List.getElem?_singleton]
          split <;> simp [plain]
        exact iff_of_false nofun other

end TabsOf

/-! ## Cursors -/

namespace Cursor

variable {source : String} {c : Cursor}

/-- The row, the column and the tabs that a cursor carries are those of a text. -/
structure Counts (c : Cursor) (upTo : List Char) : Prop where
  row : c.row = 1 + upTo.count '\n'
  col : c.col = (lastLine upTo).length
  tabs : TabsOf (lastLine upTo) c.tabs

/-- A cursor of a source, with what stands between it and the byte-order mark.  It counts the character
that it stands at, too. -/
structure Reckoned (source : String) (c : Cursor) (before : List Char) : Prop where
  parts : (withoutMark source).toList = before ++ c.rest
  offset : c.offset = markSize source + String.utf8Len before
  counts : c.Counts (before ++ c.rest.take 1)

/-- To account for the character that a cursor has come to is to count it. -/
theorem Counts.arrive {before : List Char} (h : c.Counts before) :
    c.arrive.Counts (before ++ c.rest.take 1) := by
  unfold Cursor.arrive
  split
  · next atEnd => rwa [atEnd, List.take_nil, List.append_nil]
  · next x s rest =>
      rw [rest, List.take_succ_cons, List.take_zero]
      -- a line break begins a row and an empty column; a tab and the others go on in the row
      split
      · next newline =>
          obtain rfl : x = '\n' := beq_iff_eq.1 newline
          refine ⟨?_, ?_, ?_⟩
          · rw [List.count_append, List.count_singleton_self, ← Nat.add_assoc, ← h.row]
          · rw [lastLine_break, List.length_nil]
          · rw [lastLine_break]
            exact .nil
      · next plain =>
          have plain : x ≠ '\n' := by simpa using plain
          refine ⟨?_, ?_, ?_⟩
          · rw [List.count_append, List.count_singleton, if_neg (by simpa using plain), h.row]
            rfl
          · rw [lastLine_plain _ plain, List.length_append, List.length_singleton, h.col]
          · rw [lastLine_plain _ plain]
            dsimp only
            split
            · next tab =>
                obtain rfl : x = '\t' := beq_iff_eq.1 tab
                rw [h.col]
                exact h.tabs.tab
            · next tab => exact h.tabs.plain (by simpa using tab)

/-- What is counted before a text is. -/
theorem Counts.none (s : List Char) (offset : Nat) :
    Counts { rest := s, offset, row := 1, col := 0, tabs := [] } [] :=
  ⟨rfl, by rw [lastLine_nil, List.length_nil], lastLine_nil ▸ .nil⟩

theorem reckoned_start (source : String) : (start source.toList).Reckoned source [] where
  parts := (start_behind_mark source).2.symm
  offset := (start_behind_mark source).1
  counts := by
    -- the mark, where there is one, is no character of the first line
    unfold start
    split
    · rw [arrive_rest]
      exact (Counts.none _ _).arrive
    · rw [arrive_rest]
      exact (Counts.none _ _).arrive

/-- Step over a character: what was counted up to it stands before the next one. -/
theorem Reckoned.advance {before : List Char} (h : c.Reckoned source before) :
    c.advance.Reckoned source (before ++ c.rest.take 1) := by
  have counts := h.counts
  rcases rest : c.rest with _ | ⟨x, s⟩
  · have stays : c.advance = c := by rw [Cursor.advance, rest]
    rwa [stays, List.take_nil, List.append_nil]
  · have steps : c.advance = Cursor.arrive { c with rest := s, offset := c.offset + x.utf8Size } := by
      rw [Cursor.advance, rest]
    rw [rest, List.take_succ_cons, List.take_zero] at counts
    -- the cursor between the two characters: still the marks of the one, no longer before it
    have counted : Counts { c with rest := s, offset := c.offset + x.utf8Size } (before ++ [x]) :=
      ⟨counts.row, counts.col, counts.tabs⟩
    rw [steps, List.take_succ_cons, List.take_zero]
    refine ⟨?_, ?_, ?_⟩
    · rw [arrive_rest, List.append_assoc, h.parts, rest]
      rfl
    · rw [arrive_offset, h.offset, String.utf8Len_append, Nat.add_assoc]
      simp
    · rw [arrive_rest]
      exact counted.arrive

/-- Step over any number of characters, as over the body of a comment or of a raw string. -/
theorem Reckoned.advanceBy {before : List Char} (h : c.Reckoned source before) (n : Nat) :
    ∃ before', (c.advanceBy n).Reckoned source before' := by
  induction n generalizing c before with
  | zero => exact ⟨before, h⟩
  | succ n ih => exact ih h.advance

/-- From token to token, a cursor counts the text. -/
theorem reckoned_nth (source : String) (n : Nat) : ∃ before, (nth source n).Reckoned source before := by
  induction n with
  | zero => exact ⟨[], reckoned_start source⟩
  | succ n ih =>
      obtain ⟨before, h⟩ := ih
      exact h.advanceBy _

/-- What a cursor counts up to a character are the marks of the character. -/
theorem Counts.marksOf {before : List Char} {x : Char} (h : c.Counts (before ++ [x])) {p : Position}
    (row : p.row = c.row) (col : p.col = c.col) (tabs : p.tabs = c.tabs) : p.MarksOf before x where
  opens newline := by
    subst newline
    have line : lastLine (before ++ ['\n']) = [] := lastLine_break before
    refine ⟨?_, ?_, ?_⟩
    · rw [row, h.row, List.count_append, List.count_singleton_self, Nat.add_assoc]
    · rw [col, h.col, line, List.length_nil]
    · rw [tabs]
      exact (line ▸ h.tabs).of_nil
  plain plain := by
    have line : lastLine (before ++ [x]) = lastLine before ++ [x] := lastLine_plain before plain
    refine ⟨?_, ?_, ?_⟩
    · rw [row, h.row, List.count_append, List.count_singleton, if_neg (by simpa using plain)]
      rfl
    · rw [col, h.col, line, List.length_append, List.length_singleton]
    · rw [tabs, ← line]
      exact h.tabs

/-- A place with the row, the column and the tabs of a cursor has the marks of what the cursor stands at. -/
theorem Reckoned.marksAt {before : List Char} (h : c.Reckoned source before) {p : Position}
    (row : p.row = c.row) (col : p.col = c.col) (tabs : p.tabs = c.tabs) :
    p.MarksAt before c.rest where
  here {x s} rest := by
    have counts := h.counts
    rw [rest, List.take_succ_cons, List.take_zero] at counts
    exact counts.marksOf row col tabs
  atEnd {but x} rest last := by
    have counts := h.counts
    rw [rest, List.take_nil, List.append_nil, last] at counts
    exact counts.marksOf row col tabs
  empty rest none := by
    have counts := h.counts
    rw [rest, List.take_nil, none, List.append_nil] at counts
    refine ⟨row.trans counts.row, col.trans ?_, tabs.trans ?_⟩
    · rw [counts.col, lastLine_nil, List.length_nil]
    · exact (lastLine_nil ▸ counts.tabs).of_nil

end Cursor

/-! ## The theorem -/

/-- **Rows, columns and tabs are counted on the text.**  On every schedule every token stands between two
parts of the source behind the byte-order mark, at the offset where the first of them ends, and has the
row, the column and the tabs of the character it starts with.  The end of the source, where no character
is left, has those of the last one, and the end of an empty source the first row and nothing before. -/
theorem Schedule.place_marks (σ : Schedule) (source : String) (n : Nat) :
    ∃ before behind, (withoutMark source).toList = before ++ behind ∧
      (σ.place source n).offset = markSize source + String.utf8Len before ∧
      (σ.place source n).MarksAt before behind ∧
      (behind = [] → (σ.scanned source n).token = .eof) := by
  obtain ⟨before, h⟩ := Cursor.reckoned_nth source n
  have cursor := σ.due_cursor source n
  refine ⟨before, (Cursor.nth source n).rest, h.parts, (σ.place_offset source n).trans h.offset, ?_,
    fun atEnd => ((σ.tiles source).ended (place_at_end.2 atEnd) (Nat.le_refl n)).1⟩
  refine h.marksAt ?_ ?_ ?_
  · rw [place, scanned, ← cursor]
    rfl
  · rw [place, scanned, ← cursor]
    rfl
  · rw [place, scanned, ← cursor]
    rfl

/-- A line break stands in the row that it opens, and at the end the last tab still counts. -/
example : (Schedule.place (fun _ => []) "a\n\t" 1) = ⟨1, 2, 2, 0, []⟩ ∧
    (Schedule.place (fun _ => []) "a\n\t" 3) = ⟨3, 3, 2, 1, [1]⟩ := by
  decide +kernel

end RegoSyntax
