/-
# RegoSyntax.Proofs.Carets — where the caret stands.

An error at a character of a text, other than a blank, shows the line of that character without the tabs at its
start.  Under it the caret stands behind as many blanks as there are bytes before the character in that line, so
it stands under the character if all characters before it are ASCII, and too far to the right if not
(`lines_at`, `caret_beyond`).
-/
import RegoSyntax.Proofs.Encoding
import RegoSyntax.Proofs.Snippets
import Mathlib.Data.List.DropRight

namespace RegoSyntax.Snippet

open Text (bytes)

/-! ## Lines of characters

The program finds lines by bytes.  All that is decided by a byte is decided by the character it belongs
to: no byte of a longer character is a line end or a blank. -/

/-- The characters that end a line. -/
def isBreak (c : Char) : Bool := c == '\n' || c == '\r'

/-- The characters that an error does not point at. -/
def isBlankChar (c : Char) : Bool := c == ' ' || c == '\t' || c == '\n' || c == '\x0C' || c == '\r'

/-- What stands in the line of a character before it, given all that stands before it. -/
def lineBefore (before : List Char) : List Char := before.rtakeWhile (!isBreak ·)

/-- What stands in the line of a character behind it, given all that stands behind it. -/
def lineAfter (after : List Char) : List Char := after.takeWhile (!isBreak ·)

/-- The same without the tabs at the start of the line. -/
def indented (before : List Char) : List Char := (lineBefore before).dropWhile (· == '\t')

/-- A caret behind blanks. -/
def caretBehind (n : Nat) : String := String.ofList (List.replicate n ' ') ++ "^"

/-- The caret stands behind as many blanks as are in front of it. -/
theorem caretBehind_inj {m n : Nat} : caretBehind m = caretBehind n ↔ m = n := by
  constructor
  · intro same
    have lengths := congrArg String.length same
    simpa [caretBehind] using lengths
  · exact congrArg caretBehind

section ends

variable {c : Char} {b : UInt8}

/-- A byte that ends a line is of a character that does. -/
theorem isBreak_of_byte (member : b ∈ String.utf8EncodeChar c) (ends : isLineEnd b = true) :
    isBreak c = true := by
  rw [isLineEnd, Bool.or_eq_true, beq_iff_eq, beq_iff_eq] at ends
  obtain ⟨-, rfl⟩ := Text.eq_of_mem_bytes member (by rcases ends with rfl | rfl <;> decide)
  rcases ends with rfl | rfl <;> decide

theorem bytes_of_isBreak (ends : isBreak c = true) :
    ∃ b, String.utf8EncodeChar c = [b] ∧ isLineEnd b = true := by
  rw [isBreak, Bool.or_eq_true, beq_iff_eq, beq_iff_eq] at ends
  rcases ends with rfl | rfl
  · exact ⟨10, by decide, by decide⟩
  · exact ⟨13, by decide, by decide⟩

/-- A byte that is a blank is of a character that is one. -/
theorem isBlankChar_of_byte (member : b ∈ String.utf8EncodeChar c) (blank : isBlankByte b = true) :
    isBlankChar c = true := by
  simp only [isBlankByte, Bool.or_eq_true, beq_iff_eq] at blank
  obtain ⟨-, rfl⟩ := Text.eq_of_mem_bytes member (by
    rcases blank with (((rfl | rfl) | rfl) | rfl) | rfl <;> decide)
  rcases blank with (((rfl | rfl) | rfl) | rfl) | rfl <;> decide

theorem isBlankChar_of_isBreak (ends : isBreak c = true) : isBlankChar c = true := by
  rw [isBreak, Bool.or_eq_true, beq_iff_eq, beq_iff_eq] at ends
  rcases ends with rfl | rfl <;> decide

/-- No byte of characters that are in one line ends a line. -/
theorem unbroken_bytes {s : List Char} (h : ∀ c ∈ s, isBreak c = false) : ∀ b ∈ bytes s, isLineEnd b = false := by
  intro b hb
  obtain ⟨c, hc, member⟩ := List.mem_flatMap.1 hb
  rw [← Bool.not_eq_true]
  intro ends
  exact absurd ((h c hc).symm.trans (isBreak_of_byte member ends)) Bool.false_ne_true

theorem getLast?_bytes {s : List Char} (h : ∀ c ∈ s.getLast?, isBreak c = true) :
    ∀ b ∈ (bytes s).getLast?, isLineEnd b = true := by
  rcases s.eq_nil_or_concat with rfl | ⟨t, c, rfl⟩
  · exact fun b hb => absurd hb nofun
  · rw [List.concat_eq_append] at h ⊢
    obtain ⟨b, spelled, ends⟩ := bytes_of_isBreak (h c List.getLast?_concat)
    rw [Text.bytes_append, Text.bytes_cons, Text.bytes_nil, List.append_nil, spelled, List.getLast?_concat]
    rintro _ ⟨⟩
    exact ends

theorem head?_bytes {s : List Char} (h : ∀ c ∈ s.head?, isBreak c = true) :
    ∀ b ∈ (bytes s).head?, isLineEnd b = true := by
  cases s with
  | nil => exact fun b hb => absurd hb nofun
  | cons c s =>
      obtain ⟨b, spelled, ends⟩ := bytes_of_isBreak (h c rfl)
      rw [Text.bytes_cons, spelled]
      rintro _ ⟨⟩
      exact ends

end ends

/-! ## Snippets of texts

The line of a character is the characters around it, and its bytes are the bytes of these.  So the snippet
is found on either side of the translation. -/

section texts

variable {before after : List Char} {c : Char}

/-- The line of a character starts at the start of the text or behind a line end. -/
theorem lineBefore_spec (before : List Char) : ∃ earlier, earlier ++ lineBefore before = before ∧
    (∀ x ∈ earlier.getLast?, isBreak x = true) ∧ ∀ x ∈ lineBefore before, isBreak x = false := by
  refine ⟨before.rdropWhile (!isBreak ·), ?_, fun x hx => ?_, fun x hx => ?_⟩
  · exact List.rdropWhile_append_rtakeWhile
  · rw [List.rdropWhile, List.getLast?_reverse] at hx
    simpa using head?_dropWhile_stops hx
  · simpa using List.mem_rtakeWhile_imp hx

/-- The line of a character goes on to the end of the text or to a line end. -/
theorem lineAfter_spec (after : List Char) : ∃ later, lineAfter after ++ later = after ∧
    (∀ x ∈ later.head?, isBreak x = true) ∧ ∀ x ∈ lineAfter after, isBreak x = false := by
  refine ⟨after.dropWhile (!isBreak ·), List.takeWhile_append_dropWhile, fun x hx => ?_, fun x hx => ?_⟩
  · simpa using head?_dropWhile_stops hx
  · simpa using List.mem_takeWhile_imp hx

/-- An error at a character that is no blank points at the first byte of it. -/
theorem pointed_at (solid : isBlankChar c = false) (before after : List Char) :
    Pointed (bytes (before ++ c :: after)) (bytes before).length (bytes before).length := by
  obtain ⟨b, more, spelled⟩ := List.exists_cons_of_ne_nil (String.utf8EncodeChar_ne_nil (c := c))
  have here : (bytes (before ++ c :: after))[(bytes before).length]? = some b := by
    rw [Text.bytes_append, List.getElem?_append_right (Nat.le_refl _), Nat.sub_self, Text.bytes_cons, spelled]
    rfl
  have inside := (List.getElem?_eq_some_iff.1 here).1
  refine ⟨by omega, .inr ?_, fun i hi hi' => by omega⟩
  -- only the characters that are blanks have bytes that are
  rintro ⟨x, found, blank⟩
  obtain rfl : b = x := Option.some.inj (here.symm.trans found)
  rw [isBlankChar_of_byte (spelled ▸ List.mem_cons_self) blank] at solid
  exact absurd solid.symm Bool.false_ne_true

/-- The line around the first byte of a character that is no blank consists of the bytes of its line. -/
theorem line_at (solid : isBlankChar c = false) (before after : List Char) : ∃ earlier later,
    bytes before = bytes earlier ++ bytes (lineBefore before) ∧
    bytes (before ++ c :: after) =
      bytes earlier ++ bytes (lineBefore before ++ c :: lineAfter after) ++ bytes later ∧
    Line (bytes (before ++ c :: after)) (bytes before).length (bytes earlier).length
      ((bytes earlier).length + (bytes (lineBefore before ++ c :: lineAfter after)).length) := by
  obtain ⟨earlier, whole, opens, left⟩ := lineBefore_spec before
  obtain ⟨later, whole', closes, right⟩ := lineAfter_spec after
  have front : bytes before = bytes earlier ++ bytes (lineBefore before) := by
    rw [← Text.bytes_append, whole]
  have source : bytes (before ++ c :: after) =
      bytes earlier ++ bytes (lineBefore before ++ c :: lineAfter after) ++ bytes later := by
    rw [← Text.bytes_append, ← Text.bytes_append]
    congr 1
    conv_lhs => rw [← whole, ← whole']
    simp
  -- the character itself is no break, since it is no blank
  have unbroken : ∀ x ∈ lineBefore before ++ c :: lineAfter after, isBreak x = false := by
    intro x hx
    rw [List.mem_append, List.mem_cons] at hx
    rcases hx with hx | rfl | hx
    · exact left x hx
    · rw [← Bool.not_eq_true]
      intro ends
      exact absurd (solid.symm.trans (isBlankChar_of_isBreak ends)) Bool.false_ne_true
    · exact right x hx
  -- it stands inside the line
  have starts : (bytes earlier).length ≤ (bytes before).length := by
    rw [front, List.length_append]
    exact Nat.le_add_right _ _
  have stops : (bytes before).length <
      (bytes earlier).length + (bytes (lineBefore before ++ c :: lineAfter after)).length := by
    have some_byte := List.length_pos_iff.2 (String.utf8EncodeChar_ne_nil (c := c))
    rw [front, List.length_append, Text.bytes_append, Text.bytes_cons, List.length_append, List.length_append]
    omega
  refine ⟨earlier, later, front, source, ?_⟩
  rw [source]
  exact .of_append starts stops (unbroken_bytes unbroken) (getLast?_bytes opens) (head?_bytes closes)

/-- The snippet at a character that is no blank: its line, and the number of bytes before it there. -/
theorem find?_at (before after : List Char) (solid : isBlankChar c = false) :
    find? (bytes (before ++ c :: after)) (bytes before).length =
      some ⟨String.ofList (lineBefore before ++ c :: lineAfter after), (bytes (lineBefore before)).length⟩ := by
  obtain ⟨earlier, later, front, source, line⟩ := line_at solid before after
  have pointed := pointed_at solid before after
  have filled : bytes (before ++ c :: after) ≠ [] := by
    rw [Text.bytes_append, Text.bytes_cons]
    exact List.append_ne_nil_of_right_ne_nil _ (List.append_ne_nil_of_left_ne_nil String.utf8EncodeChar_ne_nil _)
  obtain ⟨p, start, stop, pointed', line', found⟩ := find?_spec filled (bytes before).length
  obtain rfl := pointed.unique pointed'
  obtain ⟨rfl, rfl⟩ := line.unique line'
  have shown : ((bytes (before ++ c :: after)).take ((bytes earlier).length +
      (bytes (lineBefore before ++ c :: lineAfter after)).length)).drop (bytes earlier).length =
      bytes (lineBefore before ++ c :: lineAfter after) := by
    rw [source]
    exact slice_append
  have place : (bytes before).length = (bytes earlier).length + (bytes (lineBefore before)).length := by
    rw [front, List.length_append]
  rw [found, shown, Text.decodeLossy_bytes, place, Nat.add_sub_cancel_left]

/-- A line is the tabs at its start and the rest, which starts with another character. -/
theorem split_tabs (solid : isBlankChar c = false) (before rest : List Char) : ∃ tabs,
    lineBefore before = tabs ++ indented before ∧ (∀ x ∈ tabs, x = '\t') ∧
    (lineBefore before ++ c :: rest).takeWhile (· == '\t') = tabs ∧
    (lineBefore before ++ c :: rest).dropWhile (· == '\t') = indented before ++ c :: rest := by
  have split : (lineBefore before).takeWhile (· == '\t') ++ indented before = lineBefore before :=
    List.takeWhile_append_dropWhile
  have all_tabs : ∀ x ∈ (lineBefore before).takeWhile (· == '\t'), (x == '\t') = true := by
    intro x hx
    exact List.mem_takeWhile_imp (p := (· == '\t')) hx
  -- behind the tabs stands another character: one of the line, or the one that is no blank
  obtain ⟨x, more, starts, other⟩ : ∃ x more, indented before ++ c :: rest = x :: more ∧ ¬(x == '\t') = true := by
    cases first : indented before with
    | nil =>
        refine ⟨c, rest, rfl, fun tab => ?_⟩
        rw [beq_iff_eq.1 tab] at solid
        exact absurd solid (by decide)
    | cons x more =>
        have stops : (x == '\t') = false :=
          head?_dropWhile_stops (p := (· == '\t')) (l := lineBefore before) (congrArg List.head? first)
        exact ⟨x, more ++ c :: rest, rfl, Bool.eq_false_iff.1 stops⟩
  have taken : (x :: more).takeWhile (· == '\t') = [] := by rw [List.takeWhile, Bool.eq_false_iff.2 other]
  have dropped : (x :: more).dropWhile (· == '\t') = x :: more := by
    rw [List.dropWhile, Bool.eq_false_iff.2 other]
  refine ⟨_, split.symm, fun x hx => beq_iff_eq.1 (all_tabs x hx), ?_, ?_⟩
  · conv_lhs => rw [← split]
    rw [List.append_assoc, List.takeWhile_append_of_pos all_tabs, starts, taken, List.append_nil]
  · conv_lhs => rw [← split]
    rw [List.append_assoc, List.dropWhile_append_of_pos all_tabs, starts, dropped]

/-- What is shown at a character that is no blank: its line without the tabs at the start, and a caret behind as
many blanks as there are bytes before the character in what is shown. -/
theorem lines_of_line (solid : isBlankChar c = false) (before rest : List Char) :
    lines ⟨String.ofList (lineBefore before ++ c :: rest), (bytes (lineBefore before)).length⟩ =
      (String.ofList (indented before ++ c :: rest), caretBehind (bytes (indented before)).length) := by
  obtain ⟨tabs, split, all_tabs, taken, dropped⟩ := split_tabs solid before rest
  have whole : lineBefore before ++ c :: rest = tabs ++ (indented before ++ c :: rest) := by
    rw [← dropped, ← taken, List.takeWhile_append_dropWhile]
  have size : (bytes tabs).length = tabs.length := by
    refine (Text.length_bytes_eq_iff tabs).2 fun x hx => ?_
    rw [all_tabs x hx]
    decide
  have index : (bytes (lineBefore before)).length - tabs.length = (bytes (indented before)).length := by
    rw [split, Text.bytes_append, List.length_append, size, Nat.add_sub_cancel_left]
  rw [lines, String.toList_ofList, taken, index, caretBehind]
  rw [whole, List.drop_left]

end texts

/-- An error at a character of a text that is no blank shows the line of the character without the tabs at its
start, with a caret below.  The caret stands under the character, behind as many blanks as there are characters
before it in what is shown, if and only if all of these are ASCII: it stands behind as many as these have bytes. -/
theorem lines_at (source : String) (before after : List Char) (c : Char)
    (split : source.toList = before ++ c :: after) (solid : isBlankChar c = false) :
    ∃ s, find? source.toUTF8.toList (String.utf8Len before) = some s ∧
      (lineBefore before ++ c :: lineAfter after).dropWhile (· == '\t') = indented before ++ c :: lineAfter after ∧
      s.lines = (String.ofList (indented before ++ c :: lineAfter after),
        caretBehind (String.utf8Len (indented before))) ∧
      (s.lines.2 = caretBehind (indented before).length ↔ ∀ x ∈ indented before, x.toNat < 0x80) := by
  obtain ⟨tabs, -, -, -, dropped⟩ := split_tabs solid before (lineAfter after)
  have shown := lines_of_line solid before (lineAfter after)
  refine ⟨_, ?_, dropped, shown.trans ?_, ?_⟩
  · rw [Text.toUTF8_toList, split, ← Text.length_bytes]
    exact find?_at before after solid
  · rw [Text.length_bytes]
  · rw [shown, caretBehind_inj]
    exact Text.length_bytes_eq_iff _

/-- Behind a tab, and before a character of two bytes: the caret stands under the `x`. -/
theorem lines_at_tab : "\tx = é".toList = ['\t'] ++ 'x' :: [' ', '=', ' ', 'é'] ∧ isBlankChar 'x' = false ∧
    ∃ s, find? "\tx = é".toUTF8.toList (String.utf8Len ['\t']) = some s ∧
      (lineBefore ['\t'] ++ 'x' :: lineAfter [' ', '=', ' ', 'é']).dropWhile (· == '\t') =
        indented ['\t'] ++ 'x' :: lineAfter [' ', '=', ' ', 'é'] ∧
      s.lines = (String.ofList (indented ['\t'] ++ 'x' :: lineAfter [' ', '=', ' ', 'é']),
        caretBehind (String.utf8Len (indented ['\t']))) ∧
      (s.lines.2 = caretBehind (indented ['\t']).length ↔ ∀ x ∈ indented ['\t'], x.toNat < 0x80) :=
  ⟨by decide, by decide, lines_at "\tx = é" ['\t'] [' ', '=', ' ', 'é'] 'x' (by decide) (by decide)⟩

/-- Behind a character of two bytes and a blank the caret stands behind three blanks, not under the `x`. -/
theorem caret_beyond : ¬∃ s, find? "é x".toUTF8.toList (String.utf8Len ['é', ' ']) = some s ∧
    s.lines = ("é x", caretBehind ['é', ' '].length) := by
  rintro ⟨s, found, under⟩
  rw [Text.toUTF8_toList, show "é x".toList = ['é', ' '] ++ 'x' :: [] by decide, ← Text.length_bytes,
    find?_at ['é', ' '] [] (by decide)] at found
  obtain rfl := Option.some.inj found
  rw [lines_of_line (by decide)] at under
  have far : caretBehind 3 = caretBehind 2 := congrArg Prod.snd under
  exact absurd (caretBehind_inj.1 far) (by decide)

end RegoSyntax.Snippet
