/-
# RegoSyntax.Proofs.Printing.Spelling — the tokens of a text that is put together from pieces.

A piece of text is the same token whatever stands behind it, as long as that does not go on with the
token: a word ends where no word goes on, a number where neither a word nor a point does, and quoted text
ends by itself.  What may stand behind the text of a term is listed in `Closes`, and what may stand behind
a term that could have operators in `Rests`.

A run of characters takes no more behind a piece than it took before, if what is behind does not go on
with it (`run_append`); that is carried over to fractions, to exponents and to whole numbers.
-/
import RegoSyntax.Proofs.Primaries
import RegoSyntax.Proofs.Printing.Quotation

namespace RegoSyntax

namespace Lexeme

/-- No word goes on at the start of a text. -/
def Apart (s : List Char) : Prop := ∀ x ∈ s.head?, isWordChar x = false

/-! ## Characters

A run of characters ends where a character of another kind stands, or at the end.  So it does not depend
on what is behind that. -/

/-- A digit is no letter. -/
theorem isLetter_of_isDigit {c : Char} (digit : c.isDigit = true) : isLetter c = false := by
  rw [Char.isDigit, Bool.and_eq_true, decide_eq_true_eq, decide_eq_true_eq] at digit
  have under : c ≠ '_' := by
    rintro rfl
    exact absurd digit (by decide)
  -- the digits come before the letters of both cases
  have low : c.val.toNat ≤ 57 := digit.2
  have upper : ¬ 'A'.val ≤ c.val := fun le =>
    absurd (Nat.le_trans (show 65 ≤ c.val.toNat from le) low) (by decide)
  have lower : ¬ 'a'.val ≤ c.val := fun le =>
    absurd (Nat.le_trans (show 97 ≤ c.val.toNat from le) low) (by decide)
  have alpha : c.isAlpha = false := by
    refine Bool.or_eq_false_iff.2 ⟨decide_eq_false fun h => upper h.1, ?_⟩
    exact Bool.and_eq_false_iff.2 (.inl (decide_eq_false lower))
  rw [isLetter, alpha, Bool.false_or, beq_eq_false_iff_ne]
  exact under

/-- A character of a word is no blank. -/
theorem isBlank_of_isWordChar {c : Char} (h : isWordChar c = true) : isBlank c = false := by
  rw [Bool.eq_false_iff]
  intro blank
  simp only [isBlank, Bool.or_eq_true, beq_iff_eq] at blank
  rcases blank with ((rfl | rfl) | rfl) | rfl <;> exact absurd h (by decide)

/-- A letter is a character of a word. -/
theorem isWordChar_of_isLetter {c : Char} (h : isLetter c = true) : isWordChar c = true := by
  rw [isWordChar, h, Bool.true_or]

/-- A run takes all of a text whose characters it takes, if it does not go on behind it. -/
theorem run_append_all {p : Char → Bool} {a b : List Char} (ha : ∀ x ∈ a, p x = true)
    (hb : ∀ x ∈ b.head?, p x = false) : run p (a ++ b) = a.length := by
  rw [run, List.takeWhile_append_of_pos ha, List.length_append]
  cases b with
  | nil => rfl
  | cons x b => rw [List.takeWhile_cons, hb x rfl]; rfl

/-- What a run takes does not depend on what stands behind the characters that it takes. -/
theorem run_append {p : Char → Bool} {a b r : List Char} (inside : run p (a ++ b) ≤ a.length)
    (hr : ∀ x ∈ r.head?, p x = false) : run p (a ++ r) = run p (a ++ b) := by
  induction a with
  | nil =>
      have none : run p b = 0 := Nat.le_zero.1 inside
      rw [List.nil_append, List.nil_append, none]
      exact run_append_all (List.forall_mem_nil _) hr
  | cons x a ih =>
      rcases hx : p x with _ | _
      · simp [run, hx]
      · have ih := ih (by simpa [run, List.takeWhile_cons, hx] using inside)
        simpa [run, List.takeWhile_cons, hx] using ih

/-- Where no word goes on there is no digit. -/
theorem Apart.digit {r : List Char} (h : Apart r) : ∀ x ∈ r.head?, x.isDigit = false := by
  intro x hx
  have := h x hx
  simp [isWordChar] at this
  exact this.2

/-- Where no word goes on there is no letter. -/
theorem Apart.letter {r : List Char} (h : Apart r) : ∀ x ∈ r.head?, isLetter x = false := by
  intro x hx
  have := h x hx
  simp [isWordChar] at this
  exact this.1

/-! ## Words

A word is a letter and characters of words, and it ends where no word goes on. -/

/-- A text that starts with a letter starts with a word. -/
theorem next_letter {c : Char} (letter : isLetter c = true) (s : List Char) :
    next (c :: s) = ⟨.ident, 1 + run isWordChar s, []⟩ := by
  rw [next, isBlank_of_isWordChar (isWordChar_of_isLetter letter), letter]
  rfl

/-- A word is a token where no word goes on. -/
theorem next_word {w r : List Char} (word : IsWord w) (apart : Apart r) :
    next (w ++ r) = ⟨.ident, w.length, []⟩ := by
  obtain ⟨c, t, rfl, letter, chars⟩ := word
  rw [List.cons_append, next_letter letter, run_append_all chars apart, List.length_cons, Nat.add_comm]

/-! ## Numbers

A number has three parts, each of which ends where its digits do; a point behind it would start another
fraction, so it has to be kept away. -/

/-- A fraction that is read whole does not depend on what stands behind it. -/
theorem fractionSize_append {a b r : List Char} (inside : fractionSize (a ++ b) ≤ a.length)
    (none : fractionSize (a ++ b) = 0 → a.head? ≠ some '.') (apart : Apart r)
    (point : r.head? ≠ some '.') : fractionSize (a ++ r) = fractionSize (a ++ b) := by
  -- the empty text, one character and more: a dot is a fraction only if a digit follows it
  rcases a with _ | ⟨x, _ | ⟨y, a⟩⟩
  · have zero : fractionSize b = 0 := Nat.le_zero.1 inside
    rw [List.nil_append, List.nil_append, zero]
    unfold fractionSize
    split
    · exact absurd rfl point
    · rfl
  -- the dot is the last one inside, so what comes behind decides, and no text has a digit there
  · by_cases dot : x = '.'
    · subst dot
      have new : fractionSize ('.' :: r) = 1 := by
        rcases r with _ | ⟨c, r⟩
        · rfl
        · simp [fractionSize, apart.digit c rfl, apart.letter c rfl]
      have old : fractionSize ('.' :: b) = 1 := by
        rcases b with _ | ⟨c, b⟩
        · rfl
        · simp only [List.cons_append, List.nil_append, fractionSize, List.length_singleton] at inside none ⊢
          split
          · next digit =>
              rw [if_pos digit, run, List.takeWhile_cons_of_pos digit, List.length_cons] at inside
              omega
          · next other =>
              rw [if_neg other] at none
              split
              · next letter => exact absurd rfl (none (if_pos letter))
              · rfl
      exact new.trans old.symm
    · simp [fractionSize, dot]
  · by_cases dot : x = '.'
    · subst dot
      simp only [List.cons_append, fractionSize] at inside ⊢
      split
      · next digit =>
          rw [if_pos digit] at inside
          have inside : run Char.isDigit ((y :: a) ++ b) ≤ (y :: a).length := by
            simp only [List.length_cons, List.cons_append] at inside ⊢
            omega
          exact congrArg (1 + ·) (run_append inside apart.digit)
      · rfl
    · simp [fractionSize, dot]

/-- An exponent that is read whole, with its digits, does not depend on what stands behind it. -/
theorem exponentSize_append {a b r : List Char} (inside : (exponentSize (a ++ b)).1 ≤ a.length)
    (full : (exponentSize (a ++ b)).2 = false) (apart : Apart r) :
    exponentSize (a ++ r) = exponentSize (a ++ b) := by
  rcases a with _ | ⟨x, a⟩
  · have new : exponentSize r = (0, false) := by
      rcases r with _ | ⟨c, r⟩
      · rfl
      · have mark : (c == 'e' || c == 'E') = false := by
          have letter := apart.letter c rfl
          rw [Bool.eq_false_iff]
          intro mark
          rcases Bool.or_eq_true _ _ ▸ mark with e | e <;> rw [beq_iff_eq.1 e] at letter <;>
            exact absurd letter (by decide)
        simp [exponentSize, mark]
    rw [List.nil_append, List.nil_append, new]
    exact Prod.ext (Nat.le_zero.1 inside).symm full.symm
  · simp only [List.cons_append, exponentSize] at inside full ⊢
    split
    · next mark =>
        rw [if_pos mark] at inside full
        -- there are digits inside, so the sign and all digits are
        have digits : run Char.isDigit ((a ++ b).drop (signSize (a ++ b))) ≠ 0 := by simpa using full
        have inside : signSize (a ++ b) + run Char.isDigit ((a ++ b).drop (signSize (a ++ b))) ≤ a.length := by
          simp only [List.length_cons] at inside
          omega
        rcases a with _ | ⟨y, a⟩
        · simp only [List.length_nil] at inside
          omega
        · have sign : signSize (y :: a ++ r) = signSize (y :: a ++ b) := rfl
          have short : signSize (y :: a ++ b) ≤ (y :: a).length := by omega
          rw [sign]
          rw [List.drop_append_of_le_length short] at inside digits ⊢
          rw [List.drop_append_of_le_length short, run_append _ apart.digit]
          rw [List.length_drop]
          omega
    · rfl

/-- A text that starts with a digit starts with a number. -/
theorem next_digit {c : Char} (digit : c.isDigit = true) (s : List Char) :
    next (c :: s) = number (c :: s) := by
  have word : isWordChar c = true := by rw [isWordChar, digit, Bool.or_true]
  rw [next, isBlank_of_isWordChar word, isLetter_of_isDigit digit, digit]
  rfl

/-- A text that starts with a number starts with a digit. -/
theorem digit_of_number {c : Char} {s : List Char} (h : (next (c :: s)).kind = .number) :
    c.isDigit = true := by
  revert h
  unfold next
  dsimp only
  split
  · exact fun h => Token.noConfusion h
  split
  · exact fun h => Token.noConfusion h
  split
  · next digit => exact fun _ => digit
  · exact fun h => absurd h (punctuation_kind c s).2.2

/-- A number without a fault consists of digits, a fraction and an exponent, and no word goes on. -/
theorem number_eq_iff {s : List Char} {n : Nat} : number s = ⟨.number, n, []⟩ ↔
    ∃ digits fraction exponent, run Char.isDigit s = digits ∧ fractionSize (s.drop digits) = fraction ∧
      exponentSize (s.drop (digits + fraction)) = (exponent, false) ∧
      run isWordChar (s.drop (digits + fraction + exponent)) = 0 ∧ digits + fraction + exponent = n := by
  generalize hd : run Char.isDigit s = digits
  generalize hf : fractionSize (s.drop digits) = fraction
  rcases he : exponentSize (s.drop (digits + fraction)) with ⟨exponent, bare⟩
  generalize ht : run isWordChar (s.drop (digits + fraction + exponent)) = tail
  -- the parts of a number, and the two faults that it may have
  have whole : number s = ⟨.number, digits + fraction + exponent + tail,
      (if bare then [⟨digits + fraction + exponent, .missingExponent⟩] else []) ++
        (if tail != 0 then [⟨digits + fraction + exponent, .malformedNumber⟩] else [])⟩ := by
    simp only [number, hd, hf, he, ht]
  rw [whole]
  constructor
  · intro h
    obtain ⟨-, size, faults⟩ := Lexeme.mk.inj h
    obtain ⟨noBare, noTail⟩ := List.append_eq_nil_iff.1 faults
    have bare : bare = false := by
      cases bare with
      | false => rfl
      | true => cases noBare
    have tail : tail = 0 := by
      by_contra some
      rw [if_pos (by simpa using some)] at noTail
      cases noTail
    exact ⟨digits, fraction, exponent, rfl, hf, by rw [he, bare], ht.trans tail, by omega⟩
  · rintro ⟨_, _, _, rfl, rfl, exponents, none, rfl⟩
    rw [hf, he] at exponents
    obtain ⟨rfl, rfl⟩ := Prod.mk.inj exponents
    rw [hf, ht] at none
    rw [none, hf]
    rfl

/-- A number that is a token without a fault is one before anything else that goes on neither with a
word nor with a point. -/
theorem next_number {a b r : List Char} (h : next (a ++ b) = ⟨.number, a.length, []⟩) (apart : Apart r)
    (point : r.head? ≠ some '.') : next (a ++ r) = ⟨.number, a.length, []⟩ := by
  have whole : number (a ++ b) = ⟨.number, a.length, []⟩ := by
    rw [← number_of_kind (by rw [h]), h]
  have first : next (a ++ r) = number (a ++ r) := by
    rcases a with _ | ⟨c, a⟩
    · have filled : b ≠ [] := by
        rintro rfl
        cases h
      have size := size_pos filled
      rw [← List.nil_append b, h] at size
      exact absurd size (Nat.lt_irrefl 0)
    · exact next_digit (digit_of_number (by rw [← List.cons_append, h])) _
  obtain ⟨digits, fraction, exponent, hd, hf, he, -, size⟩ := number_eq_iff.1 whole
  -- the parts of the number are inside, so they are cut from it whatever stands behind
  have cut {n : Nat} (inside : n ≤ a.length) (t : List Char) : (a ++ t).drop n = a.drop n ++ t :=
    List.drop_append_of_le_length inside
  rw [first, number_eq_iff]
  refine ⟨digits, fraction, exponent, ?_, ?_, ?_, ?_, size⟩
  · rw [← hd]
    exact run_append (by omega) apart.digit
  · rw [cut (by omega)] at hf ⊢
    rw [← hf]
    refine fractionSize_append ?_ (fun none dot => ?_) apart point
    · rw [List.length_drop]
      omega
    · obtain rfl : fraction = 0 := hf.symm.trans none
      obtain ⟨t, rest⟩ := List.head?_eq_some_iff.1 dot
      rw [Nat.add_zero, cut (by omega), rest] at he
      obtain ⟨rfl, -⟩ := Prod.mk.inj he
      rw [List.drop_eq_nil_of_le (by omega)] at rest
      cases rest
  · rw [cut (by omega)] at he ⊢
    rw [← he]
    refine exponentSize_append ?_ (by rw [he]) apart
    rw [he, List.length_drop]
    show exponent ≤ _
    omega
  · rw [size, List.drop_left]
    exact run_append_all (List.forall_mem_nil _) apart

end Lexeme

/-! ## The words of the current dialect

Which words are reserved is found in a fixed list, and no plain token has a word in it. -/

namespace KeywordTable

/-- The words that are reserved in the current dialect. -/
def current : KeywordTable := base.extend future

/-- The words of the current dialect are words that the scanner knows. -/
theorem known_current : current.Known := known_base.extend known_future

/-- The current dialect has all words of the future already. -/
theorem current_extend : current.extend future = current := by decide +kernel

/-- The words that a dialect reserves and that its scanners look up are the same. -/
theorem current_get?_isSome (word : String) : (current.get? word).isSome = Version.v1.reserves word := by
  have listed : ∀ e ∈ current.entries, e ∈ baseWords ++ futureWords := known_current
  have all : ∀ e ∈ baseWords ++ futureWords, e ∈ current.entries := by decide +kernel
  have same (p : String × Token → Bool) : current.entries.any p = (baseWords ++ futureWords).any p := by
    rw [Bool.eq_iff_iff, List.any_eq_true, List.any_eq_true]
    exact ⟨fun ⟨e, he, h⟩ => ⟨e, listed e he, h⟩, fun ⟨e, he, h⟩ => ⟨e, all e he, h⟩⟩
  have found : (current.get? word).isSome = current.entries.any (·.1 == word) := by
    rw [Bool.eq_iff_iff, get?, Option.isSome_map, List.find?_isSome, List.any_eq_true]
  rw [found, same, List.any_append]
  rfl

end KeywordTable

namespace Lexeme

/-- What the first token of a text is taken for in the current dialect. -/
def shown (s : List Char) : Token :=
  if (next s).faults.isEmpty then Scanner.classify .current (next s).kind (s.take (next s).size)
  else .illegal

/-- What stands behind the first token of a text. -/
def behind (s : List Char) : List Char := s.drop (next s).size

/-- A word is taken for the keyword that it is, or else for an identifier. -/
theorem shown_word {w r : List Char} (word : IsWord w) (apart : Apart r) :
    shown (w ++ r) = (KeywordTable.current.get? (String.ofList w)).getD .ident := by
  rw [shown, next_word word apart, List.take_left]
  rfl

/-- Behind a word stands what was put behind it. -/
theorem behind_word {w r : List Char} (word : IsWord w) (apart : Apart r) : behind (w ++ r) = r := by
  rw [behind, next_word word apart, List.drop_left]

/-! ## What follows

What may stand behind a piece of text is told by the piece: less may stand behind a reference than behind
a term, and less behind that than behind an expression. -/

/-- The first token of a text is legal, and no comment. -/
structure Stops (s : List Char) : Prop where
  faults : (next s).faults = []
  solid : (next s).kind ≠ .comment

/-- The first token of a text is legal, and neither a blank nor a comment. -/
structure Legal (s : List Char) : Prop extends Stops s where
  filled : (next s).kind ≠ .whitespace

section token

variable {s : List Char} {kind : Token} {n : Nat}

/-- A text whose first token has no fault is legal, if that is neither a comment nor a blank. -/
theorem legal_of_next (h : next s = ⟨kind, n, []⟩) (solid : kind ≠ .comment)
    (filled : kind ≠ .whitespace) : Legal s :=
  ⟨⟨by rw [h], by rwa [h]⟩, by rwa [h]⟩

/-- A token that is no word is taken for itself. -/
theorem shown_of_next (h : next s = ⟨kind, n, []⟩) (plain : kind ≠ .ident) : shown s = kind := by
  simp [shown, h, Scanner.classify, plain]

end token

/-- A text that starts with a letter is legal. -/
theorem legal_letter {c : Char} (letter : isLetter c = true) (s : List Char) : Legal (c :: s) := by
  have kind : (next (c :: s)).kind = .ident := by rw [next_letter letter]
  exact ⟨⟨by rw [next_letter letter], by rw [kind]; decide⟩, by rw [kind]; decide⟩

/-- What is left of a text without a blank in front. -/
def past : List Char → List Char
  | ' ' :: s => s
  | s => s

/-- To pass a blank makes a text no longer. -/
theorem length_past (s : List Char) : (past s).length ≤ s.length := by
  unfold past
  split
  · exact Nat.le_succ _
  · exact Nat.le_refl _

/-- The marks that may stand behind a term. -/
def closingMarks : List Char := [',', ';', ')', ']', '}']

/-- What may stand behind a term: the end, a mark that is no operator and opens nothing, or a blank with a
legal token behind it. -/
inductive Closes : List Char → Prop where
  | atEnd : Closes []
  | mark {c : Char} {s : List Char} : c ∈ closingMarks → Closes (c :: s)
  | colon {s : List Char} : Closes (':' :: ' ' :: s)
  | blank {s : List Char} : Legal s → Closes (' ' :: s)

/-- What may stand behind a term with operators: no operator, and no word that could be taken for an
identifier. -/
inductive Rests : List Char → Prop where
  | atEnd : Rests []
  | mark {c : Char} {s : List Char} : c ∈ closingMarks → Rests (c :: s)
  | colon {s : List Char} : Rests (':' :: ' ' :: s)
  | word {w : String} {s : List Char} : w ∈ ["as", "with"] → Rests (' ' :: (w.toList ++ ' ' :: s))
  | brace {c : Char} {s : List Char} : c ∈ ['{', '}'] → Rests (' ' :: c :: s)

/-- What may stand behind an expression of a query: the end, a mark that ends it, or a brace. -/
inductive Ends : List Char → Prop where
  | atEnd : Ends []
  | mark {c : Char} {s : List Char} : c ∈ [';', ']', '}'] → Ends (c :: s)
  | brace {s : List Char} : Ends (' ' :: '}' :: s)

/-- What goes on with a term: arguments, or a segment of a path. -/
inductive Opens : List Char → Prop where
  | call {s : List Char} : Opens ('(' :: s)
  | point {s : List Char} : Opens ('.' :: s)
  | bracket {s : List Char} : Opens ('[' :: s)

/-- The tokens of what stands behind a term without a blank. -/
def closingTokens : List Token := [.eof, .comma, .semicolon, .rparen, .rbrack, .rbrace, .colon]

/-- A mark that may stand behind a term is a token of its own. -/
theorem shown_mark {c : Char} (mark : c ∈ closingMarks) (s : List Char) :
    shown (c :: s) ∈ closingTokens ∧ Legal (c :: s) ∧ past (c :: s) = c :: s ∧
      isWordChar c = false ∧ c ≠ '.' := by
  simp only [closingMarks, List.mem_cons, List.not_mem_nil, or_false] at mark
  rcases mark with rfl | rfl | rfl | rfl | rfl <;>
    exact ⟨List.contains_iff_mem.1 rfl, ⟨⟨rfl, nofun⟩, nofun⟩, rfl, by decide, by decide⟩

namespace Closes

variable {r : List Char}

/-- What closes a term goes on with no word. -/
theorem apart (h : Closes r) : Apart r := by
  rintro x hx
  cases h with
  | atEnd => cases hx
  | mark mark =>
      obtain rfl := Option.some.inj hx
      exact (shown_mark mark []).2.2.2.1
  | colon | blank _ =>
      obtain rfl := Option.some.inj hx
      decide

/-- What closes a term starts with no point. -/
theorem head (h : Closes r) : r.head? ≠ some '.' := by
  intro point
  cases h with
  | atEnd => cases point
  | mark mark => exact (shown_mark mark []).2.2.2.2 (Option.some.inj point)
  | colon | blank _ => cases point

/-- What closes a term is legal, or a blank. -/
theorem stops (h : Closes r) : Stops r := by
  cases h with
  | atEnd | colon | blank _ => exact ⟨rfl, nofun⟩
  | @mark c s mark => exact (shown_mark mark s).2.1.toStops

/-- Behind a blank, what closes a term is legal. -/
theorem legal (h : Closes r) : Legal (past r) := by
  cases h with
  | atEnd | colon => exact ⟨⟨rfl, nofun⟩, nofun⟩
  | @mark c s mark =>
      obtain ⟨-, legal, past, -⟩ := shown_mark mark s
      rwa [past]
  | blank legal => exact legal

/-- A reader of a term stops at what is behind it. -/
theorem token (h : Closes r) : (shown r = .whitespace ∧ r = ' ' :: past r) ∨
    (shown r ∈ closingTokens ∧ past r = r) := by
  cases h with
  | atEnd | colon => exact .inr ⟨List.contains_iff_mem.1 rfl, rfl⟩
  | @mark c s mark =>
      obtain ⟨token, -, past, -⟩ := shown_mark mark s
      exact .inr ⟨token, past⟩
  | blank legal => exact .inl ⟨rfl, rfl⟩

end Closes

/-- What goes on with a term goes on with no word. -/
theorem Opens.apart {r : List Char} (h : Opens r) : Apart r := by
  rintro x hx
  cases h <;> obtain rfl := Option.some.inj hx <;> decide

/-- What goes on with a term is seen at its start. -/
theorem Opens.append {r : List Char} (h : Opens r) (s : List Char) : Opens (r ++ s) := by
  cases h
  · exact .call
  · exact .point
  · exact .bracket

/-- A blank ends a word. -/
theorem apart_blank (s : List Char) : Apart (' ' :: s) := by
  rintro x hx
  obtain rfl := Option.some.inj hx
  decide

/-- A word of the language, with a blank behind it. -/
theorem shown_keyword {w : String} {kind : Token} (word : IsWord w.toList)
    (reserved : KeywordTable.current.get? w = some kind) (s : List Char) :
    shown (w.toList ++ ' ' :: s) = kind ∧ behind (w.toList ++ ' ' :: s) = ' ' :: s ∧
      Legal (w.toList ++ ' ' :: s) := by
  refine ⟨?_, behind_word word (apart_blank s), ?_⟩
  · rw [shown_word word (apart_blank s), String.ofList_toList, reserved]
    rfl
  · obtain ⟨c, t, cons, letter, -⟩ := word
    rw [cons]
    exact legal_letter letter _

namespace Rests

variable {r : List Char}

/-- What stands behind a term with operators closes the last term of it. -/
theorem closes (h : Rests r) : Closes r := by
  cases h with
  | atEnd => exact .atEnd
  | mark mark => exact .mark mark
  | colon => exact .colon
  | @word w s listed =>
      have words : ∀ w ∈ ["as", "with"], IsWord w.toList ∧
          (KeywordTable.current.get? w).isSome := by decide +kernel
      obtain ⟨word, reserved⟩ := words w listed
      obtain ⟨kind, reserved⟩ := Option.isSome_iff_exists.1 reserved
      exact .blank (shown_keyword word reserved s).2.2
  | @brace c s listed =>
      simp only [List.mem_cons, List.not_mem_nil, or_false] at listed
      rcases listed with rfl | rfl <;> exact .blank ⟨⟨rfl, nofun⟩, nofun⟩

/-- What ends an expression ends the terms in it. -/
theorem of_ends (h : Ends r) : Rests r := by
  have marks : ∀ c ∈ [';', ']', '}'], c ∈ closingMarks := by simp [closingMarks]
  cases h with
  | atEnd => exact .atEnd
  | mark mark => exact .mark (marks _ mark)
  | brace => exact .brace (c := '}') (by decide)

/-- The tokens of what stands behind a term with operators. -/
def tokens : List Token := closingTokens ++ [.lbrace, .asKw, .withKw]

/-- The token behind a term with operators is one of a few, and no operator. -/
theorem token (h : Rests r) : shown (past r) ∈ tokens := by
  cases h with
  | atEnd | colon => exact List.contains_iff_mem.1 rfl
  | @mark c s mark =>
      obtain ⟨token, -, past, -⟩ := shown_mark mark s
      rw [past]
      exact List.mem_append_left _ token
  | @word w s listed =>
      -- the two words are reserved, and are among these tokens
      have words : ∀ w ∈ ["as", "with"], IsWord w.toList ∧
          (KeywordTable.current.get? w).any (tokens.contains ·) := by decide +kernel
      obtain ⟨word, reserved⟩ := words w listed
      obtain ⟨kind, reserved, known⟩ := (Option.any_eq_true _ _).1 reserved
      obtain ⟨token, -⟩ := shown_keyword word reserved s
      rw [show past (' ' :: (w.toList ++ ' ' :: s)) = w.toList ++ ' ' :: s from rfl, token]
      exact List.contains_iff_mem.1 known
  | @brace c s listed =>
      simp only [List.mem_cons, List.not_mem_nil, or_false] at listed
      rcases listed with rfl | rfl <;> exact List.contains_iff_mem.1 rfl

/-- A word that stands behind a term with operators has a blank behind it. -/
theorem alone (h : Rests r)
    (word : (shown (past r)).isKeyword = true ∨ (shown (past r)).isFutureKeyword = true) :
    ∃ s, behind (past r) = ' ' :: s := by
  have plain : ∀ kind ∈ closingTokens, ¬ (kind.isKeyword = true ∨ kind.isFutureKeyword = true) := by
    decide
  cases h with
  | atEnd => exact absurd word (plain .eof (by decide))
  | colon => exact absurd word (plain .colon (by decide))
  | @mark c s mark =>
      obtain ⟨token, -, past, -⟩ := shown_mark mark s
      rw [past] at word
      exact absurd word (plain _ token)
  | @word w s listed =>
      have words : ∀ w ∈ ["as", "with"], IsWord w.toList := by decide +kernel
      exact ⟨s, behind_word (words w listed) (apart_blank s)⟩
  | @brace c s listed =>
      simp only [List.mem_cons, List.not_mem_nil, or_false] at listed
      rcases listed with rfl | rfl <;> rcases word with word | word <;> cases word

end Rests

end Lexeme

end RegoSyntax
