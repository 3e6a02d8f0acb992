/-
# RegoSyntax.Proofs.Printing.Quotation — quoted text is read back.

A string is shown as JSON shows it.  What is shown is one token without a fault, whatever stands behind
it, and denotes the string: both readers go over it character by character, and each character is written
in one of three ways.

`Written` lists the three ways.  The scanner passes what is written so without a fault
(`Lexeme.quotedRest_written`), and the reader of JSON takes it for the character
(`JsonText.stringRest_written`); the rest is an induction over the text.
-/
import Mathlib.Data.String.Basic
import RegoSyntax.Json.Reader
import RegoSyntax.Lexeme

namespace RegoSyntax

namespace Quoted

/-- How a character is written between quotes: as an escape of a letter or of digits, or as itself. -/
inductive Written : Char → List Char → Prop where
  | letter {c d : Char} : (c, d) ∈ [('"', '"'), ('\\', '\\'), ('\n', 'n'), ('\r', 'r'), ('\t', 't'),
      ('\x08', 'b'), ('\x0c', 'f')] → Written c ['\\', d]
  | digits {c : Char} : c.toNat < 32 →
      Written c ['\\', 'u', '0', '0', Nat.digitChar (c.toNat / 16), Nat.digitChar (c.toNat % 16)]
  | self {c : Char} : c ≠ '"' → c ≠ '\\' → 32 ≤ c.toNat → Written c [c]

/-- A code below 32 has two digits behind two zeros. -/
theorem paddedHex_toList : ∀ n < 32, (paddedHex 4 n).toList =
    ['0', '0', Nat.digitChar (n / 16), Nat.digitChar (n % 16)] := by
  decide +kernel

/-- Each character is written in one of the three ways. -/
theorem written_jsonChar (c : Char) : Written c (jsonChar c).toList := by
  unfold jsonChar
  split
  · exact .letter (by decide)
  · exact .letter (by decide)
  · exact .letter (by decide)
  · exact .letter (by decide)
  · exact .letter (by decide)
  · exact .letter (by decide)
  · exact .letter (by decide)
  · next quote slash _ _ _ _ _ =>
      split
      · next small =>
          rw [String.toList_append, paddedHex_toList _ small]
          exact .digits small
      · next large =>
          rw [Char.toString, String.toList_singleton]
          exact .self quote slash (Nat.le_of_not_lt large)

/-- What stands between the quotes. -/
def inner (cs : List Char) : List Char := cs.flatMap fun c => (jsonChar c).toList

/-- The characters are written one after the other. -/
theorem inner_cons (c : Char) (cs : List Char) :
    inner (c :: cs) = (jsonChar c).toList ++ inner cs := List.flatMap_cons

/-- What is written is no shorter than the text. -/
theorem length_le_inner (cs : List Char) : cs.length ≤ (inner cs).length := by
  induction cs with
  | nil => exact Nat.le_refl 0
  | cons c cs ih =>
      have filled {s : List Char} (h : Written c s) : 1 ≤ s.length := by
        cases h <;> exact Nat.le_add_left 1 _
      have := filled (written_jsonChar c)
      rw [inner_cons, List.length_append, List.length_cons]
      omega

/-- What is written stands between quotes. -/
theorem json_toList (s : String) : (json s).toList = '"' :: (inner s.toList ++ ['"']) := by
  rw [json, String.toList_append, String.toList_append, String.toList_join, inner, List.flatMap_map]
  rfl

/-- The hexadecimal digits that are written. -/
theorem digitChar_small : ∀ n < 16, Lexeme.isHexDigit (Nat.digitChar n) = true ∧
    JsonText.hexValue? (Nat.digitChar n) = some n ∧ (Nat.digitChar n).utf8Size = 1 := by
  decide +kernel

end Quoted

open Quoted

/-! ## Quoted text is one token

Nothing that is written ends a string: a quote and a backslash stand behind a backslash, and a newline is
written as a letter. -/

namespace Lexeme

/-- A character that is not refused, and does not end the string, is passed over. -/
theorem quotedRest_pass (state : EscapeState) {c : Char} (accepted : state.refuses (some c) = false)
    (ends : state = .plain → c ≠ '"' ∧ c ≠ '\n') (n : Nat) (t : List Char) :
    quotedRest state n (c :: t) = quotedRest (state.next c) (n + 1) t := by
  have quote : (state == .plain && c == '"') = false := by
    by_cases plain : state = .plain
    · simp [(ends plain).1]
    · simp [plain]
  have line : (state == .plain && c == '\n') = false := by
    by_cases plain : state = .plain
    · simp [(ends plain).2]
    · simp [plain]
  rw [quotedRest, accepted]
  simp [quote, line]

/-- A character is passed over without a fault as it is written. -/
theorem quotedRest_written {c : Char} {s : List Char} (h : Written c s) (n : Nat) (t : List Char) :
    quotedRest .plain n (s ++ t) = quotedRest .plain (n + s.length) t := by
  -- -- a character is written by a letter behind a backslash, by four digits, or as itself
  cases h with
  | letter pair =>
      simp only [List.mem_cons, Prod.mk.injEq, List.not_mem_nil, or_false] at pair
      rcases pair with ⟨-, rfl⟩ | ⟨-, rfl⟩ | ⟨-, rfl⟩ | ⟨-, rfl⟩ | ⟨-, rfl⟩ | ⟨-, rfl⟩ | ⟨-, rfl⟩ <;> rfl
  | digits small =>
      have high := (digitChar_small (c.toNat / 16) (by omega)).1
      have low := (digitChar_small (c.toNat % 16) (by omega)).1
      have digit (left : Nat) {d : Char} (hd : isHexDigit d = true) (n : Nat) (t : List Char) :
          quotedRest (.hex left) n (d :: t) = quotedRest (EscapeState.next (.hex left) d) (n + 1) t :=
        quotedRest_pass (.hex left) (by simp [EscapeState.refuses, hd]) nofun n t
      -- -- the backslash and the `u`, then one digit at a time
      calc
        _ = quotedRest .escape (n + 1) _ := quotedRest_pass .plain rfl (by decide) n _
        _ = quotedRest (.hex 4) (n + 2) _ := quotedRest_pass .escape (by decide) nofun _ _
        _ = quotedRest (.hex 3) (n + 3) _ := digit 4 (by decide) _ _
        _ = quotedRest (.hex 2) (n + 4) _ := digit 3 (by decide) _ _
        _ = quotedRest (.hex 1) (n + 5) _ := digit 2 high _ _
        _ = _ := digit 1 low _ _
  | self quote slash large =>
      have line : c ≠ '\n' := by
        rintro rfl
        exact absurd large (by decide)
      rw [List.singleton_append, quotedRest_pass .plain rfl fun _ => ⟨quote, line⟩, EscapeState.next,
        if_neg (by simpa using slash)]
      rfl

/-- The scanner takes the text for one string, up to the quote that closes it. -/
theorem quotedRest_inner (cs : List Char) (n : Nat) (t : List Char) :
    quotedRest .plain n (inner cs ++ '"' :: t) = (n + (inner cs).length + 1, []) := by
  induction cs generalizing n with
  | nil => rfl
  | cons c cs ih =>
      rw [inner_cons, List.append_assoc, quotedRest_written (written_jsonChar c), ih,
        List.length_append, Nat.add_assoc n]

/-- Quoted text is one token, whatever stands behind it. -/
theorem next_json (s : String) (t : List Char) :
    next ((json s).toList ++ t) = ⟨.string, (json s).toList.length, []⟩ := by
  have lexeme : next ((json s).toList ++ t) = quoted (inner s.toList ++ '"' :: t) := by
    rw [json_toList, List.cons_append, List.append_assoc]
    rfl
  rw [lexeme, quoted, quotedRest_inner, json_toList]
  simp only [List.length_cons, List.length_append, List.length_nil]
  congr 1
  omega

end Lexeme

/-! ## Quoted text denotes the text

Each way of writing a character gives that character back, and the reader goes on behind it. -/

namespace JsonText

/-- Behind a character comes the rest. -/
@[simp] theorem Cursor.after_rest (p : Cursor) (c : Char) (s : List Char) : (p.after c s).rest = s := by
  unfold Cursor.after
  split <;> rfl

/-- To advance is to pass one character. -/
theorem Cursor.advance_rest {p : Cursor} {c : Char} {s : List Char} (h : p.rest = c :: s) :
    p.advance.rest = s := by
  rw [Cursor.advance, h]
  exact Cursor.after_rest p c s

/-- Four digits that take a byte each are read. -/
theorem hexQuad_digits {p : Cursor} {a b : Nat} (ha : a < 16) (hb : b < 16) {t : List Char}
    (h : p.rest = '0' :: '0' :: Nat.digitChar a :: Nat.digitChar b :: t) :
    ∃ q : Cursor, q.rest = t ∧ hexQuad p = .ok (a * 16 + b, q) := by
  obtain ⟨-, highValue, highSize⟩ := digitChar_small a ha
  obtain ⟨-, lowValue, lowSize⟩ := digitChar_small b hb
  have zeroValue : hexValue? '0' = some 0 := by decide
  have byte {d : Char} (size : d.utf8Size = 1) (n : Nat) (t : List Char) (p : Cursor) :
      Cursor.advanceBytes (n + 1) (d :: t) p = Cursor.advanceBytes n t (p.after d t) := by
    rw [Cursor.advanceBytes, size, if_pos (Nat.le_add_left 1 n), Nat.add_sub_cancel]
  obtain ⟨q, rest, bytes⟩ : ∃ q : Cursor, q.rest = t ∧ Cursor.advanceBytes 4 p.rest p = some q := by
    rw [h, byte (by decide), byte (by decide), byte highSize, byte lowSize]
    exact ⟨_, Cursor.after_rest _ _ _, by rw [Cursor.advanceBytes]⟩
  refine ⟨q, rest, ?_⟩
  rw [hexQuad, bytes, h]
  simp [highValue, lowValue, zeroValue]

/-- A character is read as it is written. -/
theorem stringRest_written {c : Char} {s : List Char} (written : Written c s) {p : Cursor}
    {t : List Char} (h : p.rest = s ++ t) (fuel : Nat) (read : List Char) :
    ∃ q : Cursor, q.rest = t ∧ stringRest (fuel + 1) read p = stringRest fuel (c :: read) q := by
  have peek {p : Cursor} {d : Char} {t : List Char} (h : p.rest = d :: t) : p.peek = some d := by
    rw [Cursor.peek, h]
    rfl
  -- a character stands as a letter behind a backslash, as four digits, or as itself
  cases written with
  | @letter d pair =>
      have first : p.rest = '\\' :: d :: t := h
      have second := Cursor.advance_rest first
      refine ⟨p.advance.advance, Cursor.advance_rest second, ?_⟩
      rw [stringRest, peek first]
      simp only [List.mem_cons, Prod.mk.injEq, List.not_mem_nil, or_false] at pair
      rcases pair with ⟨rfl, rfl⟩ | ⟨rfl, rfl⟩ | ⟨rfl, rfl⟩ | ⟨rfl, rfl⟩ | ⟨rfl, rfl⟩ | ⟨rfl, rfl⟩ |
        ⟨rfl, rfl⟩ <;> simp only [escape, peek second] <;> rfl
  | digits small =>
      have first : p.rest = '\\' :: 'u' :: '0' :: '0' :: Nat.digitChar (c.toNat / 16) ::
        Nat.digitChar (c.toNat % 16) :: t := h
      have second := Cursor.advance_rest first
      -- below a blank the first two digits are zero, and the last two spell the code
      obtain ⟨q, rest, quad⟩ := hexQuad_digits (by omega) (by omega) (Cursor.advance_rest second)
      have value : c.toNat / 16 * 16 + c.toNat % 16 = c.toNat := Nat.div_add_mod' _ _
      -- a code that small is no half of a surrogate pair, so the escape is the character
      have escaped : escape p.advance = .ok (c, q) := by
        have low : ¬ (0xDC00 ≤ c.toNat ∧ c.toNat ≤ 0xDFFF) := by omega
        have basic : c.toNat < 0xD800 ∨ 0xDBFF < c.toNat := by omega
        rw [value] at quad
        simp only [escape, peek second, unicodeEscape, quad, bind, Except.bind, Bool.and_eq_true,
          Bool.or_eq_true, decide_eq_true_eq, if_neg low, if_pos basic, Char.ofNat_toNat]
      refine ⟨q, rest, ?_⟩
      rw [stringRest, peek first]
      simp only [escaped]
      rfl
  -- the character ends neither the string nor begins an escape
  | self quote slash large =>
      have first : p.rest = c :: t := h
      refine ⟨p.advance, Cursor.advance_rest first, ?_⟩
      rw [stringRest, peek first]
      split
      · next none => cases none
      · next same => exact absurd (Option.some.inj same) quote
      · next same => exact absurd (Option.some.inj same) slash
      · next d _ _ same =>
          obtain rfl := Option.some.inj same
          exact if_neg (Nat.not_lt.2 large)

/-- The reader takes what is written for the text. -/
theorem stringRest_inner (cs : List Char) {p : Cursor} (h : p.rest = inner cs ++ ['"'])
    {fuel : Nat} (enough : cs.length < fuel) (read : List Char) :
    ∃ q : Cursor, q.rest = [] ∧
      stringRest fuel read p = .ok (String.ofList (read.reverse ++ cs), q) := by
  induction cs generalizing p fuel read with
  | nil =>
      obtain ⟨fuel, rfl⟩ := Nat.exists_eq_succ_of_ne_zero (Nat.ne_of_gt enough)
      have first : p.rest = ['"'] := h
      refine ⟨p.advance, Cursor.advance_rest first, ?_⟩
      rw [stringRest, Cursor.peek, first, List.append_nil]
      rfl
  | cons c cs ih =>
      obtain ⟨fuel, rfl⟩ := Nat.exists_eq_succ_of_ne_zero (Nat.ne_of_gt (Nat.zero_lt_of_lt enough))
      rw [inner_cons, List.append_assoc] at h
      obtain ⟨q, rest, step⟩ := stringRest_written (written_jsonChar c) h fuel read
      obtain ⟨q', ended, result⟩ := ih rest (Nat.lt_of_succ_lt_succ enough) (c :: read)
      refine ⟨q', ended, ?_⟩
      rw [step, result, List.reverse_cons, List.append_assoc]
      rfl

/-- Quoted text denotes the text. -/
theorem stringOf_json (s : String) : stringOf? (json s) = some s := by
  generalize start : (⟨(json s).toList, 1, 0⟩ : Cursor) = p
  have first : p.rest = '"' :: (inner s.toList ++ ['"']) := by
    rw [← start]
    exact json_toList s
  have unblank : p.skipBlanks = p := by
    rw [Cursor.skipBlanks, Cursor.skip, first]
    rfl
  have inside := Cursor.advance_rest first
  have enough : s.toList.length < p.advance.rest.length + 1 := by
    rw [inside, List.length_append]
    have := length_le_inner s.toList
    omega
  obtain ⟨q, ended, read⟩ := stringRest_inner s.toList inside enough []
  have result : string p = .ok (s, q) := by
    rw [string, unblank, Cursor.peek, first]
    refine read.trans ?_
    rw [List.reverse_nil, List.nil_append, String.ofList_toList]
  -- nothing is left behind the quote
  have nothing : endOfText q = .ok ((), q) := by
    have stays : q.skipBlanks = q := by
      rw [Cursor.skipBlanks, Cursor.skip, ended]
      rfl
    rw [endOfText, stays, Cursor.peek, ended]
    rfl
  rw [stringOf?, start, result]
  simp only [nothing]

end JsonText

end RegoSyntax
