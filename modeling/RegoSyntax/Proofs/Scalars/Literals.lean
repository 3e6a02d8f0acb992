/-
# RegoSyntax.Proofs.Scalars.Literals — number literals, digit by digit.

What a literal means is said here on its text alone: the digits before and behind the point, the value of
the exponent, and where the first significant digit stands.  A number that is one token without a fault is
made of digits, perhaps a point with digits behind, and perhaps an exponent with digits (`Literal`); so the
reader of numerals, which cuts a text at the point and at the exponent, takes it apart as it is meant, and
refuses it only if there are two points.

The magnitude that the reader computes in words and in floating-point numbers comes to a bound on where the
first significant digit stands once the exponent is applied, in exact integers (`inBounds_iff`): sums that
leave the words, and exponents that are none, are out of bounds either way.
-/
import Mathlib.Data.Nat.Digits.Defs
import RegoSyntax.Proofs.Printing.Spelling
import RegoSyntax.Proofs.Scalars.Magnitude

namespace RegoSyntax

open Lexeme

namespace Numeral

/-! ## What a literal means -/

/-- What stands before the exponent. -/
def mantissa (s : List Char) : List Char := s.takeWhile (!isExponentMark ·)

/-- The digits before the point. -/
def wholeDigits (s : List Char) : List Char := (mantissa s).takeWhile (·.isDigit)

/-- The digits behind the point. -/
def fractionDigits (s : List Char) : List Char := ((mantissa s).dropWhile (·.isDigit)).drop 1

/-- The number that a sequence of digits denotes. -/
def decimal (digits : List Char) : Nat := Nat.ofDigits 10 (digits.reverse.map (·.toNat - '0'.toNat))

/-- The number that digits behind a sign denote. -/
def signedValue : List Char → Int
  | '-' :: digits => -(decimal digits : Int)
  | '+' :: digits => decimal digits
  | digits => decimal digits

/-- The exponent, which is zero if there is none. -/
def exponentValue (s : List Char) : Int := signedValue ((s.dropWhile (!isExponentMark ·)).drop 1)

/-- All digits before the exponent are zeros. -/
def IsZero (s : List Char) : Prop := ∀ c ∈ wholeDigits s ++ fractionDigits s, c = '0'

/-- Where the first significant digit stands: the number of digits from there to the point, or minus the
number of zeros behind the point. -/
def firstPlace (s : List Char) : Int :=
  match (wholeDigits s).dropWhile (· == '0') with
  | [] => -(((fractionDigits s).takeWhile (· == '0')).length : Int)
  | digits => digits.length

/-- The magnitude of a literal is within bounds: the first significant digit stands near the point once
the exponent is applied. -/
def InReach (s : List Char) : Prop := IsZero s ∨ |firstPlace s + exponentValue s| ≤ 30103

/-- No zero in front could be left out: it is all there is, or a point or an exponent follows. -/
def Unpadded (s : List Char) : Prop :=
  ∀ c rest, s = '0' :: c :: rest → c = '.' ∨ c = 'e' ∨ c = 'E'

/-! ## The parts of a literal -/

/-- What scales a literal: nothing, or a mark, perhaps a sign, and digits. -/
inductive Scaled : List Char → Prop where
  | absent : Scaled []
  | exponent {mark : Char} {sign ds : List Char} (marked : isExponentMark mark = true)
      (signed : sign ∈ [[], ['+'], ['-']]) (filled : ds ≠ []) (digits : ∀ c ∈ ds, c.isDigit = true) :
      Scaled (mark :: (sign ++ ds))

/-- A literal: digits, perhaps a point and more digits, perhaps an exponent. -/
inductive Literal : List Char → Prop where
  | parts {whole fraction exponent : List Char} (filled : whole ≠ [])
      (digits : ∀ c ∈ whole, c.isDigit = true)
      (point : fraction = [] ∨ ∃ ds, fraction = '.' :: ds ∧ ∀ c ∈ ds, c.isDigit = true)
      (scaled : Scaled exponent) : Literal (whole ++ fraction ++ exponent)

theorem take_run (p : Char → Bool) (s : List Char) :
    s.take (Lexeme.run p s) = s.takeWhile p ∧ ∀ c ∈ s.take (Lexeme.run p s), p c = true := by
  have same : s.take (Lexeme.run p s) = s.takeWhile p := by
    rw [Lexeme.run]
    exact List.prefix_iff_eq_take.1 (List.takeWhile_prefix p) |>.symm
  exact ⟨same, fun c hc => List.mem_takeWhile_imp (same ▸ hc)⟩

/-- A fraction is a point and the digits behind it. -/
theorem fraction_parts (s : List Char) :
    s.take (fractionSize s) = [] ∨
      ∃ ds, s.take (fractionSize s) = '.' :: ds ∧ ∀ c ∈ ds, c.isDigit = true := by
  unfold fractionSize
  split
  · next rest =>
      rcases rest with _ | ⟨x, rest⟩
      · exact .inr ⟨[], rfl, List.forall_mem_nil _⟩
      · dsimp only
        split
        · right
          refine ⟨(x :: rest).take (Lexeme.run Char.isDigit (x :: rest)), ?_, (take_run _ _).2⟩
          rw [Nat.add_comm 1]
          rfl
        · split
          · exact .inl rfl
          · exact .inr ⟨[], rfl, List.forall_mem_nil _⟩
  · exact .inl rfl

/-- An exponent with digits is a mark, perhaps a sign, and the digits. -/
theorem exponent_parts {s : List Char} (full : (exponentSize s).2 = false) :
    Scaled (s.take (exponentSize s).1) := by
  rcases s with _ | ⟨c, t⟩
  · exact .absent
  simp only [exponentSize] at full ⊢
  split
  -- -- with a mark there are digits behind the sign, as the exponent is full
  · next mark =>
      rw [if_pos mark] at full
      have some : Lexeme.run Char.isDigit (t.drop (signSize t)) ≠ 0 := by simpa using full
      rw [Nat.add_assoc, Nat.add_comm 1, List.take_succ_cons, List.take_add]
      refine .exponent mark ?_ ?_ (take_run _ _).2
      · rcases t with _ | ⟨x, t⟩
        · exact List.mem_cons_self
        · simp only [signSize]
          split
          · next sign =>
              rcases Bool.or_eq_true _ _ ▸ sign with plus | minus
              · simp [beq_iff_eq.1 plus]
              · simp [beq_iff_eq.1 minus]
          · exact List.mem_cons_self
      · intro none
        rcases List.take_eq_nil_iff.1 none with zero | empty
        · exact some zero
        · rw [empty] at some
          exact some rfl
  · exact .absent

/-- A number that is one token without a fault has these parts. -/
theorem literal_of_next {s : List Char} (token : next s = ⟨.number, s.length, []⟩) : Literal s := by
  have whole : number s = ⟨.number, s.length, []⟩ := by
    rw [← number_of_kind (by rw [token]), token]
  have filled : s ≠ [] := by
    rintro rfl
    cases token
  obtain ⟨c, t, cons⟩ := List.exists_cons_of_ne_nil filled
  have first : c.isDigit = true := digit_of_number (s := t) (by rw [← cons, token])
  obtain ⟨digits, fraction, exponent, hd, hf, he, -, size⟩ := number_eq_iff.1 whole
  -- the text is cut where the scanner cut it: digits, then the fraction, then the exponent
  have split : s = s.take digits ++ (s.drop digits).take fraction ++
      ((s.drop (digits + fraction)).take exponent) := by
    conv_lhs => rw [← List.take_append_drop digits s, ← List.take_append_drop fraction (s.drop digits)]
    rw [List.drop_drop, List.append_assoc,
      List.take_of_length_le (l := s.drop (digits + fraction)) (by rw [List.length_drop]; omega)]
  rw [split]
  refine .parts ?_ ?_ ?_ ?_
  · have positive : 0 < digits := by
      rw [← hd, cons, Lexeme.run, List.takeWhile_cons_of_pos first]
      exact Nat.succ_pos _
    intro none
    rcases List.take_eq_nil_iff.1 none with zero | empty
    · omega
    · exact filled empty
  · rw [← hd]
    exact (take_run Char.isDigit s).2
  · rw [← hf]
    exact fraction_parts _
  -- no fault was reported, so the exponent is not a bare mark
  · have bare : (exponentSize (s.drop (digits + fraction))).2 = false := by rw [he]
    have parts := exponent_parts bare
    rwa [he] at parts

/-! ## Numerals are cut as they are meant

The reader cuts a text at its point and at its exponent, and a text that was made to be cut there is cut
right. -/

theorem mark_of_digit {c : Char} (digit : c.isDigit = true) : isExponentMark c = false := by
  rw [Bool.eq_false_iff]
  intro mark
  rcases Bool.or_eq_true _ _ ▸ mark with e | e <;> rw [beq_iff_eq.1 e] at digit <;>
    exact absurd digit (by decide)

theorem point_of_digit {c : Char} (digit : c.isDigit = true) : c ≠ '.' := by
  rintro rfl
  exact absurd digit (by decide)

/-- A sequence is cut where a property ends. -/
theorem cut_append {p : Char → Bool} {a b : List Char} (inside : ∀ c ∈ a, p c = true)
    (outside : ∀ c ∈ b.head?, p c = false) :
    (a ++ b).takeWhile p = a ∧ (a ++ b).dropWhile p = b := by
  rw [List.takeWhile_append_of_pos inside, List.dropWhile_append_of_pos inside]
  cases b with
  | nil => exact ⟨List.append_nil a, rfl⟩
  | cons c b =>
      have stop := outside c rfl
      rw [List.takeWhile_cons, List.dropWhile_cons, stop]
      exact ⟨List.append_nil a, rfl⟩

theorem digitsValue_eq (ds : List Char) : digitsValue ds = decimal ds := by
  rw [digitsValue, decimal, Nat.ofDigits_eq_foldr, List.foldr_map, List.foldl_eq_foldr_reverse]
  simp only [Nat.cast_id, Nat.mul_comm, Nat.add_comm]

/-- An exponent with digits is read as its value, as far as that is a word. -/
theorem exponent?_eq {sign ds : List Char} (signed : sign ∈ [[], ['+'], ['-']]) (filled : ds ≠ [])
    (digits : ∀ c ∈ ds, c.isDigit = true) :
    exponent? (sign ++ ds) = some (wordOfExponent (signedValue (sign ++ ds))) := by
  obtain ⟨c, t, rfl⟩ := List.exists_cons_of_ne_nil filled
  have all : (c :: t).all Char.isDigit = true := List.all_eq_true.2 digits
  have first : c.isDigit = true := digits c List.mem_cons_self
  have noMinus : c ≠ '-' := by
    rintro rfl
    exact absurd first (by decide)
  have noPlus : c ≠ '+' := by
    rintro rfl
    exact absurd first (by decide)
  simp only [List.mem_cons, List.not_mem_nil, or_false] at signed
  rcases signed with rfl | rfl | rfl
  · simp only [List.nil_append, exponent?, signedValue]
    split <;> simp_all [digitsValue_eq]
  · simp [exponent?, signedValue, all, digitsValue_eq]
  · simp [exponent?, signedValue, all, digitsValue_eq]

/-- A text is cut at the point and at the exponent, and refused only for what is between them. -/
theorem ofDigits?_eq {a b x : List Char} (whole : ∀ c ∈ a, c.isDigit = true)
    (point : b = [] ∨ ∃ t, b = '.' :: t) (plain : ∀ c ∈ b, isExponentMark c = false)
    (filled : a ++ b.drop 1 ≠ []) (scaled : Scaled x) :
    ofDigits? (a ++ b ++ x) = if (b.drop 1).all Char.isDigit then
      some ⟨wholeDigits (a ++ b ++ x), fractionDigits (a ++ b ++ x),
        wordOfExponent (exponentValue (a ++ b ++ x))⟩
    else none := by
  -- no mark stands before the exponent, so the first mark is where the text is cut
  have unmarked : ∀ c ∈ a ++ b, (!isExponentMark c) = true := by
    intro c hc
    rcases List.mem_append.1 hc with hc | hc
    · rw [mark_of_digit (whole c hc)]
      rfl
    · rw [plain c hc]
      rfl
  have marked : ∀ c ∈ x.head?, (!isExponentMark c) = false := by
    intro c hc
    cases scaled with
    | absent => cases hc
    | exponent mark =>
        obtain rfl := Option.some.inj hc
        rw [mark]
        rfl
  obtain ⟨before, behind⟩ := cut_append unmarked marked
  have ends : ∀ c ∈ b.head?, c = '.' := by
    intro c hc
    rcases point with rfl | ⟨t, rfl⟩
    · cases hc
    · exact (Option.some.inj hc).symm
  obtain ⟨front, back⟩ := cut_append (p := (· != '.')) (a := a) (b := b)
    (fun c hc => bne_iff_ne.2 (point_of_digit (whole c hc)))
    (fun c hc => by rw [ends c hc]; rfl)
  obtain ⟨frontDigits, backDigits⟩ := cut_append (p := Char.isDigit) (a := a) (b := b) whole
    (fun c hc => by rw [ends c hc]; rfl)
  have wholeIs : wholeDigits (a ++ b ++ x) = a := by rw [wholeDigits, mantissa, before, frontDigits]
  have fractionIs : fractionDigits (a ++ b ++ x) = b.drop 1 := by
    rw [fractionDigits, mantissa, before, backDigits]
  have exponentIs : exponentValue (a ++ b ++ x) = signedValue (x.drop 1) := by rw [exponentValue, behind]
  have some : (a.isEmpty && (b.drop 1).isEmpty) = false := by
    rw [Bool.eq_false_iff]
    intro none
    obtain ⟨first, second⟩ := Bool.and_eq_true_iff.1 none
    exact filled (by rw [List.isEmpty_iff.1 first, List.isEmpty_iff.1 second, List.append_nil])
  have all : a.all Char.isDigit = true := List.all_eq_true.2 whole
  -- with the parts known, only the digits of the fraction are left to be judged
  rw [wholeIs, fractionIs, exponentIs]
  unfold ofDigits?
  simp only [before, behind, front, back, some, all, Bool.not_true, Bool.false_or]
  by_cases rest : (b.drop 1).all Char.isDigit = true
  · rw [if_pos rest, rest]
    cases scaled with
    | absent => rfl
    | exponent mark signed filled digits =>
        simp only [List.drop_succ_cons, List.drop_zero, exponent?_eq signed filled digits]
        rfl
  · rw [if_neg rest, Bool.eq_false_iff.2 rest]
    rfl

/-! ## The magnitude

The measure of a numeral is computed from the place of its first significant digit and from its exponent,
both of which are words of 64 bits. -/

/-- The first significant digit stands no farther from the point than the literal is long. -/
theorem firstPlace_le (s : List Char) : |firstPlace s| ≤ s.length := by
  have mantissaLength : (mantissa s).length ≤ s.length := (List.takeWhile_sublist _).length_le
  have whole : (wholeDigits s).length ≤ s.length :=
    (List.takeWhile_sublist _).length_le.trans mantissaLength
  have fraction : (fractionDigits s).length ≤ s.length :=
    ((List.drop_sublist _ _).trans (List.dropWhile_sublist _)).length_le.trans mantissaLength
  unfold firstPlace
  split
  · have zeros := (List.takeWhile_sublist (· == '0') (l := fractionDigits s)).length_le
    rw [abs_neg, Nat.abs_cast]
    exact_mod_cast zeros.trans fraction
  · have stripped := (List.dropWhile_sublist (· == '0') (l := wholeDigits s)).length_le
    rw [Nat.abs_cast]
    exact_mod_cast stripped.trans whole

/-- The place that is computed is that of the first significant digit. -/
theorem place?_eq (s : List Char) (e : Int) :
    (IsZero s → place? ⟨wholeDigits s, fractionDigits s, e⟩ = none) ∧
    (¬ IsZero s → place? ⟨wholeDigits s, fractionDigits s, e⟩ = some (firstPlace s)) := by
  have zeros (l : List Char) : l.all isZeroDigit = true ↔ ∀ c ∈ l, c = '0' := by
    simp [List.all_eq_true, isZeroDigit]
  have same : (wholeDigits s).dropWhile isZeroDigit = (wholeDigits s).dropWhile (· == '0') := rfl
  unfold place? IsZero firstPlace
  dsimp only
  rw [same]
  -- without zeros in front, a digit that is left settles where the first place is
  rcases stripped : (wholeDigits s).dropWhile (· == '0') with _ | ⟨c, rest⟩
  · have whole : ∀ c ∈ wholeDigits s, c = '0' := by
      intro c hc
      simpa using List.dropWhile_eq_nil_iff.1 stripped c hc
    dsimp only
    refine ⟨fun all => if_pos ((zeros _).2 fun c hc => all c (List.mem_append_right _ hc)), fun other => ?_⟩
    refine if_neg fun all => other fun c hc => ?_
    exact (List.mem_append.1 hc).elim (whole c) ((zeros _).1 all c)
  -- some digit of the whole part is not zero, so the numeral is not
  · refine ⟨fun all => ?_, fun _ => rfl⟩
    have none : (wholeDigits s).dropWhile (· == '0') = [] :=
      List.dropWhile_eq_nil_iff.2 fun c hc => by simp [all c (List.mem_append_left _ hc)]
    rw [none] at stripped
    cases stripped

/-- An exponent that is no word moves the digits out of reach, and so does the word that is taken for it. -/
theorem reach_iff {p e : Int} (near : |p| ≤ 2 ^ 56) (low : -2700000000000000000 < e) :
    Word.abs (scaled (Word.saturate (p + wordOfExponent e))) ≤ maxBinaryExponent ↔ |p + e| ≤ 30103 := by
  have limits := abs_le.1 near
  by_cases word : Word.holds e = true
  · rw [wordOfExponent, if_pos word]
    have between := Bool.and_eq_true_iff.1 word
    rw [decide_eq_true_eq, decide_eq_true_eq, Word.least, Word.greatest] at between
    rw [scaled_iff (by unfold Word.saturate Word.least Word.greatest; omega)
      (by unfold Word.saturate Word.least Word.greatest; omega), abs_le, abs_le]
    unfold Word.saturate Word.least Word.greatest
    omega
  · have above : 2 ^ 63 - 1 < e := by
      rw [Word.holds, Bool.and_eq_true, decide_eq_true_eq, decide_eq_true_eq, Word.least,
        Word.greatest] at word
      omega
    rw [wordOfExponent, if_neg word, if_neg (by omega)]
    rw [scaled_iff (by unfold Word.saturate Word.least Word.greatest; omega)
      (by unfold Word.saturate Word.least Word.greatest; omega), abs_le, abs_le]
    unfold Word.saturate Word.least Word.greatest
    omega

/-- The measure of a numeral is that of its digits, unless the exponent is far below zero or the text is
longer than any machine can hold. -/
theorem inBounds_iff {s : List Char} (low : -2700000000000000000 < exponentValue s)
    (short : s.length ≤ 2 ^ 56) :
    inBounds ⟨wholeDigits s, fractionDigits s, wordOfExponent (exponentValue s)⟩ = true ↔ InReach s := by
  have near : |firstPlace s| ≤ 2 ^ 56 := (firstPlace_le s).trans (by exact_mod_cast short)
  have place := place?_eq s (wordOfExponent (exponentValue s))
  rw [inBounds, decide_eq_true_eq, binaryExponent]
  by_cases zero : IsZero s
  · rw [place.1 zero]
    dsimp only
    exact ⟨fun _ => .inl zero, fun _ => by decide⟩
  · rw [place.2 zero]
    exact (reach_iff near low).trans ⟨.inr, fun reach => reach.resolve_left zero⟩

end Numeral

end RegoSyntax
