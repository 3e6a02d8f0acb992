/-
# RegoSyntax.Proofs.Infix.Formulas — formulas of binary operators, and their text.

A `Formula` is a tree of binary operators over whole numbers and names.  Its text has an operator between
its operands, single blanks around it, and parentheses only where the tree would be another one without
them: around a left operand that is looser than the operator, and around a right operand that is not
tighter.  How loose an operator is, is its height: the height of its tier, and membership is above all
tiers.

What is found here are the tokens of such a text: what it starts with, what an operator between blanks is
read as, and what stands behind an operand.
-/
import RegoSyntax.Proofs.Printing.Roundtrip
import RegoSyntax.Proofs.Scalars.Magnitude

namespace RegoSyntax

open Parse Lexeme

/-! ## Operators

The operators of six tiers, with the words that they are written as and the functions that they call. -/

/-- The binary operators of terms. -/
inductive Infix where
  | member
  | equal
  | unequal
  | less
  | greater
  | atMost
  | atLeast
  | union
  | intersection
  | plus
  | minus
  | times
  | divided
  | remainder
deriving DecidableEq, Repr

namespace Infix

/-- How an operator is written. -/
def word : Infix → String
  | member => "in"
  | equal => "=="
  | unequal => "!="
  | less => "<"
  | greater => ">"
  | atMost => "<="
  | atLeast => ">="
  | union => "|"
  | intersection => "&"
  | plus => "+"
  | minus => "-"
  | times => "*"
  | divided => "/"
  | remainder => "%"

/-- The path of the function that an operator calls. -/
def path : Infix → List Value
  | member => [.var "internal", .string "member_2"]
  | equal => [.var "equal"]
  | unequal => [.var "neq"]
  | less => [.var "lt"]
  | greater => [.var "gt"]
  | atMost => [.var "lte"]
  | atLeast => [.var "gte"]
  | union => [.var "or"]
  | intersection => [.var "and"]
  | plus => [.var "plus"]
  | minus => [.var "minus"]
  | times => [.var "mul"]
  | divided => [.var "div"]
  | remainder => [.var "rem"]

/-- The tier of an operator; membership has none. -/
def tier? : Infix → Option Tier
  | member => none
  | equal | unequal | less | greater | atMost | atLeast => some .relation
  | union => some .union
  | intersection => some .intersection
  | plus | minus => some .sum
  | times | divided | remainder => some .product

/-- How loose an operator is. -/
def height (op : Infix) : Nat := (op.tier?.map Tier.height).getD 6

/-- The token of an operator. -/
def token : Infix → Token
  | member => .inKw
  | equal => .equal
  | unequal => .neq
  | less => .lt
  | greater => .gt
  | atMost => .lte
  | atLeast => .gte
  | union => .bar
  | intersection => .amp
  | plus => .plus
  | minus => .minus
  | times => .star
  | divided => .slash
  | remainder => .percent

/-- The term that names the function of an operator. -/
def callee (op : Infix) : Term := .ofValue (.ref (op.path.map .ofValue))

theorem operators_contains (op : Infix) (tier : Tier) :
    tier.operators.contains op.token = decide (op.tier? = some tier) := by
  cases op <;> cases tier <;> rfl

theorem height_eq {op : Infix} {tier : Tier} (h : op.tier? = some tier) : op.height = tier.height := by
  rw [height, h]
  rfl

theorem eq_member {op : Infix} (h : op.tier? = none) : op = member := by
  cases op <;> first | rfl | cases h

theorem height_pos (op : Infix) : 0 < op.height := by
  cases op <;> decide

theorem height_le_six (op : Infix) : op.height ≤ 6 := by
  cases op <;> decide

/-- An operator of a tier calls the function that its token is named after. -/
theorem same_callee {op : Infix} {tier : Tier} (h : op.tier? = some tier) (l m : Option Location) :
    op.callee.same ⟨.ref [⟨.var op.token.name, l⟩], m⟩ = true := by
  have path : op.path = [.var op.token.name] := by
    cases op <;> first | rfl | cases h
  rw [callee, path, Term.same_eq]
  simp [Term.ofValue, Value.same, sameTerms, Term.same]

/-- Membership calls its own function. -/
theorem same_member_callee {op : Term} (h : op.IsMember 2) : member.callee.same op = true :=
  same_member ⟨none, none, rfl⟩ h

/-- An operator between blanks is its token. -/
theorem shown_word (op : Infix) (s : List Char) :
    shown (op.word.toList ++ ' ' :: s) = op.token ∧ behind (op.word.toList ++ ' ' :: s) = ' ' :: s ∧
      Legal (op.word.toList ++ ' ' :: s) := by
  cases op with
  | member => exact Page.shown_inText s
  | _ => exact ⟨rfl, rfl, ⟨rfl, nofun⟩, nofun⟩

theorem word_ne_nil (op : Infix) : op.word.toList ≠ [] := by
  cases op <;> decide

end Infix

namespace Tier

/-- Tiers of one height are one tier. -/
theorem height_injective {a b : Tier} (h : a.height = b.height) : a = b := by
  cases a <;> cases b <;> first | rfl | cases h

theorem height_le (tier : Tier) : tier.height ≤ 5 := by
  cases tier <;> decide

/-- Each height up to that of the loosest tier is the height of a tier. -/
theorem exists_height {h : Nat} (pos : 0 < h) (le : h ≤ 5) : ∃ tier : Tier, tier.height = h := by
  have all : ∀ h ≤ 5, 0 < h → ∃ tier ∈ [product, sum, intersection, union, relation], tier.height = h := by
    decide
  obtain ⟨tier, -, same⟩ := all h le pos
  exact ⟨tier, same⟩

/-- A tighter tier is lower by one. -/
theorem height_of_tighter {tier tighter : Tier} (h : tier.tighter? = some tighter) :
    tier.height = tighter.height + 1 := by
  cases tier <;> cases h <;> rfl

theorem height_of_tightest {tier : Tier} (h : tier.tighter? = none) : tier.height = 1 := by
  cases tier <;> first | rfl | cases h

end Tier

/-! ## Formulas

The text of a formula has parentheses where the height of an operand asks for them, and nowhere else. -/

/-- A whole number in decimal digits, of which none can be left out. -/
structure WholeNumber where
  negative : Bool
  digits : List Char
  decimal : ∀ c ∈ digits, c.isDigit = true
  filled : digits ≠ []
  significant : digits.head? = some '0' → digits.length = 1
  short : digits.length ≤ 30000

/-- An identifier that is reserved in no way. -/
structure PlainName where
  text : String
  word : IsWord text.toList
  free : Version.v1.reserves text = false
  named : text ≠ wildcard
  notRoot : text ≠ dataRoot ∧ text ≠ inputRoot

/-- A tree of binary operators. -/
inductive Formula where
  | number (z : WholeNumber)
  | name (x : PlainName)
  | apply (op : Infix) (left right : Formula)

/-- The spelling of a whole number. -/
def WholeNumber.spelling (z : WholeNumber) : String :=
  (if z.negative then "-" else "") ++ String.ofList z.digits

/-- A text in parentheses. -/
def inParens (s : List Char) : List Char := '(' :: (s ++ [')'])

namespace Formula

/-- How loose a formula is: as loose as its operator, and a single operand is not loose at all. -/
def height : Formula → Nat
  | number _ | name _ => 0
  | apply op _ _ => op.height

/-- The text of a formula. -/
def text : Formula → List Char
  | number z => z.spelling.toList
  | name x => x.text.toList
  | apply op left right =>
    (if op.height < left.height then inParens left.text else left.text) ++
      ' ' :: (op.word.toList ++ ' ' ::
        (if op.height ≤ right.height then inParens right.text else right.text))

/-- A formula as a source. -/
def render (f : Formula) : String := String.ofList f.text

/-- The tree of calls that a formula stands for. -/
def term : Formula → Term
  | number z => .ofValue (.number z.spelling)
  | name x => .ofValue (.var x.text)
  | apply op left right => .ofValue (.call [op.callee, left.term, right.term])

/-- What an expression consists of that is a formula. -/
def terms : Formula → ExprTerms
  | apply op left right => .call [op.callee, left.term, right.term]
  | f => .term f.term

theorem terms_number (z : WholeNumber) : (number z).terms = .term (number z).term := rfl

theorem terms_name (x : PlainName) : (name x).terms = .term (name x).term := rfl

/-- The expression that a formula stands for. -/
def expr (f : Formula) : Expr := .ofTerms f.terms

/-- The text of a formula where nothing looser than a height may stand. -/
def within (h : Nat) (f : Formula) : List Char := if h < f.height then inParens f.text else f.text

/-- The text of an operator with its operands.  The right operand may be less loose than the left one. -/
theorem text_apply (op : Infix) (left right : Formula) :
    (apply op left right).text = left.within op.height ++ ' ' :: (op.word.toList ++ ' ' ::
      right.within (op.height - 1)) := by
  have pos := op.height_pos
  have same : (op.height ≤ right.height) = (op.height - 1 < right.height) := by
    rw [eq_iff_iff]
    omega
  simp only [text, within, same]

/-- Both operands of a difference are differences here, and only the right one needs parentheses. -/
example :
    let one := number ⟨false, ['1'], List.forall_mem_singleton.2 rfl, by decide, by decide, by decide⟩
    let difference := apply .minus one one
    (apply .minus difference difference).text = "1 - 1 - (1 - 1)".toList := by
  decide +kernel

theorem text_apply_append (op : Infix) (left right : Formula) (s : List Char) :
    (apply op left right).text ++ s = left.within op.height ++ ' ' :: (op.word.toList ++ ' ' ::
      (right.within (op.height - 1) ++ s)) := by
  rw [text_apply]
  simp only [List.append_assoc, List.cons_append]

theorem within_of_le {h : Nat} {f : Formula} (le : f.height ≤ h) : f.within h = f.text :=
  if_neg (Nat.not_lt.2 le)

theorem within_of_lt {h : Nat} {f : Formula} (lt : h < f.height) : f.within h = inParens f.text :=
  if_pos lt

/-- Parentheses are the same at two heights that no height of a formula separates. -/
theorem within_succ {h : Nat} {f : Formula} (apart : f.height ≠ h + 1) :
    f.within (h + 1) = f.within h := by
  have same : (h + 1 < f.height) = (h < f.height) := by
    rw [eq_iff_iff]
    omega
  simp only [within, same]

theorem height_le_six (f : Formula) : f.height ≤ 6 := by
  cases f with
  | apply op => exact op.height_le_six
  | _ => exact Nat.zero_le _

end Formula

/-! ## Operands

An operand is one token, and the text of a formula starts with a token of a term or with a parenthesis. -/

namespace WholeNumber

variable (z : WholeNumber)

theorem next_digits (r : List Char) (closes : Closes r) :
    next (z.digits ++ r) = ⟨.number, z.digits.length, []⟩ := by
  obtain ⟨c, s, cons⟩ := List.exists_cons_of_ne_nil z.filled
  have digit : c.isDigit = true := z.decimal c (cons ▸ List.mem_cons_self)
  have run : run Char.isDigit (z.digits ++ []) = z.digits.length :=
    run_append_all z.decimal (by simp)
  have alone : number (z.digits ++ []) = ⟨.number, z.digits.length, []⟩ := by
    refine number_eq_iff.2 ⟨_, 0, 0, run, ?_, ?_, ?_, rfl⟩ <;> simp [fractionSize, exponentSize, Lexeme.run]
  refine next_number (b := []) ?_ closes.apart closes.head
  rw [cons, List.cons_append, next_digit digit, ← List.cons_append, ← cons, alone]

/-- A whole number is read as a number. -/
theorem spelled : Spelled z.spelling := by
  -- digits are none of the marks that a number is cut at
  have noMark : ∀ c ∈ z.digits, Numeral.isExponentMark c = false ∧ (c != '.') = true ∧ c ≠ '-' := by
    intro c hc
    have digit := z.decimal c hc
    refine ⟨Bool.eq_false_iff.2 fun mark => ?_, bne_iff_ne.2 ?_, ?_⟩
    · rcases Bool.or_eq_true _ _ ▸ mark with e | e <;> rw [beq_iff_eq.1 e] at digit <;>
        exact absurd digit (by decide)
    all_goals
      rintro rfl
      exact absurd digit (by decide)
  have mantissa : z.digits.takeWhile (!Numeral.isExponentMark ·) = z.digits :=
    List.takeWhile_eq_self_iff.2 fun c hc => by simp [(noMark c hc).1]
  have noExponent : z.digits.dropWhile (!Numeral.isExponentMark ·) = [] :=
    List.dropWhile_eq_nil_iff.2 fun c hc => by simp [(noMark c hc).1]
  have whole : z.digits.takeWhile (· != '.') = z.digits :=
    List.takeWhile_eq_self_iff.2 fun c hc => (noMark c hc).2.1
  have noPoint : z.digits.dropWhile (· != '.') = [] :=
    List.dropWhile_eq_nil_iff.2 fun c hc => (noMark c hc).2.1
  have digits : Numeral.ofDigits? z.digits = some ⟨z.digits, [], 0⟩ := by
    simp [Numeral.ofDigits?, mantissa, noExponent, whole, noPoint, z.filled]
    exact z.decimal
  have numeral : Numeral.ofText? z.spelling = some ⟨z.digits, [], 0⟩ := by
    obtain ⟨c, s, cons⟩ := List.exists_cons_of_ne_nil z.filled
    have unsigned : c ≠ '-' := (noMark c (cons ▸ List.mem_cons_self)).2.2
    rw [cons] at digits
    unfold Numeral.ofText? spelling
    rw [String.toList_append, String.toList_ofList, cons]
    cases z.negative with
    | false =>
        split
        · next same => exact absurd (List.cons.inj same).1 unsigned
        · exact digits
    | true => exact digits
  -- as few digits as there are here are far below the limit
  have bounds : Numeral.inBounds ⟨z.digits, [], 0⟩ = true := by
    unfold Numeral.inBounds Numeral.binaryExponent Numeral.place?
    have fewer : (z.digits.dropWhile Numeral.isZeroDigit).length ≤ z.digits.length :=
      (List.dropWhile_sublist _).length_le
    have short := z.short
    cases left : z.digits.dropWhile Numeral.isZeroDigit with
    | nil => rfl
    | cons c s =>
        rw [left] at fewer
        have place : Word.saturate ((c :: s).length + 0) = ((c :: s).length : Int) := by
          unfold Word.saturate Word.least Word.greatest
          omega
        dsimp only
        rw [decide_eq_true_eq, place, Numeral.scaled_iff (by omega) (by unfold Word.greatest; omega),
          Nat.abs_cast]
        omega
  -- only zero itself starts with a zero
  have zero : Numeral.hasLeadingZero z.digits = false := by
    unfold Numeral.hasLeadingZero
    split
    · next c s leading =>
        have single := z.significant (by rw [leading]; rfl)
        rw [leading] at single
        simp at single
    · rfl
  refine ⟨z.negative, false, String.ofList z.digits, [], ?_, ?_, fun _ => ?_, _, numeral, bounds⟩
  · rw [spelling]
    simp
  · rw [String.toList_ofList]
    exact z.next_digits [] .atEnd
  · rw [String.toList_ofList]
    exact zero

end WholeNumber

namespace PlainName

variable (x : PlainName)

theorem unreserved : Unreserved x.text := by
  have absent : (KeywordTable.current.get? x.text).isSome = false := by
    rw [KeywordTable.current_get?_isSome, x.free]
  exact Option.not_isSome_iff_eq_none.1 (Bool.eq_false_iff.1 absent)

/-- A plain name is read as a variable. -/
theorem speakable : Speakable x.text := ⟨x.word, x.named, .inl x.unreserved⟩

theorem not_root : isRoot (.var x.text) = false := by
  simp [isRoot, Value.isVarNamed, Value.varName?, x.notRoot.1, x.notRoot.2]

end PlainName

namespace Formula

/-- The tokens that the text of a formula starts with. -/
def openings : List Token := [.minus, .dot, .number, .ident, .lparen]

/-- A text that starts a formula starts one in parentheses too. -/
theorem first_within {f : Formula} {h : Nat} {r : List Char}
    (first : Legal (f.text ++ r) ∧ shown (f.text ++ r) ∈ openings) :
    Legal (f.within h ++ r) ∧ shown (f.within h ++ r) ∈ openings := by
  unfold within
  split
  · exact ⟨⟨⟨rfl, nofun⟩, nofun⟩, List.contains_iff_mem.1 rfl⟩
  · exact first

/-- The text of a formula starts with a legal token. -/
theorem first (f : Formula) {r : List Char} (closes : Closes r) :
    Legal (f.text ++ r) ∧ shown (f.text ++ r) ∈ openings := by
  induction f generalizing r with
  | number z =>
      obtain ⟨legal, token⟩ := z.spelled.first closes
      have listed : ∀ kind ∈ [Token.minus, .dot, .number], kind ∈ openings := by decide
      exact ⟨legal, listed _ token⟩
  | name x =>
      refine ⟨legal_of_word x.word r, ?_⟩
      rw [show (name x).text = x.text.toList from rfl, shown_word x.word closes.apart,
        String.ofList_toList, x.unreserved]
      decide
  | apply op left right ih _ =>
      rw [text_apply_append]
      exact first_within (ih (.blank (op.shown_word _).2.2))

theorem text_ne_nil (f : Formula) : f.text ≠ [] := by
  intro none
  have first := (f.first .atEnd).2
  rw [none] at first
  exact absurd first (by decide)

end Formula

end RegoSyntax
