/-
# RegoSyntax.Proofs.Scalars.Magnitude — which decimal exponents a binary exponent is in bounds for.

The bound on the size of a number is one on a binary exponent, and this is computed: the place of the first
digit and the exponent are added in 64 bits, the sum is turned into a floating-point number and multiplied
by the binary logarithm of ten, and what comes out is cut down to a word, whose absolute value is compared.
Each of the two roundings is off by one part in `2 ^ 53` at most (`Binary64.ofRatio?_near`), so between the
decimal exponent 30103, for which the product is a hundred thousand and a little, and 30104 there is room
enough for both, and exactly the decimal exponents up to 30103 are within bounds (`Numeral.scaled_iff`).

On the negative side this ends where the product is no word any more: the least word is taken for it, and
the absolute value of that one wraps around.  What is in front of this is far from any exponent of a source
that a machine can hold, if the exponent that is written is not.
-/
import Mathlib.Algebra.Order.Field.Power
import Mathlib.Algebra.Order.Floor.Semiring
import Mathlib.Data.Rat.Floor
import Mathlib.Tactic.Linarith
import Mathlib.Tactic.Positivity
import Mathlib.Tactic.FieldSimp
import Mathlib.Tactic.Ring
import RegoSyntax.Number.Numeral

namespace RegoSyntax

namespace Binary64

/-! ## Rounding

A ratio is rounded to 53 binary digits, and the outcome is off by half a unit in the last place at most.
All of it is told by rational numbers. -/

/-- The magnitude of a number. -/
def size (x : Binary64) : ℚ := x.mantissa * 2 ^ x.exponent

/-- The scale of a number by a power of two is the ratio it stands for. -/
theorem scale_eq (n : Nat) (e : Int) :
    0 < (scale n e).2 ∧ ((scale n e).1 : ℚ) / (scale n e).2 = n * 2 ^ e := by
  cases e with
  | ofNat k =>
      refine ⟨Nat.one_pos, ?_⟩
      simp [scale]
  | negSucc k =>
      refine ⟨Nat.two_pow_pos _, ?_⟩
      simp [scale, zpow_negSucc, div_eq_mul_inv]

/-- A magnitude as a ratio. -/
theorem magnitude_eq (x : Binary64) :
    0 < x.magnitude.2 ∧ (x.magnitude.1 : ℚ) / x.magnitude.2 = x.size := scale_eq _ _

/-- A quotient is rounded to a natural number that is half a unit away at most. -/
theorem roundDiv_near {a b : Nat} (pos : 0 < b) : |(roundDiv a b : ℚ) - a / b| ≤ 1 / 2 := by
  have pos' : (0 : ℚ) < b := by exact_mod_cast pos
  have below : ((a % b : Nat) : ℚ) ≤ b := by exact_mod_cast (Nat.mod_lt a pos).le
  have quotient : (a : ℚ) / b = (a / b : Nat) + (a % b : Nat) / b := by
    have parts : (a : ℚ) = b * (a / b : Nat) + (a % b : Nat) := by exact_mod_cast (Nat.div_add_mod a b).symm
    nth_rewrite 1 [parts]
    field_simp
  -- the quotient is kept where the remainder is half a unit at most, and raised where it is at least that
  have kept (half : 2 * (a % b) ≤ b) : |((a / b : Nat) : ℚ) - a / b| ≤ 1 / 2 := by
    have half : 2 * ((a % b : Nat) : ℚ) ≤ b := by exact_mod_cast half
    rw [quotient, sub_add_cancel_left, abs_neg, abs_of_nonneg (by positivity), div_le_div_iff₀ pos' two_pos]
    linarith
  have raised (half : b ≤ 2 * (a % b)) : |((a / b + 1 : Nat) : ℚ) - a / b| ≤ 1 / 2 := by
    have half : (b : ℚ) ≤ 2 * (a % b : Nat) := by exact_mod_cast half
    have atMost : ((a % b : Nat) : ℚ) / b ≤ 1 := (div_le_one pos').2 below
    have atLeast : 1 / 2 ≤ ((a % b : Nat) : ℚ) / b := by
      rw [div_le_div_iff₀ two_pos pos']
      linarith
    rw [quotient, Nat.cast_add, Nat.cast_one, abs_le]
    constructor <;> linarith
  unfold roundDiv
  dsimp only
  split
  · next half => exact kept half.le
  · next half =>
      split
      · next more => exact raised more.le
      · split
        · exact kept (by omega)
        · exact raised (by omega)

/-- A ratio in units of a power of two is rounded to one that is half a unit away at most. -/
theorem roundAt_near (a : Nat) {b : Nat} (pos : 0 < b) (e : Int) :
    |(roundAt a b e : ℚ) * 2 ^ e - a / b| ≤ 2 ^ e / 2 := by
  have unit : (0 : ℚ) < 2 ^ e := by positivity
  have near : |(roundAt a b e : ℚ) - a / b / 2 ^ e| ≤ 1 / 2 := by
    cases e with
    | ofNat k =>
        have near := roundDiv_near (a := a) (Nat.mul_pos pos (Nat.two_pow_pos k))
        rw [Nat.cast_mul, ← div_div, Nat.cast_pow, Nat.cast_two] at near
        exact near
    | negSucc k =>
        have near := roundDiv_near (a := a * 2 ^ (k + 1)) pos
        rw [Nat.cast_mul, mul_div_right_comm, Nat.cast_pow, Nat.cast_two] at near
        rw [zpow_negSucc, div_inv_eq_mul]
        exact near
  have whole : (roundAt a b e : ℚ) * 2 ^ e - a / b = (roundAt a b e - a / b / 2 ^ e) * 2 ^ e := by
    field_simp
  rw [whole, abs_mul, abs_of_pos unit]
  calc |(roundAt a b e : ℚ) - a / b / 2 ^ e| * 2 ^ e
      ≤ 1 / 2 * 2 ^ e := mul_le_mul_of_nonneg_right near unit.le
    _ = 2 ^ e / 2 := by ring

/-- The logarithms tell the size of a ratio up to a factor of two. -/
theorem zpow_le_ratio {a b : Nat} (ha : a ≠ 0) (hb : b ≠ 0) :
    (2 : ℚ) ^ ((a.log2 : Int) - b.log2 - 1) ≤ a / b := by
  have above : (2 : ℚ) ^ a.log2 ≤ a := by exact_mod_cast Nat.log2_self_le ha
  have below : (b : ℚ) ≤ 2 ^ (b.log2 + 1) := by exact_mod_cast (Nat.lt_log2_self (n := b)).le
  have pos : (0 : ℚ) < b := by exact_mod_cast Nat.pos_of_ne_zero hb
  rw [sub_sub, zpow_sub₀ two_ne_zero, div_le_div_iff₀ (by positivity) pos]
  calc (2 : ℚ) ^ (a.log2 : Int) * b ≤ a * 2 ^ (b.log2 + 1) := by
        rw [zpow_natCast]
        exact mul_le_mul above below pos.le (Nat.cast_nonneg a)
    _ = a * 2 ^ ((b.log2 : Int) + 1) := by rw [← Nat.cast_succ, zpow_natCast]

theorem zpow_le_of_fills {a b : Nat} {e : Int} (hb : b ≠ 0) (h : fills a b e = true) :
    (2 : ℚ) ^ (e + 52) ≤ a / b := by
  have pos : (0 : ℚ) < b := by exact_mod_cast Nat.pos_of_ne_zero hb
  rw [le_div_iff₀ pos, zpow_add₀ two_ne_zero]
  cases e with
  | ofNat k =>
      have h : ((b * 2 ^ k * 2 ^ 52 : Nat) : ℚ) ≤ a := by exact_mod_cast of_decide_eq_true h
      push_cast at h
      rw [Int.ofNat_eq_natCast, zpow_natCast]
      linarith
  | negSucc k =>
      have h : ((b * 2 ^ 52 : Nat) : ℚ) ≤ (a * 2 ^ (k + 1) : Nat) := by exact_mod_cast of_decide_eq_true h
      push_cast at h
      rw [zpow_negSucc, mul_assoc, inv_mul_le_iff₀ (by positivity)]
      linarith

/-- A ratio that is not below one has 53 digits in front of its place. -/
theorem placeOf_spec {a b : Nat} (ha : a ≠ 0) (hb : b ≠ 0) (large : (1 : ℚ) ≤ a / b) :
    (2 : ℚ) ^ (placeOf a b + 52) ≤ a / b ∧ placeOf a b ≤ (a.log2 : Int) - b.log2 - 52 := by
  have guessed := zpow_le_ratio ha hb
  have filled := zpow_le_of_fills (a := a) (e := (a.log2 : Int) - b.log2 - 53 + 1) hb
  have inverse := zpow_le_ratio hb ha
  have atMost : (b : ℚ) / a ≤ 2 ^ (0 : Int) := by
    rw [← inv_div, zpow_zero]
    exact inv_le_one_of_one_le₀ large
  have large : (b.log2 : Int) - a.log2 - 1 ≤ 0 :=
    (zpow_le_zpow_iff_right₀ one_lt_two).1 (inverse.trans atMost)
  unfold placeOf
  dsimp only
  have least (e : Int) (near : (a.log2 : Int) - b.log2 - 53 ≤ e) : max minExponent e = e :=
    max_eq_right (by unfold minExponent; omega)
  split
  · next fills =>
      rw [least _ (by omega)]
      exact ⟨filled fills, by omega⟩
  · rw [least _ (by omega), show (a.log2 : Int) - b.log2 - 53 + 52 = a.log2 - b.log2 - 1 by omega]
    exact ⟨guessed, by omega⟩

/-- A ratio that is neither below one nor huge is rounded to a number that is one part in `2 ^ 53` away at
most. -/
theorem ofRatio?_near (negative : Bool) {a b : Nat} (ha : a ≠ 0) (hb : b ≠ 0) (large : (1 : ℚ) ≤ a / b)
    (small : (a / b : ℚ) ≤ 2 ^ (900 : Int)) :
    ∃ x, ofRatio? negative a b = some x ∧ x.negative = negative ∧
      |x.size - a / b| ≤ (a / b : ℚ) / 2 ^ 53 := by
  obtain ⟨fills, place⟩ := placeOf_spec ha hb large
  have small : (a.log2 : Int) - b.log2 - 1 ≤ 900 :=
    (zpow_le_zpow_iff_right₀ one_lt_two).1 ((zpow_le_ratio ha hb).trans small)
  have near := roundAt_near a (Nat.pos_of_ne_zero hb) (placeOf a b)
  unfold ofRatio?
  rw [if_neg (by simpa using ha)]
  dsimp only
  generalize placeOf a b = e at fills place near ⊢
  have half : (2 : ℚ) ^ e / 2 ≤ a / b / 2 ^ 53 := by
    rw [zpow_add₀ two_ne_zero] at fills
    rw [div_le_div_iff₀ two_pos (by positivity)]
    linarith
  split
  · next full =>
      -- the rounding has filled one more digit
      have full : roundAt a b e = 2 ^ 53 := beq_iff_eq.1 full
      refine ⟨_, if_neg (by unfold maxExponent; dsimp only; omega), rfl, ?_⟩
      have same : size ⟨negative, 2 ^ 52, e + 1⟩ = (roundAt a b e : ℚ) * 2 ^ e := by
        rw [size, full, zpow_add₀ two_ne_zero]
        push_cast
        ring
      rw [show Nat.pow 2 52 = 2 ^ 52 from rfl, same]
      exact near.trans half
  · refine ⟨_, if_neg (by unfold maxExponent; dsimp only; omega), rfl, ?_⟩
    exact near.trans half

/-- The integer part of a number, as a word. -/
theorem toWord_eq (x : Binary64) :
    x.toWord = Word.saturate (if x.negative then -⌊x.size⌋ else ⌊x.size⌋) := by
  have whole : ⌊x.size⌋ = ((x.magnitude.1 / x.magnitude.2 : Nat) : Int) := by
    rw [← x.magnitude_eq.2, Rat.floor_natCast_div_natCast, Int.natCast_div]
  rw [whole]
  rfl

end Binary64

namespace Numeral

/-! ## Scaling

The product with the logarithm is rounded twice, once when the exponent is turned into a number and once
when it is multiplied.  Both errors are small against the gap between two decimal exponents, which is more
than three. -/

/-- The magnitude of the logarithm. -/
def logSize : ℚ := 0x1A934F0979A371 / 2 ^ 51

theorem log2Ten_magnitude : log2Ten.magnitude = (0x1A934F0979A371, 2 ^ 51) := by decide +kernel

/-- A whole number is rounded as a ratio over one. -/
theorem ofInt?_eq (n : Int) : Binary64.ofInt? n = Binary64.ofRatio? (n < 0) n.natAbs 1 := rfl

/-- The product with the logarithm. -/
theorem mul?_log2Ten (x : Binary64) :
    x.mul? log2Ten = Binary64.ofRatio? (x.negative != false) (x.magnitude.1 * 0x1A934F0979A371)
      (x.magnitude.2 * 2 ^ 51) := by
  rw [Binary64.mul?, log2Ten_magnitude]
  rfl

/-- Numbers below `2 ^ 200` are far from the largest ones. -/
theorem le_zpow_of_le {q : ℚ} (h : q ≤ 2 ^ 200) : q ≤ 2 ^ (900 : Int) := by
  refine h.trans ?_
  rw [← zpow_natCast]
  exact zpow_le_zpow_right₀ one_le_two (by norm_num)

/-- A decimal exponent is scaled to the integer part of a number close to its product with the logarithm. -/
theorem scaled_near {d : Int} (other : d ≠ 0) (word : d.natAbs ≤ 2 ^ 63) :
    ∃ p : ℚ, |p - d.natAbs * logSize| ≤ d.natAbs * logSize / 2 ^ 51 ∧
      scaled d = Word.saturate (if d < 0 then -⌊p⌋ else ⌊p⌋) := by
  have filled : d.natAbs ≠ 0 := Int.natAbs_ne_zero.2 other
  have large : (1 : ℚ) ≤ d.natAbs := by exact_mod_cast Nat.one_le_iff_ne_zero.2 filled
  have small : (d.natAbs : ℚ) ≤ 2 ^ 63 := by exact_mod_cast word
  -- the exponent itself is rounded first
  obtain ⟨x, first, sign, near⟩ := Binary64.ofRatio?_near (d < 0) (b := 1) filled one_ne_zero
    (by simpa using large) (by
      rw [Nat.cast_one, div_one]
      exact le_zpow_of_le (small.trans (by norm_num)))
  rw [← ofInt?_eq] at first
  rw [Nat.cast_one, div_one, abs_le] at near
  generalize (d.natAbs : ℚ) = n at large small near
  obtain ⟨pos, size⟩ := x.magnitude_eq
  have ratio : ((x.magnitude.1 * 0x1A934F0979A371 : Nat) : ℚ) / (x.magnitude.2 * 2 ^ 51 : Nat) =
      x.size * logSize := by
    rw [Nat.cast_mul, Nat.cast_mul, mul_div_mul_comm, size, logSize]
    norm_num
  have atLeast : 1 ≤ x.size * logSize := by
    unfold logSize
    linarith
  have more : x.magnitude.1 * 0x1A934F0979A371 ≠ 0 := by
    intro none
    rw [none, Nat.cast_zero, zero_div] at ratio
    rw [← ratio] at atLeast
    exact absurd atLeast (by norm_num)
  have notHuge : x.size * logSize ≤ 2 ^ 66 := by
    unfold logSize
    linarith
  -- then the product
  obtain ⟨y, second, sign', near'⟩ := Binary64.ofRatio?_near (x.negative != false) more
    (Nat.mul_ne_zero pos.ne' (Nat.two_pow_pos 51).ne') (by rwa [ratio])
    (by rw [ratio]; exact le_zpow_of_le (notHuge.trans (by norm_num)))
  rw [← mul?_log2Ten] at second
  rw [ratio, abs_le] at near'
  refine ⟨y.size, ?_, ?_⟩
  · unfold logSize at near' ⊢
    rw [abs_le]
    constructor <;> linarith
  · rw [scaled, first, Option.bind_some, second]
    dsimp only
    rw [Binary64.toWord_eq, sign', sign]
    simp

theorem scaled_zero : scaled 0 = 0 := by decide +kernel

/-- Exactly the decimal exponents up to 30103 are scaled to a word within bounds, as long as the product is a
word. -/
theorem scaled_iff {d : Int} (low : -2776500000000000000 < d) (high : d ≤ Word.greatest) :
    Word.abs (scaled d) ≤ maxBinaryExponent ↔ |d| ≤ 30103 := by
  by_cases other : d = 0
  · subst other
    rw [scaled_zero]
    decide
  have word : d.natAbs ≤ 2 ^ 63 := by
    unfold Word.greatest at high
    omega
  obtain ⟨p, near, same⟩ := scaled_near other word
  rw [same, Int.abs_eq_natAbs]
  generalize size : d.natAbs = n at near ⊢
  rw [abs_le] at near
  unfold logSize at near
  -- the product of 30103 is close to a hundred thousand, that of the next exponent is beyond it
  have cut : ⌊p⌋ ≤ 100000 ↔ n ≤ 30103 := by
    rw [← Int.lt_add_one_iff, Int.floor_lt]
    push_cast
    constructor
    · intro below
      by_contra beyond
      have beyond : (30104 : ℚ) ≤ n := by exact_mod_cast Nat.succ_le_of_lt (Nat.lt_of_not_le beyond)
      linarith
    · intro within
      have within : (n : ℚ) ≤ 30103 := by exact_mod_cast within
      linarith
  have nonneg : 0 ≤ ⌊p⌋ := by
    rw [Int.floor_nonneg]
    have : (0 : ℚ) ≤ n := Nat.cast_nonneg n
    linarith
  have within : (n : Int) ≤ 30103 ↔ n ≤ 30103 := by omega
  rw [within, ← cut]
  unfold Word.abs Word.saturate Word.least Word.greatest maxBinaryExponent
  split
  · next negative =>
      have less : n < 2776500000000000000 := by omega
      have word : ⌊p⌋ < 2 ^ 63 := by
        rw [Int.floor_lt]
        have less : (n : ℚ) ≤ 2776500000000000000 := by exact_mod_cast less.le
        push_cast
        linarith
      split
      · next wraps =>
          have wraps := beq_iff_eq.1 wraps
          omega
      · omega
  · split
    · next wraps =>
        have wraps := beq_iff_eq.1 wraps
        omega
    · omega

end Numeral

end RegoSyntax
