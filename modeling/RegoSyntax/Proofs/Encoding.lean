/-
# RegoSyntax.Proofs.Encoding — texts as bytes and back.

A character is written as one to four bytes, and only the characters of ASCII are written with bytes below 128,
each as one byte (`eq_of_mem_bytes`).  The bytes of a text are decoded to the text again (`decodeLossy_bytes`).

The first byte of a character tells how many more there are, and in which range the second one is
(`continuation?`).  The ranges exclude spellings that are longer than needed, surrogates, and numbers that
are too large; the bytes of a character meet them, which is a matter of arithmetic for each length
(`decodeFirst_of_two`, `decodeFirst_of_three`, `decodeFirst_of_four`).
-/
import RegoSyntax.Text.Utf8
import Mathlib.Data.String.Basic

namespace RegoSyntax.Text

/-! ## The bytes of a text -/

/-- The bytes that a text is written in. -/
def bytes (s : List Char) : List UInt8 := s.flatMap String.utf8EncodeChar

@[simp] theorem bytes_nil : bytes [] = [] := rfl

@[simp] theorem bytes_cons (c : Char) (s : List Char) : bytes (c :: s) = String.utf8EncodeChar c ++ bytes s := rfl

@[simp] theorem bytes_append (s t : List Char) : bytes (s ++ t) = bytes s ++ bytes t := List.flatMap_append

/-- A text has as many bytes as its length in UTF-8 says. -/
theorem length_bytes (s : List Char) : (bytes s).length = String.utf8Len s := by
  induction s with
  | nil => rfl
  | cons c s ih =>
      rw [bytes_cons, List.length_append, String.length_utf8EncodeChar, ih, String.utf8Len_cons, Nat.add_comm]

/-- The loop that lists the bytes of an array from a place on. -/
theorem toList_loop (a : ByteArray) (i : Nat) (r : List UInt8) :
    ByteArray.toList.loop a i r = r.reverse ++ a.data.toList.drop i := by
  fun_induction ByteArray.toList.loop a i r with
  | case1 i r more ih =>
      have inside : i < a.data.toList.length := by simpa using more
      rw [ih, List.drop_eq_getElem_cons inside]
      simp [ByteArray.get!, more]
  | case2 i r done =>
      rw [List.drop_eq_nil_of_le (by simpa using Nat.le_of_not_lt done), List.append_nil]

/-- The bytes of a string are those of its characters. -/
theorem toUTF8_toList (s : String) : s.toUTF8.toList = bytes s.toList := by
  have spelled : s.toUTF8 = (bytes s.toList).toByteArray := by
    rw [String.toUTF8, ← s.ofList_toList, String.toByteArray_ofList, String.toList_ofList]
    rfl
  rw [spelled, ByteArray.toList, toList_loop, List.toList_data_toByteArray]
  rfl

/-! ## Bytes below 128 -/

/-- A byte below 128 is all of the character that it belongs to. -/
theorem eq_of_mem_bytes {c : Char} {b : UInt8} (member : b ∈ String.utf8EncodeChar c) (small : b.toNat < 0x80) :
    String.utf8EncodeChar c = [b] ∧ c = Char.ofNat b.toNat := by
  have value : c.val.toNat = c.toNat := rfl
  have valid : c.toNat < 0x110000 := by
    rcases c.valid with low | high
    · exact Nat.lt_trans low (by decide)
    · exact high.2
  by_cases one : c.toNat ≤ 0x7F
  · have single : String.utf8EncodeChar c = [UInt8.ofNat c.toNat] := by
      rw [String.utf8EncodeChar, value]
      exact if_pos one
    rw [single, List.mem_singleton] at member
    subst member
    refine ⟨single, ?_⟩
    rw [UInt8.toNat_ofNat_of_lt' (Nat.lt_of_le_of_lt one (by decide)), Char.ofNat_toNat]
  · -- All bytes of a longer character have their highest bit.
    have large : ∀ x ∈ String.utf8EncodeChar c, 0x80 ≤ x.toNat := by
      intro x hx
      simp only [String.utf8EncodeChar, value, if_neg one] at hx
      split at hx
      · simp only [List.mem_cons, List.not_mem_nil, or_false] at hx
        rcases hx with rfl | rfl <;> rw [UInt8.toNat_ofNat'] <;> omega
      · split at hx
        · simp only [List.mem_cons, List.not_mem_nil, or_false] at hx
          rcases hx with rfl | rfl | rfl <;> rw [UInt8.toNat_ofNat'] <;> omega
        · simp only [List.mem_cons, List.not_mem_nil, or_false] at hx
          rcases hx with rfl | rfl | rfl | rfl <;> rw [UInt8.toNat_ofNat'] <;> omega
    exact absurd small (Nat.not_lt.2 (large b member))

/-- The characters of one byte are those of ASCII. -/
theorem utf8Size_eq_one_iff (c : Char) : c.utf8Size = 1 ↔ c.toNat < 0x80 := by
  rw [Char.utf8Size_eq_one_iff, UInt32.le_iff_toNat_le]
  exact Nat.lt_succ_iff.symm

/-- A text has no fewer bytes than characters. -/
theorem length_le_bytes (s : List Char) : s.length ≤ (bytes s).length := by
  induction s with
  | nil => exact Nat.le_refl 0
  | cons c s ih =>
      have := c.utf8Size_pos
      rw [bytes_cons, List.length_append, String.length_utf8EncodeChar, List.length_cons]
      omega

/-- A text has as many bytes as characters if and only if all of it is ASCII. -/
theorem length_bytes_eq_iff (s : List Char) : (bytes s).length = s.length ↔ ∀ c ∈ s, c.toNat < 0x80 := by
  induction s with
  | nil => simp
  | cons c s ih =>
      have := c.utf8Size_pos
      have := length_le_bytes s
      rw [bytes_cons, List.length_append, String.length_utf8EncodeChar, List.length_cons, List.forall_mem_cons,
        ← utf8Size_eq_one_iff, ← ih]
      omega

/-! ## Decoding -/

/-- A byte within the bounds continues a sequence. -/
theorem continues_ofNat {lo hi n : Nat} (le : lo ≤ n) (ge : n ≤ hi) (byte : n < 256) :
    continues lo hi (UInt8.ofNat n) = true := by
  rw [continues, UInt8.toNat_ofNat_of_lt' byte, Bool.and_eq_true, decide_eq_true_eq, decide_eq_true_eq]
  exact ⟨le, ge⟩

/-- A byte that continues a sequence has six bits of its own. -/
theorem toNat_rest (n : Nat) : (UInt8.ofNat (n % 64 + 128)).toNat = n % 64 + 128 :=
  UInt8.toNat_ofNat_of_lt' (Nat.lt_of_lt_of_le (Nat.add_lt_add_right (Nat.mod_lt n (by decide)) 128) (by decide))

/-- A byte that continues a sequence in any of its places but the first. -/
theorem continues_rest (n : Nat) : continues 0x80 0xBF (UInt8.ofNat (n % 64 + 128)) = true :=
  continues_ofNat (by omega) (by omega) (by omega)

section sequences

variable {b c d e : UInt8} {rest : List UInt8} {lo hi : Nat}

/-- Two bytes that belong together are decoded to one character. -/
theorem decodeFirst_two (large : 0x80 ≤ b.toNat) (asks : continuation? b = some (1, lo, hi))
    (second : continues lo hi c = true) : decodeFirst (b :: c :: rest) =
      (some (Char.ofNat (b.toNat % 0x20 * 0x40 + c.toNat % 0x40)), 2) := by
  simp only [decodeFirst, if_neg (Nat.not_lt.2 large), asks, second]
  rfl

/-- Three bytes that belong together are decoded to one character. -/
theorem decodeFirst_three (large : 0x80 ≤ b.toNat) (asks : continuation? b = some (2, lo, hi))
    (second : continues lo hi c = true) (third : continues 0x80 0xBF d = true) :
    decodeFirst (b :: c :: d :: rest) =
      (some (Char.ofNat ((b.toNat % 0x10 * 0x40 + c.toNat % 0x40) * 0x40 + d.toNat % 0x40)), 3) := by
  simp only [decodeFirst, if_neg (Nat.not_lt.2 large), asks, second, third]
  rfl

/-- Four bytes that belong together are decoded to one character. -/
theorem decodeFirst_four (large : 0x80 ≤ b.toNat) (asks : continuation? b = some (3, lo, hi))
    (second : continues lo hi c = true) (third : continues 0x80 0xBF d = true)
    (fourth : continues 0x80 0xBF e = true) : decodeFirst (b :: c :: d :: e :: rest) =
      (some (Char.ofNat (((b.toNat % 8 * 0x40 + c.toNat % 0x40) * 0x40 + d.toNat % 0x40) * 0x40 +
        e.toNat % 0x40)), 4) := by
  simp only [decodeFirst, if_neg (Nat.not_lt.2 large), asks, second, third, fourth]
  rfl

end sequences

section lengths

variable {n : Nat} (rest : List UInt8)

/-- A character of two bytes is decoded from them. -/
theorem decodeFirst_of_two (more : 0x7F < n) (le : n ≤ 0x7FF) :
    decodeFirst (UInt8.ofNat (n / 64 % 32 + 192) :: UInt8.ofNat (n % 64 + 128) :: rest) =
      (some (Char.ofNat n), 2) := by
  have first : (UInt8.ofNat (n / 64 % 32 + 192)).toNat = n / 64 % 32 + 192 :=
    UInt8.toNat_ofNat_of_lt' (by simp [UInt8.size]; omega)
  have asks : continuation? (UInt8.ofNat (n / 64 % 32 + 192)) = some (1, 0x80, 0xBF) := by
    simp only [continuation?, first]
    rw [if_pos (by simp; omega)]
  have value : (n / 64 % 32 + 192) % 0x20 * 0x40 + (n % 64 + 128) % 0x40 = n := by omega
  rw [decodeFirst_two (by omega) asks (continues_rest n), first, toNat_rest, value]

/-- A character of three bytes is decoded from them, if it is no surrogate. -/
theorem decodeFirst_of_three (more : 0x7FF < n) (le : n ≤ 0xFFFF) (valid : n < 0xD800 ∨ 0xDFFF < n) :
    decodeFirst (UInt8.ofNat (n / 4096 % 16 + 224) :: UInt8.ofNat (n / 64 % 64 + 128) ::
      UInt8.ofNat (n % 64 + 128) :: rest) = (some (Char.ofNat n), 3) := by
  have first : (UInt8.ofNat (n / 4096 % 16 + 224)).toNat = n / 4096 % 16 + 224 :=
    UInt8.toNat_ofNat_of_lt' (by simp [UInt8.size]; omega)
  -- After the lowest first byte longer spellings are excluded, after another one surrogates.
  obtain ⟨lo, hi, asks, ge_lo, le_hi⟩ : ∃ lo hi,
      continuation? (UInt8.ofNat (n / 4096 % 16 + 224)) = some (2, lo, hi) ∧
        lo ≤ n / 64 % 64 + 128 ∧ n / 64 % 64 + 128 ≤ hi := by
    simp only [continuation?, first]
    rw [if_neg (by simp)]
    by_cases lowest : n / 4096 % 16 + 224 = 0xE0
    · exact ⟨0xA0, 0xBF, by simp [lowest], by omega, by omega⟩
    by_cases surrogate : n / 4096 % 16 + 224 = 0xED
    · exact ⟨0x80, 0x9F, by simp [surrogate], by omega, by omega⟩
    · refine ⟨0x80, 0xBF, ?_, by omega, by omega⟩
      rw [if_neg (by simpa using lowest), if_neg (by simpa using surrogate), if_pos (by simp; omega)]
  have value : ((n / 4096 % 16 + 224) % 0x10 * 0x40 + (n / 64 % 64 + 128) % 0x40) * 0x40 +
      (n % 64 + 128) % 0x40 = n := by omega
  rw [decodeFirst_three (by omega) asks (continues_ofNat ge_lo le_hi (by omega)) (continues_rest n), first,
    toNat_rest, toNat_rest, value]

/-- A character of four bytes is decoded from them, if it is not too large. -/
theorem decodeFirst_of_four (more : 0xFFFF < n) (valid : n < 0x110000) :
    decodeFirst (UInt8.ofNat (n / 262144 % 8 + 240) :: UInt8.ofNat (n / 4096 % 64 + 128) ::
      UInt8.ofNat (n / 64 % 64 + 128) :: UInt8.ofNat (n % 64 + 128) :: rest) = (some (Char.ofNat n), 4) := by
  have first : (UInt8.ofNat (n / 262144 % 8 + 240)).toNat = n / 262144 % 8 + 240 :=
    UInt8.toNat_ofNat_of_lt' (by simp [UInt8.size]; omega)
  -- After the lowest first byte longer spellings are excluded, after the highest numbers that are too large.
  obtain ⟨lo, hi, asks, ge_lo, le_hi⟩ : ∃ lo hi,
      continuation? (UInt8.ofNat (n / 262144 % 8 + 240)) = some (3, lo, hi) ∧
        lo ≤ n / 4096 % 64 + 128 ∧ n / 4096 % 64 + 128 ≤ hi := by
    simp only [continuation?, first]
    rw [if_neg (by simp), if_neg (by simp), if_neg (by simp), if_neg (by simp)]
    by_cases lowest : n / 262144 % 8 + 240 = 0xF0
    · exact ⟨0x90, 0xBF, by simp [lowest], by omega, by omega⟩
    by_cases highest : n / 262144 % 8 + 240 = 0xF4
    · exact ⟨0x80, 0x8F, by simp [highest], by omega, by omega⟩
    · refine ⟨0x80, 0xBF, ?_, by omega, by omega⟩
      rw [if_neg (by simpa using lowest), if_pos (by simp; omega)]
  have value : (((n / 262144 % 8 + 240) % 8 * 0x40 + (n / 4096 % 64 + 128) % 0x40) * 0x40 +
      (n / 64 % 64 + 128) % 0x40) * 0x40 + (n % 64 + 128) % 0x40 = n := by omega
  rw [decodeFirst_four (by omega) asks (continues_ofNat ge_lo le_hi (by omega)) (continues_rest (n / 64))
    (continues_rest n), first, toNat_rest, toNat_rest, toNat_rest, value]

end lengths

/-- The first character of a text is decoded from the bytes that it is written in. -/
theorem decodeFirst_bytes (c : Char) (rest : List UInt8) :
    decodeFirst (String.utf8EncodeChar c ++ rest) = (some c, (String.utf8EncodeChar c).length) := by
  have valid : c.toNat < 0xD800 ∨ 0xDFFF < c.toNat ∧ c.toNat < 0x110000 := c.valid
  have back : Char.ofNat c.toNat = c := Char.ofNat_toNat c
  rw [String.utf8EncodeChar, show c.val.toNat = c.toNat from rfl]
  generalize c.toNat = n at valid back
  subst back
  by_cases one : n ≤ 0x7F
  · have byte : (UInt8.ofNat n).toNat = n := UInt8.toNat_ofNat_of_lt' (Nat.lt_of_le_of_lt one (by decide))
    rw [if_pos one, List.singleton_append, decodeFirst, byte, if_pos (by omega)]
    rfl
  by_cases two : n ≤ 0x7FF
  · rw [if_neg one, if_pos two]
    exact decodeFirst_of_two rest (by omega) two
  by_cases three : n ≤ 0xFFFF
  · rw [if_neg one, if_neg two, if_pos three]
    exact decodeFirst_of_three rest (by omega) three (valid.imp_right And.left)
  · rw [if_neg one, if_neg two, if_neg three]
    exact decodeFirst_of_four rest (by omega) (by omega)

/-- A text is decoded from its bytes, if there is fuel for each of them. -/
theorem decodeUpTo_bytes (s : List Char) (fuel : Nat) (enough : (bytes s).length ≤ fuel) :
    decodeUpTo fuel (bytes s) = s.map some := by
  induction s generalizing fuel with
  | nil => cases fuel <;> rfl
  | cons c s ih =>
      obtain ⟨b, more, spelled⟩ := List.exists_cons_of_ne_nil (String.utf8EncodeChar_ne_nil (c := c))
      -- the fuel is spent on characters, of which there are no more than bytes
      have first : decodeFirst (b :: (more ++ bytes s)) = (some c, (b :: more).length) := by
        rw [← List.cons_append, ← spelled]
        exact decodeFirst_bytes c (bytes s)
      rw [bytes_cons, List.length_append, spelled, List.length_cons] at enough
      cases fuel with
      | zero => omega
      | succ fuel =>
          have step : decodeUpTo (fuel + 1) (bytes (c :: s)) = some c :: decodeUpTo fuel (bytes s) := by
            rw [bytes_cons, spelled, List.cons_append, decodeUpTo]
            · rw [first]
              have behind : (b :: (more ++ bytes s)).drop (b :: more).length = bytes s :=
                List.drop_left' rfl
              exact congrArg (some c :: decodeUpTo fuel ·) behind
            · exact List.cons_ne_nil b _
          rw [step, ih fuel (by omega), List.map_cons]

/-- The bytes of a text are decoded to the text. -/
theorem decodeLossy_bytes (s : List Char) : decodeLossy (bytes s) = String.ofList s := by
  rw [decodeLossy, decode, decodeUpTo_bytes s _ (Nat.le_refl _), List.map_map]
  exact congrArg String.ofList (List.map_id s)

end RegoSyntax.Text
