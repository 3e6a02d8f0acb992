/-
# RegoSyntax.Proofs.Primaries — primary terms are read formed, or were when they are remembered.

Scalars keep the text of their tokens, so what is said of their spelling is said of the lexemes of the
source.  A term that is remembered was read from the token that the parser has come back to, and as good as
it is now; so taking it up again is as good as reading it.

`Course.TermAt` ties a term to the cursor that it was read from: it is whole, and if the cursor is at a
word that is no constant, the term is led by that word.  Only the second part needs more than the results
of the productions below; it is what makes the targets of replacements and the names of rules words of the
source.

An entry of the memory keeps the term together with the look behind it and the errors of its reading.
`Course.Fine` says of every entry that it would be right to read it again, as long as it has no errors,
and `remember` and `replay` are the two steps that use it.
-/
import Mathlib.Data.List.TakeWhile
import RegoSyntax.Proofs.Collections

namespace RegoSyntax

open Parse

/-! ## Lexemes of scalars

The scanner tells what a lexeme is by its first characters.  Read backwards, a kind tells the form of the
text: a word, a number, a string. -/

namespace Lexeme

/-- A run of characters is no longer than the text. -/
theorem run_le (p : Char → Bool) (s : List Char) : run p s ≤ s.length :=
  (List.takeWhile_sublist p).length_le

/-- A number has no more characters than there are. -/
theorem number_size_le (s : List Char) : (number s).size ≤ s.length := by
  have fraction (t : List Char) : fractionSize t ≤ t.length := by
    unfold fractionSize
    split
    · next t =>
        split
        · next c u =>
            have := run_le Char.isDigit (c :: u)
            split
            · rw [List.length_cons]; omega
            · split <;> simp
        · simp
    · simp
  have exponent (t : List Char) : (exponentSize t).1 ≤ t.length := by
    unfold exponentSize
    split
    · next c u =>
        split
        · have sign : signSize u ≤ u.length := by
            unfold signSize
            split
            · split <;> simp
            · simp
          have digits := run_le Char.isDigit (u.drop (signSize u))
          rw [List.length_drop] at digits
          simp only [List.length_cons]
          omega
        · simp
    · simp
  -- the parts follow one another, each in what is left by the one before
  have digits := run_le Char.isDigit s
  have fractions := fraction (s.drop (run Char.isDigit s))
  have exponents := exponent (s.drop (run Char.isDigit s + fractionSize (s.drop (run Char.isDigit s))))
  rw [List.length_drop] at fractions exponents
  simp only [number]
  have tail := run_le isWordChar (s.drop (run Char.isDigit s + fractionSize (s.drop (run Char.isDigit s))
    + (exponentSize (s.drop (run Char.isDigit s + fractionSize (s.drop (run Char.isDigit s))))).1))
  rw [List.length_drop] at tail
  omega

/-- A lexeme of this kind is a number. -/
theorem number_of_kind {s : List Char} (h : (next s).kind = .number) : next s = number s := by
  cases s with
  | nil => cases h
  | cons c s =>
      revert h
      unfold next
      dsimp only
      split
      · exact fun h => Token.noConfusion h
      split
      · exact fun h => Token.noConfusion h
      split
      · exact fun _ => rfl
      · exact fun h => absurd h (punctuation_kind c s).2.2

/-- The text of an identifier is a word. -/
theorem isWord_of_ident {s : List Char} (h : (next s).kind = .ident) :
    IsWord (s.take (next s).size) := by
  obtain ⟨c, t, rfl, letter⟩ := letter_of_ident h
  have blank : isBlank c ≠ true := by
    intro blank
    rw [next, if_pos blank] at h
    cases h
  rw [next, if_neg blank, if_pos letter, Nat.add_comm, List.take_succ_cons]
  refine ⟨c, _, rfl, letter, fun x hx => ?_⟩
  rw [run, ← List.prefix_iff_eq_take.1 (List.takeWhile_prefix isWordChar)] at hx
  exact List.mem_takeWhile_imp hx

/-- What a lexeme shows is not legal, a word, or what the lexeme is. -/
theorem Shows.of_ident {s : List Char} {k : Token} (h : (next s).Shows k)
    (kind : (next s).kind = .ident) : k = .illegal ∨ k = .ident ∨ k.isKeyword ∨ k.isFutureKeyword := by
  unfold Shows at h
  split at h
  · exact .inl h
  · exact .inr h

/-- A number that is shown is one without faults. -/
theorem Shows.number {s : List Char} (h : (next s).Shows .number) :
    (next s).kind = .number ∧ (next s).faults = [] := by
  unfold Shows at h
  split at h
  · cases h
  · next legal =>
      have faults := not_not.1 legal
      split at h
      · rcases h with word | word | word <;> cases word
      · exact ⟨h.symm, faults⟩

end Lexeme

/-- An entry that is found is one for the offset. -/
theorem Memo.lookup_some {m : Memo} {n : Nat} {e : MemoEntry} (h : m.lookup n = some e) :
    e ∈ m.entries ∧ e.offset = n := by
  unfold Memo.lookup at h
  exact ⟨(List.takeWhile_sublist _).subset (List.mem_of_find?_eq_some h),
    by simpa using List.find?_some h⟩

namespace Course

variable {k : Course} {g : Grammar} {r u : Reading}

/-- The literal text of a token is what stands at its cursor. -/
theorem Stands.literal {c : Cursor} {l : Look} (h : k.Stands c l) (filled : c.rest ≠ []) :
    l.literal = c.word := h.at'.literal_eq h.solid filled

/-- The literal text of a word. -/
theorem Stands.word {c : Cursor} {l : Look} (h : k.Stands c l)
    (word : l.token = .ident ∨ l.token.isKeyword ∨ l.token.isFutureKeyword) :
    l.literal = c.word ∧ Lexeme.IsWord c.word.toList := by
  have kind := h.at'.kind_of_word word
  obtain ⟨x, t, cons, -⟩ := Lexeme.letter_of_ident kind
  refine ⟨h.literal (by rw [cons]; exact List.cons_ne_nil _ _), ?_⟩
  rw [Cursor.word, String.toList_ofList]
  exact Lexeme.isWord_of_ident kind

/-- The literal text of a number. -/
theorem Stands.number {c : Cursor} {l : Look} (h : k.Stands c l) (token : l.token = .number) :
    ∃ behind, Lexeme.next (l.literal.toList ++ behind) = ⟨.number, l.literal.toList.length, []⟩ := by
  obtain ⟨kind, faults⟩ := Lexeme.Shows.number (token ▸ h.at'.shows)
  have lexeme := Lexeme.number_of_kind kind
  have filled : c.rest ≠ [] := by
    intro atEnd
    rw [atEnd] at kind
    cases kind
  have size : c.lexeme.size ≤ c.rest.length := by
    rw [Cursor.lexeme, lexeme]
    exact Lexeme.number_size_le c.rest
  refine ⟨c.rest.drop c.lexeme.size, ?_⟩
  rw [h.literal filled, Cursor.word, String.toList_ofList, List.take_append_drop, List.length_take,
    Nat.min_eq_left size]
  show c.lexeme = _
  rcases parts : c.lexeme with ⟨kind', size', faults'⟩
  rw [Cursor.lexeme] at parts
  rw [parts] at kind faults
  rw [show kind' = .number from kind, show faults' = [] from faults]

namespace Keeps

open Reads

/-! ## Scalars

A scalar is the text of its token, and a number has its marks in front. -/

/-- A scalar at the current token. -/
theorem scalar {v : Value} {P : Term → Reading → Prop} (fine : k.Fine u)
    (holds : P ⟨v, some u.look.location⟩ u) : k.Reads u (Parse.here v) u P :=
  here_self (.pure (.refl fine) fun _ => holds)

/-- A sign is passed if it stands there, and what follows it is one of the tokens that may. -/
theorem signMark (fine : k.Fine u) (mark : Token) (following : List Token) :
    k.Reads u (Parse.signMark mark following) u fun b t =>
      (b = true → u.look.token = mark ∧ t.look.token ∈ following) ∧
        (b = false → u.look.token ≠ mark ∧ t = u) := by
  unfold Parse.signMark
  rw [token_iff]
  split
  · next marked =>
      refine .bind (.refl fine) (.scan fine) fun _ t l _ _ => ?_
      rw [token_iff]
      split
      · next follows =>
          exact .pure l fun _ => ⟨fun _ => ⟨beq_iff_eq.1 marked, List.contains_iff_mem.1 follows⟩,
            (by cases ·)⟩
      · exact .unexpected_fail l fun _ l => .fail l
  · next other =>
      exact .pure (.refl fine) fun _ => ⟨(by cases ·), fun _ =>
        ⟨fun same => other (beq_iff_eq.2 same), rfl⟩⟩

/-- The tokens that a number may start with. -/
def startsNumber (kind : Token) : Prop := kind = .minus ∨ kind = .dot ∨ kind = .number

/-- Behind the sign and the point of a number are its digits. -/
theorem lastOfNumber {t₁ t₂ : Reading} {negative pointed : Bool}
    (starts : startsNumber u.look.token)
    (signed : (negative = true → u.look.token = .minus ∧ t₁.look.token ∈ [Token.number, .dot]) ∧
      (negative = false → u.look.token ≠ .minus ∧ t₁ = u))
    (marked : (pointed = true → t₁.look.token = .dot ∧ t₂.look.token ∈ [Token.number]) ∧
      (pointed = false → t₁.look.token ≠ .dot ∧ t₂ = t₁)) : t₂.look.token = .number := by
  cases pointed with
  | true => exact List.mem_singleton.1 (marked.1 rfl).2
  | false =>
      obtain ⟨other, rfl⟩ := marked.2 rfl
      cases negative with
      | true =>
          rcases List.mem_cons.1 (signed.1 rfl).2 with digits | point
          · exact digits
          · exact absurd (List.mem_singleton.1 point) other
      | false =>
          obtain ⟨unsigned, rfl⟩ := signed.2 rfl
          rcases starts with minus | point | digits
          · exact absurd minus unsigned
          · exact absurd point other
          · exact digits

/-- A number has a text that a source can spell. -/
theorem number (fine : k.Fine u) (starts : startsNumber u.look.token) :
    k.Reads u Parse.number u fun t _ => ∃ s l, t = ⟨.number s, l⟩ ∧ Spelled s := by
  unfold Parse.number
  rw [location_iff]
  refine .bind (.refl fine) (signMark fine .minus [.number, .dot]) fun negative t₁ l₁ _ signed => ?_
  refine .bind l₁ (signMark l₁.fine .dot [.number]) fun pointed t₂ l₂ after marked => ?_
  rw [look_iff]
  dsimp only
  split
  · exact .unexpected_fail l₂ fun _ l => .fail l
  · next zero =>
      split
      · exact .unexpected_fail l₂ fun _ l => .fail l
      · next n spelled =>
          split
          · next inBounds =>
              refine .pure l₂ fun clean => ⟨_, _, rfl, negative, pointed, t₂.look.literal, ?_⟩
              -- -- the marks were read without a failure, so the token behind them is a number
              have token := lastOfNumber starts (signed (after.clean clean)) (marked clean)
              obtain ⟨c, stands⟩ := l₂.fine.stands
              obtain ⟨behind, lexeme⟩ := stands.number token
              refine ⟨behind, rfl, lexeme, fun plain => ?_, n, spelled, inBounds⟩
              simpa [plain] using zero
          · exact .reportHere_fail l₂ fun _ l => .fail l

/-- A text is a term of its own. -/
theorem string (fine : k.Fine u) :
    k.Reads u Parse.string u fun t _ => ∃ s l, t = ⟨.string s, l⟩ := by
  have found (s : String) :
      k.Reads u (Parse.here (.string s)) u fun t _ => ∃ s l, t = ⟨.string s, l⟩ :=
    scalar fine ⟨s, _, rfl⟩
  unfold Parse.string
  rw [look_iff]
  dsimp only
  split
  · refine .bind (.refl fine) (.ofOption (P := fun _ v => v = u) (.refl fine) fun _ _ _ => rfl)
      fun s t l _ _ => ?_
    exact .tail l (scalar (P := fun t _ => ∃ s l, t = ⟨.string s, l⟩) l.fine ⟨s, _, rfl⟩)
      fun _ _ _ _ holds => holds
  · split
    · exact found ""
    · split
      · exact found _
      · exact .reportHere_fail (.refl fine) fun _ l => .fail l

/-- A variable that has been read at a token: its name is that of the token, or drawn for a wildcard. -/
structure VariableAt (k : Course) (c : Cursor) (l : Look) (t : Term) : Prop where
  name : ∃ name place, t = ⟨.var name, place⟩ ∧ Named name ∧
    (isWildcardName name = true ∨ (name = c.word ∧ name = l.literal))

/-- A variable is named by its token, or by the name that was drawn for a wildcard. -/
theorem variableHere (fine : k.Fine u)
    (word : u.look.token = .ident ∨ u.look.token.isKeyword ∨ u.look.token.isFutureKeyword) :
    k.Reads u Parse.variableHere u fun t v => v.look = u.look ∧
      ∀ c, k.Stands c u.look → VariableAt k c u.look t := by
  unfold Parse.variableHere
  rw [look_iff]
  dsimp only
  split
  · rw [offset_iff]
    refine .bind (.refl fine) (.freshWildcard fine) fun name t l _ drawn => ?_
    refine here_self (.pure l fun clean => ?_)
    obtain ⟨wild, look⟩ := drawn clean
    exact ⟨look, fun c _ => ⟨name, _, rfl, .inl wild, .inl wild⟩⟩
  · next plain =>
      refine here_self (.pure (.refl fine) fun _ => ⟨rfl, fun c stands => ?_⟩)
      obtain ⟨literal, isWord⟩ := stands.word word
      refine ⟨u.look.literal, _, rfl, .inr ⟨literal ▸ isWord, ?_⟩, .inr ⟨literal, rfl⟩⟩
      exact fun same => plain (beq_iff_eq.2 same)

/-! ## Parentheses

Parentheses leave no trace in the tree. -/

/-- A term in parentheses is as whole as it was. -/
theorem parenthesized (h : k.Keeps g) (fine : k.Fine u) :
    k.Reads u (Parse.parenthesized g) u fun t _ => t.Whole k.names := by
  unfold Parse.parenthesized
  rw [offset_iff]
  refine .bind (.refl fine) (.scan fine) fun _ t₁ l₁ _ _ => ?_
  refine .bind l₁ (h (.compound true) t₁ l₁.fine) fun t t₂ l₂ _ given => ?_
  rw [token_iff]
  split
  · rw [look_iff, text_iff]
    exact .pure l₂ fun clean => (given clean trivial).placed _
  · exact .reportHere_fail l₂ fun _ l => .fail l

/-! ## What primary terms start with

What a term may go on from is told by its first token: a variable leads with its word, and a constant
leads with none. -/

/-- What a term can go on from, read from one token up to another one. -/
structure HeadRead (k : Course) (u v : Reading) (t : Term) : Prop where
  heads : ∀ d, k.Stands d v.look → k.Heads d t
  leads : ∀ c, k.Stands c u.look → Leads c t

/-- A term of which more is not known starts with no word. -/
theorem leads_of_token {c : Cursor} {l : Look} (stands : k.Stands c l) (t : Term)
    (other : ¬ (l.token = .illegal ∨ l.token = .ident ∨ l.token.isKeyword ∨ l.token.isFutureKeyword)) :
    Leads c t :=
  fun kind => absurd (Lexeme.Shows.of_ident stands.at'.shows kind) other

/-- A whole term that starts with no word heads what follows it. -/
theorem HeadRead.of_whole {v : Reading} {t : Term} (whole : t.Whole k.names)
    (other : ¬ (u.look.token = .illegal ∨ u.look.token = .ident ∨ u.look.token.isKeyword ∨
      u.look.token.isFutureKeyword)) : HeadRead k u v t :=
  ⟨fun _ _ => ⟨whole.2, .inl whole.1⟩, fun _ stands => leads_of_token stands t other⟩

/-- Constants start with words, and head nothing. -/
theorem headRead_constant {v : Value} {l : Option Location}
    (constant : v = .null ∨ ∃ b, v = .boolean b) : HeadRead k u u ⟨v, l⟩ := by
  have whole : Term.Whole k.names ⟨v, l⟩ := by
    rcases constant with rfl | ⟨b, rfl⟩
    · exact ⟨trivial, Term.formed_iff.2 ⟨trivial, List.forall_mem_nil _⟩⟩
    · exact ⟨trivial, Term.formed_iff.2 ⟨trivial, List.forall_mem_nil _⟩⟩
  exact ⟨fun _ _ => ⟨whole.2, .inl whole.1⟩, fun _ _ _ => .inr constant⟩

/-- A variable heads a reference, and is led by its own word. -/
theorem headRead_variable {v : Reading} {t : Term} (look : v.look = u.look)
    (token : u.look.token = .ident ∨ u.look.token = .containsKw)
    (at' : ∀ c, k.Stands c u.look → VariableAt k c u.look t) : HeadRead k u v t := by
  refine ⟨fun c stands => ?_, fun c stands _ => ?_⟩
  · rw [look] at stands
    obtain ⟨name, place, rfl, named, spelled⟩ := (at' c stands).name
    refine ⟨Term.formed_iff.2 ⟨named, List.forall_mem_nil _⟩, ?_⟩
    by_cases root : isRoot (.var name) = true
    · exact .inr ⟨name, rfl, .inl root⟩
    have plain : isRoot (.var name) = false := Bool.eq_false_iff.2 root
    rcases spelled with wild | ⟨own, literal⟩
    · exact .inl ⟨plain, .inl (.inl wild)⟩
    · rcases token with ident | contains
      · rcases stands.ident ident with free | adjoined
        · exact .inl ⟨plain, .inl (.inr (own ▸ free))⟩
        · exact .inr ⟨name, rfl, .inr adjoined⟩
      · have text := stands.at'.word (.inr (by rw [contains]; rfl))
        refine .inl ⟨plain, .inr ?_⟩
        rw [own, Cursor.word, text, contains]
  · obtain ⟨name, place, rfl, -, spelled⟩ := (at' c stands).name
    exact .inl ⟨name, rfl, spelled.symm.imp And.left id⟩

/-- Whatever a primary term starts with, it is known how it is led. -/
theorem head (h : k.Keeps g) (fine : k.Fine u) :
    k.Reads u (Parse.head g) u fun t v => HeadRead k u v t := by
  unfold Parse.head
  rw [token_iff]
  -- numbers and variables may start at several tokens each
  have numbered (starts : startsNumber u.look.token)
      (other : ¬ (u.look.token = .illegal ∨ u.look.token = .ident ∨ u.look.token.isKeyword ∨
        u.look.token.isFutureKeyword)) :
      k.Reads u Parse.number u fun t v => HeadRead k u v t := by
    refine (number fine starts).weaken fun t _ _ _ read => ?_
    obtain ⟨s, l, rfl, spelled⟩ := read
    exact .of_whole ⟨trivial, Term.formed_iff.2 ⟨spelled, List.forall_mem_nil _⟩⟩ other
  have variable' (token : u.look.token = .ident ∨ u.look.token = .containsKw) :
      k.Reads u Parse.variableHere u fun t v => HeadRead k u v t := by
    have word : u.look.token = .ident ∨ u.look.token.isKeyword ∨ u.look.token.isFutureKeyword :=
      token.imp id fun contains => .inr (by rw [contains]; rfl)
    exact (variableHere fine word).weaken fun t v _ _ read => headRead_variable read.1 token read.2
  split
  · exact scalar fine (headRead_constant (.inl rfl))
  · exact scalar fine (headRead_constant (.inr ⟨true, rfl⟩))
  · exact scalar fine (headRead_constant (.inr ⟨false, rfl⟩))
  · next token => exact numbered (.inl token) (by rw [token]; decide)
  · next token => exact numbered (.inr (.inl token)) (by rw [token]; decide)
  · next token => exact numbered (.inr (.inr token)) (by rw [token]; decide)
  · next token =>
      refine (string fine).weaken fun t _ _ _ read => ?_
      obtain ⟨s, l, rfl⟩ := read
      exact .of_whole ⟨trivial, Term.formed_iff.2 ⟨trivial, List.forall_mem_nil _⟩⟩
        (by rw [token]; decide)
  · next token => exact variable' (.inl token)
  · next token => exact variable' (.inr token)
  · next token =>
      exact (array h fine).weaken fun t _ _ _ whole => .of_whole whole.1 (by rw [token]; decide)
  · next token =>
      exact (braced h fine).weaken fun t _ _ _ whole => .of_whole whole.1 (by rw [token]; decide)
  · next token =>
      exact (parenthesized h fine).weaken fun t _ _ _ whole => .of_whole whole (by rw [token]; decide)
  · exact .unexpected_fail (.refl fine) fun _ l => .fail l

/-! ## Remembering

Terms are remembered with the errors they left.  Only those read without an error are said to be terms at
their cursor. -/

/-- What has been read without errors is fine to be remembered. -/
theorem remember {start : Reading} (there : k.Fine start) (since : k.Later start u)
    (term : Option Term) (holds : u.failures.size ≤ start.failures.size →
      ∀ t ∈ term, ∀ c, k.Stands c start.look → k.TermAt c t) :
    k.Reads u (Parse.remember start.save term) u fun _ _ => True := by
  obtain ⟨c, stands⟩ := there.stands
  obtain ⟨d, stood⟩ := since.fine.stands
  obtain ⟨more, added, met⟩ := since.comments
  unfold Parse.remember
  refine (Reads.modify ?_).weaken fun _ _ _ _ _ => trivial
  refine .of_same (fun _ h => h) rfl rfl rfl since.fine fun e he => ?_
  rcases List.mem_cons.1 he with rfl | he
  -- the new entry, between the place where it starts and the one here
  · refine ⟨c, d, stands, stood, ?_, ?_, fun none t ht => holds ?_ t ht c stands⟩
    · rw [← stands.at'.offset, ← stood.at'.offset]
      exact since.ahead
    · have same : u.comments.extract start.comments.size u.comments.size = more := by
        rw [added]
        simp
      show c.Met k.source k.env.file (u.comments.extract start.comments.size u.comments.size).toList d
      rw [same]
      exact met c d stands stood
    · have empty : (u.failures.extract start.failures.size u.failures.size).size = 0 :=
        congrArg Array.size none
      rw [Array.size_extract] at empty
      omega
  · exact since.fine.memo e ((List.dropWhile_sublist _).subset he)

/-- What is remembered was read from the token that the parser has come to. -/
theorem remembered {α : Type} {f : Option MemoEntry → Parse α} {P : α → Reading → Prop}
    (found : ∀ e ∈ u.memo.entries, e.offset = u.look.offset → k.Reads r (f (some e)) u P)
    (none : k.Reads r (f none) u P) : k.Reads r (Parse.remembered >>= f) u P := by
  unfold Parse.remembered
  rw [bind_bind_iff, reading_iff]
  split
  · next e looked =>
      rw [bind_bind_iff]
      refine .ask fun again => ?_
      rw [pure_bind_iff]
      split
      · obtain ⟨listed, offset⟩ := Memo.lookup_some looked
        exact found e listed offset
      · exact none
  · exact none

/-- What is remembered without errors is a term at the cursor where it is taken up. -/
theorem replay (fine : k.Fine u) {e : MemoEntry} (listed : e ∈ u.memo.entries)
    (offset : e.offset = u.look.offset) :
    k.Reads u (Parse.replay e) u fun t _ => ∀ c, k.Stands c u.look → k.TermAt c t := by
  obtain ⟨c, d, entry⟩ := fine.memo e listed
  -- there is one cursor at each offset
  have same {c' : Cursor} (stands : k.Stands c' u.look) : c' = c :=
    stands.at'.starts.eq_of_offset entry.before.at'.starts
      (stands.at'.offset.symm.trans (offset.symm.trans entry.before.at'.offset))
  have later : k.Later u { u with
      look := e.after, failures := u.failures ++ e.failures
      comments := u.comments ++ e.comments } :=
    { fine := ⟨⟨d, entry.after⟩, fine.memo⟩
      ahead := by
        show u.look.offset ≤ e.after.offset
        rw [← offset, MemoEntry.offset, entry.before.at'.offset, entry.after.at'.offset]
        exact entry.ahead
      failures := ⟨e.failures, rfl⟩
      comments := ⟨e.comments, rfl, fun c' d' hc hd => by
        rw [same hc, (show k.Stands d' e.after from hd).unique entry.after]
        exact entry.met⟩ }
  unfold Parse.replay
  refine .bind (.refl fine) (Reads.modify later) fun _ t after _ given => ?_
  refine .ofOption after fun clean b hb c' stands => ?_
  rw [same stands]
  refine entry.term ?_ b hb
  rw [given clean] at clean
  -- no errors were added, so the entry has none, and its term is as it was told
  have size : (u.failures ++ e.failures).size ≤ u.failures.size := clean
  rw [Array.size_append] at size
  exact Array.eq_empty_of_size_eq_zero (by omega)

/-! ## Primary terms

Read afresh or recalled, a term is one at its cursor; so the rest of the grammar need not know of the
memory. -/

/-- A term that is read afresh is a term at its cursor. -/
theorem freshTerm (h : k.Keeps g) (fine : k.Fine u) :
    k.Reads u (Parse.freshTerm g) u fun t _ => ∀ c, k.Stands c u.look → k.TermAt c t := by
  unfold Parse.freshTerm
  rw [save_iff]
  -- a term that goes on is led by what it starts with, and constants do not go on
  have read : k.Reads u (do let t ← Parse.head g; Parse.finish g t false) u fun t _ =>
      ∀ c, k.Stands c u.look → k.TermAt c t := by
    refine .bind (.refl fine) (head h fine) fun t t₁ l₁ _ first => ?_
    refine .tail l₁ (finish h l₁.fine t false) fun t' t₂ later clean given c stands => ?_
    have first := first (later.clean clean)
    obtain ⟨d, stood⟩ := l₁.fine.stands
    obtain ⟨whole, leads⟩ := given d stood (first.heads d stood)
    refine ⟨whole, fun kind => ?_⟩
    rcases leads with same | ⟨refs, lead⟩
    · have own := first.leads c stands kind
      rwa [Term.lead_eq, ← same, ← Term.lead_eq] at own
    · rcases first.leads c stands kind with own | null | ⟨b, boolean⟩
      · exact .inl (lead ▸ own)
      · rw [null] at refs
        cases refs
      · rw [boolean] at refs
        cases refs
  refine .bind (.refl fine) (.attempt read) fun t t₁ l₁ _ given => ?_
  refine .bind l₁ (remember fine l₁ t fun clean => given clean) fun _ t₂ l₂ after _ => ?_
  exact .ofOption l₂ fun clean => given (after.clean clean)

/-- A primary term is a term at its cursor, whether it was read or remembered. -/
theorem term (h : k.Keeps g) (fine : k.Fine u) :
    k.Reads u (Parse.term g) u fun t _ => ∀ c, k.Stands c u.look → k.TermAt c t :=
  .nested (.refl fine) (remembered (fun _ listed offset => replay fine listed offset)
    (freshTerm h fine))

end Keeps

end Course

end RegoSyntax
