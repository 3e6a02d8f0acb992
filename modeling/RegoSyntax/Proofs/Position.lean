/-
# RegoSyntax.Proofs.Position — a parser always stands at a token of its source.

`Look.At` says what it means that a parser stands at the token that starts at a cursor: the scanner is
behind that token, its place and text are those of the token, its kind is one that the lexeme may
show, and the end of the last token is what it says.  Going on leads from such a position to the
next one, over nothing but blanks and comments, and reports every fault on the way.

`Look.Before` says the same of a scanner whose next token has not been taken.  To take a token leads from
the one to the other (`Parse.Took`); a walk takes token after token up to one at which the parser may rest
(`Parse.Walk`); and a step is a walk from behind a token that was left (`Parse.Step`).  Whatever is proved
of going on is read off a step.
-/
import RegoSyntax.Proofs.Commentary
import RegoSyntax.Proofs.Runs

namespace RegoSyntax

/-! ## Reserved words

A table reserves words of the language only, and these are known from two lists.  Which kinds are
keywords, and what they are named, is then found by running through the lists. -/

namespace KeywordTable

/-- A table that reserves nothing but words of the language. -/
def Known (t : KeywordTable) : Prop := ∀ e ∈ t.entries, e ∈ baseWords ++ futureWords

/-- The empty table reserves nothing. -/
theorem known_empty : empty.Known := fun _ h => absurd h List.not_mem_nil

/-- To reserve a word of the language keeps to its words. -/
theorem Known.insert {t : KeywordTable} (h : t.Known) {word : String} {kind : Token}
    (known : (word, kind) ∈ baseWords ++ futureWords) : (t.insert word kind).Known := by
  intro e he
  rcases mem_insertEntry he with rfl | he
  · exact known
  · exact h e he

/-- To reserve words of the language keeps to its words. -/
theorem Known.insertAll {t : KeywordTable} (h : t.Known) {l : List (String × Token)}
    (known : ∀ e ∈ l, e ∈ baseWords ++ futureWords) : (t.insertAll l).Known := by
  induction l generalizing t with
  | nil => exact h
  | cons e l ih =>
      exact ih (h.insert (known e List.mem_cons_self)) fun x hx => known x (List.mem_cons_of_mem e hx)

/-- Tables of words of the language are one when they are joined. -/
theorem Known.extend {t u : KeywordTable} (ht : t.Known) (hu : u.Known) : (t.extend u).Known :=
  ht.insertAll hu

/-- To free words reserves none. -/
theorem Known.removeAll {t : KeywordTable} (h : t.Known) (u : KeywordTable) :
    (t.removeAll u).Known :=
  fun e he => h e (List.mem_of_mem_filter he)

/-- The words that are always reserved are words of the language. -/
theorem known_base : base.Known :=
  known_empty.insertAll fun _ h => List.mem_append_left _ h

/-- The words of the future are words of the language. -/
theorem known_future : future.Known :=
  known_empty.insertAll fun _ h => List.mem_append_right _ h

/-- A word that is found is a word of the language. -/
theorem Known.get? {t : KeywordTable} (h : t.Known) {word : String} {kind : Token}
    (reserved : t.get? word = some kind) : (word, kind) ∈ baseWords ++ futureWords := by
  obtain ⟨e, found, rfl⟩ := Option.map_eq_some_iff.1 reserved
  have same : e.1 = word := by simpa using List.find?_some found
  rw [← same]
  exact h e (List.mem_of_find?_eq_some found)

/-- The kinds of reserved words. -/
theorem isKeyword_of_mem {word : String} {kind : Token}
    (h : (word, kind) ∈ baseWords ++ futureWords) : kind.isKeyword ∨ kind.isFutureKeyword := by
  have all : ∀ e ∈ baseWords ++ futureWords, e.2.isKeyword ∨ e.2.isFutureKeyword := by decide
  exact all (word, kind) h

/-- Reserved words are the names of their kinds. -/
theorem name_of_mem {word : String} {kind : Token}
    (h : (word, kind) ∈ baseWords ++ futureWords) : word = kind.name := by
  have all : ∀ e ∈ baseWords ++ futureWords, e.1 = e.2.name := by decide +kernel
  exact all (word, kind) h

end KeywordTable

/-! ## What lexemes show

What a token is taken for depends on its lexeme, and for a word on the table.  A lexeme with a fault is
taken for none. -/

namespace Token

/-- A kind of token that only lexemes of this kind show: no word, and nothing that may have a
fault. -/
def isPlain : Token → Bool
  | illegal | ident | number | string => false
  | k => !k.isKeyword && !k.isFutureKeyword

/-- A plain kind is no word. -/
theorem not_word_of_isPlain (k : Token) (plain : k.isPlain) : ¬ (k.isKeyword ∨ k.isFutureKeyword) := by
  revert plain
  cases k <;> decide

end Token

namespace Lexeme

/-- A scanner shows of a lexeme its kind, a keyword for its word, or a fault. -/
theorem Shows.of_classify (x : Lexeme) {keywords : KeywordTable} (known : keywords.Known)
    (text : List Char) :
    x.Shows (if x.faults.isEmpty then Scanner.classify keywords x.kind text else .illegal) := by
  unfold Shows
  by_cases legal : x.faults = []
  · rw [if_neg (not_not_intro legal), if_pos (List.isEmpty_iff.2 legal)]
    by_cases word : x.kind = .ident
    · rw [if_pos word, word, Scanner.classify, if_pos (beq_self_eq_true _)]
      rcases h : keywords.get? (String.ofList text) with _ | kind
      · exact .inl rfl
      · exact .inr (KeywordTable.isKeyword_of_mem (known.get? h))
    · rw [if_neg word, Scanner.classify, if_neg (by simpa using word)]
  · rw [if_pos legal, if_neg (mt List.isEmpty_iff.1 legal)]

/-- A plain kind is shown by the lexemes of this kind and by no others. -/
theorem Shows.plain_iff {s : List Char} {k p : Token} (h : (next s).Shows k) (plain : p.isPlain) :
    k = p ↔ (next s).kind = p := by
  unfold Shows at h
  split at h
  · next faulty =>
      -- a token with faults is illegal, and a word is an identifier or in the table
      subst h
      constructor
      · rintro rfl
        cases plain
      · intro kind
        rcases kind_of_faults faulty with other | other | other <;> rw [other] at kind <;>
          subst kind <;> cases plain
  split at h
  · next word =>
      constructor
      · rintro rfl
        rcases h with rfl | h
        · cases plain
        · exact absurd h (k.not_word_of_isPlain plain)
      · intro kind
        rw [word] at kind
        subst kind
        cases plain
  · rw [h]

/-- A lexeme is no keyword before its word is looked up. -/
theorem punctuation_not_word (c : Char) (s : List Char) :
    (punctuation c s).kind.isKeyword = false ∧ (punctuation c s).kind.isFutureKeyword = false := by
  unfold punctuation
  split <;> first
    | exact ⟨rfl, rfl⟩
    | exact raw_kind s ▸ ⟨rfl, rfl⟩
    | (rcases either_kind _ _ _ s with h | h <;> rw [h] <;> exact ⟨rfl, rfl⟩)
    | (split <;> exact ⟨rfl, rfl⟩)

/-- No lexeme is a keyword by itself. -/
theorem next_not_word (s : List Char) :
    (next s).kind.isKeyword = false ∧ (next s).kind.isFutureKeyword = false := by
  cases s with
  | nil => exact ⟨rfl, rfl⟩
  | cons c s =>
      unfold next
      dsimp only
      split
      · exact ⟨rfl, rfl⟩
      split
      · exact ⟨rfl, rfl⟩
      split
      · exact ⟨rfl, rfl⟩
      · exact punctuation_not_word c s

/-- The text that a keyword is read from is the name of its kind. -/
theorem name_of_classify {s : List Char} {keywords : KeywordTable} (known : keywords.Known)
    (text : List Char)
    (word : (Scanner.classify keywords (next s).kind text).isKeyword ∨
      (Scanner.classify keywords (next s).kind text).isFutureKeyword) :
    String.ofList text = (Scanner.classify keywords (next s).kind text).name := by
  unfold Scanner.classify at word ⊢
  split at word
  · next ident =>
      rw [if_pos ident]
      rcases h : keywords.get? (String.ofList text) with _ | kind
      · rw [h] at word
        rcases word with word | word <;> cases word
      · exact KeywordTable.name_of_mem (known.get? h)
  · have none := next_not_word s
    rcases word with word | word
    · rw [none.1] at word
      cases word
    · rw [none.2] at word
      cases word

/-- What is taken for a word is one. -/
theorem Shows.word {s : List Char} {k : Token} (h : (next s).Shows k)
    (word : k = .ident ∨ k.isKeyword ∨ k.isFutureKeyword) :
    (next s).kind = .ident ∧ (next s).faults = [] := by
  unfold Shows at h
  split at h
  · subst h
    rcases word with word | word | word <;> cases word
  · next legal =>
      have faults := not_not.1 legal
      split at h
      · next kind => exact ⟨kind, faults⟩
      · next other =>
          subst h
          have none := next_not_word s
          rcases word with word | word | word
          · exact absurd word other
          · rw [none.1] at word
            cases word
          · rw [none.2] at word
            cases word

/-- What is taken for a keyword may be taken for an identifier. -/
theorem Shows.ident {s : List Char} {k : Token} (h : (next s).Shows k)
    (word : k.isKeyword ∨ k.isFutureKeyword) : (next s).Shows .ident := by
  obtain ⟨kind, faults⟩ := h.word (.inr word)
  rw [Shows, if_neg (not_not_intro faults), if_pos kind]
  exact .inl rfl

/-- Behind a comment its line ends. -/
theorem next_comment {s : List Char} (h : (next s).kind = .comment) :
    (next (s.drop (next s).size)).kind = .whitespace ∨ (next (s.drop (next s).size)).kind = .eof := by
  -- only the sharp starts a comment
  -- every other character starts a token of another kind
  obtain ⟨t, rfl⟩ : ∃ t, s = '#' :: t := by
    cases s with
    | nil => cases h
    | cons c t =>
        refine ⟨t, ?_⟩
        revert h
        unfold next
        dsimp only
        split
        · exact fun h => Token.noConfusion h
        split
        · exact fun h => Token.noConfusion h
        split
        · exact fun h => Token.noConfusion h
        · intro h
          unfold punctuation at h
          split at h <;> first
            | rfl
            | cases h
            | (rw [raw_kind] at h; cases h)
            | (rcases either_kind _ _ _ t with k | k <;> rw [k] at h <;> cases h)
            | (split at h <;> cases h)
  have lexeme : next ('#' :: t) = comment t := rfl
  rw [lexeme, comment, Nat.add_comm, List.drop_succ_cons]
  -- what is left behind the comment starts at the line break, if there is one
  have rest : t.drop (run (· != '\n') t) = t.dropWhile (· != '\n') := by
    conv_lhs => arg 2; rw [← List.takeWhile_append_dropWhile (p := (· != '\n')) (l := t)]
    exact List.drop_left
  rw [rest]
  rcases behind : t.dropWhile (· != '\n') with _ | ⟨d, u⟩
  · exact .inr rfl
  · have stopped := List.head?_dropWhile_not (· != '\n') t
    rw [behind] at stopped
    have line : d = '\n' := by simpa using stopped
    exact .inl (by rw [line]; rfl)

/-- A word starts with a letter. -/
theorem letter_of_ident {s : List Char} (h : (next s).kind = .ident) :
    ∃ c t, s = c :: t ∧ isLetter c = true := by
  cases s with
  | nil => cases h
  | cons c s =>
      refine ⟨c, s, rfl, ?_⟩
      revert h
      unfold next
      dsimp only
      split
      · exact fun h => Token.noConfusion h
      split
      · next letter => exact fun _ => letter
      split
      · exact fun h => Token.noConfusion h
      · exact fun h => absurd h (punctuation_kind c s).2.1

end Lexeme

/-! ## Words in references

A keyword may be taken for an identifier.  It is one of the reserved words then, and its text is its name.
-/

/-- The kinds of token that are named like reserved words are keywords. -/
theorem Token.word_of_reserved (k : Token)
    (reserved : (KeywordTable.baseWords ++ KeywordTable.futureWords).any (·.1 == k.name)) :
    k.isKeyword ∨ k.isFutureKeyword := by
  revert reserved
  cases k <;> decide +kernel

/-- What may stand for a name is a keyword. -/
theorem Env.word_of_allowsInRefs {env : Env} {keywords : KeywordTable} (known : keywords.Known)
    {k : Token} (allowed : env.allowsInRefs keywords k.name) : k.isKeyword ∨ k.isFutureKeyword := by
  apply Token.word_of_reserved
  rw [List.any_append, Bool.or_eq_true]
  rcases Bool.or_eq_true _ _ ▸ (Bool.and_eq_true_iff.1 allowed).2 with reserved | held
  · rcases Bool.or_eq_true _ _ ▸ reserved with base | future
    · exact .inl base
    · exact .inr (Bool.and_eq_true_iff.1 future).2
  · obtain ⟨kind, found⟩ := Option.isSome_iff_exists.1 held
    rcases List.mem_append.1 (known.get? found) with base | future
    · exact .inl (List.any_eq_true.2 ⟨_, base, by simp⟩)
    · exact .inr (List.any_eq_true.2 ⟨_, future, by simp⟩)

/-! ## The end of the last token

The last token that counts is the one whose end the parser keeps.  It is told by cursors: all significant
tokens in front of here end there or earlier. -/

namespace Cursor

/-- The text of the token at a cursor. -/
def word (c : Cursor) : String := String.ofList (c.rest.take c.lexeme.size)

/-- The text from a cursor to the end of its token. -/
theorem text_skip {source : String} {c : Cursor} (h : c.In source) (filled : c.rest ≠ []) :
    textBetween source c.offset c.skip.offset = c.word := by
  obtain ⟨between, rest, -, text⟩ := textBetween_of_in h h.skip (offset_lt_skip filled)
  rw [skip, advanceBy_rest] at rest
  have whole := rest.symm.trans (List.take_append_drop c.lexeme.size c.rest).symm
  rw [text, List.append_cancel_right whole, word]

/-- What a scanner with a table of reserved words takes the token at a cursor for. -/
def shown (c : Cursor) (keywords : KeywordTable) : Token :=
  if c.lexeme.faults.isEmpty then
    Scanner.classify keywords c.lexeme.kind (c.rest.take c.lexeme.size)
  else .illegal

/-- The token at a cursor is neither a blank nor a comment. -/
def Significant (c : Cursor) : Prop := c.lexeme.kind ≠ .whitespace ∧ c.lexeme.kind ≠ .comment

/-- Nothing but blanks and comments stands between two tokens. -/
structure Precedes (source : String) (g p : Cursor) : Prop where
  before : g.Starts source
  behind : p.Starts source
  lt : g.offset < p.offset
  gap : ∀ q : Cursor, q.Starts source → g.offset < q.offset → q.offset < p.offset → ¬ q.Significant

/-- All significant tokens that start before a cursor end at an offset, or before it. -/
structure LastStop (source : String) (c : Cursor) (n : Nat) : Prop where
  behind : ∀ d, Starts source d → d.offset < c.offset → d.Significant → d.skip.offset ≤ n
  le : n ≤ c.offset
  inside : ∃ e : Cursor, e.In source ∧ e.offset = n

namespace LastStop

/-- A token that is not significant does not count. -/
theorem pass {source : String} {c : Cursor} {n : Nat} (h : LastStop source c n)
    (starts : Starts source c) (minor : ¬ c.Significant) : LastStop source c.skip n where
  behind d hd before major := by
    rcases hd.line starts with rfl | ⟨lt, -⟩ | ⟨-, le⟩
    · exact absurd major minor
    · exact h.behind d hd lt major
    · omega
  le := h.le.trans c.offset_le_skip
  inside := h.inside

/-- The end of a token that has been passed is the last one. -/
theorem take {source : String} {c : Cursor} (starts : Starts source c) :
    LastStop source c.skip c.skip.offset where
  behind _ hd before _ := hd.skip_le starts.skip before
  le := Nat.le_refl _
  inside := ⟨c.skip, starts.in.skip, rfl⟩

end LastStop

/-- Before the first token. -/
theorem lastStop_first (source : String) : LastStop source (start source.toList) 0 where
  behind d hd before _ := by
    obtain ⟨n, rfl⟩ := hd
    have := nth_offset_le source (Nat.zero_le n)
    rw [nth] at this
    omega
  le := Nat.zero_le _
  inside := ⟨⟨source.toList, 0, 0, 0, []⟩, ⟨[], rfl, rfl⟩, rfl⟩

end Cursor

/-! ## Positions

A parser stands at a token if its look is the one of that token in every respect: place, text, kind, last
end, and scanner behind it. -/

namespace Look

open Cursor (Starts LastStop)

/-- The scanner has come to a cursor; the token there has not been taken. -/
structure Before (source : String) (c : Cursor) (l : Look) : Prop where
  starts : Starts source c
  text : l.scanner.source = source
  cursor : l.scanner.cursor = c
  known : l.scanner.keywords.Known
  last : LastStop source c l.lastStop

/-- The current token is the one that starts at a cursor. -/
structure At (source : String) (c : Cursor) (l : Look) : Prop where
  starts : Starts source c
  text : l.scanner.source = source
  cursor : l.scanner.cursor = c.skip
  known : l.scanner.keywords.Known
  last : LastStop source c l.lastStop
  offset : l.offset = c.offset
  stop : l.stop = c.skip.offset
  covers : l.location.stop = l.stop
  literal : c.lexeme.kind ≠ .comment → l.literalStop = l.stop
  shows : c.lexeme.Shows l.token
  word : l.token.isKeyword ∨ l.token.isFutureKeyword →
    String.ofList (c.rest.take c.lexeme.size) = l.token.name

/-- A parser never rests at a comment. -/
def Ok (source : String) (l : Look) : Prop := ∃ c, l.At source c ∧ c.lexeme.kind ≠ .comment

end Look

namespace Look.At

variable {source : String} {c d : Cursor} {l : Look}

/-- A parser stands at one token only. -/
theorem unique (h : l.At source c) (h' : l.At source d) : c = d :=
  h.starts.eq_of_offset h'.starts (h.offset.symm.trans h'.offset)

/-- A keyword that may stand for an identifier is read as one. -/
theorem asIdent (h : l.At source c) {env : Env}
    (allowed : env.allowsInRefs l.scanner.keywords l.token.name = true) :
    Look.At source c { l with token := .ident } :=
  { h with
    shows := h.shows.ident (Env.word_of_allowsInRefs h.known allowed)
    word := by rintro (word | word) <;> cases word }

/-- A token that is read as a word is one. -/
theorem kind_of_word (h : l.At source c)
    (word : l.token = .ident ∨ l.token.isKeyword ∨ l.token.isFutureKeyword) :
    c.lexeme.kind = .ident := (h.shows.word word).1

end Look.At

/-! ## Taking a token

To take a token is to scan it, to report its faults and to collect it if it is a comment.  Where the
parser comes to is told first, and what it leaves behind. -/

namespace Parse

/-- To report errors changes neither the token nor anything before the errors. -/
theorem run_reports (l : Location) (errors : List ScanError) (env : Env) (o : Settings)
    (s : ParseState) :
    ∃ hints, ((errors.forM fun e => report l (.lexical e.cause)).run env o s).2.look =
        { s.look with hints } ∧
      (∃ more : Array Failure, more.size = errors.length ∧ (∀ f ∈ more, f.location = l) ∧
        ((errors.forM fun e => report l (.lexical e.cause)).run env o s).2.failures =
          s.failures ++ more) ∧
      ((errors.forM fun e => report l (.lexical e.cause)).run env o s).2.comments = s.comments := by
  -- -- each error is one failure at the place; the first takes the hints, the others have none
  induction errors generalizing s with
  | nil =>
      exact ⟨s.look.hints, rfl, ⟨#[], rfl, fun _ h => absurd h (Array.not_mem_empty _),
        Array.append_empty.symm⟩, rfl⟩
  | cons e errors ih =>
      obtain ⟨hints, look, ⟨more, size, placed, failures⟩, comments⟩ := ih
        { s with
          failures := s.failures.push ⟨.lexical e.cause, l, s.look.hints⟩
          look := { s.look with hints := [] } }
      refine ⟨hints, look, ⟨#[⟨.lexical e.cause, l, s.look.hints⟩] ++ more, ?_, ?_, ?_⟩, comments⟩
      -- -- the failure of this error stands in front of those of the errors behind it
      · rw [Array.size_append, size, List.length_cons, Nat.add_comm]
        rfl
      · intro f hf
        rcases Array.mem_append.1 hf with hf | hf
        · rw [Array.mem_singleton.1 hf]
        · exact placed f hf
      · refine failures.trans ?_
        rw [Array.push_eq_append, Array.append_assoc]

/-- What is seen behind the scanner, apart from the hints. -/
def taken (env : Env) (l : Look) : Look :=
  let (scanned, scanner) := l.scanner.scan
  let p := scanned.position
  { l with
    scanner
    location :=
      { file := env.file, row := p.row, col := p.col, offset := p.offset
        text := scanner.text p.offset p.stop, tabs := p.tabs }
    skippedNewline := l.skippedNewline ||
      (scanned.token == .whitespace && scanner.text p.offset p.stop == "\n")
    token := if scanned.errors.isEmpty then scanned.token else .illegal
    literalStop := scanned.literalStop
    stop := p.stop }

/-- To take a token is to look at it and to report its faults. -/
theorem run_take (env : Env) (o : Settings) (s : ParseState) :
    take.run env o s =
      (s.look.scanner.scan.1.errors.forM fun e =>
        report (taken env s.look).location (.lexical e.cause)).run env o
          { s with look := taken env s.look } := rfl

/-- From before a token the parser comes to stand at it. -/
theorem taken_at {source : String} {c : Cursor} {l : Look} (env : Env) (h : l.Before source c) :
    (taken env l).At source c where
  starts := h.starts
  text := h.text
  cursor := by
    show l.scanner.scan.2.cursor = c.skip
    rw [Scanner.scan, h.cursor]
    rfl
  known := h.known
  last := h.last
  -- -- the token covers what lies between the cursor and its own end
  offset := by
    show l.scanner.scan.1.position.offset = c.offset
    rw [Scanner.scan, h.cursor]
    rfl
  stop := by
    show l.scanner.scan.1.position.stop = c.skip.offset
    rw [Scanner.scan, h.cursor]
    rfl
  covers := by
    show l.scanner.scan.1.position.offset + (textBetween l.scanner.source
      l.scanner.scan.1.position.offset l.scanner.scan.1.position.stop).utf8ByteSize =
        l.scanner.scan.1.position.stop
    rw [Scanner.scan, h.cursor, h.text]
    exact textBetween_skip h.starts.in
  literal solid := by
    show l.scanner.scan.1.literalStop = l.scanner.scan.1.position.stop
    rw [Scanner.scan, h.cursor]
    exact if_neg fun both => solid (by simpa [Cursor.lexeme] using (Bool.and_eq_true_iff.1 both).1)
  -- -- a lexeme with errors is shown as illegal, any other as its class under the table
  shows := by
    show c.lexeme.Shows (if l.scanner.scan.1.errors.isEmpty then l.scanner.scan.1.token else .illegal)
    rw [Scanner.scan, h.cursor]
    dsimp only
    rw [List.isEmpty_map]
    exact Lexeme.Shows.of_classify c.lexeme h.known (c.rest.take c.lexeme.size)
  word := by
    show (if l.scanner.scan.1.errors.isEmpty then l.scanner.scan.1.token else .illegal).isKeyword ∨
      (if l.scanner.scan.1.errors.isEmpty then l.scanner.scan.1.token else .illegal).isFutureKeyword →
        _ = (if l.scanner.scan.1.errors.isEmpty then l.scanner.scan.1.token else .illegal).name
    rw [Scanner.scan, h.cursor]
    dsimp only
    split
    · exact Lexeme.name_of_classify h.known _
    · rintro (word | word) <;> cases word

/-- What taking a token does: the parser stands at it, sees what it shows, and reports an error for each
of its faults; if it is a comment, that is what is collected next. -/
structure Took (source : String) (env : Env) (c : Cursor) (s t : ParseState) : Prop where
  at' : t.look.At source c
  exact : t.look.token = c.shown t.look.scanner.keywords
  keywords : t.look.scanner.keywords = s.look.scanner.keywords
  failures : ∃ more : Array Failure, more.size = c.lexeme.faults.length ∧
    (∀ f ∈ more, f.location = c.place source env.file) ∧ t.failures = s.failures ++ more
  comments : t.comments = s.comments
  lastStop : t.look.lastStop = s.look.lastStop
  comment : Comment.mk (String.ofList (t.look.literal.toList.drop 1)) t.look.location =
    c.comment source env.file

/-- A token that has been taken is where the parser stands. -/
theorem Took.place {source : String} {env : Env} {c : Cursor} {s t : ParseState}
    (h : Took source env c s t) : t.look.location = c.place source env.file :=
  congrArg Comment.location h.comment

/-- To take a token does what `Took` says. -/
theorem take_took {source : String} {c : Cursor} {s : ParseState} (env : Env) (o : Settings)
    (h : s.look.Before source c) : Took source env c s (take.run env o s).2 := by
  obtain ⟨hints, look, ⟨more, size, placed, failures⟩, comments⟩ :=
    run_reports (taken env s.look).location s.look.scanner.scan.1.errors env o
      { s with look := taken env s.look }
  have place := taken_at env h
  -- -- the scanner reads the source from the cursor, so its answer is that of the cursor alone
  have scanned : s.look.scanner.scan = Scanner.scan ⟨source, c, s.look.scanner.keywords⟩ := by
    rw [← h.text, ← h.cursor]
  rw [run_take]
  refine ⟨?_, ?_, ?_, ⟨more, ?_, fun f hf => ?_, failures⟩, comments, ?_, ?_⟩
  · rw [look]
    exact { place with }
  · rw [look]
    show (if s.look.scanner.scan.1.errors.isEmpty then s.look.scanner.scan.1.token else .illegal) =
      c.shown s.look.scanner.scan.2.keywords
    rw [scanned, Cursor.shown, Cursor.lexeme]
    simp only [Scanner.scan, List.isEmpty_map]
  · rw [look]
    rfl
  · rw [size, scanned]
    exact List.length_map _
  · rw [placed f hf]
    simp only [taken, scanned]
    rfl
  · rw [look]
    rfl
  · rw [look]
    show Comment.mk (String.ofList ((textBetween s.look.scanner.source
      s.look.scanner.scan.1.position.offset s.look.scanner.scan.1.literalStop).toList.drop 1)) _ = _
    rw [scanned, h.text]
    simp only [taken, scanned]
    rfl

/-! ## Going on

A step goes over blanks and comments to the next token.  It is a walk of tokens taken one by one, by
induction on the fuel. -/

/-- A walk from a cursor, whose token has not been taken, to a token: over nothing but blanks and
comments, of which the comments are collected; and where no error has been added the tokens met are
without faults. -/
structure Walk (source : String) (env : Env) (skipBlanks : Bool) (c c' : Cursor)
    (s t : ParseState) : Prop where
  at' : t.look.At source c'
  exact : t.look.token = c'.shown t.look.scanner.keywords
  keywords : t.look.scanner.keywords = s.look.scanner.keywords
  solid : c'.lexeme.kind ≠ .comment
  blank : skipBlanks = true → c'.lexeme.kind ≠ .whitespace
  ahead : c.offset ≤ c'.offset
  gap : ∀ d : Cursor, d.Starts source → c.offset ≤ d.offset → d.offset < c'.offset → ¬ d.Significant
  failures : ∃ more, t.failures = s.failures ++ more
  comments : ∃ more, t.comments = s.comments ++ more ∧ c.Met source env.file more.toList c'
  sound : t.failures.size = s.failures.size →
    ∀ d : Cursor, d.Starts source → c.offset ≤ d.offset → d.offset ≤ c'.offset →
      d.lexeme.faults = []
  clean : (∀ d : Cursor, d.Starts source → c.offset ≤ d.offset → d.offset ≤ c'.offset →
    d.lexeme.faults = []) → t.failures = s.failures
  tight : skipBlanks = false →
    c' = c ∨ c'.lexeme.kind = .whitespace ∨ c'.lexeme.kind = .eof
  rests : c.lexeme.kind ≠ .comment → (skipBlanks = true → c.lexeme.kind ≠ .whitespace) → c' = c
  place : t.look.location = c'.place source env.file
  lastStop : t.look.lastStop = s.look.lastStop
  reported : ∀ f ∈ t.failures, f ∈ s.failures ∨
    ∃ d : Cursor, d.Starts source ∧ f.location = d.place source env.file

/-- A walk that ends where it starts. -/
theorem Walk.nil {source : String} {env : Env} {skipBlanks : Bool} {c : Cursor} {s t : ParseState}
    (took : Took source env c s t) (solid : c.lexeme.kind ≠ .comment)
    (blank : skipBlanks = true → c.lexeme.kind ≠ .whitespace) :
    Walk source env skipBlanks c c s t := by
  obtain ⟨more, size, placed, failures⟩ := took.failures
  refine ⟨took.at', took.exact, took.keywords, solid, blank, Nat.le_refl _, ?_, ⟨more, failures⟩,
    ⟨#[], by rw [took.comments, Array.append_empty], .nil c⟩, ?_, fun legal => ?_,
    fun _ => .inl rfl, fun _ _ => rfl, took.place, took.lastStop, fun f hf => ?_⟩
  · intro d _ from' before
    omega
  · intro same d hd from' upTo
    rw [failures, Array.size_append] at same
    rw [hd.eq_of_offset took.at'.starts (Nat.le_antisymm upTo from')]
    exact List.length_eq_zero_iff.1 (by omega)
  · rw [legal c took.at'.starts (Nat.le_refl _) (Nat.le_refl _)] at size
    rw [failures, Array.eq_empty_of_size_eq_zero size, Array.append_empty]
  · rw [failures] at hf
    exact (Array.mem_append.1 hf).imp id fun hf => ⟨c, took.at'.starts, placed f hf⟩

/-- A walk that starts by stepping over a token, of which a comment is collected. -/
theorem Walk.cons {source : String} {env : Env} {skipBlanks : Bool} {c c' : Cursor}
    {s t t' u : ParseState} (took : Took source env c s t) (minor : ¬ c.Significant)
    (look : t'.look = t.look) (failures : t'.failures = t.failures)
    (met : ∃ more, t'.comments = t.comments ++ more ∧
      ∀ cs d, c.skip.Met source env.file cs d → c.Met source env.file (more.toList ++ cs) d)
    (passed : skipBlanks = false → c.lexeme.kind = .comment)
    (h : Walk source env skipBlanks c.skip c' t' u) : Walk source env skipBlanks c c' s u := by
  have starts := took.at'.starts
  obtain ⟨first, size, placed, reported⟩ := took.failures
  obtain ⟨next, added⟩ := h.failures
  obtain ⟨comment, collected, onward⟩ := met
  obtain ⟨more, collectedThen, metThen⟩ := h.comments
  -- one goal for each thing that is told of a walk
  refine ⟨h.at', h.exact, ?_, h.solid, h.blank, c.offset_le_skip.trans h.ahead, ?_,
    ⟨first ++ next, ?_⟩, ⟨comment ++ more, ?_, ?_⟩, ?_, fun legal => ?_, fun direct => ?_,
    fun solid blank => ?_, h.place, ?_, fun f hf => ?_⟩
  · rw [h.keywords, look, took.keywords]
  · intro d hd from' before
    rcases hd.line starts with rfl | ⟨lt, -⟩ | ⟨-, le⟩
    · exact minor
    · omega
    · exact h.gap d hd le before
  · rw [added, failures, reported, Array.append_assoc]
  · rw [collectedThen, collected, took.comments, Array.append_assoc]
  · rw [Array.toList_append]
    exact onward _ _ metThen
  · intro same d hd from' upTo
    rw [added, failures, reported, Array.size_append, Array.size_append] at same
    rcases hd.line starts with rfl | ⟨lt, -⟩ | ⟨-, le⟩
    · exact List.length_eq_zero_iff.1 (by omega)
    · omega
    · refine h.sound ?_ d hd le upTo
      rw [added, Array.size_append]
      omega
  · rw [legal c starts (Nat.le_refl _) (c.offset_le_skip.trans h.ahead)] at size
    rw [h.clean fun d hd from' upTo => legal d hd (c.offset_le_skip.trans from') upTo, failures,
      reported, Array.eq_empty_of_size_eq_zero size, Array.append_empty]
  · refine .inr ?_
    rcases h.tight direct with rfl | ended
    · have line := Lexeme.next_comment (passed direct)
      rwa [← Cursor.advanceBy_rest] at line
    · exact ended
  -- blanks that are not skipped end the walk, so here they are
  · cases skipBlanks with
    | false => exact absurd (passed rfl) solid
    | true => exact absurd ⟨blank rfl, solid⟩ minor
  · rw [h.lastStop, look, took.lastStop]
  · rcases h.reported f hf with hf | later
    · rw [failures, reported] at hf
      exact (Array.mem_append.1 hf).imp id fun hf => ⟨c, starts, placed f hf⟩
    · exact .inr later

/-- Behind a token that is passed over, the next one is to be taken. -/
theorem before_skip {source : String} {c : Cursor} {l : Look} (h : l.At source c)
    (minor : ¬ c.Significant) : l.Before source c.skip :=
  { starts := h.starts.skip, text := h.text, cursor := h.cursor, known := h.known
    last := h.last.pass h.starts minor }

/-- To take tokens up to one where the parser may rest is a walk. -/
theorem takeUpTo_walk {source : String} {skipBlanks : Bool} {fuel : Nat} {c : Cursor}
    {s : ParseState} (env : Env) (o : Settings) (h : s.look.Before source c)
    (enough : c.rest.length < fuel) :
    ∃ c', Walk source env skipBlanks c c' s ((takeUpTo skipBlanks fuel).run env o s).2 := by
  -- on the number of steps, of which there is one for each character
  induction fuel generalizing c s with
  | zero => omega
  | succ fuel ih =>
      have took := take_took env o h
      rcases taken : take.run env o s with ⟨_ | _, t⟩
      · have goes := goes_take env o s
        rw [taken] at goes
        cases goes
      rw [taken] at took
      have shown (p : Token) (plain : p.isPlain) : t.look.token = p ↔ c.lexeme.kind = p :=
        took.at'.shows.plain_iff plain
      -- a token that does not count is stepped over, and the walk goes on behind it
      have onward (minor : ¬ c.Significant) (filled : c.lexeme.kind ≠ .eof) (t' : ParseState)
          (look : t'.look = t.look) (failures : t'.failures = t.failures)
          (met : ∃ more, t'.comments = t.comments ++ more ∧
            ∀ cs d, c.skip.Met source env.file cs d → c.Met source env.file (more.toList ++ cs) d)
          (passed : skipBlanks = false → c.lexeme.kind = .comment) :
          ∃ c', Walk source env skipBlanks c c' s ((takeUpTo skipBlanks fuel).run env o t').2 := by
        have filled : c.rest ≠ [] := fun none => filled (Lexeme.next_kind_eof.2 none)
        have shorter := Cursor.length_skip filled
        obtain ⟨c', walk⟩ := ih (s := t') (look ▸ before_skip took.at' minor) (by omega)
        exact ⟨c', walk.cons took minor look failures met passed⟩
      rw [takeUpTo, run_bind, taken, andThen_some, run_bind, run_token, andThen_some]
      split
      · next white =>
          have kind := (shown .whitespace rfl).1 white
          have other : c.lexeme.kind ≠ .comment := by rw [kind]; decide
          split
          · next skip =>
              -- major.1 kind) => a blank that is skipped adds no comment
              exact onward (fun major => major.1 kind) (by rw [kind]; decide) t rfl rfl
                ⟨#[], Array.append_empty.symm, fun _ _ met => .pass other met⟩
                fun keep => absurd (keep.symm.trans skip) Bool.false_ne_true
          · next keep => exact ⟨c, .nil took other fun skip => absurd skip keep⟩
      · next comment =>
          have kind := (shown .comment rfl).1 comment
          refine onward (fun major => major.2 kind) (by rw [kind]; decide) _ rfl rfl
            ⟨#[_], Array.push_eq_append, fun _ _ met => ?_⟩ fun _ => kind
          rw [took.comment]
          exact .comment kind met
      · next white comment =>
          exact ⟨c, .nil took (fun kind => comment ((shown .comment rfl).2 kind))
            fun _ kind => white ((shown .whitespace rfl).2 kind)⟩

/-- A token that is left behind: it is the last one, unless it is a blank. -/
def leave (l : Look) : Look :=
  if l.token == .whitespace then l else { l with lastStop := l.stop, skippedNewline := false }

/-- A step from a token to the next one: over nothing but blanks and comments, of which the comments
are collected; and where no error is added the tokens met are without faults. -/
structure Step (source : String) (env : Env) (skipBlanks : Bool) (c c' : Cursor) (l : Look)
    (t : ParseState) : Prop where
  at' : t.look.At source c'
  exact : t.look.token = c'.shown t.look.scanner.keywords
  keywords : t.look.scanner.keywords = l.scanner.keywords
  solid : c'.lexeme.kind ≠ .comment
  blank : skipBlanks = true → c'.lexeme.kind ≠ .whitespace
  ahead : c.skip.offset ≤ c'.offset
  gap : ∀ d : Cursor, d.Starts source → c.offset < d.offset → d.offset < c'.offset → ¬ d.Significant
  met : c.skip.Met source env.file t.comments.toList c'
  sound : t.failures = #[] → ∀ d : Cursor, d.Starts source → c.offset < d.offset →
    d.offset ≤ c'.offset → d.lexeme.faults = []
  clean : (∀ d : Cursor, d.Starts source → c.skip.offset ≤ d.offset → d.offset ≤ c'.offset →
    d.lexeme.faults = []) → t.failures = #[]
  tight : skipBlanks = false →
    c' = c.skip ∨ c'.lexeme.kind = .whitespace ∨ c'.lexeme.kind = .eof
  rests : c.skip.lexeme.kind ≠ .comment → (skipBlanks = true → c.skip.lexeme.kind ≠ .whitespace) →
    c' = c.skip
  place : t.look.location = c'.place source env.file
  lastStop : t.look.lastStop = (leave l).lastStop
  reported : ∀ f ∈ t.failures, ∃ d : Cursor, d.Starts source ∧ f.location = d.place source env.file

/-- To leave a token behind does not move the scanner. -/
@[simp] theorem leave_scanner (l : Look) : (leave l).scanner = l.scanner := by
  unfold leave
  split <;> rfl

/-- Behind a token that was left, the next one is to be taken. -/
theorem before_leave {source : String} {c : Cursor} {l : Look} (h : l.At source c) :
    (leave l).Before source c.skip := by
  unfold leave
  split
  · next white =>
      have kind := (h.shows.plain_iff (p := .whitespace) rfl).1 (by simpa using white)
      exact before_skip h fun major => major.1 kind
  · exact
      { starts := h.starts.skip, text := h.text, cursor := h.cursor, known := h.known
        last := by
          show Cursor.LastStop source c.skip l.stop
          rw [h.stop]
          exact .take h.starts }

/-- From behind a token that was left, going on is a walk. -/
theorem next_walk {source : String} {c : Cursor} {l : Look} (env : Env) (skipBlanks : Bool)
    (before : (leave l).Before source c) :
    ∃ c', Walk source env skipBlanks c c' (.bare (leave l)) (next env skipBlanks l) := by
  have enough : c.rest.length < (leave l).scanner.cursor.rest.length + 1 := by
    rw [before.cursor]
    exact Nat.lt_succ_self _
  exact takeUpTo_walk env ⟨0, fun _ => true⟩ before enough

/-- Going on from a token is a step. -/
theorem next_step {source : String} {c : Cursor} {l : Look} (env : Env) (skipBlanks : Bool)
    (h : l.At source c) : ∃ c', Step source env skipBlanks c c' l (next env skipBlanks l) := by
  obtain ⟨c', walk⟩ := next_walk env skipBlanks (before_leave h)
  obtain ⟨comments, collected, met⟩ := walk.comments
  refine ⟨c', walk.at', walk.exact, walk.keywords.trans (congrArg Scanner.keywords (leave_scanner l)),
    walk.solid, walk.blank, walk.ahead, fun d hd behind => walk.gap d hd (h.starts.skip_le hd behind),
    ?_, ?_, walk.clean, walk.tight, walk.rests, walk.place, walk.lastStop, fun f hf =>
      (walk.reported f hf).resolve_left (Array.not_mem_empty f)⟩
  · rw [collected, show (ParseState.bare (leave l)).comments = #[] from rfl, Array.empty_append]
    exact met
  · intro none d hd behind
    exact walk.sound (by rw [none]; rfl) d hd (h.starts.skip_le hd behind)

/-! ### The name of the file

Of the surroundings only the name of the file has a part in taking tokens; so two tasks with one file go
on alike. -/

section file

variable {a b : Env} (file : b.file = a.file) (o : Settings)

include file

/-- To take a token needs of the surroundings only the name of the file. -/
theorem run_take_of_file (s : ParseState) : take.run b o s = take.run a o s := by
  have same : taken b s.look = taken a s.look := by simp only [taken, file]
  have reports (l : Location) (errors : List ScanError) (s : ParseState) :
      (errors.forM fun e => report l (.lexical e.cause)).run b o s =
        (errors.forM fun e => report l (.lexical e.cause)).run a o s := by
    induction errors generalizing s with
    | nil => rfl
    | cons e errors ih => exact ih _
  rw [run_take, run_take, same, reports]

/-- The same of tokens one after the other. -/
theorem run_takeUpTo_of_file (skipBlanks : Bool) (fuel : Nat) (s : ParseState) :
    (takeUpTo skipBlanks fuel).run b o s = (takeUpTo skipBlanks fuel).run a o s := by
  induction fuel generalizing s with
  | zero => rfl
  | succ fuel ih =>
      rw [takeUpTo, run_bind, run_bind, run_take_of_file file]
      rcases take.run a o s with ⟨_ | _, t⟩
      · rfl
      · rw [andThen_some, andThen_some, run_bind, run_bind, run_token, run_token, andThen_some,
          andThen_some]
        split
        · split
          · exact ih t
          · rfl
        · exact ih _
        · rfl

omit o in
/-- Where going on leads depends on the name of the file only. -/
theorem next_of_file (skipBlanks : Bool) (l : Look) : next b skipBlanks l = next a skipBlanks l := by
  have same (s : ParseState) : (advance skipBlanks).run b ⟨0, fun _ => true⟩ s =
      (advance skipBlanks).run a ⟨0, fun _ => true⟩ s := by
    unfold advance
    rw [run_bind, run_bind, run_modifyLook, run_modifyLook, andThen_some, andThen_some, run_bind,
      run_bind, run_look, run_look, andThen_some, andThen_some]
    exact run_takeUpTo_of_file file _ skipBlanks _ _
  rw [next, next, same]

end file

end Parse

/-! ## The text of tokens

The text of a token and the text up to the last end are cut out of the source, so they can be told from
it. -/

namespace Look

/-- The literal text of a token is what stands in the source. -/
theorem At.literal_eq {source : String} {c : Cursor} {l : Look} (h : l.At source c)
    (solid : c.lexeme.kind ≠ .comment) (filled : c.rest ≠ []) :
    l.literal = String.ofList (c.rest.take c.lexeme.size) := by
  obtain ⟨between, rest, -, text⟩ :=
    textBetween_of_in h.starts.in h.starts.in.skip (Cursor.offset_lt_skip filled)
  rw [Look.literal, Scanner.text, h.text, h.literal solid, h.stop, h.offset, text]
  rw [Cursor.skip, Cursor.advanceBy_rest] at rest
  have whole := rest.symm.trans (List.take_append_drop c.lexeme.size c.rest).symm
  rw [List.append_cancel_right whole]

/-- The text from a token up to the end of the last one starts like what is behind the token, if it is not
empty. -/
theorem At.head_text {source : String} {c d : Cursor} {l : Look} (h : l.At source d)
    (starts : c.Starts source) :
    (l.text c.offset l.lastStop).toList.head? =
      if c.offset < l.lastStop then c.rest.head? else none := by
  rw [Look.text, Scanner.text, h.text]
  split
  · next lt =>
      obtain ⟨e, inside, stop⟩ := h.last.inside
      obtain ⟨between, rest, length, text⟩ := textBetween_of_in starts.in inside (stop ▸ lt)
      rw [← stop, text, String.toList_ofList, rest]
      cases between with
      | nil =>
          rw [String.utf8Len_nil] at length
          omega
      | cons => rfl
  · next le =>
      rw [textBetween_of_le (Nat.le_of_not_lt le)]
      rfl

/-- A token that is passed has text. -/
theorem At.lt_lastStop {source : String} {c d : Cursor} {l : Look} (h : l.At source d)
    (starts : c.Starts source) (major : c.Significant) (lt : c.offset < d.offset) :
    c.offset < l.lastStop :=
  (Cursor.offset_lt_skip (starts.filled h.starts lt)).trans_le (h.last.behind c starts lt major)

end Look

namespace Lexeme

/-- No letter marks a wildcard. -/
theorem isLetter_ne_mark {c : Char} (h : isLetter c = true) : c ≠ wildcardMark := by
  rintro rfl
  revert h
  decide

end Lexeme

end RegoSyntax
