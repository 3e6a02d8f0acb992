/-
# RegoSyntax.Proofs.Trail — what a parser knows of the way to its token.

A parser keeps the end of the last token that is neither a blank nor a comment, and whether there was a line
break since.  Both are kept up to date while tokens are passed, in two ways of passing them, but they depend on
nothing except the source and where the parser stands (`Look.Kept`): one step keeps them so (`Look.Kept.next`).

A blank that is not a line break has none in it, and neither has a comment.  So there was a line break if there
is one in the text of the source since the last token (`Cursor.Last.newline_iff`).
-/
import Mathlib.Data.List.TakeWhile
import RegoSyntax.Proofs.Stream

namespace RegoSyntax

open Parse

/-! ## Tokens that do not count

What does not count is a blank, a line break or a comment.  A line break is told from the others by the
newline in its text, and a comment ends in front of one. -/

namespace Lexeme

/-- Punctuation is no blank, and starts a comment only with its mark. -/
theorem punctuation_minor (c : Char) (s : List Char) :
    (punctuation c s).kind ≠ .whitespace ∧ ((punctuation c s).kind = .comment → c = '#') := by
  unfold punctuation
  split <;> first
    | exact ⟨fun h => Token.noConfusion h, fun _ => rfl⟩
    | exact ⟨fun h => Token.noConfusion h, fun h => Token.noConfusion h⟩
    | exact raw_kind s ▸ ⟨fun h => Token.noConfusion h, fun h => Token.noConfusion h⟩
    | (rcases either_kind _ _ _ s with h | h <;> rw [h] <;>
        exact ⟨fun h => Token.noConfusion h, fun h => Token.noConfusion h⟩)
    | (split <;> exact ⟨fun h => Token.noConfusion h, fun h => Token.noConfusion h⟩)

/-- A blank is one character, and a comment is a mark with the rest of its line. -/
theorem minor_of_kind {s : List Char} (h : (next s).kind = .whitespace ∨ (next s).kind = .comment) :
    ((next s).kind = .whitespace ∧ (next s).size = 1) ∨ ∃ t, s = '#' :: t ∧ next s = comment t := by
  cases s with
  | nil => rcases h with h | h <;> cases h
  | cons c s =>
      have minor := punctuation_minor c s
      have lexeme : next (c :: s) = if isBlank c then ⟨.whitespace, 1, []⟩
          else if isLetter c then ⟨.ident, 1 + run isWordChar s, []⟩
          else if c.isDigit then number (c :: s) else punctuation c s := rfl
      -- -- blanks, letters and digits decide the kind at once; what is left is punctuation, of which only
      -- a comment is minor
      by_cases blank : isBlank c
      · rw [if_pos blank] at lexeme
        exact .inl (by rw [lexeme]; exact ⟨rfl, rfl⟩)
      rw [if_neg blank] at lexeme
      by_cases letter : isLetter c
      · rw [lexeme, if_pos letter] at h
        rcases h with h | h <;> cases h
      rw [if_neg letter] at lexeme
      by_cases digit : c.isDigit
      · rw [lexeme, if_pos digit] at h
        rcases h with h | h <;> cases h
      rw [if_neg digit] at lexeme
      rw [lexeme] at h
      obtain rfl := minor.2 (h.resolve_left minor.1)
      exact .inr ⟨s, rfl, lexeme⟩

/-- Of blanks and comments only the blank that is a line break has one in it. -/
theorem newline_of_minor {s : List Char} (h : (next s).kind = .whitespace ∨ (next s).kind = .comment)
    (newline : '\n' ∈ s.take (next s).size) :
    (next s).kind = .whitespace ∧ s.take (next s).size = ['\n'] := by
  rcases minor_of_kind h with ⟨kind, one⟩ | ⟨t, rfl, lexeme⟩
  · refine ⟨kind, ?_⟩
    rw [one] at newline ⊢
    cases s with
    | nil => cases newline
    | cons c s =>
        rw [List.take_succ_cons, List.take_zero] at newline ⊢
        rw [List.mem_singleton.1 newline]
  · -- the rest of the line ends right before the line break
    exfalso
    rw [lexeme, comment, Nat.add_comm, List.take_succ_cons] at newline
    rcases List.mem_cons.1 newline with same | inside
    · exact absurd same (by decide)
    · rw [run, ← List.prefix_iff_eq_take.1 (List.takeWhile_prefix (· != '\n'))] at inside
      have other : ('\n' != '\n') = true := List.mem_takeWhile_imp (p := fun x => x != '\n') inside
      cases other

end Lexeme

namespace Cursor

variable {source : String} {b c d e f : Cursor} {n : Nat}

/-- The token at a cursor is a line break. -/
def IsBreak (c : Cursor) : Prop := c.lexeme.kind = .whitespace ∧ c.word = "\n"

/-- Tokens that do not count are blanks and comments. -/
theorem not_significant : ¬ c.Significant ↔ c.lexeme.kind = .whitespace ∨ c.lexeme.kind = .comment := by
  rw [Significant, not_and_or, not_not, not_not]

/-- A line break does not count. -/
theorem IsBreak.minor (h : c.IsBreak) : ¬ c.Significant := fun major => major.1 h.1

/-- Of the tokens that do not count only a line break has one in it. -/
theorem newline_mem_word (minor : ¬ c.Significant) : '\n' ∈ c.word.toList ↔ c.IsBreak := by
  constructor
  · intro newline
    rw [word, String.toList_ofList] at newline
    obtain ⟨kind, whole⟩ := Lexeme.newline_of_minor (not_significant.1 minor) newline
    exact ⟨kind, congrArg String.ofList whole⟩
  · rintro ⟨-, newline⟩
    rw [newline]
    exact List.mem_singleton.2 rfl

/-! ## The last token that counts

Where the last token that counts ends is told by offsets.  A token that does not count may be passed, and
the end stays where it is. -/

/-- No significant token starts from a cursor up to another one. -/
def Clear (source : String) (b c : Cursor) : Prop :=
  ∀ e : Cursor, e.Starts source → b.offset ≤ e.offset → e.offset < c.offset → ¬ e.Significant

/-- Where the last significant token before a cursor ends, or the start of the source if there is none. -/
inductive Last (source : String) (c : Cursor) : Nat → Prop
  | first : Clear source (start source.toList) c → Last source c 0
  | token {d : Cursor} : d.Starts source → d.Significant → d.offset < c.offset → Clear source d.skip c →
      Last source c d.skip.offset

/-- There is a line break from an offset up to a cursor. -/
def Breaks (source : String) (n : Nat) (c : Cursor) : Prop :=
  ∃ d : Cursor, d.Starts source ∧ d.IsBreak ∧ n ≤ d.offset ∧ d.offset ≤ c.offset

/-- A token that does not count may be passed. -/
theorem Clear.skip (starts : c.Starts source) (minor : ¬ c.Significant) (h : Clear source c.skip d) :
    Clear source c d := by
  intro e he since before
  rcases he.line starts with rfl | ⟨lt, -⟩ | ⟨-, le⟩
  · exact minor
  · omega
  · exact h e he le before

/-- One stretch without tokens that count behind another. -/
theorem Clear.trans (h : Clear source b c) (h' : Clear source c d) : Clear source b d := by
  intro e he since before
  rcases Nat.lt_or_ge e.offset c.offset with lt | le
  · exact h e he since lt
  · exact h' e he le before

/-- Tokens that are passed make no difference if they do not count. -/
theorem Last.pass (h : Last source c n) (clear : Clear source c d) (le : c.offset ≤ d.offset) :
    Last source d n := by
  cases h with
  | first before => exact .first (before.trans clear)
  | token starts major lt before => exact .token starts major (lt.trans_le le) (before.trans clear)

/-- The last token that counts ends no later than here. -/
theorem Last.le (h : Last source c n) (starts : c.Starts source) : n ≤ c.offset := by
  cases h with
  | first => exact Nat.zero_le _
  | token there _ lt => exact there.skip_le starts lt

/-- A line break is at a token or before it. -/
theorem breaks_skip (starts : c.Starts source) (le : c.skip.offset ≤ d.offset) (since : n ≤ c.offset) :
    Breaks source n d ↔ Breaks source n c ∨ Breaks source c.skip.offset d := by
  constructor
  · rintro ⟨e, he, newline, from', upTo⟩
    rcases he.line starts with rfl | ⟨lt, -⟩ | ⟨-, behind⟩
    · exact .inl ⟨e, he, newline, from', Nat.le_refl _⟩
    · exact .inl ⟨e, he, newline, from', lt.le⟩
    · exact .inr ⟨e, he, newline, behind, upTo⟩
  · have ahead := c.offset_le_skip
    rintro (⟨e, he, newline, from', upTo⟩ | ⟨e, he, newline, from', upTo⟩)
    · exact ⟨e, he, newline, from', upTo.trans (ahead.trans le)⟩
    · exact ⟨e, he, newline, since.trans (ahead.trans from'), upTo⟩

/-- At a token itself there is a line break if it is one. -/
theorem breaks_self (starts : c.Starts source) : Breaks source c.offset c ↔ c.IsBreak := by
  constructor
  · rintro ⟨e, he, newline, from', upTo⟩
    rwa [he.eq_of_offset starts (Nat.le_antisymm upTo from')] at newline
  · exact fun newline => ⟨c, starts, newline, Nat.le_refl _, Nat.le_refl _⟩

/-! ## The text since the last token

Between two tokens there is a line break if and only if the text between them has a newline, so it can be
told without scanning. -/

/-- The text between two cursors is that up to a cursor between them, and that from there on. -/
theorem textBetween_append (hb : b.In source) (hc : c.In source) (hd : d.In source)
    (le : b.offset ≤ c.offset) (le' : c.offset ≤ d.offset) :
    (textBetween source b.offset d.offset).toList =
      (textBetween source b.offset c.offset).toList ++ (textBetween source c.offset d.offset).toList := by
  rcases Nat.eq_or_lt_of_le le with same | lt
  · rw [same, textBetween_of_le (Nat.le_refl c.offset)]
    rfl
  rcases Nat.eq_or_lt_of_le le' with same | lt'
  · rw [← same, textBetween_of_le (Nat.le_refl c.offset)]
    exact (List.append_nil _).symm
  obtain ⟨x, rest, -, text⟩ := textBetween_of_in hb hc lt
  obtain ⟨y, rest', -, text'⟩ := textBetween_of_in hc hd lt'
  obtain ⟨z, whole, -, text''⟩ := textBetween_of_in hb hd (lt.trans lt')
  rw [text, text', text'', String.toList_ofList, String.toList_ofList, String.toList_ofList]
  rw [rest, rest', ← List.append_assoc] at whole
  exact (List.append_cancel_right whole).symm

/-- Between tokens there is a line break where the text has one. -/
theorem Clear.newline_iff (starts : b.Starts source) (there : c.Starts source) (le : b.offset ≤ c.offset)
    (clear : Clear source b c) : '\n' ∈ (textBetween source b.offset c.offset).toList ↔
      ∃ d : Cursor, d.Starts source ∧ d.IsBreak ∧ b.offset ≤ d.offset ∧ d.offset < c.offset := by
  -- from token to token, as long as there is something between the two cursors
  induction left : b.rest.length using Nat.strong_induction_on generalizing b with
  | _ n ih =>
      rcases Nat.eq_or_lt_of_le le with same | lt
      · rw [same, textBetween_of_le (Nat.le_refl c.offset)]
        refine ⟨fun none => absurd none List.not_mem_nil, ?_⟩
        rintro ⟨d, -, -, from', before⟩
        omega
      · have filled := starts.filled there lt
        have behind := starts.skip_le there lt
        have minor := clear b starts (Nat.le_refl _) lt
        have onward : Clear source b.skip c := fun e he since => clear e he (b.offset_le_skip.trans since)
        have later := ih b.skip.rest.length (left ▸ length_skip filled) starts.skip behind onward rfl
        rw [textBetween_append starts.in starts.in.skip there.in b.offset_le_skip behind,
          text_skip starts.in filled, List.mem_append, newline_mem_word minor, later]
        constructor
        · rintro (newline | ⟨d, hd, newline, from', before⟩)
          · exact ⟨b, starts, newline, Nat.le_refl _, lt⟩
          · exact ⟨d, hd, newline, b.offset_le_skip.trans from', before⟩
        · rintro ⟨d, hd, newline, from', before⟩
          rcases hd.line starts with rfl | ⟨lt', -⟩ | ⟨-, le'⟩
          · exact .inl newline
          · omega
          · exact .inr ⟨d, hd, newline, le', before⟩

/-- What is before the first token of a source is no line break. -/
theorem newline_before_start (source : String) :
    '\n' ∉ (textBetween source 0 (start source.toList).offset).toList := by
  rcases Nat.eq_zero_or_pos (start source.toList).offset with zero | pos
  · rw [zero, textBetween_of_le (Nat.le_refl 0)]
    exact List.not_mem_nil
  · have whole : Cursor.In source ⟨source.toList, 0, 0, 0, []⟩ := ⟨[], rfl, rfl⟩
    obtain ⟨x, rest, length, text⟩ := textBetween_of_in whole (start_in source) pos
    -- only a mark of the byte order is passed there
    have mark : source.toList = '\uFEFF' :: (start source.toList).rest := by
      unfold start at pos ⊢
      split at pos
      · next s same => rw [arrive_rest]; exact same
      · rw [arrive_offset] at pos
        exact absurd pos (Nat.lt_irrefl 0)
    have x_eq : x = ['\uFEFF'] := List.append_cancel_right (rest.symm.trans mark)
    intro newline
    have newline : '\n' ∈ (textBetween source (Cursor.mk source.toList 0 0 0 []).offset
      (start source.toList).offset).toList := newline
    rw [text, x_eq, String.toList_ofList] at newline
    exact absurd (List.mem_singleton.1 newline) (by decide)

/-- There was a line break since the last token where the text since then has one. -/
theorem Last.newline_iff (h : Last source c n) (starts : c.Starts source) (major : c.Significant) :
    '\n' ∈ (textBetween source n c.offset).toList ↔ Breaks source n c := by
  -- the token itself counts, so it is no line break
  have strict (m : Nat) : Breaks source m c ↔
      ∃ d : Cursor, d.Starts source ∧ d.IsBreak ∧ m ≤ d.offset ∧ d.offset < c.offset := by
    constructor
    · rintro ⟨d, hd, newline, from', upTo⟩
      refine ⟨d, hd, newline, from', Nat.lt_of_le_of_ne upTo fun same => ?_⟩
      exact newline.minor (hd.eq_of_offset starts same ▸ major)
    · rintro ⟨d, hd, newline, from', before⟩
      exact ⟨d, hd, newline, from', before.le⟩
  cases h with
  | token there _ lt clear => rw [strict, clear.newline_iff there.skip starts (there.skip_le starts lt)]
  | first clear =>
      have whole : Cursor.In source ⟨source.toList, 0, 0, 0, []⟩ := ⟨[], rfl, rfl⟩
      have first := starts_first source
      have ahead : (start source.toList).offset ≤ c.offset := by
        obtain ⟨k, rfl⟩ := starts
        exact nth_offset_le source (Nat.zero_le k)
      have split := textBetween_append whole first.in starts.in (Nat.zero_le _) ahead
      have none := newline_before_start source
      rw [strict, show (textBetween source 0 c.offset).toList = _ from split, List.mem_append, or_iff_right none,
        clear.newline_iff first starts ahead]
      constructor
      · rintro ⟨d, hd, newline, -, before⟩
        exact ⟨d, hd, newline, Nat.zero_le _, before⟩
      · rintro ⟨d, ⟨k, rfl⟩, newline, -, before⟩
        exact ⟨_, ⟨k, rfl⟩, newline, nth_offset_le source (Nat.zero_le k), before⟩

end Cursor

/-! ## Steps

Each of the two ways to go on passes tokens one at a time, and remembers a line break among them. -/

/-- No word of the language is a blank. -/
theorem Scanner.classify_eq_whitespace {t : KeywordTable} (known : t.Known) (kind : Token)
    (text : List Char) : Scanner.classify t kind text = .whitespace ↔ kind = .whitespace := by
  unfold Scanner.classify
  split
  · next ident =>
      rw [beq_iff_eq.1 ident]
      refine ⟨fun white => ?_, fun other => Token.noConfusion other⟩
      rcases found : t.get? (String.ofList text) with _ | word
      · rw [found] at white
        cases white
      · rw [found] at white
        obtain rfl : word = .whitespace := white
        rcases KeywordTable.isKeyword_of_mem (known.get? found) with other | other <;> cases other
  · exact Iff.rfl

namespace Parse

variable {source : String} {b : Bool} {c c' : Cursor} {l : Look} {s : ParseState}

/-- A line break that is taken is remembered. -/
theorem take_newline (env : Env) (o : Settings) (h : s.look.Before source c) :
    (take.run env o s).2.look.skippedNewline = true ↔ s.look.skippedNewline = true ∨ c.IsBreak := by
  obtain ⟨hints, look, -⟩ := run_reports (taken env s.look).location s.look.scanner.scan.1.errors env o
    { s with look := taken env s.look }
  have scanned : s.look.scanner.scan = Scanner.scan ⟨source, c, s.look.scanner.keywords⟩ := by
    rw [← h.text, ← h.cursor]
  have kind := Scanner.classify_eq_whitespace h.known c.lexeme.kind (c.rest.take c.lexeme.size)
  have seen : (taken env s.look).skippedNewline = (s.look.skippedNewline ||
      (Scanner.classify s.look.scanner.keywords c.lexeme.kind (c.rest.take c.lexeme.size) == .whitespace &&
        textBetween source c.offset c.skip.offset == "\n")) := by
    simp only [taken, scanned]
    rfl
  rw [run_take, look]
  show (taken env s.look).skippedNewline = true ↔ _
  rw [seen, Bool.or_eq_true, Bool.and_eq_true, beq_iff_eq, beq_iff_eq, kind, Cursor.IsBreak]
  refine or_congr Iff.rfl (and_congr_right fun white => ?_)
  rw [Cursor.text_skip h.starts.in fun none => ?_]
  rw [Cursor.lexeme, Lexeme.next_kind_eof.2 none] at white
  cases white

/-- Of the tokens that are taken up to one that counts the line breaks are remembered. -/
theorem takeUpTo_newline {fuel : Nat} (env : Env) (o : Settings) (h : s.look.Before source c)
    (enough : c.rest.length < fuel)
    (there : ((takeUpTo b fuel).run env o s).2.look.At source c') :
    ((takeUpTo b fuel).run env o s).2.look.skippedNewline = true ↔
      s.look.skippedNewline = true ∨ Cursor.Breaks source c.offset c' := by
  induction fuel generalizing c s with
  | zero => omega
  | succ fuel ih =>
      have took := take_took env o h
      have newline := take_newline env o h
      rcases taken : take.run env o s with ⟨_ | _, t⟩
      · have goes := goes_take env o s
        rw [taken] at goes
        cases goes
      rw [taken] at took newline
      have shown (p : Token) (plain : p.isPlain) : t.look.token = p ↔ c.lexeme.kind = p :=
        took.at'.shows.plain_iff plain
      -- what is done behind the token that was taken, if it is not the last one
      have onward (minor : ¬ c.Significant) (filled : c.lexeme.kind ≠ .eof) (t' : ParseState)
          (look : t'.look = t.look) (there : ((takeUpTo b fuel).run env o t').2.look.At source c') :
          ((takeUpTo b fuel).run env o t').2.look.skippedNewline = true ↔
            s.look.skippedNewline = true ∨ Cursor.Breaks source c.offset c' := by
        have filled : c.rest ≠ [] := fun none => filled (Lexeme.next_kind_eof.2 none)
        have shorter := Cursor.length_skip filled
        have before : t'.look.Before source c.skip := look ▸ before_skip took.at' minor
        obtain ⟨d, walk⟩ : ∃ d, Walk source env b c.skip d t' ((takeUpTo b fuel).run env o t').2 :=
          takeUpTo_walk env o before (by omega)
        have same : d = c' := walk.at'.unique there
        rw [ih before (by omega) there, look, newline, Cursor.breaks_skip h.starts (same ▸ walk.ahead)
          (Nat.le_refl _), Cursor.breaks_self h.starts, or_assoc]
      -- the walk ends with the token that was taken
      have here (there : t.look.At source c') : t.look.skippedNewline = true ↔
          s.look.skippedNewline = true ∨ Cursor.Breaks source c.offset c' := by
        rw [← took.at'.unique there, newline, Cursor.breaks_self h.starts]
      rw [takeUpTo, run_bind, taken, andThen_some, run_bind, run_token, andThen_some] at there ⊢
      revert there
      split
      · next white =>
          have kind := (shown .whitespace rfl).1 white
          split
          · exact onward (fun major => major.1 kind) (by rw [kind]; decide) t rfl
          · exact here
      · next comment =>
          have kind := (shown .comment rfl).1 comment
          exact onward (fun major => major.2 kind) (by rw [kind]; decide) _ rfl
      · exact here

/-- Going on remembers the line breaks on the way. -/
theorem next_newline {d : Cursor} (env : Env) (before : (leave l).Before source c)
    (there : (next env b l).look.At source d) :
    (next env b l).look.skippedNewline = true ↔
      (leave l).skippedNewline = true ∨ Cursor.Breaks source c.offset d := by
  have enough : c.rest.length < (leave l).scanner.cursor.rest.length + 1 := by
    rw [before.cursor]
    exact Nat.lt_succ_self _
  have before' : (ParseState.bare (leave l)).look.Before source c := before
  exact takeUpTo_newline env ⟨0, fun _ => true⟩ before' enough there

end Parse

namespace Look

variable {source file : String} {c : Cursor} {l : Look}

/-- A parser stands at a token and has kept the way there: its place, the end of the last token that counts,
and whether there was a line break since.  Behind the end of the source there is no way. -/
structure Kept (source file : String) (c : Cursor) (l : Look) : Prop where
  at' : l.At source c
  solid : c.lexeme.kind ≠ .comment
  place : l.location = c.place source file
  last : c.rest ≠ [] → Cursor.Last source c l.lastStop
  newline : c.rest ≠ [] → (l.skippedNewline = true ↔ Cursor.Breaks source l.lastStop c)

/-- A step in either way keeps the way. -/
theorem Kept.next (h : l.Kept source file c) {env : Env} (named : env.file = file) (b : Bool) :
    ∃ d, (Parse.next env b l).look.Kept source file d := by
  obtain ⟨d, step⟩ := next_step env b h.at'
  have starts := h.at'.starts
  have newline := next_newline env (before_leave h.at') step.at'
  -- where there is something to be read behind the step, there was before
  have filled (more : d.rest ≠ []) : c.rest ≠ [] := by
    intro none
    have ahead := step.ahead
    rw [Cursor.skip_of_end none, starts.in.offset_of_end none] at ahead
    have same : c.offset = d.offset :=
      (starts.in.offset_of_end none).trans (Nat.le_antisymm ahead step.at'.starts.in.offset_le)
    exact more (starts.eq_of_offset step.at'.starts same ▸ none)
  have clear (more : d.rest ≠ []) : Cursor.Clear source c.skip d := fun e he since before =>
    step.gap e he ((Cursor.offset_lt_skip (filled more)).trans_le since) before
  have white := h.at'.shows.plain_iff (p := .whitespace) rfl
  by_cases blank : l.token = .whitespace
  · have minor : ¬ c.Significant := fun major => major.1 (white.1 blank)
    have leaves : leave l = l := if_pos (beq_iff_eq.2 blank)
    rw [leaves] at newline
    refine ⟨d, step.at', step.solid, named ▸ step.place, fun more => ?_, fun more => ?_⟩
    · rw [step.lastStop, leaves]
      exact (h.last (filled more)).pass ((clear more).skip starts minor) (c.offset_le_skip.trans step.ahead)
    · rw [step.lastStop, leaves, newline, h.newline (filled more)]
      exact (Cursor.breaks_skip starts step.ahead ((h.last (filled more)).le starts)).symm
  · have major : c.Significant := ⟨mt white.2 blank, h.solid⟩
    have leaves : leave l = { l with lastStop := l.stop, skippedNewline := false } :=
      if_neg (mt beq_iff_eq.1 blank)
    rw [leaves] at newline
    refine ⟨d, step.at', step.solid, named ▸ step.place, fun more => ?_, fun more => ?_⟩
    · rw [step.lastStop, leaves, h.at'.stop]
      exact .token starts major ((Cursor.offset_lt_skip (filled more)).trans_le step.ahead) (clear more)
    · rw [step.lastStop, leaves, newline, h.at'.stop]
      exact ⟨fun newline => newline.resolve_left Bool.false_ne_true, .inr⟩

/-- What a parser sees may be changed where it has nothing to do with the way. -/
theorem Kept.hints (h : l.Kept source file c) (hints : List Hint) :
    Look.Kept source file c { l with hints } :=
  { h with at' := { h.at' with } }

/-- Other words do not change the way to a token. -/
theorem Kept.words (h : l.Kept source file c) {t : KeywordTable} (known : t.Known) :
    Look.Kept source file c { l with scanner := { l.scanner with keywords := t } } :=
  { h with at' := { h.at' with known } }

/-- A keyword that is read as an identifier is the same token. -/
theorem Kept.ident (h : l.Kept source file c) {env : Env}
    (allowed : env.allowsInRefs l.scanner.keywords l.token.name = true) :
    Look.Kept source file c { l with token := .ident } :=
  { h with at' := h.at'.asIdent allowed }

/-! ## What is told of the source

A reader who knows the token and what was kept can tell what stands before it in the source, without the
scanner. -/

/-- What a parser keeps tells of the source: of the token that it stands at, of the last one before it that is
neither a blank nor a comment, and of the text between the two. -/
structure Tells (source file : String) (l : Look) : Prop where
  token : ∃ x ∈ tokensOf source, l.offset = x.position.offset ∧ l.stop = x.position.stop ∧
    l.literal = textBetween source x.position.offset x.literalStop ∧ l.location =
      ⟨file, x.position.row, x.position.col, x.position.offset, x.text source, x.position.tabs⟩
  last : (l.lastStop = 0 ∧ ∀ y ∈ tokensOf source, y.isSolid = true → l.offset ≤ y.position.offset) ∨
    ∃ x ∈ tokensOf source, x.isSolid = true ∧ x.position.offset < l.offset ∧ l.lastStop = x.position.stop ∧
      ∀ y ∈ tokensOf source, y.isSolid = true → y.position.offset < l.offset →
        y.position.offset ≤ x.position.offset
  newline : l.skippedNewline = true ↔ '\n' ∈ (textBetween source l.lastStop l.offset).toList

/-- It does, unless the parser stands at a blank or at the end. -/
theorem Kept.tells (h : l.Kept source file c) (white : l.token ≠ .whitespace) (more : l.token ≠ .eof) :
    l.Tells source file := by
  have starts := h.at'.starts
  have filled : c.rest ≠ [] := fun none =>
    more ((h.at'.shows.plain_iff rfl).2 (Lexeme.next_kind_eof.2 none))
  have major : c.Significant := ⟨mt (h.at'.shows.plain_iff rfl).2 white, h.solid⟩
  have place := h.place
  have offset := h.at'.offset
  have literal : (c.scanned source).literalStop = c.skip.offset :=
    if_neg fun both => h.solid (by simpa [Cursor.lexeme] using (Bool.and_eq_true_iff.1 both).1)
  -- a token that counts stands at a cursor that does
  have counts (y : Scanned) (listed : y ∈ tokensOf source) (solid : y.isSolid = true) :
      ∃ e : Cursor, e.Starts source ∧ e.Significant ∧ y = e.scanned source := by
    obtain ⟨e, he, rfl⟩ := mem_tokensOf.1 listed
    exact ⟨e, he, ((e.scanned_solid source).1 solid).1, rfl⟩
  refine ⟨⟨c.scanned source, mem_tokensOf.2 ⟨c, starts, rfl⟩, offset, h.at'.stop, ?_, place⟩, ?_, ?_⟩
  · rw [literal, Look.literal, Scanner.text, h.at'.text, h.at'.literal h.solid, h.at'.stop, offset]
    rfl
  · have last := h.last filled
    rw [offset]
    generalize l.lastStop = n at last
    cases last with
    | first clear =>
        refine .inl ⟨rfl, fun y listed solid => ?_⟩
        obtain ⟨e, ⟨k, rfl⟩, counts, rfl⟩ := counts y listed solid
        exact Nat.le_of_not_lt fun before =>
          clear _ ⟨k, rfl⟩ (Cursor.nth_offset_le source (Nat.zero_le k)) before counts
    | @token d there major' lt clear =>
        have solid : (d.scanned source).isSolid = true :=
          (d.scanned_solid source).2 ⟨major', there.filled starts lt⟩
        refine .inr ⟨d.scanned source, mem_tokensOf.2 ⟨d, there, rfl⟩, solid, lt, rfl, fun y listed solid before => ?_⟩
        obtain ⟨e, he, counts, rfl⟩ := counts y listed solid
        exact Nat.le_of_not_lt fun behind => clear e he (there.skip_le he behind) before counts
  · rw [offset]
    exact (h.newline filled).trans ((h.last filled).newline_iff starts major).symm

end Look

end RegoSyntax
