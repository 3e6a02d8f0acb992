/-
# RegoSyntax.Proofs.Lookahead — the token in front has been looked up in the table that is in force.

Whatever a statement passes, gives up and takes up again, the token that a run stands at has been looked up
in the table of words that it holds (`Look.LookedUp`), or is an identifier because a reference goes on
behind it.  Every single move keeps this, so it holds of all that is remembered as well.

There is one exception.  The path of an import clause is read with no word of the future reserved, and the
token behind it, which ends the path, is not looked up again: unless the clause gives a name, that is where
the next statement starts (`token_behind_import`).
-/
import RegoSyntax.Proofs.Moves.Boundaries
import RegoSyntax.Proofs.Printing.Spelling

namespace RegoSyntax

open Parse

/-! ## Words

The kind of a word is looked up; the kinds of all other lexemes are told by their characters. -/

namespace Lexeme

/-- A point and a bracket are what they are spelled like. -/
theorem punctuation_point {c : Char} {s : List Char} :
    ((punctuation c s).kind = .dot → c = '.') ∧ ((punctuation c s).kind = .lbrack → c = '[') := by
  unfold punctuation
  split <;> first
    | exact ⟨fun _ => rfl, fun h => (by cases h)⟩
    | exact ⟨fun h => (by cases h), fun _ => rfl⟩
    | exact ⟨fun h => (by cases h), fun h => (by cases h)⟩
    | exact raw_kind s ▸ ⟨fun h => (by cases h), fun h => (by cases h)⟩
    | (rcases either_kind _ _ _ s with h | h <;> rw [h] <;>
        exact ⟨fun h => (by cases h), fun h => (by cases h)⟩)
    | (split <;> exact ⟨fun h => (by cases h), fun h => (by cases h)⟩)

theorem next_point {s : List Char} :
    ((next s).kind = .dot → s.head? = some '.') ∧ ((next s).kind = .lbrack → s.head? = some '[') := by
  cases s with
  | nil => exact ⟨fun h => (by cases h), fun h => (by cases h)⟩
  | cons c s =>
      unfold next
      dsimp only
      split
      · exact ⟨fun h => (by cases h), fun h => (by cases h)⟩
      split
      · exact ⟨fun h => (by cases h), fun h => (by cases h)⟩
      split
      · exact ⟨fun h => (by cases h), fun h => (by cases h)⟩
      · exact ⟨fun h => congrArg some (punctuation_point.1 h), fun h => congrArg some (punctuation_point.2 h)⟩

end Lexeme

/-- A scanner takes a word for what its table says. -/
theorem Cursor.shown_of_word {c : Cursor} (word : Lexeme.IsWord c.word.toList) (t : KeywordTable) :
    c.shown t = (t.get? c.word).getD .ident := by
  obtain ⟨x, s, text, letter, -⟩ := word
  rw [Cursor.word, String.toList_ofList] at text
  have starts := congrArg List.head? text
  rw [List.head?_take] at starts
  split at starts
  · cases starts
  obtain ⟨rest, starts⟩ := List.head?_eq_some_iff.1 starts
  have lexeme : c.lexeme = ⟨.ident, 1 + Lexeme.run Lexeme.isWordChar rest, []⟩ := by
    rw [Cursor.lexeme, starts, Lexeme.next_letter letter]
  have kind : c.lexeme.kind = .ident := by rw [lexeme]
  have legal : c.lexeme.faults = [] := by rw [lexeme]
  rw [Cursor.shown, legal, kind]
  rfl

/-! ## Looking up

A token is looked up once, when it is scanned, in the table in force by then.  To reserve words later does
not change the kind of a token that is there already. -/

namespace Look

/-- The token in front was looked up in a table, or a reference goes on behind it. -/
def LookedUp (source : String) (t : KeywordTable) (l : Look) : Prop :=
  ∃ c, l.At source c ∧ c.lexeme.kind ≠ .comment ∧
    (l.token = c.shown t ∨ l.token = .ident ∧ Course.Adjoined c)

variable {source : String} {t : KeywordTable} {l : Look}

/-- The literal text of a token is the word at its cursor. -/
theorem At.literal_word {c : Cursor} (h : l.At source c) (solid : c.lexeme.kind ≠ .comment)
    (word : Lexeme.IsWord l.literal.toList) : l.literal = c.word := by
  by_cases filled : c.rest = []
  · have none : l.literal = "" := by
      rw [Look.literal, Scanner.text, h.literal solid, h.stop, h.offset, Cursor.skip_of_end filled]
      exact textBetween_of_le (Nat.le_refl _)
    obtain ⟨x, s, text, -⟩ := word
    rw [none] at text
    cases text
  · exact h.literal_eq solid filled

theorem LookedUp.token_eq (h : l.LookedUp source t) (word : Lexeme.IsWord l.literal.toList)
    (dot : l.scanner.cursor.rest.head? ≠ some '.') (lbrack : l.scanner.cursor.rest.head? ≠ some '[') :
    l.token = (t.get? l.literal).getD .ident := by
  obtain ⟨c, at', solid, shown | ⟨-, adjoined⟩⟩ := h
  · have same := at'.literal_word solid word
    rw [same] at word ⊢
    rw [shown, Cursor.shown_of_word word]
  · rw [at'.cursor] at dot lbrack
    rcases adjoined with kind | kind
    · exact absurd (Lexeme.next_point.1 kind) dot
    · exact absurd (Lexeme.next_point.2 kind) lbrack

/-- Advice has no say in how a token is looked up. -/
theorem LookedUp.hints (h : l.LookedUp source t) (hints : List Hint) :
    LookedUp source t { l with hints } := by
  obtain ⟨c, at', solid, shown⟩ := h
  exact ⟨c, { at' with }, solid, shown⟩

/-- To reserve other words is not to look up again. -/
theorem LookedUp.reserving (h : l.LookedUp source t) {t' : KeywordTable} (known : t'.Known) :
    LookedUp source t { l with scanner := { l.scanner with keywords := t' } } := by
  obtain ⟨c, at', solid, shown⟩ := h
  exact ⟨c, { at' with known }, solid, shown⟩

end Look

namespace Route

variable {ρ : Route} {u v w x : Reading} {allowed : KeywordTable} {ss : List Statement} {l : Look}

/-- A token that was gone on to has been looked up in the table that is in force. -/
theorem lookedUp_next (h : l.Ok ρ.source) (b : Bool) :
    (Parse.next ρ.env b l).look.LookedUp ρ.source (Parse.next ρ.env b l).look.scanner.keywords := by
  obtain ⟨c, at', -⟩ := h
  obtain ⟨d, step⟩ := next_step ρ.env b at'
  exact ⟨d, step.at', step.solid, .inl step.exact⟩

/-- Where a parser has moved on, the token in front has been looked up. -/
theorem stable_lookedUp (ρ : Route) (n : Nat) :
    ρ.Stable fun l => n < l.offset → l.LookedUp ρ.source l.scanner.keywords where
  pass b ok _ _ _ := lookedUp_next ok b
  point b ok _ _ _ := lookedUp_next ok b
  segment ok _ _ _ _ := lookedUp_next (ok_next ok false).1 false
  hints hints holds behind := (holds behind).hints hints
  ident {l} ok _ allowed continues _ := by
    obtain ⟨c, at', solid⟩ := ok
    exact ⟨c, at'.asIdent allowed, solid, .inr ⟨rfl, Course.Reads.adjoined_of_peek at' continues⟩⟩

/-- What is remembered from an offset on ends at tokens that have been looked up. -/
def Remembers (ρ : Route) (n : Nat) (u : Reading) : Prop :=
  ∀ e ∈ u.memo.entries, n ≤ e.offset → e.after.LookedUp ρ.source e.after.scanner.keywords

/-- Behind a reading from which a parser has moved on, everything has been looked up. -/
theorem Leads.lookedUp (h : ρ.Leads u v) (seated : ρ.Seated u) (remembers : ρ.Remembers u.look.offset u)
    (strides : u.look.offset < v.look.offset) :
    v.look.LookedUp ρ.source v.look.scanner.keywords ∧ ρ.Remembers v.look.offset v := by
  have holds := h.stable (stable_lookedUp ρ u.look.offset) seated (n := u.look.offset)
    ⟨Nat.le_refl _, fun behind => absurd behind (Nat.lt_irrefl _), fun e he since _ => remembers e he since⟩
  refine ⟨holds.look strides, fun e he since => ?_⟩
  have behind := strides.trans_le since
  exact holds.memo e he behind.le (behind.trans_le ((h.seated seated).memo e he).ahead)

end Route

/-! ## Statements

A statement leaves the parser at a token that was looked up while the statement was read.  Only an import
reserves words behind its last token, and then the token is behind the table by one import. -/

/-- The table in which the token behind statements has been looked up: where the last one is an import
clause without a name of its own, no word of the future is reserved in it. -/
def Statement.tableBehind (ss : List Statement) (t : KeywordTable) : KeywordTable :=
  match ss with
  | [.importClause ⟨_, none, _⟩] => t.removeAll .future
  | _ => t

/-- Behind rules the table is the one in force. -/
theorem Statement.tableBehind_rules (rs : List Rule) (t : KeywordTable) :
    tableBehind (rs.map .rule) t = t := by
  rcases rs with _ | ⟨r, _ | ⟨r', rs⟩⟩ <;> rfl

namespace Route

variable {ρ : Route} {u v : Reading} {allowed : KeywordTable} {ss : List Statement}

/-- Behind an import clause the token in front has been looked up when the path was read, or when the name
was. -/
theorem Imports.lookedUp {i : Import} (h : ρ.Imports u i v) (seated : ρ.Seated u)
    (remembers : ρ.Remembers u.look.offset u) :
    v.look.LookedUp ρ.source (Statement.tableBehind [.importClause i] v.look.scanner.keywords) ∧
      ρ.Remembers v.look.offset v := by
  cases h with
  | @plain w x v path place names narrows same =>
      have there := names.seated seated
      obtain ⟨hints, look⟩ := same.look
      constructor
      -- the path is read with nothing remembered
      · have read := (narrows.goes.leads.lookedUp narrows.goes.start (fun _ he => absurd he List.not_mem_nil)
          narrows.strides).1
        rw [look]
        rw [narrows.keywords] at read
        obtain ⟨c, at', -⟩ := there.look
        exact (read.reserving at'.known).hints hints
      · have ahead := (names.strides seated (by decide)).trans narrows.strides
        intro e he since
        rw [same.memo] at he
        have listed : e ∈ u.memo.entries := names.memo ▸ he
        exact remembers e listed (ahead.le.trans (same.offset ▸ since))
  | @renamed w x v path name place names narrows renames =>
      have closed := narrows.seated (names.seated seated)
      have ahead := ((names.strides seated (by decide)).trans narrows.strides).trans_le (le_passing closed true)
      refine renames.goes.leads.lookedUp renames.goes.start (fun e he since => ?_) renames.strides
      have listed : e ∈ u.memo.entries := names.memo ▸ he
      exact remembers e listed (ahead.le.trans since)

/-- Behind a statement the token in front has been looked up. -/
theorem Arrives.lookedUp (h : ρ.Arrives allowed u ss v) (seated : ρ.Seated u)
    (remembers : ρ.Remembers u.look.offset u) (known : allowed.Known)
    (future : ∀ x, KeywordTable.future.contains x = false → allowed.get? x = none) :
    v.look.LookedUp ρ.source (Statement.tableBehind ss v.look.scanner.keywords) ∧
      ρ.Remembers v.look.offset v := by
  have there := h.seated seated known
  cases h with
  | package names goes strides =>
      have before := names.strides seated (by decide)
      refine goes.leads.lookedUp (names.seated seated) (fun e he since => ?_) strides
      exact remembers e (names.memo ▸ he) (before.le.trans since)
  | rules walks strides =>
      rw [Statement.tableBehind_rules]
      exact walks.treads.unbound.lookedUp (seated_unbound seated) remembers strides
  | query lost _ goes strides =>
      exact (lost.unbound.resume.trans goes.leads.unbound).lookedUp (seated_unbound seated) remembers strides
  | @imports i v imports =>
      obtain ⟨memo, -, hints, look⟩ := i.applied_same ρ.env allowed v
      obtain ⟨read, remembers⟩ := imports.lookedUp seated remembers
      -- words that are reserved afterwards do not change what was looked up
      have table : Statement.tableBehind [.importClause i] (i.applied ρ.env allowed v).look.scanner.keywords =
          Statement.tableBehind [.importClause i] v.look.scanner.keywords := by
        rw [look]
        obtain ⟨path, _ | name, place⟩ := i
        · exact Import.reserving_removeAll _ ρ.env _ future
        · exact Import.reserving_renamed rfl
      rw [table, look]
      obtain ⟨c, at', -⟩ := there.look
      rw [look] at at'
      refine ⟨(read.reserving at'.known).hints hints, fun e he since => ?_⟩
      rw [memo] at he
      exact remembers e he since

end Route

/-! ## Runs

From statement to statement: what is remembered has been looked up as well, since it was seen in the same
way. -/

namespace Run

/-- The token in front of a run, as a word by itself: no reference goes on behind it. -/
structure Fronts (r : Run) (word : String) : Prop where
  literal : r.state.look.literal = word
  isWord : Lexeme.IsWord word.toList
  dot : r.state.look.scanner.cursor.rest.head? ≠ some '.'
  lbrack : r.state.look.scanner.cursor.rest.head? ≠ some '['

instance (r : Run) (word : String) : Decidable (r.Fronts word) :=
  decidable_of_iff (r.state.look.literal = word ∧ Lexeme.IsWord word.toList ∧
      r.state.look.scanner.cursor.rest.head? ≠ some '.' ∧ r.state.look.scanner.cursor.rest.head? ≠ some '[')
    ⟨fun h => ⟨h.1, h.2.1, h.2.2.1, h.2.2.2⟩, fun h => ⟨h.literal, h.isWord, h.dot, h.lbrack⟩⟩

end Run

theorem Look.LookedUp.fronts {source word : String} {t : KeywordTable} {r : Run}
    (h : r.state.look.LookedUp source t) (fronts : r.Fronts word) :
    r.state.look.token = (t.get? word).getD .ident := by
  have literal := fronts.literal
  subst literal
  exact h.token_eq fronts.isWord fronts.dot fronts.lbrack

namespace Task

variable {t : Task} {r : Run}

/-- The first token is looked up in the words that are reserved from the start. -/
theorem start_lookedUp (known : t.words.selected.Known) :
    (Run.start t).state.look.LookedUp t.source (Run.start t).state.look.scanner.keywords := by
  obtain ⟨c, walk, start⟩ := start_walk known
  have look : (Run.start t).state.look = (Parse.next t.env true t.opening.look).look := by
    show t.start.toReading.look = _
    rw [start]
  rw [look]
  exact ⟨c, walk.at', walk.solid, .inl walk.exact⟩

/-- Behind the statement that a step has read the token in front has been looked up. -/
theorem step_lookedUp (h : t.Reaches r) (allowed : t.words.allowed.Known) (selected : t.words.selected.Known)
    (future : ∀ x, KeywordTable.future.contains x = false → t.words.allowed.get? x = none)
    (remembers : t.route.Remembers r.state.look.offset r.state.toReading) (more : (r.step t).2 = true) :
    ∃ ss, (r.step t).1.statements = r.statements ++ ss ∧
      (r.step t).1.state.look.LookedUp t.source
        (Statement.tableBehind ss (r.step t).1.state.look.scanner.keywords) ∧
      t.route.Remembers (r.step t).1.state.look.offset (r.step t).1.state.toReading := by
  have seated := h.seated allowed selected
  obtain ⟨ss, read, arrives⟩ := step_arrives (h.sound allowed selected) seated more
  exact ⟨ss, read, arrives.lookedUp seated remembers allowed future⟩

theorem Reaches.remembers (h : t.Reaches r) (allowed : t.words.allowed.Known)
    (selected : t.words.selected.Known)
    (future : ∀ x, KeywordTable.future.contains x = false → t.words.allowed.get? x = none) :
    t.route.Remembers r.state.look.offset r.state.toReading := by
  induction h with
  | start =>
      obtain ⟨c, walk, start⟩ := start_walk selected
      show t.route.Remembers t.start.look.offset t.start.toReading
      rw [start]
      exact fun _ he => absurd he List.not_mem_nil
  | step before more ih =>
      obtain ⟨ss, -, -, remembers⟩ := step_lookedUp before allowed selected future ih more
      exact remembers

end Task

/-- Between two statements a word in front that no reference goes on behind is what the table in force says.
Only directly behind an import clause without a name of its own, and only a word of the future, may be taken
for an identifier though it is reserved. -/
theorem token_in_front {source file : String} {o : Options} {words : Negotiated}
    (settled : o.negotiate = .ok words) {t : Task} (new : t = Task.new source file o words) {r : Run}
    (h : t.Reaches r) {word : String} (fronts : r.Fronts word)
    (apart : (∀ i, r.statements.getLast? = some (.importClause i) → i.localName ≠ none) ∨
      KeywordTable.future.contains word = false) :
    r.state.look.token = (r.state.look.scanner.keywords.get? word).getD .ident := by
  subst new
  obtain ⟨allowed, selected⟩ := o.known_negotiate settled
  cases h with
  | start => exact (Task.start_lookedUp selected).fronts fronts
  | @step r before more =>
      have future := o.allowed_future settled
      obtain ⟨ss, read, looked, -⟩ := Task.step_lookedUp before allowed selected future
        (before.remembers allowed selected future) more
      rw [looked.fronts fronts]
      unfold Statement.tableBehind
      split
      -- directly behind such a clause only words of the future were looked up under another table
      · next path place =>
          rcases apart with other | unreserved
          · refine absurd rfl (other ⟨path, none, place⟩ ?_)
            rw [read, List.getLast?_append]
            rfl
          · rw [KeywordTable.get?_removeAll, unreserved]
            rfl
      · rfl

/-- Behind a package clause a word of the future is reserved. -/
theorem token_behind_package : ∃ t r, t = Task.new "package a\nif := 1" "" {} ⟨.future, .future⟩ ∧
    t.Reaches r ∧ r.Fronts "if" ∧
      r.state.look.token = (r.state.look.scanner.keywords.get? "if").getD .ident := by
  have settled : ({} : Options).negotiate = .ok ⟨.future, .future⟩ := rfl
  generalize new : Task.new "package a\nif := 1" "" {} ⟨.future, .future⟩ = t
  obtain ⟨more, fronts, last⟩ : ((Run.start t).step t).2 = true ∧ ((Run.start t).step t).1.Fronts "if" ∧
      ((Run.start t).step t).1.statements.getLast?.map Statement.kind = some "package" := by
    rw [← new]
    decide +kernel
  have reaches := Task.Reaches.step .start more
  refine ⟨t, _, rfl, reaches, fronts, token_in_front settled new.symm reaches fronts (.inl fun i found => ?_)⟩
  rw [found] at last
  simp [Statement.kind] at last

/-- Behind an import clause a word is taken for an identifier though it is reserved. -/
theorem token_not_lookedUp : ∃ words t r, ({} : Options).negotiate = .ok words ∧
    t = Task.new "import data.a\nif := 1" "" {} words ∧ t.Reaches r ∧ r.Fronts "if" ∧
    r.state.look.token ≠ (r.state.look.scanner.keywords.get? "if").getD .ident := by
  generalize new : Task.new "import data.a\nif := 1" "" {} ⟨.future, .future⟩ = t
  obtain ⟨more, fronts, other⟩ : ((Run.start t).step t).2 = true ∧ ((Run.start t).step t).1.Fronts "if" ∧
      ((Run.start t).step t).1.state.look.token ≠
        (((Run.start t).step t).1.state.look.scanner.keywords.get? "if").getD .ident := by
    rw [← new]
    decide +kernel
  exact ⟨⟨.future, .future⟩, t, _, rfl, new.symm, .step .start more, fronts, other⟩

/-- The first word behind an import clause without a name of its own was looked up with no word of the future
reserved. -/
theorem token_behind_import {source file : String} {o : Options} {words : Negotiated}
    (settled : o.negotiate = .ok words) {t : Task} (new : t = Task.new source file o words) {r : Run}
    (h : t.Reaches r) (more : (r.step t).2 = true) {i : Import} (unnamed : i.localName = none)
    (read : (r.step t).1.statements = r.statements ++ [.importClause i]) {word : String}
    (fronts : (r.step t).1.Fronts word) :
    (r.step t).1.state.look.token = if KeywordTable.future.contains word then .ident
      else ((r.step t).1.state.look.scanner.keywords.get? word).getD .ident := by
  subst new
  obtain ⟨allowed, selected⟩ := o.known_negotiate settled
  have future := o.allowed_future settled
  obtain ⟨ss, read', looked, -⟩ := Task.step_lookedUp h allowed selected future
    (h.remembers allowed selected future) more
  obtain rfl := List.append_cancel_left (read.symm.trans read')
  obtain ⟨path, name, place⟩ := i
  subst unnamed
  rw [looked.fronts fronts]
  show ((KeywordTable.removeAll _ .future).get? word).getD .ident = _
  rw [KeywordTable.get?_removeAll]
  split
  · rfl
  · rfl

end RegoSyntax
