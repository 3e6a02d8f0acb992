/-
# RegoSyntax.Proofs.Parallel — how parsers are put together, for two of them at once.

The rules of the grammar are plain functions, and nothing in their type says what they may look at.  What they
do look at is little: the kind and the place of a token, the text between two offsets, whether there are errors.
They do not look at the table of reserved words, and of the task they ask only whether words are to be looked
for.  A place to return to is kept and given back, and never taken apart.

`Parse.Parallel` says so.  It relates two parsers that are put together of the same steps; they may differ in
the places that they return to, which correspond by a relation that the whole statement is about, and in what
they were shown of a look.  So a parser that is parallel to itself behaves alike in two runs of which the
states correspond, whatever that comes to mean: the induction is on how the parsers are put together, and one
case of it speaks of one step.

Some steps are told as a whole.  A keyword is taken for an identifier only where it may stand for one, so the
question and the change are one step; the question of whether a term is remembered goes with the reading; and
behind a reading with all words reserved the parser sees a token that was read with one table and holds another
one, and it returns to an earlier place at once.
-/
import RegoSyntax.Proofs.Courses
import RegoSyntax.Proofs.Nesting

namespace RegoSyntax

open Parse

/-- What a parser sees, when other words are reserved from here on. -/
def Look.reserving (l : Look) (t : KeywordTable) : Look :=
  { l with scanner := { l.scanner with keywords := t } }

namespace Look

@[simp] theorem reserving_literal (l : Look) (t : KeywordTable) : (l.reserving t).literal = l.literal := rfl

end Look

namespace Parse

/-- A term that is taken up again if it is remembered, and is read and remembered otherwise. -/
def recallingOr (x : Parse Term) : Parse Term := do
  match ← remembered with
  | some e => replay e
  | none =>
    let start ← save
    let t ← attempt x
    remember start t
    ofOption t

/-- A primary term is read in this way. -/
theorem term_eq (g : Grammar) :
    term g = nested (recallingOr do
      let t ← head g
      finish g t false) := rfl

/-! ## Parsers in parallel -/

/-- Two parsers that are put together of the same steps.  They return to places that correspond, and they are
blind to the table of reserved words. -/
inductive Parallel (P : Snapshot → Snapshot → Prop) : {α : Type} → Parse α → Parse α → Prop
  | pure {α : Type} (a : α) : Parallel P (Pure.pure a) (Pure.pure a)
  | fail {α : Type} : Parallel P (fail : Parse α) fail
  | bind {α β : Type} {x x' : Parse α} {f f' : α → Parse β} :
      Parallel P x x' → (∀ a, Parallel P (f a) (f' a)) → Parallel P (x >>= f) (x' >>= f')
  | attempt {α : Type} {x x' : Parse α} : Parallel P x x' → Parallel P (attempt x) (attempt x')
  | nested {α : Type} {x x' : Parse α} : Parallel P x x' → Parallel P (nested x) (nested x')
  /-- something about the token, or the text around it -/
  | view {α : Type} (v : Look → α) (blind : ∀ l t, v (l.reserving t) = v l) :
      Parallel P (act fun _ r => (some (v r.look), r)) (act fun _ r => (some (v r.look), r))
  | look {β : Type} {f f' : Look → Parse β} :
      (∀ l t, Parallel P (f l) (f' (l.reserving t))) → Parallel P (look >>= f) (look >>= f')
  | env {β : Type} {f f' : Env → Parse β} :
      (∀ e e', e'.suggestImports = e.suggestImports → Parallel P (f e) (f' e')) →
        Parallel P (env >>= f) (env >>= f')
  | noFailures : Parallel P noFailures noFailures
  | isRefKeyword : Parallel P isRefKeyword isRefKeyword
  | isIdent : Parallel P isIdent isIdent
  | startsRefWithKeyword : Parallel P startsRefWithKeyword startsRefWithKeyword
  | freshWildcard (stands : Nat) : Parallel P (freshWildcard stands) (freshWildcard stands)
  | report (l : Location) (problem : Problem) : Parallel P (report l problem) (report l problem)
  | hint (h : Hint) : Parallel P (hint h) (hint h)
  | advance (skipBlanks : Bool) : Parallel P (advance skipBlanks) (advance skipBlanks)
  | save {β : Type} {f f' : Snapshot → Parse β} :
      (∀ p p', P p p' → Parallel P (f p) (f' p')) → Parallel P (save >>= f) (save >>= f')
  | restore {p p' : Snapshot} : P p p' → Parallel P (restore p) (restore p')
  | recallingOr {x x' : Parse Term} : Parallel P x x' → Parallel P (recallingOr x) (recallingOr x')
  /-- an attempt with all words reserved, from which the parser returns -/
  | reserving {α β : Type} {p p' : Snapshot} {x x' : Parse α} {f f' : Option α → Parse β} :
      P p p' → Parallel P x x' → (∀ a, Parallel P (f a) (f' a)) →
        Parallel P (withFutureKeywords (Parse.attempt x) >>= fun a => restore p >>= fun _ => f a)
          (withFutureKeywords (Parse.attempt x') >>= fun a => restore p' >>= fun _ => f' a)
  /-- a reading of an earlier place with all words reserved -/
  | probing {α : Type} {p p' : Snapshot} {x x' : Parse α} :
      P p p' → Parallel P x x' →
        Parallel P (probe p (withFutureKeywords x)) (probe p' (withFutureKeywords x'))

/-- A parser that is parallel to itself. -/
abbrev Steady (P : Snapshot → Snapshot → Prop) {α : Type} (x : Parse α) : Prop := Parallel P x x

/-- Parsers that are put together of these steps enter productions by asking for it. -/
theorem Parallel.guarded {P : Snapshot → Snapshot → Prop} (some : ∀ p, ∃ p', P p p') {α : Type}
    {x x' : Parse α} (h : Parallel P x x') : Guarded x := by
  -- on how the parsers are put together; the other parser is of no interest, but its places have to exist
  induction h with
  | pure a => exact .pure a
  | fail => exact .fail
  | bind _ _ first second => exact first.bind second
  | attempt _ ih => exact ih.attempt
  | nested _ ih => exact ih.nested
  | view v _ => exact .act _
  | look _ ih => exact Guarded.look.bind fun l => ih l l.scanner.keywords
  | env _ ih => exact Guarded.env.bind fun e => ih e e rfl
  | noFailures => exact .noFailures
  | isRefKeyword => exact .isRefKeyword
  | isIdent => exact .isIdent
  | startsRefWithKeyword => exact .startsRefWithKeyword
  | freshWildcard stands => exact .freshWildcard stands
  | report l problem => exact .report l problem
  | hint h => exact .hint h
  | advance b => exact .advance b
  | save _ ih =>
      refine Guarded.save.bind fun p => ?_
      obtain ⟨p', same⟩ := some p
      exact ih p p' same
  | restore _ => exact .restore _
  | recallingOr _ ih =>
      refine Guarded.remembered.bind fun e => ?_
      cases e with
      | some e => exact .replay e
      | none =>
          exact Guarded.save.bind fun _ => ih.attempt.bind fun t => (Guarded.remember _ t).next (.ofOption t)
  | reserving _ _ _ inside rest =>
      exact (inside.attempt.withKeywords _).bind fun a => (Guarded.restore _).next (rest a)
  | probing _ _ ih => exact (ih.withKeywords _).probe _

namespace Parallel

variable {P : Snapshot → Snapshot → Prop} {p p' : Snapshot} {α β : Type}

/-! ## Steps one after the other -/

/-- One parser, and then another one whatever the first one gave. -/
theorem next {x x' : Parse α} {y y' : Parse β} (hx : Parallel P x x') (hy : Parallel P y y') :
    Parallel P (x >>= fun _ => y) (x' >>= fun _ => y') :=
  hx.bind fun _ => hy

theorem ite {c : Prop} [Decidable c] {x x' y y' : Parse α} (hx : Parallel P x x') (hy : Parallel P y y') :
    Parallel P (if c then x else y) (if c then x' else y') := by
  split
  · exact hx
  · exact hy

/-- What is tried, and what is done with it and without it. -/
theorem attempted {x x' : Parse α} {f f' : Option α → Parse β} (hx : Parallel P x x')
    (some : ∀ a, Parallel P (f (some a)) (f' (some a))) (none : Parallel P (f none) (f' none)) :
    Parallel P (Parse.attempt x >>= f) (Parse.attempt x' >>= f') := by
  refine hx.attempt.bind fun a => ?_
  cases a with
  | some a => exact some a
  | none => exact none

theorem ofOption (a : Option α) : Steady P (Parse.ofOption a) := by
  cases a with
  | none => exact fail
  | some a => exact pure a

theorem mapM {f : α → Parse β} (hf : ∀ a, Steady P (f a)) (as : List α) : Steady P (as.mapM f) := by
  induction as with
  | nil => exact pure []
  | cons a as ih =>
      rw [List.mapM_cons]
      exact (hf a).bind fun _ => ih.bind fun _ => pure _

/-! ## What is seen -/

theorem token : Steady P Parse.token := view (·.token) fun _ _ => rfl

theorem location : Steady P Parse.location := view (·.location) fun _ _ => rfl

theorem offset : Steady P Parse.offset := view (·.offset) fun _ _ => rfl

theorem lastStop : Steady P Parse.lastStop := view (·.lastStop) fun _ _ => rfl

theorem text (start stop : Nat) : Steady P (Parse.text start stop) :=
  view (·.text start stop) fun _ _ => rfl

theorem upToLastStop (l : Location) : Steady P (Parse.upToLastStop l) :=
  lastStop.bind fun _ => (text _ _).bind fun _ => pure _

theorem placed (t : Term) (l : Location) (start stop : Nat) : Steady P (Parse.placed t l start stop) :=
  (text _ _).bind fun _ => pure _

theorem here (v : Value) : Steady P (Parse.here v) := location.bind fun _ => pure _

/-! ## Errors -/

theorem reportHere (problem : Problem) : Steady P (Parse.reportHere problem) :=
  location.bind fun _ => report _ _

theorem unexpected (note : Note) : Steady P (Parse.unexpected note) :=
  token.bind fun _ => ite (reportHere _) (reportHere _)

/-- What ends in an error. -/
theorem failing (note : Note) : Steady P (Parse.unexpected note >>= fun _ => (Parse.fail : Parse α)) :=
  (unexpected note).next fail

theorem failingHere (problem : Problem) :
    Steady P (Parse.reportHere problem >>= fun _ => (Parse.fail : Parse α)) :=
  (reportHere problem).next fail

/-- What goes on unless there is an error to report. -/
theorem checked {c : Prop} [Decidable c] {r : Parse Unit} {x x' : Parse α} (hr : Steady P r)
    (hx : Parallel P x x') :
    Parallel P (if c then r >>= fun _ => (Parse.fail : Parse PUnit) >>= fun _ => x else x)
      (if c then r >>= fun _ => (Parse.fail : Parse PUnit) >>= fun _ => x' else x') :=
  ite (hr.next (fail.next hx)) hx

/-! ## Going on and variables -/

theorem scan : Steady P Parse.scan := advance true

theorem scanBlank : Steady P Parse.scanBlank := advance false

theorem peekBlank : Steady P Parse.peekBlank :=
  save fun _ _ saved => scanBlank.next (token.bind fun _ => (restore saved).next (pure _))

theorem variableHere : Steady P Parse.variableHere := by
  refine look fun _ _ => ite ?_ ((pure _).bind fun _ => here _)
  exact offset.bind fun _ => (freshWildcard _).bind fun _ => here _

end Parallel

end Parse

end RegoSyntax
