/-
# RegoSyntax.Proofs.Nesting — the counter of productions under way.

That a parser comes back to the depth it was entered at is a law that every `Parse` carries (`Parse.levels`),
through returns, probes, other reserved words and what is remembered.  What the law does not say is how far the
counter goes in between.  A parser that asked and then disregarded the answer would satisfy it.

`Parse.Guarded` says how parsers are put together: a production is entered by `Parse.nested` and in no other
way, so the counter rises right behind a question that was asked with its value, and granted.  All questions are
in the journal.  From below the ceiling a guarded parser asks at or below the ceiling only, and what is refused
is refused exactly there (`Parse.Guarded.climbs`); and all rules of the grammar are guarded.  So are statements,
and with them whole runs (`RegoSyntax.Proofs.Nesting.Productions`).
-/
import RegoSyntax.Proofs.Runs

namespace RegoSyntax

open Parse

/-! ## The ceiling

A counter is entered or refused, and which of them is a question that is asked with its value. -/

/-- A counter is entered exactly if that is no one too many, and counts one more then. -/
theorem DepthLimit.enter?_eq_some_iff {d e : DepthLimit} :
    d.enter? = some e ↔ (d.max = 0 ∨ d.depth + 1 ≤ d.max) ∧ e = { d with depth := d.depth + 1 } := by
  unfold enter?
  split
  · next full =>
      simp only [Bool.and_eq_true, decide_eq_true_eq] at full
      refine iff_of_false nofun fun entered => ?_
      have room := entered.1
      omega
  · next free =>
      simp only [Bool.and_eq_true, decide_eq_true_eq] at free
      have room : d.max = 0 ∨ d.depth + 1 ≤ d.max := by omega
      exact ⟨fun entered => ⟨room, (Option.some.inj entered).symm⟩, fun entered => entered.2 ▸ rfl⟩

/-- It is refused exactly if there is a ceiling, and the counter has come to it. -/
theorem DepthLimit.enter?_eq_none_iff {d : DepthLimit} : d.enter? = none ↔ 0 < d.max ∧ d.max ≤ d.depth := by
  unfold enter?
  split
  · next full =>
      simp only [Bool.and_eq_true, decide_eq_true_eq] at full
      exact iff_of_true rfl (by omega)
  · next room =>
      simp only [Bool.and_eq_true, decide_eq_true_eq] at room
      exact iff_of_false (Option.some_ne_none _) (by omega)

/-- The state in which a production is read. -/
def ParseState.entered (s : ParseState) : ParseState :=
  { s with depth := s.depth + 1, journal := (.nest s.depth, true) :: s.journal }

/-- The state in which a production is given up because it may not be entered. -/
def ParseState.refused (s : ParseState) : ParseState :=
  { s with
    failures := s.failures.push ⟨.tooDeep, s.look.location, s.look.hints⟩
    look := { s.look with hints := [] }
    journal := (.nest s.depth, false) :: s.journal }

namespace Parse

/-! ## Guarded parsers

Every production asks before it is read, so no production is read without an answer to its question. -/

/-- A parser in which productions are entered by asking for it: it is put together from what leaves the counter
alone, and from productions that ask before they are entered. -/
inductive Guarded : {α : Type} → Parse α → Prop
  | act {α : Type} (f : Env → Reading → Option α × Reading) : Guarded (act f)
  | memory (r : Recall) : Guarded (ask (.recall r))
  | attempt {α : Type} {x : Parse α} : Guarded x → Guarded (attempt x)
  | bind {α β : Type} {x : Parse α} {f : α → Parse β} :
      Guarded x → (∀ a, Guarded (f a)) → Guarded (x >>= f)
  | nested {α : Type} {x : Parse α} : Guarded x → Guarded (nested x)

/-- A production is entered through the counter: it is read with one more production under way, which is taken
back behind it, or it is refused, and then it is not read and the counter stays. -/
theorem run_nested_eq {α : Type} (x : Parse α) (env : Env) (o : Settings) (s : ParseState) :
    (nested x).run env o s =
      match DepthLimit.enter? ⟨s.depth, o.maxDepth⟩ with
      | some _ => ((x.run env o s.entered).1, { (x.run env o s.entered).2 with depth := s.depth })
      | none => (none, s.refused) := by
  rcases entered : DepthLimit.enter? ⟨s.depth, o.maxDepth⟩ with _ | d
  · have answer : o.answer (.nest s.depth) = false := by rw [Settings.answer, entered]; rfl
    rw [run_nested_refused env x answer]
    rfl
  · have answer : o.answer (.nest s.depth) = true := by rw [Settings.answer, entered]; rfl
    rw [run_nested_granted env x answer, run_deeper]
    rfl

/-! ## How far the counter goes

The questions tell where the counter has been.  A production is refused at the ceiling and nowhere else,
so the counter stays between its value before and the ceiling. -/

/-- Every question whether one more production may be under way was asked with the counter between two values,
and was refused exactly if the counter had come to the upper one. -/
def Between (low high : Nat) (journal : List (Question × Bool)) : Prop :=
  ∀ d granted, (Question.nest d, granted) ∈ journal → low ≤ d ∧ if granted then d + 1 ≤ high else d = high

theorem Between.nil (low high : Nat) : Between low high [] := by
  intro d granted asked
  cases asked

theorem Between.append {low high : Nat} {new old : List (Question × Bool)} (hn : Between low high new)
    (ho : Between low high old) : Between low high (new ++ old) := by
  intro d granted asked
  rcases List.mem_append.1 asked with late | early
  · exact hn d granted late
  · exact ho d granted early

theorem Between.lower {low low' high : Nat} {journal : List (Question × Bool)} (h : Between low high journal)
    (le : low' ≤ low) : Between low' high journal := by
  intro d granted asked
  obtain ⟨above, within⟩ := h d granted asked
  exact ⟨Nat.le_trans le above, within⟩

/-- From at or below the ceiling a guarded parser asks there only. -/
theorem Guarded.climbs {α : Type} {x : Parse α} (h : Guarded x) (env : Env) {o : Settings} {s : ParseState}
    (ceiling : 0 < o.maxDepth) (below : s.depth ≤ o.maxDepth) :
    ∃ new, (x.run env o s).2.journal = new ++ s.journal ∧ Between s.depth o.maxDepth new := by
  -- on how the parser is put together, from any state that is not above the ceiling
  induction h generalizing s with
  | act f => exact ⟨[], rfl, .nil _ _⟩
  | memory r =>
      refine ⟨[(.recall r, o.recalls r)], rfl, fun d granted asked => ?_⟩
      cases List.mem_singleton.1 asked
  | attempt _ ih => exact ih below
  | @bind _ _ x f _ _ first second =>
      obtain ⟨new, added, between⟩ := first below
      have level := x.levels env o s
      rw [run_bind]
      rcases run : x.run env o s with ⟨_ | a, t⟩ <;> rw [run] at added level
      · exact ⟨new, added, between⟩
      · -- the second parser starts with the counter where the first one found it
        obtain ⟨newer, addedThen, betweenThen⟩ := second a (s := t) (level ▸ below)
        refine ⟨newer ++ new, ?_, .append (level ▸ betweenThen) between⟩
        rw [List.append_assoc, ← added]
        exact addedThen
  | @nested _ x _ inside =>
      rw [run_nested_eq]
      rcases entered : DepthLimit.enter? ⟨s.depth, o.maxDepth⟩ with _ | d
      · have full : s.depth = o.maxDepth := by
          have := DepthLimit.enter?_eq_none_iff.1 entered
          simp only at this
          omega
        refine ⟨[(.nest s.depth, false)], rfl, fun d granted asked => ?_⟩
        cases List.mem_singleton.1 asked
        exact ⟨Nat.le_refl _, full⟩
      · -- a production that was let in starts one higher, which still is not above the ceiling
        obtain ⟨room, rfl⟩ := DepthLimit.enter?_eq_some_iff.1 entered
        replace room : s.depth + 1 ≤ o.maxDepth := room.resolve_left (Nat.ne_of_gt ceiling)
        obtain ⟨new, added, between⟩ := inside (s := s.entered) room
        refine ⟨new ++ [(.nest s.depth, true)], ?_, .append (between.lower (Nat.le_succ _)) ?_⟩
        · rw [List.append_assoc]
          exact added
        · intro d granted asked
          cases List.mem_singleton.1 asked
          exact ⟨Nat.le_refl _, room⟩

/-! ## The parts of productions

The productions are put together of the parts below, and each of these leaves the counter alone or asks.
-/

namespace Guarded

variable {α β : Type}

/-- One parser, and then another one whatever the first one gave. -/
theorem next {x : Parse α} {y : Parse β} (hx : Guarded x) (hy : Guarded y) : Guarded (x >>= fun _ => y) :=
  hx.bind fun _ => hy

theorem ite {c : Prop} [Decidable c] {x y : Parse α} (hx : Guarded x) (hy : Guarded y) :
    Guarded (if c then x else y) := by
  split
  · exact hx
  · exact hy

/-- What is tried, and what is done with it and without it. -/
theorem attempted {x : Parse α} {f : Option α → Parse β} (hx : Guarded x) (some : ∀ a, Guarded (f (some a)))
    (none : Guarded (f none)) : Guarded (Parse.attempt x >>= f) := by
  refine hx.attempt.bind fun a => ?_
  cases a with
  | some a => exact some a
  | none => exact none

theorem pure (a : α) : Guarded (Pure.pure a : Parse α) := act fun _ r => (some a, r)

theorem fail : Guarded (Parse.fail : Parse α) := act _

theorem ofOption (a : Option α) : Guarded (Parse.ofOption a) := by
  cases a with
  | none => exact fail
  | some a => exact pure a

theorem modify (f : Reading → Reading) : Guarded (Parse.modify f) := act fun _ r => (some (), f r)

theorem modifyLook (f : Look → Look) : Guarded (Parse.modifyLook f) := modify _

theorem env : Guarded Parse.env := act _

theorem reading : Guarded Parse.reading := act _

theorem look : Guarded Parse.look := act _

theorem token : Guarded Parse.token := act _

theorem location : Guarded Parse.location := act _

theorem offset : Guarded Parse.offset := act _

theorem lastStop : Guarded Parse.lastStop := act _

theorem text (start stop : Nat) : Guarded (Parse.text start stop) := act _

theorem save : Guarded Parse.save := act _

theorem restore (p : Snapshot) : Guarded (Parse.restore p) := modify _

theorem report (l : Location) (problem : Problem) : Guarded (Parse.report l problem) := modify _

theorem reportHere (problem : Problem) : Guarded (Parse.reportHere problem) :=
  location.bind fun _ => report _ _

theorem unexpected (note : Note) : Guarded (Parse.unexpected note) :=
  token.bind fun _ => ite (reportHere _) (reportHere _)

/-- What ends in an error. -/
theorem failing (note : Note) : Guarded (Parse.unexpected note >>= fun _ => (Parse.fail : Parse α)) :=
  (unexpected note).next fail

/-- What goes on unless there is an error to report. -/
theorem checked {c : Prop} [Decidable c] {r : Parse Unit} {x : Parse α} (hr : Guarded r) (hx : Guarded x) :
    Guarded (if c then r >>= fun _ => (Parse.fail : Parse PUnit) >>= fun _ => x else x) :=
  ite (hr.next (fail.next hx)) hx

theorem hint (h : Hint) : Guarded (Parse.hint h) := modifyLook _

theorem noFailures : Guarded Parse.noFailures := reading.bind fun _ => pure _

theorem upToLastStop (l : Location) : Guarded (Parse.upToLastStop l) :=
  lastStop.bind fun _ => (text _ _).bind fun _ => pure _

theorem placed (t : Term) (l : Location) (start stop : Nat) : Guarded (Parse.placed t l start stop) :=
  (text _ _).bind fun _ => pure _

theorem here (v : Value) : Guarded (Parse.here v) := location.bind fun _ => pure _

theorem freshWildcard (stands : Nat) : Guarded (Parse.freshWildcard stands) := act _

/-! ### Tokens -/

theorem reports (l : Location) (errors : List ScanError) :
    Guarded (errors.forM fun e => Parse.report l (.lexical e.cause)) := by
  induction errors with
  | nil => exact pure ()
  | cons e errors ih => exact (report l _).next ih

theorem take : Guarded Parse.take :=
  env.bind fun _ => look.bind fun _ => (modifyLook _).bind fun _ => reports _ _

theorem collect : Guarded Parse.collect := look.bind fun _ => modify _

theorem takeUpTo (skipBlanks : Bool) (fuel : Nat) : Guarded (Parse.takeUpTo skipBlanks fuel) := by
  induction fuel with
  | zero => exact pure ()
  | succ fuel ih =>
      refine take.next (token.bind fun kind => ?_)
      split
      · exact ite ih (pure ())
      · exact collect.next ih
      · exact pure ()

theorem advance (skipBlanks : Bool) : Guarded (Parse.advance skipBlanks) :=
  (modifyLook _).next (look.bind fun _ => takeUpTo skipBlanks _)

theorem scan : Guarded Parse.scan := advance true

theorem scanBlank : Guarded Parse.scanBlank := advance false

theorem peekBlank : Guarded Parse.peekBlank :=
  save.bind fun _ => scanBlank.next (token.bind fun _ => (restore _).next (pure _))

/-! ### Names -/

theorem isRefKeyword : Guarded Parse.isRefKeyword := look.bind fun _ => env.bind fun _ => pure _

theorem asIdent : Guarded Parse.asIdent := modifyLook _

theorem isIdent : Guarded Parse.isIdent :=
  token.bind fun _ => ite (pure true)
    (isRefKeyword.bind fun _ => ite (asIdent.next (pure true)) (pure false))

theorem startsRefWithKeyword : Guarded Parse.startsRefWithKeyword :=
  isRefKeyword.bind fun _ =>
    ite (peekBlank.bind fun _ => ite (asIdent.next (pure true)) (pure false)) (pure false)

theorem variableHere : Guarded Parse.variableHere := by
  refine look.bind fun _ => ite ?_ ((pure _).bind fun _ => here _)
  exact offset.bind fun _ => (freshWildcard _).bind fun _ => here _

/-! ### Remembering -/

theorem remembered : Guarded Parse.remembered := by
  refine reading.bind fun _ => ?_
  split
  · exact (memory _).bind fun _ => pure _
  · exact pure _

theorem replay (e : MemoEntry) : Guarded (Parse.replay e) := (modify _).next (ofOption _)

theorem remember (start : Snapshot) (term : Option Term) : Guarded (Parse.remember start term) := modify _

/-! ### Readings for a while -/

theorem probe {x : Parse α} (hx : Guarded x) (start : Snapshot) : Guarded (Parse.probe start x) :=
  reading.bind fun _ => (restore start).next (hx.attempt.bind fun _ => (modify _).next (pure _))

theorem withKeywords {x : Parse α} (hx : Guarded x) (change : Scanner → Scanner) :
    Guarded (Parse.withKeywords change x) :=
  reading.bind fun _ => (modify _).next (hx.attempt.bind fun _ => (modify _).next (ofOption _))

end Guarded

end Parse

end RegoSyntax
