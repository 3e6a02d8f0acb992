/-
# RegoSyntax.Proofs.Tracks.Astray — nothing is read behind the end of a source.

A parser that goes on from the end of its source stays there, and takes the end for the last token.  It does
so behind `if` and behind the keyword of a clause.  From there every production fails that a body can start
with, and fails with an error, unless a failure is taken up again that was remembered before.

The failure that is taken up again may have been recorded when its errors were not kept, so a parser may
fail here and leave no error (`Since`); it cannot give anything, and so no node ever covers the end of a
source.
-/
import RegoSyntax.Proofs.Tracks.Literals

namespace RegoSyntax

open Parse

namespace Survey

variable {m : Survey} {c d : Cursor} {r u v w t : Reading}

/-- A parser has gone on from the end of its source. -/
structure Astray (m : Survey) (c : Cursor) (u : Reading) : Prop extends m.Marked u where
  at' : u.look.At m.source c
  place : u.look.location = c.place m.source m.env.file
  token : u.look.token = .eof
  recalls : m.Recalls u

/-- A parser has failed, with an error or not. -/
structure Since (m : Survey) (u t : Reading) : Prop where
  marked : m.Marked t
  drawn : Grows u.wildcards t.wildcards
  recalls : t.failures = #[] → m.Recalls t

/-- To read on is not to be lost. -/
theorem Later.since (later : m.Later u t) : m.Since u t := by
  obtain ⟨d, sound⟩ := later.sound
  exact ⟨sound.toMarked, later.drawn, fun _ => sound.recalls⟩

/-- Failing behind what has been read on is failing. -/
theorem Since.trans (before : m.Since r u) (after : m.Since u t) : m.Since r t :=
  ⟨after.marked, before.drawn.trans after.drawn, after.recalls⟩

/-- A parser has failed with an error. -/
structure Broken (m : Survey) (u t : Reading) : Prop where
  marked : m.Marked t
  drawn : Grows u.wildcards t.wildcards
  failed : t.failures ≠ #[]

/-- A failure with an error is a failure. -/
theorem Broken.since (broken : m.Broken u t) : m.Since u t :=
  ⟨broken.marked, broken.drawn, fun none => absurd none broken.failed⟩

namespace Astray

/-- Where the parser went astray it has not failed yet. -/
theorem since (astray : m.Astray c u) : m.Since u u := ⟨astray.toMarked, .refl _, fun _ => astray.recalls⟩

/-- Behind the end nothing is left of the source. -/
theorem ended (astray : m.Astray c u) : c.rest = [] :=
  Lexeme.next_kind_eof.1 ((astray.at'.shows.plain_iff rfl).1 astray.token)

/-- The end of a source is no word. -/
theorem no_word (astray : m.Astray c u) :
    m.env.allowsInRefs u.look.scanner.keywords u.look.token.name = false := by
  refine Bool.eq_false_iff.2 fun allowed => ?_
  rcases Env.word_of_allowsInRefs astray.at'.known allowed with word | word <;>
    rw [astray.token] at word <;> cases word

end Astray

namespace Tracks

variable {α β : Type} {P : α → Reading → Prop}

/-- A parser that reads on, and another one that may fail behind the end of the source. -/
theorem go {x : Parse α} {f : α → Parse β} {Q : β → Reading → Prop} (before : m.Later r u)
    (first : m.Tracks (m.Later u) x u P)
    (second : ∀ a t d, m.Sound d t → m.Later r t → m.Later u t → P a t →
      m.Tracks (m.Since r) (f a) t Q) : m.Tracks (m.Since r) (x >>= f) u Q :=
  bind first (fun _ later => (before.trans later).since) fun a t later holds => by
    obtain ⟨d, sound⟩ := later.sound
    exact second a t d sound (before.trans later) later holds

/-- From the end of a source a parser does not go on. -/
theorem scan_ended (sound : m.Sound c u) (ended : u.look.token = .eof) :
    m.Tracks (fun t => m.Astray c t ∧ t.wildcards = u.wildcards) Parse.scan u fun _ _ => True :=
  fun o depth journal => by
  have none := Lexeme.next_kind_eof.1 ((sound.rests.kind_iff .eof rfl).1 ended)
  obtain ⟨d, step⟩ := next_step m.env true sound.rests.at'
  obtain rfl : d = c := by
    refine step.at'.starts.eq_of_offset sound.rests.at'.starts (Nat.le_antisymm ?_ ?_)
    · rw [sound.rests.at'.starts.in.offset_of_end none]
      exact step.at'.starts.in.offset_le
    · exact (Cursor.offset_le_skip _).trans step.ahead
  have token : (next m.env true u.look).look.token = .eof :=
    (step.at'.shows.plain_iff rfl).2 ((sound.rests.kind_iff .eof rfl).1 ended)
  rw [Parse.scan, run_advance]
  exact ⟨⟨⟨marked_next sound.toMarked sound.rests.at'.starts step, step.at', step.place, token,
    sound.recalls⟩, rfl⟩, fun _ _ => trivial⟩

/-- An error is reported at the end. -/
theorem break_ended {problem : Problem} (astray : m.Astray c u) :
    m.Tracks (m.Broken u) (do Parse.reportHere problem; Parse.fail) u P := by
  unfold Parse.reportHere
  rw [bind_bind_iff, location_iff]
  refine .bind (S := m.Broken u) (P := fun _ _ => True) (fun _ _ _ => ⟨⟨?_, .refl _, ?_⟩, fun _ _ => trivial⟩)
    (fun _ broken => broken) fun _ _ broken _ => .fail broken
  · exact marked_report astray.toMarked ⟨c, _, astray.at'.starts, astray.place⟩
  · exact Array.push_ne_empty

/-- A token that is not expected is reported at the end. -/
theorem unexpected_ended {note : Note} (astray : m.Astray c u) :
    m.Tracks (m.Broken u) (do Parse.unexpected note; Parse.fail) u P := by
  unfold Parse.unexpected
  rw [bind_bind_iff, token_iff, astray.token]
  exact break_ended astray

/-- A production that fails at the end fails when it is entered. -/
theorem nested_ended {x : Parse α} (astray : m.Astray c u) (h : m.Tracks (m.Since u) x u P) :
    m.Tracks (m.Since u) (Parse.nested x) u P :=
  nested_of ((break_ended astray).weaken (fun _ broken => broken.since) fun _ _ _ holds => holds) h

end Tracks

end Survey

/-- A production with which a body may start. -/
def Production.IsFirst : {α : Type} → Production α → Prop
  | _, .term | _, .compound _ | _, .membership _ none _ | _, .operation _ none _ => True
  | _, .body _ | _, .literals .. | _, .literal => True
  | _, _ => False

namespace Survey

variable {m : Survey} {c d : Cursor} {r u v w t : Reading}

/-- Whatever a body may start with fails at the end of a source. -/
def Loses (m : Survey) (g : Grammar) : Prop :=
  ∀ ⦃α : Type⦄ (p : Production α), p.IsFirst → ∀ c u, m.Astray c u →
    m.Tracks (m.Since u) (g p) u fun _ _ => False

namespace Loses

variable {g : Grammar}

open Tracks

/-- The end of a source starts no term, and that is an error. -/
theorem head (astray : m.Astray c u) {P : Term → Reading → Prop} :
    m.Tracks (m.Broken u) (Parse.head g) u P := by
  unfold Parse.head
  rw [token_iff, astray.token]
  exact unexpected_ended astray

/-- What is taken up again at the end of a source is a failure. -/
theorem replay (astray : m.Astray c u) {e : MemoEntry} (listed : e ∈ u.memo.entries)
    (offset : e.offset = u.look.offset) :
    m.Tracks (m.Since u) (Parse.replay e) u fun _ _ => False := by
  obtain ⟨d, entry⟩ := Keeps.Recalls.at astray.recalls astray.at' listed offset
  have since : m.Since u { u with
      look := e.after, failures := u.failures ++ e.failures
      comments := u.comments ++ e.comments } := by
    refine ⟨⟨fun f hf => ?_, fun x hx => ?_⟩, .refl _, fun _ => astray.recalls⟩
    · exact (Array.mem_append.1 hf).elim (astray.failures f) (entry.failures f)
    · exact (Array.mem_append.1 hx).elim (astray.comments x) (entry.comments x)
  unfold Parse.replay
  refine .bind (Tracks.modify since) (fun _ since => since) fun _ t after _ => .ofOption after fun a ha => ?_
  -- a term that was read takes a token, and there is none
  exact entry.starts.filled entry.after.at'.starts (entry.term a ha).root.lt astray.ended

/-- No term is read at the end of a source. -/
theorem freshTerm (astray : m.Astray c u) :
    m.Tracks (m.Since u) (Parse.freshTerm g) u fun _ _ => False := by
  unfold Parse.freshTerm
  rw [save_iff]
  have read : m.Tracks (m.Broken u) (do let t ← Parse.head g; Parse.finish g t false) u fun _ _ => False :=
    .bind_fails (head astray)
  refine .attempt_bind read fun a t broken none => ?_
  refine .bind (S := m.Broken u) (P := fun _ _ => True) ?_ (fun _ broken => broken.since)
    fun _ t broken _ => .ofOption broken.since none
  exact (Tracks.modify ⟨⟨broken.marked.failures, broken.marked.comments⟩, broken.drawn, broken.failed⟩).weaken
    (fun _ broken => broken) fun _ _ _ _ => trivial

/-- At the end of a source a term fails, whether it is remembered or fresh. -/
theorem term (astray : m.Astray c u) : m.Tracks (m.Since u) (Parse.term g) u fun _ _ => False :=
  nested_ended astray (Keeps.remembered (fun _ listed offset => replay astray listed offset)
    (freshTerm astray))

/-- No operand is read at the end of a source. -/
theorem operand (h : m.Loses g) (astray : m.Astray c u) (tier : Tier) (start : Nat) :
    m.Tracks (m.Since u) (Parse.operand g tier start) u fun _ _ => False := by
  unfold Parse.operand
  split
  · next tier _ => exact h (.operation tier none start) trivial c u astray
  · exact h .term trivial c u astray

/-- No expression is read at the end of a source. -/
theorem expression (h : m.Loses g) (astray : m.Astray c u) {P : Expr → Reading → Prop} :
    m.Tracks (m.Since u) (Parse.expression g) u P := .bind_fails (h (.compound true) trivial c u astray)

/-- No literal is read at the end of a source. -/
theorem unplacedLiteral (h : m.Loses g) (astray : m.Astray c u) {P : Expr → Reading → Prop} :
    m.Tracks (m.Since u) (Parse.unplacedLiteral g) u P := by
  unfold Parse.unplacedLiteral Parse.startsRefWithKeyword Parse.negation
  rw [bind_bind_iff, isRefKeyword_iff, astray.no_word, if_neg Bool.false_ne_true, pure_bind_iff,
    if_neg Bool.false_ne_true, bind_bind_iff, token_iff, astray.token, if_pos (by decide), pure_bind_iff,
    token_iff, astray.token]
  show m.Tracks (m.Since u) (Parse.plainLiteral g false) u P
  unfold Parse.plainLiteral
  rw [save_iff]
  exact .bind_fails (expression h astray)

/-- What the productions do with one rule more is what they do. -/
theorem rule (h : m.Loses g) : m.Loses (Parse.rule g) := fun α p first c u astray => by
  -- every task begins by reading something where the parser went astray, and there it fails
  cases p with
  | term => exact term astray
  | compound keyed =>
      refine nested_ended astray ?_
      rw [offset_iff]
      exact h (.membership keyed none u.look.offset) trivial c u astray
  | membership keyed left start =>
      cases left with
      | none => exact nested_ended astray (.bind_fails (h (.operation .relation none start) trivial c u astray))
      | some => exact first.elim
  | operation tier left start =>
      cases left with
      | none => exact nested_ended astray (.bind_fails (operand h astray tier start))
      | some => exact first.elim
  | body stop =>
      refine nested_ended astray ?_
      unfold Parse.query
      rw [token_iff]
      split
      · exact (break_ended astray).weaken (fun _ broken => broken.since) fun _ _ _ false => false
      · exact h (.literals false stop []) trivial c u astray
  | literals oneLine stop read => exact .bind_fails (h .literal trivial c u astray)
  | literal =>
      show m.Tracks (m.Since u) (Parse.literal g) u fun _ _ => False
      unfold Parse.literal
      rw [location_iff]
      exact .bind_fails (unplacedLiteral h astray)
  | _ => exact first.elim

/-- The whole grammar fails at the end of a source. -/
theorem grammar (n : Nat) : m.Loses (Parse.grammar n) := by
  induction n with
  | zero => exact fun _ _ _ _ _ astray => .fail astray.since
  | succ n ih => exact rule ih

end Loses

end Survey

end RegoSyntax
