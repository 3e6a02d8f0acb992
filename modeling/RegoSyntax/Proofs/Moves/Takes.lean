/-
# RegoSyntax.Proofs.Moves.Takes — parsers that do nothing but move.

`Route.Takes` is the judgement on a parser: its run is a sequence of moves, its result is as described, and
a task that is alike sends it the same way.  A strict task is alike to one that admits keywords in references,
so the last part has a condition: the reading that the parser starts from is clear (`Route.Clear`).

The rules for the judgement follow the way parsers are put together.

A rule that ends in `_iff` is about a parser that gives the same result in every run and leads where it
says; such a rule is an equation on the judgement and is used to rewrite it.  The other rules are used to
split it.
-/
import RegoSyntax.Proofs.Moves.Clearance

namespace RegoSyntax

open Parse

/-- Going on leads to the same place in tasks that are alike. -/
theorem Env.Alike.next {a b : Env} (h : a.Alike b) (skipBlanks : Bool) (l : Look) :
    Parse.next b skipBlanks l = Parse.next a skipBlanks l := next_of_file h.file.symm skipBlanks l

namespace Route

variable {ρ : Route} {c d : Cursor} {l : Look} {r s t u v w : Reading} {e : MemoEntry}

/-! ## The judgement

A parser that takes moves has come from one reading to another by moves, and its answer is as described.
The rules below say how parsers are put together of such ones. -/

/-- Moves have led from a reading to another one. -/
structure Goes (ρ : Route) (r t : Reading) : Prop where
  start : ρ.Seated r
  leads : ρ.Leads r t

namespace Goes

/-- To stay is to have moved nowhere. -/
theorem refl (seated : ρ.Seated u) : ρ.Goes u u := ⟨seated, .refl u⟩

/-- Moves behind moves. -/
theorem trans (first : ρ.Goes r s) (second : ρ.Goes s t) : ρ.Goes r t :=
  ⟨first.start, first.leads.trans second.leads⟩

/-- Where moves lead, the parser is seated. -/
theorem seated (h : ρ.Goes r t) : ρ.Seated t := h.leads.seated h.start

/-- Moves do not lead back. -/
theorem ahead (h : ρ.Goes r t) : r.look.offset ≤ t.look.offset := h.leads.ahead h.start

/-- Where moves lead from a clear reading, it is clear. -/
theorem clear (h : ρ.Goes r t) (clear : ρ.Clear r) : ρ.Clear t :=
  clear.onward fun _ _ => h.leads.spaced h.start

/-- To pass a token is a move. -/
theorem pass (seated : ρ.Seated u) (b : Bool) (free : ρ.free u.look.token) :
    ρ.Goes u (u.passing ρ.env b) := ⟨seated, .pass b free⟩

/-- To report is a move. -/
theorem report (seated : ρ.Seated u) (problem : Problem) (place : Location) :
    ρ.Goes u (u.reporting problem place) := ⟨seated, .report problem place⟩

/-- To draw a name is a move. -/
theorem draw (seated : ρ.Seated u) (drawn : Array Nat) : ρ.Goes u { u with wildcards := drawn } :=
  ⟨seated, .draw drawn⟩

/-- To take up a reading again is a move. -/
theorem resume (h : ρ.Goes w v) : ρ.Goes w (w.resumed v) := ⟨h.start, .resume h.leads⟩

end Goes

/-- A parser that was run from one reading moves on from another one, its result is as described, and a
task that is alike makes no difference. -/
def Takes {α : Type} (ρ : Route) (r : Reading) (x : Parse α) (u : Reading)
    (Q : α → Reading → Prop) : Prop :=
  ∀ o depth journal,
    ρ.Goes r (x.run ρ.env o ⟨u, depth, journal⟩).2.toReading ∧
    (∀ a, (x.run ρ.env o ⟨u, depth, journal⟩).1 = some a →
      Q a (x.run ρ.env o ⟨u, depth, journal⟩).2.toReading) ∧
    (ρ.Clear r → x.run ρ.other o ⟨u, depth, journal⟩ = x.run ρ.env o ⟨u, depth, journal⟩)

namespace Takes

variable {α β γ : Type} {P : α → Reading → Prop} {Q : β → Reading → Prop}

/-- What is given at once. -/
theorem pure {a : α} (there : ρ.Goes r u) (holds : P a u) : ρ.Takes r (Pure.pure a) u P :=
  fun _ _ _ => ⟨there, fun _ result => Option.some.inj result ▸ holds, fun _ => rfl⟩

/-- A parser that fails has moved as far as it has come. -/
theorem fail (there : ρ.Goes r u) : ρ.Takes r (Parse.fail : Parse α) u P :=
  fun _ _ _ => ⟨there, fun _ result => (by cases result), fun _ => rfl⟩

/-- One parser behind another. -/
theorem bind {x : Parse α} {f : α → Parse β} (before : ρ.Goes r u) (first : ρ.Takes u x u P)
    (second : ∀ a t, ρ.Goes r t → ρ.Goes u t → P a t → ρ.Takes r (f a) t Q) :
    ρ.Takes r (x >>= f) u Q := fun o depth journal => by
  obtain ⟨there, holds, same⟩ := first o depth journal
  have alike (clear : ρ.Clear r) := same (before.clear clear)
  rw [run_bind, run_bind]
  rcases h : x.run ρ.env o ⟨u, depth, journal⟩ with ⟨_ | a, ⟨t, depth', journal'⟩⟩
  · rw [h] at there alike
    exact ⟨before.trans there, fun _ result => (by cases result), fun clear => by rw [alike clear]; rfl⟩
  · rw [h] at there holds alike
    obtain ⟨there', holds', same'⟩ := second a t (before.trans there) there (holds a rfl) o depth' journal'
    refine ⟨there', holds', fun clear => ?_⟩
    rw [alike clear]
    exact same' clear

/-- What is said of a result may be less. -/
theorem weaken {Q : α → Reading → Prop} {x : Parse α} (h : ρ.Takes r x u P)
    (imp : ∀ a t, ρ.Goes r t → P a t → Q a t) : ρ.Takes r x u Q := fun o depth journal => by
  obtain ⟨there, holds, same⟩ := h o depth journal
  exact ⟨there, fun a result => imp a _ there (holds a result), same⟩

/-- A parser that moves on to the end. -/
theorem tail {Q : α → Reading → Prop} {x : Parse α} (before : ρ.Goes r u) (last : ρ.Takes u x u P)
    (imp : ∀ a t, ρ.Goes u t → P a t → Q a t) : ρ.Takes r x u Q := fun o depth journal => by
  obtain ⟨there, holds, same⟩ := last o depth journal
  exact ⟨before.trans there, fun a result => imp a _ there (holds a result),
    fun clear => same (before.clear clear)⟩

/-- A parser whose result is of no further interest. -/
theorem last {x : Parse α} (before : ρ.Goes r u) (last : ρ.Takes u x u P) :
    ρ.Takes r x u fun _ _ => True := tail before last fun _ _ _ _ => trivial

/-- What is attempted never fails. -/
theorem attempt_bind {x : Parse α} {f : Option α → Parse β} (before : ρ.Goes r u)
    (first : ρ.Takes u x u P)
    (second : ∀ a t, ρ.Goes r t → ρ.Goes u t → (∀ b ∈ a, P b t) → ρ.Takes r (f a) t Q) :
    ρ.Takes r (Parse.attempt x >>= f) u Q := fun o depth journal => by
  obtain ⟨there, holds, same⟩ := first o depth journal
  obtain ⟨there', holds', same'⟩ :=
    second _ _ (before.trans there) there (fun b given => holds b given) o
      (x.run ρ.env o ⟨u, depth, journal⟩).2.depth (x.run ρ.env o ⟨u, depth, journal⟩).2.journal
  refine ⟨there', holds', fun clear => ?_⟩
  rw [run_bind, run_bind, run_attempt, run_attempt, same (before.clear clear)]
  exact same' clear

/-- What there is already is given. -/
theorem ofOption {a : Option α} (there : ρ.Goes r u) (holds : ∀ b ∈ a, P b u) :
    ρ.Takes r (ofOption a) u P := by
  cases a with
  | none => exact fail there
  | some b => exact pure there (holds b rfl)

/-- A parser is as good as another one that does the same. -/
theorem of_run_eq {x y : Parse α} {u' : Reading}
    (same : ∀ env o depth journal, ρ.env.Alike env →
      x.run env o ⟨u, depth, journal⟩ = y.run env o ⟨u', depth, journal⟩)
    (h : ρ.Takes r y u' P) : ρ.Takes r x u P := fun o depth journal => by
  rw [same ρ.env o depth journal (.refl _), same ρ.other o depth journal ρ.alike]
  exact h o depth journal

/-! ### Asking -/

section asking

variable {f : α → Parse β} {x : Parse γ} {g : γ → Parse α}

@[simp] theorem pure_bind_iff {a : α} :
    ρ.Takes r (Pure.pure a >>= f) u Q ↔ ρ.Takes r (f a) u Q := Iff.rfl

@[simp] theorem bind_bind_iff :
    ρ.Takes r ((x >>= g) >>= f) u Q ↔ ρ.Takes r (x >>= fun c => g c >>= f) u Q := by
  rw [bind_assoc]

@[simp] theorem token_iff {f : Token → Parse β} :
    ρ.Takes r (token >>= f) u Q ↔ ρ.Takes r (f u.look.token) u Q := Iff.rfl

@[simp] theorem location_iff {f : Location → Parse β} :
    ρ.Takes r (location >>= f) u Q ↔ ρ.Takes r (f u.look.location) u Q := Iff.rfl

@[simp] theorem offset_iff {f : Nat → Parse β} :
    ρ.Takes r (offset >>= f) u Q ↔ ρ.Takes r (f u.look.offset) u Q := Iff.rfl

@[simp] theorem lastStop_iff {f : Nat → Parse β} :
    ρ.Takes r (lastStop >>= f) u Q ↔ ρ.Takes r (f u.look.lastStop) u Q := Iff.rfl

@[simp] theorem text_iff {start stop : Nat} {f : String → Parse β} :
    ρ.Takes r (text start stop >>= f) u Q ↔ ρ.Takes r (f (u.look.text start stop)) u Q := Iff.rfl

@[simp] theorem look_iff {f : Look → Parse β} :
    ρ.Takes r (look >>= f) u Q ↔ ρ.Takes r (f u.look) u Q := Iff.rfl

@[simp] theorem reading_iff {f : Reading → Parse β} :
    ρ.Takes r (reading >>= f) u Q ↔ ρ.Takes r (f u) u Q := Iff.rfl

@[simp] theorem save_iff {f : Snapshot → Parse β} :
    ρ.Takes r (save >>= f) u Q ↔ ρ.Takes r (f u.save) u Q := Iff.rfl

@[simp] theorem noFailures_iff {f : Bool → Parse β} :
    ρ.Takes r (noFailures >>= f) u Q ↔ ρ.Takes r (f u.failures.isEmpty) u Q := Iff.rfl

@[simp] theorem placed_iff {t : Term} {l : Location} {start stop : Nat} {f : Term → Parse β} :
    ρ.Takes r (placed t l start stop >>= f) u Q ↔
      ρ.Takes r (f (t.placed { l with text := u.look.text start stop })) u Q := Iff.rfl

@[simp] theorem upToLastStop_iff {l : Location} {f : Location → Parse β} :
    ρ.Takes r (upToLastStop l >>= f) u Q ↔
      ρ.Takes r (f { l with text := u.look.text l.offset u.look.lastStop }) u Q := Iff.rfl

@[simp] theorem here_iff {value : Value} {f : Term → Parse β} :
    ρ.Takes r (here value >>= f) u Q ↔ ρ.Takes r (f ⟨value, some u.look.location⟩) u Q := Iff.rfl

@[simp] theorem modify_iff {f : Reading → Reading} {g : Unit → Parse β} :
    ρ.Takes r (modify f >>= g) u Q ↔ ρ.Takes r (g ()) (f u) Q := Iff.rfl

@[simp] theorem asIdent_iff {g : Unit → Parse β} :
    ρ.Takes r (asIdent >>= g) u Q ↔
      ρ.Takes r (g ()) { u with look := { u.look with token := .ident } } Q := Iff.rfl

@[simp] theorem report_iff {l : Location} {problem : Problem} {f : Unit → Parse β} :
    ρ.Takes r (Parse.report l problem >>= f) u Q ↔ ρ.Takes r (f ()) (u.reporting problem l) Q := Iff.rfl

@[simp] theorem reportHere_iff {problem : Problem} {f : Unit → Parse β} :
    ρ.Takes r (reportHere problem >>= f) u Q ↔
      ρ.Takes r (f ()) (u.reporting problem u.look.location) Q := Iff.rfl

@[simp] theorem hint_iff {h : Hint} {f : Unit → Parse β} :
    ρ.Takes r (Parse.hint h >>= f) u Q ↔
      ρ.Takes r (f ()) { u with look := { u.look with hints := u.look.hints ++ [h] } } Q := Iff.rfl

@[simp] theorem advance_iff {b : Bool} {f : Unit → Parse β} :
    ρ.Takes r (Parse.advance b >>= f) u Q ↔ ρ.Takes r (f ()) (u.passing ρ.env b) Q := by
  have same (env : Env) (o : Settings) (depth : Nat) (journal : List (Question × Bool))
      (alike : ρ.env.Alike env) : (Parse.advance b >>= f).run env o ⟨u, depth, journal⟩ =
        (f ()).run env o ⟨u.passing ρ.env b, depth, journal⟩ := by
    rw [run_bind, run_advance, andThen_some, alike.next]
    rfl
  exact ⟨of_run_eq fun env o depth journal alike => (same env o depth journal alike).symm, of_run_eq same⟩

@[simp] theorem scan_iff {f : Unit → Parse β} :
    ρ.Takes r (scan >>= f) u Q ↔ ρ.Takes r (f ()) (u.passing ρ.env true) Q := advance_iff

@[simp] theorem scanBlank_iff {f : Unit → Parse β} :
    ρ.Takes r (scanBlank >>= f) u Q ↔ ρ.Takes r (f ()) (u.passing ρ.env false) Q := advance_iff

@[simp] theorem peekBlank_iff {f : Token → Parse β} :
    ρ.Takes r (peekBlank >>= f) u Q ↔
      ρ.Takes r (f (Parse.next ρ.env false u.look).look.token) u Q := by
  have same (env : Env) (o : Settings) (depth : Nat) (journal : List (Question × Bool))
      (alike : ρ.env.Alike env) : (peekBlank >>= f).run env o ⟨u, depth, journal⟩ =
        (f (Parse.next ρ.env false u.look).look.token).run env o ⟨u, depth, journal⟩ := by
    rw [run_bind, run_peekBlank, andThen_some, alike.next]
  exact ⟨of_run_eq fun env o depth journal alike => (same env o depth journal alike).symm, of_run_eq same⟩

/-- Whatever the settings answer. -/
theorem ask {q : Question} {f : Bool → Parse β} (h : ∀ b, ρ.Takes r (f b) u Q) :
    ρ.Takes r (Parse.ask q >>= f) u Q := fun o depth _ => h _ o depth _

/-- What is asked of the task is the same for both tasks. -/
theorem env_bind {f : Env → Parse β} (same : f ρ.other = f ρ.env) (h : ρ.Takes r (f ρ.env) u Q) :
    ρ.Takes r (Parse.env >>= f) u Q := fun o depth journal => by
  obtain ⟨there, holds, alike⟩ := h o depth journal
  refine ⟨there, holds, fun clear => ?_⟩
  show (f ρ.other).run ρ.other o ⟨u, depth, journal⟩ = _
  rw [same]
  exact alike clear

/-- Whether the current token may stand for an identifier is the same for both tasks. -/
theorem isRefKeyword_bind {f : Bool → Parse β}
    (same : ρ.Clear r → ρ.other.allowsInRefs u.look.scanner.keywords u.look.token.name =
      ρ.env.allowsInRefs u.look.scanner.keywords u.look.token.name)
    (h : ρ.Takes r (f (ρ.env.allowsInRefs u.look.scanner.keywords u.look.token.name)) u Q) :
    ρ.Takes r (isRefKeyword >>= f) u Q := fun o depth journal => by
  obtain ⟨there, holds, alike⟩ := h o depth journal
  refine ⟨there, holds, fun clear => ?_⟩
  show (f (ρ.other.allowsInRefs u.look.scanner.keywords u.look.token.name)).run ρ.other o
    ⟨u, depth, journal⟩ = _
  rw [same clear]
  exact alike clear

/-- A value at the present place. -/
theorem here_self {value : Value} {Q : Term → Reading → Prop}
    (h : ρ.Takes r (Pure.pure ⟨value, some u.look.location⟩) u Q) : ρ.Takes r (here value) u Q := h

/-- A term that is put in its place. -/
theorem placed_self {t : Term} {l : Location} {start stop : Nat} {Q : Term → Reading → Prop}
    (h : ρ.Takes r (Pure.pure (t.placed { l with text := u.look.text start stop })) u Q) :
    ρ.Takes r (placed t l start stop) u Q := h

end asking

/-! ### Errors -/

/-- Some problem is reported with a token that does not belong where it is. -/
theorem unexpected_bind {note : Note} {f : Unit → Parse β}
    (h : ∀ problem, ρ.Takes r (f ()) (u.reporting problem u.look.location) Q) :
    ρ.Takes r (unexpected note >>= f) u Q := by
  unfold unexpected
  rw [bind_bind_iff, token_iff]
  split
  · rw [reportHere_iff]
    exact h _
  · rw [reportHere_iff]
    exact h _

/-- An error is reported, and that is all. -/
theorem unexpected_fail {note : Note} (there : ρ.Goes r u) :
    ρ.Takes r (do unexpected note; Parse.fail : Parse α) u P :=
  unexpected_bind fun problem => fail (there.trans (.report there.seated problem _))

/-- To report and fail is to have moved. -/
theorem reportHere_fail {problem : Problem} (there : ρ.Goes r u) :
    ρ.Takes r (do reportHere problem; Parse.fail : Parse α) u P :=
  reportHere_iff.2 (fail (there.trans (.report there.seated problem _)))

/-! ### Names and levels -/

/-- A name is drawn, and it is the next one. -/
theorem freshWildcard_bind {n : Nat} {f : String → Parse β}
    (h : ρ.Takes r (f (wildcardName u.wildcards.size)) { u with wildcards := u.wildcards.push n } Q) :
    ρ.Takes r (freshWildcard n >>= f) u Q := h

/-- One level deeper nothing is different, unless it is too deep. -/
theorem nested {x : Parse α} (before : ρ.Goes r u) (h : ρ.Takes r x u P) :
    ρ.Takes r (Parse.nested x) u P := fun o depth journal => by
  rcases answer : o.answer (.nest depth) with _ | _
  · rw [run_nested_refused _ x answer, run_nested_refused _ x answer]
    exact reportHere_fail before o depth _
  · obtain ⟨there, holds, same⟩ := h o (depth + 1) ((.nest depth, true) :: journal)
    rw [run_nested_granted _ x answer, run_nested_granted _ x answer]
    refine ⟨there, holds, fun clear => ?_⟩
    have same := same clear
    simp only [deeper, same]

/-! ### Returning -/

/-- To come back is to be where the parser has been. -/
theorem restore_bind {f : Unit → Parse β} (since : ρ.Goes w v) (h : ρ.Takes r (f ()) (w.resumed v) Q) :
    ρ.Takes r (restore w.save >>= f) v Q :=
  of_run_eq (fun env o depth journal _ => by
    rw [run_bind, run_restore, andThen_some, since.leads.restore_eq]) h

/-! ### Words as identifiers -/

/-- A keyword that a reference goes on behind is read as an identifier. -/
theorem startsRefWithKeyword_bind {f : Bool → Parse β} (there : ρ.Goes r u)
    (stays : ρ.Takes r (f false) u Q)
    (named : ρ.Goes u { u with look := { u.look with token := .ident } } →
      ρ.Takes r (f true) { u with look := { u.look with token := .ident } } Q) :
    ρ.Takes r (startsRefWithKeyword >>= f) u Q := by
  by_cases continues : continuesRef (Parse.next ρ.env false u.look).look.token = true
  · unfold startsRefWithKeyword
    rw [bind_bind_iff]
    refine isRefKeyword_bind (fun clear => (there.clear clear).allowsInRefs fun n τ spaced _ =>
      spaced.refuses_continued there.seated ρ.other continues) ?_
    split
    · next allowed =>
        rw [bind_bind_iff, peekBlank_iff, if_pos continues, bind_bind_iff, asIdent_iff]
        exact named ⟨there.seated, .ident allowed continues⟩
    · exact stays
  · -- nothing goes on behind the token, whatever it may stand for
    refine of_run_eq (fun env o depth journal alike => ?_) stays
    have run : startsRefWithKeyword.run env o ⟨u, depth, journal⟩ = (some false, ⟨u, depth, journal⟩) := by
      unfold startsRefWithKeyword isRefKeyword
      simp only [run_bind, run_look, run_env, run_pure, andThen_some]
      split
      · simp only [run_bind, run_peekBlank, andThen_some, alike.next, if_neg continues, run_pure]
      · rfl
    rw [run_bind, run, andThen_some]

/-! ### Reserved words -/

section reserved

variable {y : Parse γ} {S : γ → Reading → Prop}

/-- A reading with other words reserved, in which nothing is remembered. -/
def Under (change : Scanner → Scanner) (u : Reading) : Reading :=
  { u with memo := .empty, look := { u.look with scanner := change u.look.scanner } }

/-- A reading with all words of the future reserved. -/
def Opened (u : Reading) : Reading := Under (·.withKeywords .future) u

/-- With other words reserved the parser is seated on the route without bounds. -/
theorem seated_opened (h : ρ.Seated u) : ρ.unbound.Seated (Opened u) := by
  obtain ⟨c, at', solid⟩ := h.look
  exact ⟨⟨c, { at' with known := at'.known.extend KeywordTable.known_future }, solid⟩,
    fun _ he => absurd he List.not_mem_nil⟩

/-- What a reading with other words reserved leaves behind, once the words are what they were. -/
def Closed (u v : Reading) : Reading :=
  { v with
    memo := u.memo
    look := { v.look with scanner := { v.look.scanner with keywords := u.look.scanner.keywords } } }

/-- A run with other words reserved, by what it is inside and what it leaves. -/
theorem run_withKeywords (change : Scanner → Scanner) (y : Parse γ) (env : Env) (o : Settings)
    (depth : Nat) (journal : List (Question × Bool)) :
    (Parse.withKeywords change y).run env o ⟨u, depth, journal⟩ =
      ((y.run env o ⟨Under change u, depth, journal⟩).1,
        { (y.run env o ⟨Under change u, depth, journal⟩).2 with
          toReading := Closed u (y.run env o ⟨Under change u, depth, journal⟩).2.toReading }) := by
  have run : (Parse.withKeywords change y).run env o ⟨u, depth, journal⟩ =
      (Parse.ofOption (y.run env o ⟨Under change u, depth, journal⟩).1).run env o
        { (y.run env o ⟨Under change u, depth, journal⟩).2 with
          toReading := Closed u (y.run env o ⟨Under change u, depth, journal⟩).2.toReading } := rfl
  rw [run]
  rcases y.run env o ⟨Under change u, depth, journal⟩ with ⟨_ | a, t⟩
  · rfl
  · rfl

/-- A run with all words of the future reserved. -/
theorem run_withFutureKeywords (y : Parse γ) (env : Env) (o : Settings) (depth : Nat)
    (journal : List (Question × Bool)) :
    (Parse.withFutureKeywords y).run env o ⟨u, depth, journal⟩ =
      ((y.run env o ⟨Opened u, depth, journal⟩).1,
        { (y.run env o ⟨Opened u, depth, journal⟩).2 with
          toReading := Closed u (y.run env o ⟨Opened u, depth, journal⟩).2.toReading }) :=
  run_withKeywords _ y env o depth journal

/-- What is read with other words reserved, and given up, leaves nothing but names that were drawn. -/
theorem restore_closed (since : ρ.Goes w v) (inside : ρ.unbound.Goes (Opened v) t) :
    (Closed v t).restore w.save = { w.resumed v with wildcards := t.wildcards } := by
  obtain ⟨failures, comments⟩ := since.leads.grows
  obtain ⟨failures', comments'⟩ := inside.leads.grows
  simp only [Reading.restore, Reading.save, Reading.resumed, Closed, (failures.trans failures').take,
    (comments.trans comments').take]

/-- A reading with all words of the future reserved, from which the parser comes back. -/
theorem withFutureKeywords_restore {f : Option γ → Parse β} (suggests : ρ.env.suggestImports = true)
    (since : ρ.Goes w v) (inner : ρ.unbound.Takes (Opened v) y (Opened v) S)
    (h : ∀ a drawn, ρ.Takes r (f a) { w.resumed v with wildcards := drawn } Q) :
    ρ.Takes r (do let a ← Parse.withFutureKeywords (Parse.attempt y); restore w.save; f a) v Q :=
  fun o depth journal => by
  obtain ⟨inside, -, same⟩ := inner o depth journal
  -- the reading is taken back, and of the whole there are left an answer and names
  have run (env : Env) : (do let a ← Parse.withFutureKeywords (Parse.attempt y); restore w.save; f a).run
      env o ⟨v, depth, journal⟩ = (f (y.run env o ⟨Opened v, depth, journal⟩).1).run env o
        { (y.run env o ⟨Opened v, depth, journal⟩).2 with
          toReading := (Closed v (y.run env o ⟨Opened v, depth, journal⟩).2.toReading).restore w.save } := by
    rw [run_bind, run_withFutureKeywords, run_attempt, andThen_some]
    rfl
  obtain ⟨there', holds, alike⟩ := h (y.run ρ.env o ⟨Opened v, depth, journal⟩).1
    (y.run ρ.env o ⟨Opened v, depth, journal⟩).2.wildcards o
    (y.run ρ.env o ⟨Opened v, depth, journal⟩).2.depth
    (y.run ρ.env o ⟨Opened v, depth, journal⟩).2.journal
  have back := restore_closed since inside
  have same := same (clear_of_suggests suggests)
  rw [run, run]
  rw [show ρ.unbound.env = ρ.env from rfl] at back same
  rw [show ρ.unbound.other = ρ.other from rfl] at same
  refine ⟨?_, ?_, fun clear => ?_⟩
  · rw [back]
    exact there'
  · rw [back]
    exact holds
  · rw [same, back]
    exact alike clear

/-- A probe with all words of the future reserved. -/
theorem probe_bind {f : Option γ → Parse β} (suggests : ρ.env.suggestImports = true) (since : ρ.Goes w v)
    (inner : ρ.unbound.Takes (Opened (w.resumed v)) y (Opened (w.resumed v)) S)
    (h : ∀ a drawn, ρ.Takes r (f a) { v with wildcards := drawn } Q) :
    ρ.Takes r (do let a ← Parse.probe w.save (Parse.withFutureKeywords y); f a) v Q :=
  fun o depth journal => by
  obtain ⟨inside, -, same⟩ := inner o depth journal
  have run (env : Env) : (do let a ← Parse.probe w.save (Parse.withFutureKeywords y); f a).run env o
      ⟨v, depth, journal⟩ = (f (y.run env o ⟨Opened (w.resumed v), depth, journal⟩).1).run env o
        ⟨{ Closed (w.resumed v) (y.run env o ⟨Opened (w.resumed v), depth, journal⟩).2.toReading with
            look := v.look
            failures :=
              (y.run env o ⟨Opened (w.resumed v), depth, journal⟩).2.failures.take w.failures.size ++
                v.failures.extract w.failures.size v.failures.size
            comments :=
              (y.run env o ⟨Opened (w.resumed v), depth, journal⟩).2.comments.take w.comments.size ++
                v.comments.extract w.comments.size v.comments.size },
          (y.run env o ⟨Opened (w.resumed v), depth, journal⟩).2.depth,
          (y.run env o ⟨Opened (w.resumed v), depth, journal⟩).2.journal⟩ := by
    unfold Parse.probe
    rw [run_bind, run_bind, run_reading, andThen_some, run_bind, run_restore, andThen_some,
      since.leads.restore_eq, run_bind, run_attempt, run_withFutureKeywords, andThen_some]
    rfl
  obtain ⟨failures, comments⟩ := since.leads.grows
  obtain ⟨failures', comments'⟩ := inside.leads.grows
  -- what the probe has reported is cut off, and what was reported before it is put back
  have back : (⟨v.look,
      (y.run ρ.env o ⟨Opened (w.resumed v), depth, journal⟩).2.failures.take w.failures.size ++
        v.failures.extract w.failures.size v.failures.size,
      (y.run ρ.env o ⟨Opened (w.resumed v), depth, journal⟩).2.comments.take w.comments.size ++
        v.comments.extract w.comments.size v.comments.size, v.memo,
      (y.run ρ.env o ⟨Opened (w.resumed v), depth, journal⟩).2.wildcards⟩ : Reading) =
        { v with
          wildcards := (y.run ρ.env o ⟨Opened (w.resumed v), depth, journal⟩).2.wildcards } := by
    have kept : Array.take (y.run ρ.env o ⟨Opened (w.resumed v), depth, journal⟩).2.failures
        w.failures.size = w.failures := failures'.take
    have kept' : Array.take (y.run ρ.env o ⟨Opened (w.resumed v), depth, journal⟩).2.comments
        w.comments.size = w.comments := comments'.take
    rw [kept, kept', ← failures.extract, ← comments.extract]
  obtain ⟨there', holds, alike⟩ := h (y.run ρ.env o ⟨Opened (w.resumed v), depth, journal⟩).1
    (y.run ρ.env o ⟨Opened (w.resumed v), depth, journal⟩).2.wildcards o
    (y.run ρ.env o ⟨Opened (w.resumed v), depth, journal⟩).2.depth
    (y.run ρ.env o ⟨Opened (w.resumed v), depth, journal⟩).2.journal
  have same : y.run ρ.other o ⟨Opened (w.resumed v), depth, journal⟩ =
      y.run ρ.env o ⟨Opened (w.resumed v), depth, journal⟩ := same (clear_of_suggests suggests)
  rw [run, run]
  refine ⟨?_, ?_, fun clear => ?_⟩
  · exact back ▸ there'
  · exact back ▸ holds
  · rw [same]
    exact back ▸ alike clear

end reserved

end Takes

end Route

end RegoSyntax
