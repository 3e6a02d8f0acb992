/-
# RegoSyntax.Proofs.Moves.Bodies — what a parser of rules does to what is known.

A parser of rules moves like a parser of queries, but for one thing: it passes the word that a body starts
with.  A body is read right behind that word, or, where no literal can be read there, behind whatever
stands there (`Route.Enters`).  Between the word and the end of the body the parser takes a token at least;
so `Route.Treads` says where rules lead that could be read, and `Route.Lost` where one leads that could not.

`Route.Yields` is the judgement on a parser that goes with relations other than `Route.Goes`.
-/
import RegoSyntax.Proofs.Moves.Queries

namespace RegoSyntax

open Parse

namespace Route

variable {ρ : Route} {r s t u v w : Reading}

/-! ## Moves of any kind -/

/-- Moves along a route are moves where all tokens may be passed. -/
theorem Leads.unbound (h : ρ.Leads u v) : ρ.unbound.Leads u v := by
  induction h with
  | refl => exact .refl _
  | trans _ _ first second => exact first.trans second
  | pass b _ => exact .pass b trivial
  | point dot digits => exact .point dot digits
  | segment dot name => exact .segment dot name
  | astray b problem place dot => exact .astray b problem place dot
  | report problem place => exact .report problem place
  | hint hints => exact .hint hints
  | ident allowed adjoined => exact .ident allowed adjoined
  | draw drawn => exact .draw drawn
  | resume _ ih => exact .resume ih
  | remember term _ strides ih => exact .remember term ih strides
  | recollect known here => exact .recollect known here

/-- A reading that is seated without bounds is seated. -/
theorem seated_of_unbound (h : ρ.unbound.Seated u) : ρ.Seated u :=
  ⟨h.look, fun e he => { h.memo e he with }⟩

/-! ## Bodies -/

/-- Where a body may be read from. -/
inductive Enters (ρ : Route) : Reading → Reading → Prop
  | step {u : Reading} : u.look.token = .ifKw → Enters ρ u (u.passing ρ.env true)
  /-- behind what stands there, because no literal could be read from it -/
  | leap {u v : Reading} : u.look.token = .ifKw → ρ.Leads (u.passing ρ.env true) v →
      Enters ρ u (((u.passing ρ.env true).resumed v).passing ρ.env true)

/-- Where rules lead. -/
inductive Treads (ρ : Route) : Reading → Reading → Prop
  | lead {u v : Reading} : ρ.Leads u v → Treads ρ u v
  | body {u w v : Reading} : ρ.Enters u w → ρ.Leads w v → w.look.offset < v.look.offset →
      Treads ρ u v
  | trans {u v t : Reading} : Treads ρ u v → Treads ρ v t → Treads ρ u t

/-- Where an attempt to read rules leads: it may end in a body. -/
inductive Lost (ρ : Route) : Reading → Reading → Prop
  | treads {u v : Reading} : ρ.Treads u v → Lost ρ u v
  | within {u s w v : Reading} : ρ.Treads u s → ρ.Enters s w → ρ.Leads w v → Lost ρ u v

/-- To stay is to tread nowhere. -/
theorem Treads.refl (u : Reading) : ρ.Treads u u := .lead (.refl u)

/-- A parser that is lost later on is lost. -/
theorem Treads.lost (before : ρ.Treads u v) (h : ρ.Lost v t) : ρ.Lost u t := by
  cases h with
  | treads h => exact .treads (before.trans h)
  | within there enters leads => exact .within (before.trans there) enters leads

/-- To enter a body is to move on where all tokens may be passed. -/
theorem Enters.unbound (h : ρ.Enters u w) : ρ.unbound.Leads u w := by
  cases h with
  | step => exact .pass true trivial
  | leap _ leads => exact ((Leads.pass true trivial).trans leads.unbound.resume).trans (.pass true trivial)

/-- Rules lead on without bounds. -/
theorem Treads.unbound (h : ρ.Treads u v) : ρ.unbound.Leads u v := by
  induction h with
  | lead leads => exact leads.unbound
  | body enters leads _ => exact enters.unbound.trans leads.unbound
  | trans _ _ first second => exact first.trans second

/-- Rules that could not be read lead on without bounds. -/
theorem Lost.unbound (h : ρ.Lost u v) : ρ.unbound.Leads u v := by
  cases h with
  | treads h => exact h.unbound
  | within there enters leads => exact (there.unbound.trans enters.unbound).trans leads.unbound

/-- Where a body starts the parser is seated. -/
theorem Enters.seated (h : ρ.Enters u w) (seated : ρ.Seated u) : ρ.Seated w :=
  seated_of_unbound (h.unbound.seated (seated_unbound seated))

/-- Where rules lead the parser is seated. -/
theorem Treads.seated (h : ρ.Treads u v) (seated : ρ.Seated u) : ρ.Seated v :=
  seated_of_unbound (h.unbound.seated (seated_unbound seated))

/-- Rules do not lead back. -/
theorem Treads.ahead (h : ρ.Treads u v) (seated : ρ.Seated u) : u.look.offset ≤ v.look.offset :=
  h.unbound.ahead (seated_unbound seated)

/-- Where rules could not be read the parser is seated. -/
theorem Lost.seated (h : ρ.Lost u v) (seated : ρ.Seated u) : ρ.Seated v :=
  seated_of_unbound (h.unbound.seated (seated_unbound seated))

/-- Behind the word that starts a body the parser is beyond that word. -/
theorem Enters.strides (h : ρ.Enters u w) (seated : ρ.Seated u) : u.look.offset < w.look.offset := by
  cases h with
  | step ifKw => exact lt_passing seated true (by rw [ifKw]; decide)
  | leap ifKw leads =>
      have first := lt_passing seated true (by rw [ifKw]; decide)
      have there := leads.seated (seated.passing true)
      exact first.trans_le (le_passing ((seated.passing true).resumed there) true)

section spaced

variable {n : Nat} {τ : KeywordTable} (strict : ρ.env.Strict) (here : ρ.Spaced n τ u)

include strict here

/-- A body of a strict task does not start behind an import clause. -/
theorem Enters.spaced (h : ρ.Enters u w) (seated : ρ.Seated u) : ρ.Spaced n τ w := by
  have there := seated.passing (ρ := ρ) true
  cases h with
  | step ifKw => exact here.passing seated true (by rw [ifKw]; decide)
  | leap ifKw leads =>
      have entered := here.passing seated true (by rw [ifKw]; decide)
      have back := entered.resumed (leads.spaced there strict entered)
      exact back.passing (there.resumed (leads.seated there)) true (here.body_other seated ifKw true)

/-- Where rules lead, no point stands behind a keyword. -/
theorem Treads.spaced (h : ρ.Treads u v) (seated : ρ.Seated u) : ρ.Spaced n τ v := by
  induction h with
  | lead leads => exact leads.spaced seated strict here
  | body enters leads _ =>
      exact leads.spaced (enters.seated seated) strict (enters.spaced strict here seated)
  | trans first _ ih ih' => exact ih' (ih here seated) (first.seated seated)

/-- The same where rules could not be read. -/
theorem Lost.spaced (h : ρ.Lost u v) (seated : ρ.Seated u) : ρ.Spaced n τ v := by
  cases h with
  | treads h => exact h.spaced strict here seated
  | within there enters leads =>
      have before := there.seated seated
      have entered := enters.spaced strict (there.spaced strict here seated) before
      exact leads.spaced (enters.seated before) strict entered

end spaced

/-! ## The judgement -/

/-- A parser leads from a reading to one of some kind, depending on whether it gives a result; and under a
condition a task that is alike makes no difference. -/
def Yields {α : Type} (ρ : Route) (clear : Prop) (x : Parse α) (u : Reading)
    (fails : Reading → Prop) (gives : α → Reading → Prop) : Prop :=
  ∀ o depth journal,
    ((x.run ρ.env o ⟨u, depth, journal⟩).1 = none →
      fails (x.run ρ.env o ⟨u, depth, journal⟩).2.toReading) ∧
    (∀ a, (x.run ρ.env o ⟨u, depth, journal⟩).1 = some a →
      gives a (x.run ρ.env o ⟨u, depth, journal⟩).2.toReading) ∧
    (clear → x.run ρ.other o ⟨u, depth, journal⟩ = x.run ρ.env o ⟨u, depth, journal⟩)

namespace Yields

variable {α β γ : Type} {clear : Prop} {F F' : Reading → Prop} {P P' : α → Reading → Prop}
  {Q : β → Reading → Prop}

/-- What is given at once. -/
theorem pure {a : α} (holds : P a u) : ρ.Yields clear (Pure.pure a) u F P :=
  fun _ _ _ => ⟨fun none => (by cases none), fun _ result => Option.some.inj result ▸ holds, fun _ => rfl⟩

/-- A parser that fails leads where failures lead. -/
theorem fail (holds : F u) : ρ.Yields clear (Parse.fail : Parse α) u F P :=
  fun _ _ _ => ⟨fun _ => holds, fun _ result => (by cases result), fun _ => rfl⟩

/-- One parser behind another. -/
theorem bind {x : Parse α} {f : α → Parse β} (first : ρ.Yields clear x u F' P)
    (fails : ∀ t, F' t → F t) (second : ∀ a t, P a t → ρ.Yields clear (f a) t F Q) :
    ρ.Yields clear (x >>= f) u F Q := fun o depth journal => by
  obtain ⟨lost, holds, same⟩ := first o depth journal
  rw [run_bind, run_bind]
  rcases h : x.run ρ.env o ⟨u, depth, journal⟩ with ⟨_ | a, ⟨t, depth', journal'⟩⟩
  · rw [h] at lost same
    exact ⟨fun _ => fails _ (lost rfl), fun _ result => (by cases result), fun there => by
      rw [same there]; rfl⟩
  · rw [h] at holds same
    obtain ⟨lost', holds', same'⟩ := second a t (holds a rfl) o depth' journal'
    refine ⟨lost', holds', fun there => ?_⟩
    rw [same there]
    exact same' there

/-- What is said may be less. -/
theorem weaken {x : Parse α} (h : ρ.Yields clear x u F' P') (fails : ∀ t, F' t → F t)
    (gives : ∀ a t, P' a t → P a t) : ρ.Yields clear x u F P := fun o depth journal => by
  obtain ⟨lost, holds, same⟩ := h o depth journal
  exact ⟨fun none => fails _ (lost none), fun a result => gives a _ (holds a result), same⟩

/-- A condition that says more. -/
theorem under {clear' : Prop} {x : Parse α} (h : ρ.Yields clear x u F P) (imp : clear' → clear) :
    ρ.Yields clear' x u F P := fun o depth journal =>
  ⟨(h o depth journal).1, (h o depth journal).2.1, fun b => (h o depth journal).2.2 (imp b)⟩

/-- What only moves yields moves. -/
theorem of_takes {x : Parse α} (h : ρ.Takes u x u P) (there : clear → ρ.Clear u)
    (fails : ∀ t, ρ.Goes u t → F t) (gives : ∀ a t, ρ.Goes u t → P a t → P' a t) :
    ρ.Yields clear x u F P' := fun o depth journal => by
  obtain ⟨goes, holds, same⟩ := h o depth journal
  exact ⟨fun _ => fails _ goes, fun a result => gives a _ goes (holds a result), fun b => same (there b)⟩

/-- A parser that only moves, and another one behind it. -/
theorem moves {x : Parse α} {f : α → Parse β} (first : ρ.Takes u x u P) (there : clear → ρ.Clear u)
    (fails : ∀ t, ρ.Goes u t → F t)
    (second : ∀ a t, ρ.Goes u t → P a t → ρ.Yields clear (f a) t F Q) :
    ρ.Yields clear (x >>= f) u F Q :=
  have both : ρ.Yields clear x u F fun a t => ρ.Goes u t ∧ P a t :=
    of_takes first there fails fun _ _ goes holds => ⟨goes, holds⟩
  both.bind (fun _ => id) fun a t holds => second a t holds.1 holds.2

/-- What is attempted never fails. -/
theorem attempt_bind {x : Parse α} {f : Option α → Parse β} (first : ρ.Yields clear x u F' P)
    (none : ∀ t, F' t → ρ.Yields clear (f none) t F Q)
    (some : ∀ a t, P a t → ρ.Yields clear (f (some a)) t F Q) :
    ρ.Yields clear (Parse.attempt x >>= f) u F Q := fun o depth journal => by
  obtain ⟨lost, holds, same⟩ := first o depth journal
  have run (env : Env) : (Parse.attempt x >>= f).run env o ⟨u, depth, journal⟩ =
      (f (x.run env o ⟨u, depth, journal⟩).1).run env o (x.run env o ⟨u, depth, journal⟩).2 := by
    rw [run_bind, run_attempt, andThen_some]
  rw [run, run]
  rcases h : x.run ρ.env o ⟨u, depth, journal⟩ with ⟨_ | a, ⟨t, depth', journal'⟩⟩
  · rw [h] at lost same
    obtain ⟨lost', holds', same'⟩ := none t (lost rfl) o depth' journal'
    refine ⟨lost', holds', fun there => ?_⟩
    rw [same there]
    exact same' there
  · rw [h] at holds same
    obtain ⟨lost', holds', same'⟩ := some a t (holds a rfl) o depth' journal'
    refine ⟨lost', holds', fun there => ?_⟩
    rw [same there]
    exact same' there

/-- A parser is as good as another one that does the same. -/
theorem of_run_eq {x y : Parse α} {u' : Reading}
    (same : ∀ env o depth journal, ρ.env.Alike env →
      x.run env o ⟨u, depth, journal⟩ = y.run env o ⟨u', depth, journal⟩)
    (h : ρ.Yields clear y u' F P) : ρ.Yields clear x u F P := fun o depth journal => by
  rw [same ρ.env o depth journal (.refl _), same ρ.other o depth journal ρ.alike]
  exact h o depth journal

/-! ### Asking -/

section asking

variable {f : α → Parse β} {x : Parse γ} {g : γ → Parse α}

@[simp] theorem pure_bind_iff {a : α} :
    ρ.Yields clear (Pure.pure a >>= f) u F Q ↔ ρ.Yields clear (f a) u F Q := Iff.rfl

@[simp] theorem bind_bind_iff :
    ρ.Yields clear ((x >>= g) >>= f) u F Q ↔ ρ.Yields clear (x >>= fun c => g c >>= f) u F Q := by
  rw [bind_assoc]

@[simp] theorem token_iff {f : Token → Parse β} :
    ρ.Yields clear (token >>= f) u F Q ↔ ρ.Yields clear (f u.look.token) u F Q := Iff.rfl

@[simp] theorem location_iff {f : Location → Parse β} :
    ρ.Yields clear (location >>= f) u F Q ↔ ρ.Yields clear (f u.look.location) u F Q := Iff.rfl

@[simp] theorem save_iff {f : Snapshot → Parse β} :
    ρ.Yields clear (save >>= f) u F Q ↔ ρ.Yields clear (f u.save) u F Q := Iff.rfl

@[simp] theorem noFailures_iff {f : Bool → Parse β} :
    ρ.Yields clear (noFailures >>= f) u F Q ↔ ρ.Yields clear (f u.failures.isEmpty) u F Q := Iff.rfl

@[simp] theorem upToLastStop_iff {l : Location} {f : Location → Parse β} :
    ρ.Yields clear (upToLastStop l >>= f) u F Q ↔
      ρ.Yields clear (f { l with text := u.look.text l.offset u.look.lastStop }) u F Q := Iff.rfl

@[simp] theorem asIdent_iff {g : Unit → Parse β} :
    ρ.Yields clear (asIdent >>= g) u F Q ↔
      ρ.Yields clear (g ()) { u with look := { u.look with token := .ident } } F Q := Iff.rfl

@[simp] theorem report_iff {l : Location} {problem : Problem} {f : Unit → Parse β} :
    ρ.Yields clear (Parse.report l problem >>= f) u F Q ↔
      ρ.Yields clear (f ()) (u.reporting problem l) F Q := Iff.rfl

@[simp] theorem hint_iff {h : Hint} {f : Unit → Parse β} :
    ρ.Yields clear (Parse.hint h >>= f) u F Q ↔
      ρ.Yields clear (f ()) { u with look := { u.look with hints := u.look.hints ++ [h] } } F Q := Iff.rfl

/-- What is asked of the task is the same for both tasks. -/
theorem env_bind {f : Env → Parse β} (same : clear → f ρ.other = f ρ.env)
    (h : ρ.Yields clear (f ρ.env) u F Q) : ρ.Yields clear (Parse.env >>= f) u F Q :=
  fun o depth journal => by
  obtain ⟨lost, holds, alike⟩ := h o depth journal
  refine ⟨lost, holds, fun there => ?_⟩
  show (f ρ.other).run ρ.other o ⟨u, depth, journal⟩ = _
  rw [same there]
  exact alike there

@[simp] theorem advance_iff {b : Bool} {f : Unit → Parse β} :
    ρ.Yields clear (Parse.advance b >>= f) u F Q ↔
      ρ.Yields clear (f ()) (u.passing ρ.env b) F Q := by
  have same (env : Env) (o : Settings) (depth : Nat) (journal : List (Question × Bool))
      (alike : ρ.env.Alike env) : (Parse.advance b >>= f).run env o ⟨u, depth, journal⟩ =
        (f ()).run env o ⟨u.passing ρ.env b, depth, journal⟩ := by
    rw [run_bind, run_advance, andThen_some, alike.next]
    rfl
  exact ⟨of_run_eq fun env o depth journal alike => (same env o depth journal alike).symm, of_run_eq same⟩

@[simp] theorem scan_iff {f : Unit → Parse β} :
    ρ.Yields clear (scan >>= f) u F Q ↔ ρ.Yields clear (f ()) (u.passing ρ.env true) F Q := advance_iff

@[simp] theorem scanBlank_iff {f : Unit → Parse β} :
    ρ.Yields clear (scanBlank >>= f) u F Q ↔ ρ.Yields clear (f ()) (u.passing ρ.env false) F Q :=
  advance_iff

/-- Whether the current token may stand for an identifier is the same for both tasks. -/
theorem isRefKeyword_bind {f : Bool → Parse β}
    (same : clear → ρ.other.allowsInRefs u.look.scanner.keywords u.look.token.name =
      ρ.env.allowsInRefs u.look.scanner.keywords u.look.token.name)
    (h : ρ.Yields clear (f (ρ.env.allowsInRefs u.look.scanner.keywords u.look.token.name)) u F Q) :
    ρ.Yields clear (isRefKeyword >>= f) u F Q := fun o depth journal => by
  obtain ⟨lost, holds, alike⟩ := h o depth journal
  refine ⟨lost, holds, fun before => ?_⟩
  show (f (ρ.other.allowsInRefs u.look.scanner.keywords u.look.token.name)).run ρ.other o
    ⟨u, depth, journal⟩ = _
  rw [same before]
  exact alike before

end asking

/-- To come back is to be where the parser has been. -/
theorem restore_bind {f : Unit → Parse β} (since : ρ.unbound.Leads w v)
    (h : ρ.Yields clear (f ()) (w.resumed v) F Q) : ρ.Yields clear (restore w.save >>= f) v F Q :=
  of_run_eq (fun env o depth journal _ => by
    rw [run_bind, run_restore, andThen_some, since.restore_eq]) h

end Yields

/-! ## Rules -/

/-- Rules have led from a reading to another one. -/
structure Walks (ρ : Route) (r t : Reading) : Prop where
  start : ρ.Seated r
  treads : ρ.Treads r t

namespace Walks

/-- To stay is to walk nowhere. -/
theorem refl (seated : ρ.Seated u) : ρ.Walks u u := ⟨seated, .refl u⟩

/-- A walk behind a walk. -/
theorem trans (first : ρ.Walks r s) (second : ρ.Walks s t) : ρ.Walks r t :=
  ⟨first.start, first.treads.trans second.treads⟩

/-- Where a walk leads the parser is seated. -/
theorem seated (h : ρ.Walks r t) : ρ.Seated t := h.treads.seated h.start

/-- A walk does not lead back. -/
theorem ahead (h : ρ.Walks r t) : r.look.offset ≤ t.look.offset := h.treads.ahead h.start

/-- Where a walk leads from a clear reading, it is clear. -/
theorem clear (h : ρ.Walks r t) (clear : ρ.Clear r) : ρ.Clear t :=
  clear.onward fun _ _ strict spaced => h.treads.spaced strict spaced h.start

end Walks

/-- Moves are a walk. -/
theorem Goes.walks (h : ρ.Goes u t) : ρ.Walks u t := ⟨h.start, .lead h.leads⟩

/-- A parser follows the rules on from a reading. -/
def Follows {α : Type} (ρ : Route) (r : Reading) (x : Parse α) (u : Reading) : Prop :=
  ρ.Yields (ρ.Clear r) x u (ρ.Lost r) fun _ => ρ.Walks r

namespace Follows

variable {α β : Type} {P : α → Reading → Prop}

/-- What is given at once. -/
theorem pure {a : α} (there : ρ.Walks r u) : ρ.Follows r (Pure.pure a) u := Yields.pure there

/-- A parser that fails has walked as far as it has come. -/
theorem fail (there : ρ.Walks r u) : ρ.Follows r (Parse.fail : Parse α) u := Yields.fail (.treads there.treads)

/-- One parser behind another. -/
theorem bind {x : Parse α} {f : α → Parse β} (first : ρ.Follows r x u)
    (second : ∀ a t, ρ.Walks r t → ρ.Follows r (f a) t) : ρ.Follows r (x >>= f) u :=
  Yields.bind first (fun _ => id) second

/-- What follows the rules from a later reading follows them from an earlier one. -/
theorem since {x : Parse α} (before : ρ.Walks r u) (h : ρ.Follows u x t) : ρ.Follows r x t :=
  fun o depth journal => by
  obtain ⟨lost, walks, same⟩ := h o depth journal
  exact ⟨fun none => before.treads.lost (lost none), fun a result => before.trans (walks a result),
    fun clear => same (before.clear clear)⟩

/-- A parser that only moves, and another one behind it. -/
theorem moves {x : Parse α} {f : α → Parse β} (before : ρ.Walks r u) (first : ρ.Takes u x u P)
    (second : ∀ a t, ρ.Walks r t → P a t → ρ.Follows r (f a) t) : ρ.Follows r (x >>= f) u :=
  Yields.moves first before.clear (fun _ goes => .treads (before.trans goes.walks).treads)
    fun a t goes => second a t (before.trans goes.walks)

/-- A parser that only moves. -/
theorem of_takes {x : Parse α} (before : ρ.Walks r u) (h : ρ.Takes u x u P) : ρ.Follows r x u :=
  Yields.of_takes h before.clear (fun _ goes => .treads (before.trans goes.walks).treads)
    fun _ _ goes _ => before.trans goes.walks

/-- What is read where a body is entered. -/
theorem entered {x : Parse α} (before : ρ.Walks r s) (enters : ρ.Enters s w)
    (inner : ρ.Takes w x w fun _ v => w.look.offset < v.look.offset) : ρ.Follows r x w :=
  fun o depth journal => by
  obtain ⟨goes, strides, same⟩ := inner o depth journal
  exact ⟨fun _ => .within before.treads enters goes.leads,
    fun a result => before.trans ⟨before.seated, .body enters goes.leads (strides a result)⟩,
    fun clear => same ((before.clear clear).onward fun _ _ strict spaced =>
      enters.spaced strict spaced before.seated)⟩

/-- Where a body is entered an error is reported. -/
theorem entered_fail {note : Note} (before : ρ.Walks r s) (enters : ρ.Enters s w) :
    ρ.Follows r (do unexpected note; Parse.fail : Parse α) w :=
  entered before enters (.unexpected_fail (.refl (enters.seated before.seated)))

theorem unexpected_fail {note : Note} (before : ρ.Walks r u) :
    ρ.Follows r (do unexpected note; Parse.fail : Parse α) u :=
  of_takes (P := fun _ _ => True) before (.unexpected_fail (.refl before.seated))

theorem reportHere_fail {problem : Problem} (before : ρ.Walks r u) :
    ρ.Follows r (do reportHere problem; Parse.fail : Parse α) u :=
  of_takes (P := fun _ _ => True) before (.reportHere_fail (.refl before.seated))

section asking

variable {f : α → Parse β}

@[simp] theorem pure_bind_iff {a : α} :
    ρ.Follows r (Pure.pure a >>= f) u ↔ ρ.Follows r (f a) u := Iff.rfl

@[simp] theorem bind_bind_iff {γ : Type} {x : Parse γ} {g : γ → Parse α} :
    ρ.Follows r ((x >>= g) >>= f) u ↔ ρ.Follows r (x >>= fun c => g c >>= f) u := Yields.bind_bind_iff

@[simp] theorem token_iff {f : Token → Parse β} :
    ρ.Follows r (token >>= f) u ↔ ρ.Follows r (f u.look.token) u := Iff.rfl

@[simp] theorem location_iff {f : Location → Parse β} :
    ρ.Follows r (location >>= f) u ↔ ρ.Follows r (f u.look.location) u := Iff.rfl

@[simp] theorem save_iff {f : Snapshot → Parse β} :
    ρ.Follows r (save >>= f) u ↔ ρ.Follows r (f u.save) u := Iff.rfl

@[simp] theorem upToLastStop_iff {l : Location} {f : Location → Parse β} :
    ρ.Follows r (upToLastStop l >>= f) u ↔
      ρ.Follows r (f { l with text := u.look.text l.offset u.look.lastStop }) u := Iff.rfl

@[simp] theorem scan_iff {f : Unit → Parse β} :
    ρ.Follows r (scan >>= f) u ↔ ρ.Follows r (f ()) (u.passing ρ.env true) := Yields.scan_iff

end asking

end Follows

end Route

end RegoSyntax
