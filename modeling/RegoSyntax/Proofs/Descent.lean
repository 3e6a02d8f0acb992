/-
# RegoSyntax.Proofs.Descent — what a production reads depends on what is ahead of it.

The grammar is followed to some depth (`Parse.grammar`), and a parser returns to where it has been, takes up
again what it remembers and looks at the same text with other words reserved.  Still there is an order in
which it descends: a production asks for others behind the token that it starts from, or, at that token, for
productions of a lower `Production.rank`.  So no production comes back to itself without a token in between.

The rules are plain functions of a grammar, so a call is not seen in them; it is seen in that the answer
matters.  Two grammars `Route.Agree` from an offset on if they read the same there, and the claim on a rule is
that it reads the same with both (`Route.Coincides`).  How far the parser has come at each call is told by the
moves that it has made.
-/
import RegoSyntax.Proofs.Moves.Boundaries

namespace RegoSyntax

open Parse

/-! ## Ranks -/

/-- The number of tiers from a tier down to the terms. -/
def Tier.rank : Tier → Nat
  | product => 1
  | sum => 2
  | intersection => 3
  | union => 4
  | relation => 5

theorem Tier.rank_tighter {tier next : Tier} (h : tier.tighter? = some next) : next.rank < tier.rank := by
  revert h
  cases tier <;> cases next <;> decide

theorem Tier.rank_bounds (tier : Tier) : 0 < tier.rank ∧ tier.rank ≤ 5 := by
  cases tier <;> decide

namespace Production

/-- How many productions there are, at most, between a production and the next token.  What has been read
before plays no part in it. -/
def rank : {α : Type} → Production α → Nat
  | _, .term | _, .segments _ _ _ | _, .replacements _ | _, .symbols _ => 0
  | _, .alternative _ | _, .siblings _ _ => 0
  | _, .reference _ _ => 1
  | _, .operation tier _ _ => tier.rank
  | _, .membership _ _ _ => 6
  | _, .compound _ => 7
  | _, .elements _ _ | _, .pairs _ _ | _, .literal => 8
  | _, .literals _ _ _ => 9
  | _, .body _ => 10

/-- A rank above all others. -/
def topRank : Nat := 11

theorem rank_lt {α : Type} (p : Production α) : p.rank < topRank := by
  cases p with
  | operation tier => exact Nat.lt_of_le_of_lt tier.rank_bounds.2 (by decide)
  | _ => exact Nat.le_of_ble_eq_true rfl

/-- What a production relies on where it is asked for. -/
def Due : {α : Type} → Production α → Reading → Prop
  | _, .alternative _, u => u.look.token = .elseKw
  | _, p, u => p.Poised u

end Production

namespace Route

variable {ρ : Route} {r u v w : Reading} {g g' : Grammar} {α β γ : Type} {n n' k k' : Nat}

/-! ## The judgement -/

/-- Two parsers do the same from a reading, whatever is chosen about the parse. -/
def Coincides (ρ : Route) (x y : Parse α) (u : Reading) : Prop :=
  ∀ o depth journal, x.run ρ.env o ⟨u, depth, journal⟩ = y.run ρ.env o ⟨u, depth, journal⟩

/-- Two grammars read the same from an offset on; of the productions at the offset itself this is said for
those below a rank. -/
def Agree (ρ : Route) (g g' : Grammar) (n k : Nat) : Prop :=
  ∀ ⦃α : Type⦄ (p : Production α) (u : Reading), ρ.Seated u → p.Due u →
    n < u.look.offset ∨ n ≤ u.look.offset ∧ p.rank < k → ρ.Coincides (g p) (g' p) u

namespace Agree

/-- What is asked for behind the offset. -/
theorem ahead (h : ρ.Agree g g' n k) (p : Production α) (seated : ρ.Seated u) (due : p.Due u)
    (lt : n < u.look.offset) : ρ.Coincides (g p) (g' p) u :=
  h p u seated due (.inl lt)

/-- What is asked for at the offset, or behind it. -/
theorem lower (h : ρ.Agree g g' n k) (p : Production α) (seated : ρ.Seated u) (due : p.Due u)
    (le : n ≤ u.look.offset) (lower : p.rank.blt k = true) : ρ.Coincides (g p) (g' p) u :=
  h p u seated due (.inr ⟨le, Nat.le_of_ble_eq_true lower⟩)

/-- Whatever is asked for, where no rank is excluded. -/
theorem all (h : ρ.Agree g g' n Production.topRank) (p : Production α) (seated : ρ.Seated u)
    (due : p.Due u) (le : n ≤ u.look.offset) : ρ.Coincides (g p) (g' p) u :=
  h p u seated due (.inr ⟨le, p.rank_lt⟩)

/-- Behind the offset they agree on everything. -/
theorem later (h : ρ.Agree g g' n k) (lt : n < n') : ρ.Agree g g' n' k' := by
  intro α p u seated due below
  exact h p u seated due (.inl (by omega))

theorem since (h : ρ.Agree g g' n k) (le : n ≤ n') (lower : k' ≤ k) : ρ.Agree g g' n' k' := by
  intro α p u seated due below
  exact h p u seated due (by omega)

theorem unbound (h : ρ.Agree g g' n k) : ρ.unbound.Agree g g' n k := by
  intro α p u seated due below
  exact h p u (seated_of_unbound seated) due below

end Agree

namespace Coincides

variable {x y : Parse α} {f f' : α → Parse β} {P : α → Reading → Prop}

theorem refl : ρ.Coincides x x u := fun _ _ _ => rfl

theorem symm (h : ρ.Coincides x y u) : ρ.Coincides y x u := fun o depth journal => (h o depth journal).symm

theorem trans {z : Parse α} (first : ρ.Coincides x y u) (second : ρ.Coincides y z u) : ρ.Coincides x z u :=
  fun o depth journal => (first o depth journal).trans (second o depth journal)

/-- Behind a failure there is nothing. -/
theorem failed : ρ.Coincides (Parse.fail >>= f) (Parse.fail >>= f') u := fun _ _ _ => rfl

/-- One after the other: the second ones start from what the first ones give. -/
theorem follow {clear : Prop} {F : Reading → Prop} (first : ρ.Coincides x y u)
    (yields : ρ.Yields clear x u F P) (second : ∀ a t, P a t → ρ.Coincides (f a) (f' a) t) :
    ρ.Coincides (x >>= f) (y >>= f') u := by
  intro o depth journal
  have gives := (yields o depth journal).2.1
  rw [run_bind, run_bind, ← first]
  rcases h : x.run ρ.env o ⟨u, depth, journal⟩ with ⟨_ | a, ⟨t, depth', journal'⟩⟩
  · rfl
  · rw [h] at gives
    exact second a t (gives a rfl) o depth' journal'

theorem bind (first : ρ.Coincides x y u) (takes : ρ.Takes u x u P)
    (second : ∀ a t, ρ.Goes u t → P a t → ρ.Coincides (f a) (f' a) t) :
    ρ.Coincides (x >>= f) (y >>= f') u := by
  have yields : ρ.Yields (ρ.Clear u) x u (fun _ => True) fun a t => ρ.Goes u t ∧ P a t :=
    .of_takes takes id (fun _ _ => trivial) fun _ _ goes holds => ⟨goes, holds⟩
  exact follow first yields fun a t there => second a t there.1 there.2

/-- Behind one that is the same for both. -/
theorem behind (takes : ρ.Takes u x u P)
    (second : ∀ a t, ρ.Goes u t → P a t → ρ.Coincides (f a) (f' a) t) :
    ρ.Coincides (x >>= f) (x >>= f') u :=
  bind refl takes second

/-- What is the same for both may stand behind. -/
theorem before (first : ρ.Coincides x y u) : ρ.Coincides (x >>= f) (y >>= f) u := by
  intro o depth journal
  rw [run_bind, run_bind, first]

theorem attempt (h : ρ.Coincides x y u) : ρ.Coincides (Parse.attempt x) (Parse.attempt y) u := by
  intro o depth journal
  rw [run_attempt, run_attempt, h]

theorem attempt_bind {f f' : Option α → Parse β} (first : ρ.Coincides x y u) (takes : ρ.Takes u x u P)
    (second : ∀ a t, ρ.Goes u t → (∀ b ∈ a, P b t) → ρ.Coincides (f a) (f' a) t) :
    ρ.Coincides (Parse.attempt x >>= f) (Parse.attempt y >>= f') u :=
  bind first.attempt takes.attempt second

/-- One after the other, if the first ones may fail. -/
theorem attempt_follow {clear : Prop} {F : Reading → Prop} {f f' : Option α → Parse β}
    (first : ρ.Coincides x y u) (yields : ρ.Yields clear x u F P)
    (none : ∀ t, F t → ρ.Coincides (f none) (f' none) t)
    (some : ∀ a t, P a t → ρ.Coincides (f (some a)) (f' (some a)) t) :
    ρ.Coincides (Parse.attempt x >>= f) (Parse.attempt y >>= f') u := by
  intro o depth journal
  obtain ⟨lost, gives, -⟩ := yields o depth journal
  rw [run_bind, run_bind, run_attempt, run_attempt, ← first, andThen_some, andThen_some]
  rcases h : x.run ρ.env o ⟨u, depth, journal⟩ with ⟨_ | a, ⟨t, depth', journal'⟩⟩
  · rw [h] at lost
    exact none t (lost rfl) o depth' journal'
  · rw [h] at gives
    exact some a t (gives a rfl) o depth' journal'

/-- One level deeper, unless it is too deep for both. -/
theorem nested (h : ρ.Coincides x y u) : ρ.Coincides (Parse.nested x) (Parse.nested y) u := by
  intro o depth journal
  have deep : (deeper x).run ρ.env o ⟨u, depth, (.nest depth, true) :: journal⟩ =
      (deeper y).run ρ.env o ⟨u, depth, (.nest depth, true) :: journal⟩ := by
    have same := h o (depth + 1) ((.nest depth, true) :: journal)
    simp only [deeper, same]
  rcases answer : o.answer (.nest depth) with _ | _
  · rw [run_nested_refused _ x answer, run_nested_refused _ y answer]
  · rw [run_nested_granted _ x answer, run_nested_granted _ y answer, deep]

/-! ### Asking -/

section asking

variable {x : Parse γ} {f f' : α → Parse β} {g g' : γ → Parse α}

theorem bind_bind_iff : ρ.Coincides ((x >>= g) >>= f) ((x >>= g') >>= f') u ↔
    ρ.Coincides (x >>= fun c => g c >>= f) (x >>= fun c => g' c >>= f') u := by
  rw [bind_assoc, bind_assoc]

theorem pure_bind_iff {a : α} : ρ.Coincides (Pure.pure a >>= f) (Pure.pure a >>= f') u ↔
    ρ.Coincides (f a) (f' a) u := Iff.rfl

theorem token_iff {f f' : Token → Parse β} : ρ.Coincides (token >>= f) (token >>= f') u ↔
    ρ.Coincides (f u.look.token) (f' u.look.token) u := Iff.rfl

theorem location_iff {f f' : Location → Parse β} : ρ.Coincides (location >>= f) (location >>= f') u ↔
    ρ.Coincides (f u.look.location) (f' u.look.location) u := Iff.rfl

theorem offset_iff {f f' : Nat → Parse β} : ρ.Coincides (offset >>= f) (offset >>= f') u ↔
    ρ.Coincides (f u.look.offset) (f' u.look.offset) u := Iff.rfl

theorem look_iff {f f' : Look → Parse β} : ρ.Coincides (look >>= f) (look >>= f') u ↔
    ρ.Coincides (f u.look) (f' u.look) u := Iff.rfl

theorem save_iff {f f' : Snapshot → Parse β} : ρ.Coincides (save >>= f) (save >>= f') u ↔
    ρ.Coincides (f u.save) (f' u.save) u := Iff.rfl

theorem reading_iff {f f' : Reading → Parse β} : ρ.Coincides (reading >>= f) (reading >>= f') u ↔
    ρ.Coincides (f u) (f' u) u := Iff.rfl

theorem noFailures_iff {f f' : Bool → Parse β} : ρ.Coincides (noFailures >>= f) (noFailures >>= f') u ↔
    ρ.Coincides (f u.failures.isEmpty) (f' u.failures.isEmpty) u := Iff.rfl

theorem env_iff {f f' : Env → Parse β} : ρ.Coincides (Parse.env >>= f) (Parse.env >>= f') u ↔
    ρ.Coincides (f ρ.env) (f' ρ.env) u := Iff.rfl

theorem placed_iff {t : Term} {l : Location} {start stop : Nat} {f f' : Term → Parse β} :
    ρ.Coincides (placed t l start stop >>= f) (placed t l start stop >>= f') u ↔
      ρ.Coincides (f (t.placed { l with text := u.look.text start stop }))
        (f' (t.placed { l with text := u.look.text start stop })) u := Iff.rfl

theorem report_iff {l : Location} {problem : Problem} {f f' : Unit → Parse β} :
    ρ.Coincides (Parse.report l problem >>= f) (Parse.report l problem >>= f') u ↔
      ρ.Coincides (f ()) (f' ()) (u.reporting problem l) := Iff.rfl

theorem upToLastStop_iff {l : Location} {f f' : Location → Parse β} :
    ρ.Coincides (upToLastStop l >>= f) (upToLastStop l >>= f') u ↔
      ρ.Coincides (f { l with text := u.look.text l.offset u.look.lastStop })
        (f' { l with text := u.look.text l.offset u.look.lastStop }) u := Iff.rfl

theorem asIdent_iff {f f' : Unit → Parse β} : ρ.Coincides (asIdent >>= f) (asIdent >>= f') u ↔
    ρ.Coincides (f ()) (f' ()) { u with look := { u.look with token := .ident } } := Iff.rfl

theorem isRefKeyword_iff {f f' : Bool → Parse β} :
    ρ.Coincides (isRefKeyword >>= f) (isRefKeyword >>= f') u ↔
      ρ.Coincides (f (ρ.env.allowsInRefs u.look.scanner.keywords u.look.token.name))
        (f' (ρ.env.allowsInRefs u.look.scanner.keywords u.look.token.name)) u := Iff.rfl

theorem advance_iff {b : Bool} {f f' : Unit → Parse β} :
    ρ.Coincides (Parse.advance b >>= f) (Parse.advance b >>= f') u ↔
      ρ.Coincides (f ()) (f' ()) (u.passing ρ.env b) := by
  have run (f : Unit → Parse β) (o : Settings) (depth : Nat) (journal : List (Question × Bool)) :
      (Parse.advance b >>= f).run ρ.env o ⟨u, depth, journal⟩ =
        (f ()).run ρ.env o ⟨u.passing ρ.env b, depth, journal⟩ := by
    rw [run_bind, run_advance, andThen_some]
    rfl
  unfold Coincides
  simp only [run]

theorem scan_iff {f f' : Unit → Parse β} : ρ.Coincides (scan >>= f) (scan >>= f') u ↔
    ρ.Coincides (f ()) (f' ()) (u.passing ρ.env true) := advance_iff

theorem scanBlank_iff {f f' : Unit → Parse β} : ρ.Coincides (scanBlank >>= f) (scanBlank >>= f') u ↔
    ρ.Coincides (f ()) (f' ()) (u.passing ρ.env false) := advance_iff

end asking

/-! ### Returning -/

/-- To come back is to be where the parser has been. -/
theorem restore_leads {f f' : Unit → Parse β} (since : ρ.unbound.Leads w v)
    (h : ρ.Coincides (f ()) (f' ()) (w.resumed v)) :
    ρ.Coincides (restore w.save >>= f) (restore w.save >>= f') v := by
  intro o depth journal
  rw [run_bind, run_bind, run_restore, andThen_some, andThen_some, since.restore_eq]
  exact h o depth journal

theorem restore_bind {f f' : Unit → Parse β} (since : ρ.Goes w v)
    (h : ρ.Coincides (f ()) (f' ()) (w.resumed v)) :
    ρ.Coincides (restore w.save >>= f) (restore w.save >>= f') v :=
  restore_leads since.leads.unbound h

/-- With other words reserved. -/
theorem withKeywords (change : Scanner → Scanner) (h : ρ.Coincides x y (Takes.Under change u)) :
    ρ.Coincides (Parse.withKeywords change x) (Parse.withKeywords change y) u := by
  intro o depth journal
  rw [Takes.run_withKeywords, Takes.run_withKeywords, h]

/-- A reading from an earlier place, from which the parser comes back. -/
theorem probe (since : ρ.Goes w v) (h : ρ.Coincides x y (w.resumed v)) :
    ρ.Coincides (Parse.probe w.save x) (Parse.probe w.save y) v := by
  unfold Parse.probe
  exact reading_iff.2 (restore_bind since h.attempt.before)

end Coincides

end Route

end RegoSyntax
