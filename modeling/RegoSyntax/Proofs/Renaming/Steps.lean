/-
# RegoSyntax.Proofs.Renaming.Steps — two parsers in step.

`Twins.InStep` is the judgement on two parsers: from states that meet, either both succeed, with results
that are related, or both fail, and the states they leave meet again, with a pairing that has grown.  The
rules for it follow the way parsers are put together.  A result is related by the pairing there is when it
is read; whoever uses it later carries it over to the pairing there is by then.
-/
import RegoSyntax.Proofs.Renaming.Pairing

namespace RegoSyntax

open Parse

namespace Twins

variable {α β γ δ : Type}

/-- What two parsers left behind that started with a pairing. -/
inductive Outcome (τ : Twins) (F : Floor) (N : Pairing) (R : Pairing → α → β → Prop) :
    Option α × ParseState → Option β × ParseState → Prop where
  | gives {M : Pairing} {t t' : ParseState} {a : α} {b : β} : N ≤ M → τ.Meets F M t t' → R M a b →
      Outcome τ F N R (some a, t) (some b, t')
  | fails {M : Pairing} {t t' : ParseState} : N ≤ M → τ.Meets F M t t' →
      Outcome τ F N R (none, t) (none, t')

/-- Two parsers are in step. -/
def InStep (τ : Twins) (F : Floor) (N : Pairing) (x : Parse α) (x' : Parse β)
    (R : Pairing → α → β → Prop) : Prop :=
  ∀ s s', τ.Meets F N s s' → τ.Outcome F N R (x.run τ.env τ.settings s) (x'.run τ.env' τ.settings s')

section

variable {τ : Twins} {F G : Floor} {N M : Pairing} {s s' t t' : ParseState} {p p' : Snapshot}
  {R : Pairing → α → β → Prop} {Q : Pairing → γ → δ → Prop} {x : Parse α} {x' : Parse β}
  {f : α → Parse γ} {f' : β → Parse δ}

/-! ## Results

An outcome holds the states of both sides and how they are related now; more wildcards may be paired by
then. -/

namespace Outcome

variable {r : Option α × ParseState} {r' : Option β × ParseState}

/-- What happened later happened since. -/
theorem since (le : N ≤ M) (o : τ.Outcome F M R r r') : τ.Outcome F N R r r' := by
  cases o with
  | gives le' meets a => exact .gives (le.trans le') meets a
  | fails le' meets => exact .fails (le.trans le') meets

/-- To go on where both sides succeeded. -/
theorem andThen (o : τ.Outcome F N R r r')
    (rest : ∀ M a b, N ≤ M → R M a b → τ.InStep F M (f a) (f' b) Q) :
    τ.Outcome F N Q (Parse.andThen (fun a => (f a).run τ.env τ.settings) r)
      (Parse.andThen (fun b => (f' b).run τ.env' τ.settings) r') := by
  cases o with
  | gives le meets a => exact (rest _ _ _ le a _ _ meets).since le
  | fails le meets => exact .fails le meets

end Outcome

/-! ## Parsers in sequence

The rules for putting parsers together, each with the relation between results as an index. -/

namespace InStep

theorem pure {a : α} {b : β} (h : R N a b) : τ.InStep F N (pure a) (pure b) R :=
  fun _ _ meets => .gives le_rfl meets h

theorem fail : τ.InStep F N (fail : Parse α) (fail : Parse β) R :=
  fun _ _ meets => .fails le_rfl meets

theorem bind (first : τ.InStep F N x x' R)
    (rest : ∀ M a b, N ≤ M → R M a b → τ.InStep F M (f a) (f' b) Q) :
    τ.InStep F N (x >>= f) (x' >>= f') Q :=
  fun s s' meets => (first s s' meets).andThen rest

/-- A parser whose failure is not the end. -/
theorem trying {f : Option α → Parse γ} {f' : Option β → Parse δ} (first : τ.InStep F N x x' R)
    (gives : ∀ M a b, N ≤ M → R M a b → τ.InStep F M (f (some a)) (f' (some b)) Q)
    (fails : ∀ M, N ≤ M → τ.InStep F M (f none) (f' none) Q) :
    τ.InStep F N (Parse.attempt x >>= f) (Parse.attempt x' >>= f') Q := fun s s' meets => by
  have o := first s s' meets
  rw [run_bind, run_bind, run_attempt, run_attempt]
  generalize x.run τ.env τ.settings s = r at o ⊢
  generalize x'.run τ.env' τ.settings s' = r' at o ⊢
  cases o with
  | gives le meets a => exact (gives _ _ _ le a _ _ meets).since le
  | fails le meets => exact (fails _ le _ _ meets).since le

theorem attempt (first : τ.InStep F N x x' R) :
    τ.InStep F N (Parse.attempt x) (Parse.attempt x') fun M => Option.Rel (R M) :=
  fun s s' meets => by
    have o := first s s' meets
    rw [run_attempt, run_attempt]
    generalize x.run τ.env τ.settings s = r at o ⊢
    generalize x'.run τ.env' τ.settings s' = r' at o ⊢
    cases o with
    | gives le meets a => exact .gives le meets (.some a)
    | fails le meets => exact .gives le meets .none

theorem ofOption {a : Option α} {b : Option β} (h : Option.Rel (R N) a b) :
    τ.InStep F N (Parse.ofOption a) (Parse.ofOption b) R := by
  cases h with
  | some h => exact pure h
  | none => exact fail

/-- The last parser of a sequence. -/
theorem last {P : Pairing → α → β → Prop}
    (h : τ.InStep F N (x >>= Pure.pure) (x' >>= Pure.pure) P) : τ.InStep F N x x' P := by
  rwa [bind_pure, bind_pure] at h

/-- A choice that both sides make alike. -/
theorem ite {c : Prop} [Decidable c] {y : Parse α} {y' : Parse β}
    (yes : τ.InStep F N x x' R) (no : τ.InStep F N y y' R) :
    τ.InStep F N (if c then x else y) (if c then x' else y') R := by
  split
  · exact yes
  · exact no

/-! ## What is asked

All that is seen of a token is the same on both sides, so a parser that asks for it goes on alike. -/

/-- The task differs in the looking for words only. -/
theorem env {f : Env → Parse γ} {f' : Env → Parse δ} (rest : τ.InStep F N (f τ.env) (f' τ.env') Q) :
    τ.InStep F N (Parse.env >>= f) (Parse.env >>= f') Q := rest

/-- What is asked of the token. -/
theorem look {f : Look → Parse γ} {g : Look → Parse δ}
    (rest : ∀ l hints, τ.InStep F N (f l) (g { l with hints }) Q) :
    τ.InStep F N (Parse.look >>= f) (Parse.look >>= g) Q := fun s s' meets => by
  have step := rest s.look s'.look.hints s s' meets
  obtain ⟨hints, same⟩ := meets.look
  rw [run_bind, run_bind, run_look, run_look, andThen_some, andThen_some]
  rw [same] at step ⊢
  exact step

theorem token {f : Token → Parse γ} {g : Token → Parse δ}
    (rest : ∀ kind, τ.InStep F N (f kind) (g kind) Q) :
    τ.InStep F N (Parse.token >>= f) (Parse.token >>= g) Q :=
  look (f := fun l => f l.token) (g := fun l => g l.token) fun l _ => rest l.token

/-- What follows may depend on the token the parsers have come to. -/
theorem token_at {f : Token → Parse γ} {f' : Token → Parse δ}
    (rest : ∀ s s', τ.Meets F N s s' → τ.Outcome F N Q ((f s.look.token).run τ.env τ.settings s)
      ((f' s.look.token).run τ.env' τ.settings s')) :
    τ.InStep F N (Parse.token >>= f) (Parse.token >>= f') Q := fun s s' meets => by
  obtain ⟨_, same⟩ := meets.look
  rw [run_bind, run_bind, run_token, run_token, andThen_some, andThen_some,
    show s'.look.token = s.look.token by rw [same]]
  exact rest s s' meets

theorem location {f : Location → Parse γ} {f' : Location → Parse δ}
    (rest : ∀ l, τ.InStep F N (f l) (f' l) Q) :
    τ.InStep F N (Parse.location >>= f) (Parse.location >>= f') Q :=
  look (f := fun l => f l.location) (g := fun l => f' l.location) fun l _ => rest l.location

theorem offset {f : Nat → Parse γ} {f' : Nat → Parse δ} (rest : ∀ n, τ.InStep F N (f n) (f' n) Q) :
    τ.InStep F N (Parse.offset >>= f) (Parse.offset >>= f') Q :=
  look (f := fun l => f l.offset) (g := fun l => f' l.offset) fun l _ => rest l.offset

theorem lastStop {f : Nat → Parse γ} {f' : Nat → Parse δ} (rest : ∀ n, τ.InStep F N (f n) (f' n) Q) :
    τ.InStep F N (Parse.lastStop >>= f) (Parse.lastStop >>= f') Q :=
  look (f := fun l => f l.lastStop) (g := fun l => f' l.lastStop) fun l _ => rest l.lastStop

theorem text {start stop : Nat} {f : String → Parse γ} {f' : String → Parse δ}
    (rest : ∀ text, τ.InStep F N (f text) (f' text) Q) :
    τ.InStep F N (Parse.text start stop >>= f) (Parse.text start stop >>= f') Q :=
  look (f := fun l => f (l.text start stop)) (g := fun l => f' (l.text start stop)) fun l _ =>
    rest (l.text start stop)

theorem noFailures {f : Bool → Parse γ} {f' : Bool → Parse δ}
    (rest : ∀ clean, τ.InStep F N (f clean) (f' clean) Q) :
    τ.InStep F N (Parse.noFailures >>= f) (Parse.noFailures >>= f') Q := fun s s' meets => by
  rw [run_bind, run_bind, run_noFailures, run_noFailures, meets.failures.isEmpty]
  exact rest _ s s' meets

/-- A place that ends at the last token. -/
theorem upToLastStop {l : Location} {f : Location → Parse γ} {f' : Location → Parse δ}
    (rest : ∀ l, τ.InStep F N (f l) (f' l) Q) :
    τ.InStep F N (Parse.upToLastStop l >>= f) (Parse.upToLastStop l >>= f') Q := by
  unfold Parse.upToLastStop
  simp only [bind_assoc, pure_bind]
  exact lastStop fun _ => text fun _ => rest _

/-- Terms with the text between two offsets. -/
theorem placed {t u : Term} (alike : t.Alike N.pairs u) {l : Location} {start stop : Nat} :
    τ.InStep F N (Parse.placed t l start stop) (Parse.placed u l start stop)
      fun M => Term.Alike M.pairs :=
  text fun _ => pure (alike.placed _)

/-- A value at the current place. -/
theorem here {v w : Value} (alike : v.Alike N.pairs w) :
    τ.InStep F N (Parse.here v) (Parse.here w) fun M => Term.Alike M.pairs :=
  location fun _ => pure (.mk alike)

/-! ## What is reported

What is reported quotes texts, so the problems have to be alike and not equal. -/

theorem report {l : Location} {p q : Problem} (alike : p.Alike N.pairs q) {f : Unit → Parse γ}
    {f' : Unit → Parse δ} (rest : τ.InStep F N (f ()) (f' ()) Q) :
    τ.InStep F N (Parse.report l p >>= f) (Parse.report l q >>= f') Q := fun s s' meets => by
  rw [run_bind, run_bind, run_report, run_report]
  exact rest _ _ { meets with
    look := meets.look.hinted [] []
    ok := meets.ok.hints []
    failures := meets.failures.push (.mk alike)
    above := meets.above.trans (.push _ _)
    above' := meets.above'.trans (.push _ _) }

theorem reportHere {p q : Problem} (alike : p.Alike N.pairs q) {f : Unit → Parse γ}
    {f' : Unit → Parse δ} (rest : τ.InStep F N (f ()) (f' ()) Q) :
    τ.InStep F N (Parse.reportHere p >>= f) (Parse.reportHere q >>= f') Q := by
  unfold Parse.reportHere
  simp only [bind_assoc]
  exact location fun _ => report alike rest

theorem unexpected {m n : Note} (alike : m.Alike N.pairs n) {f : Unit → Parse γ}
    {f' : Unit → Parse δ} (rest : τ.InStep F N (f ()) (f' ()) Q) :
    τ.InStep F N (Parse.unexpected m >>= f) (Parse.unexpected n >>= f') Q := by
  unfold Parse.unexpected
  simp only [bind_assoc]
  refine token fun kind => ?_
  split
  · exact reportHere (.same _) rest
  · exact reportHere (.unexpectedToken _ alike) rest

/-- The end with an error at the current token. -/
theorem reject {m n : Note} (alike : m.Alike N.pairs n) :
    τ.InStep F N (Parse.unexpected m >>= fun _ => (Parse.fail : Parse α))
      (Parse.unexpected n >>= fun _ => (Parse.fail : Parse β)) R :=
  unexpected alike fail

theorem rejectHere {p q : Problem} (alike : p.Alike N.pairs q) :
    τ.InStep F N (Parse.reportHere p >>= fun _ => (Parse.fail : Parse α))
      (Parse.reportHere q >>= fun _ => (Parse.fail : Parse β)) R :=
  reportHere alike fail

end InStep

end

end Twins

end RegoSyntax
