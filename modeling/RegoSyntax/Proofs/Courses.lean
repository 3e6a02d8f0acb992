/-
# RegoSyntax.Proofs.Courses — what a parser has done when it has gone on.

A parser that reads on from a token comes to a later token; errors and comments are added to those there
were, and the comments are those between the two tokens.  `Course.Later` says this of two readings of one
source, and that what is remembered is as good as what would be read: an entry that came without an error
has a formed term.

`Course.Reads` is the judgement on a parser.  Its result is described where it was read without an error,
and the later reading is vouched for in any case: errors do not stop a parser at once, and whoever goes on
after one may return and have another try.  The rules for it follow the way parsers are put together.
-/
import RegoSyntax.Proofs.Formed
import RegoSyntax.Proofs.Position

namespace RegoSyntax

/-! ## Arrays that grow -/

/-- An array starts with another one. -/
def Grows {α : Type} (a b : Array α) : Prop := ∃ more, b = a ++ more

namespace Grows

variable {α : Type} {a b c : Array α}

/-- Nothing has been added. -/
theorem refl (a : Array α) : Grows a a := ⟨#[], Array.append_empty.symm⟩

/-- What is added twice is added. -/
theorem trans (first : Grows a b) (second : Grows b c) : Grows a c := by
  obtain ⟨x, rfl⟩ := first
  obtain ⟨y, rfl⟩ := second
  exact ⟨x ++ y, Array.append_assoc⟩

/-- One element is added. -/
theorem push (a : Array α) (x : α) : Grows a (a.push x) := ⟨#[x], Array.push_eq_append⟩

/-- What has grown is no smaller. -/
theorem size_le (h : Grows a b) : a.size ≤ b.size := by
  obtain ⟨x, rfl⟩ := h
  rw [Array.size_append]
  exact Nat.le_add_right _ _

/-- What has grown to nothing was nothing. -/
theorem eq_empty (h : Grows a b) (none : b = #[]) : a = #[] := by
  obtain ⟨more, same⟩ := h
  exact (Array.append_eq_empty_iff.1 (same.symm.trans none)).1

/-- What has grown starts with what there was. -/
theorem take (h : Grows a b) : b.take a.size = a := by
  obtain ⟨more, rfl⟩ := h
  simp [Array.take_eq_extract]

/-- What is behind the start is what has been added. -/
theorem extract (h : Grows a b) : b = a ++ b.extract a.size b.size := by
  obtain ⟨more, rfl⟩ := h
  simp

end Grows

/-! ## Parsers in sequence -/

/-- Parsers that run alike are the same. -/
theorem Parse.eq_of_run {α : Type} {x y : Parse α} (h : x.run = y.run) : x = y := by
  cases x
  cases y
  cases h
  rfl

instance : LawfulMonad Parse :=
  .mk' Parse
    (fun x => Parse.eq_of_run (by
      funext env o s
      change Parse.andThen _ (x.run env o s) = _
      rcases x.run env o s with ⟨_ | a, t⟩ <;> rfl))
    (fun _ _ => rfl)
    (fun x f g => Parse.eq_of_run (by
      funext env o s
      change Parse.andThen _ (Parse.andThen _ (x.run env o s)) = Parse.andThen _ (x.run env o s)
      rcases x.run env o s with ⟨_ | a, t⟩ <;> rfl))

/-! ## Courses -/

/-- What readings of one source have in common: the tables of words that may be reserved while it is read,
and the words that may then be variables. -/
structure Course where
  source : String
  env : Env
  table : KeywordTable → Prop
  names : String → Prop
  known : ∀ {t}, table t → t.Known
  extend : ∀ {t}, table t → table (t.extend .future)
  free : ∀ {t word}, table t → t.get? word = none → names word

namespace Course

variable {k : Course}

/-- A point or a bracket follows directly. -/
def Adjoined (c : Cursor) : Prop := c.skip.lexeme.kind = .dot ∨ c.skip.lexeme.kind = .lbrack

/-- A parser has come to the token at a cursor.  What it takes for an identifier may be a variable, or is
one with a reference going on behind it. -/
structure Stands (k : Course) (c : Cursor) (l : Look) : Prop where
  at' : l.At k.source c
  solid : c.lexeme.kind ≠ .comment
  table : k.table l.scanner.keywords
  ident : l.token = .ident → k.names c.word ∨ Adjoined c

/-- A term that was read from a token starts with the word that stands there, if one does. -/
def Leads (c : Cursor) (t : Term) : Prop :=
  c.lexeme.kind = .ident →
    (∃ name, t.lead = some name ∧ (name = c.word ∨ isWildcardName name = true)) ∨
      t.value = .null ∨ ∃ b, t.value = .boolean b

/-- A term that was read from the token at a cursor. -/
structure TermAt (k : Course) (c : Cursor) (t : Term) : Prop where
  whole : t.Whole k.names
  leads : Leads c t

/-- A reading that is remembered, from a token to another one. -/
structure Remembers (k : Course) (c d : Cursor) (e : MemoEntry) : Prop where
  before : k.Stands c e.before
  after : k.Stands d e.after
  ahead : c.offset ≤ d.offset
  met : c.Met k.source k.env.file e.comments.toList d
  term : e.failures = #[] → ∀ t ∈ e.term, k.TermAt c t

/-- A reading in which all is as it should be. -/
structure Fine (k : Course) (r : Reading) : Prop where
  stands : ∃ c, k.Stands c r.look
  memo : ∀ e ∈ r.memo.entries, ∃ c d, k.Remembers c d e

/-- A reading that another one has led to. -/
structure Later (k : Course) (r s : Reading) : Prop where
  fine : k.Fine s
  ahead : r.look.offset ≤ s.look.offset
  failures : Grows r.failures s.failures
  comments : ∃ more, s.comments = r.comments ++ more ∧
    ∀ c d, k.Stands c r.look → k.Stands d s.look → c.Met k.source k.env.file more.toList d

/-- A parser stands at one cursor. -/
theorem Stands.unique {c d : Cursor} {l : Look} (h : k.Stands c l) (h' : k.Stands d l) : c = d :=
  h.at'.unique h'.at'

namespace Later

variable {r s t : Reading}

/-- A reading is later than itself. -/
theorem refl (fine : k.Fine r) : k.Later r r where
  fine := fine
  ahead := Nat.le_refl _
  failures := .refl _
  comments := ⟨#[], Array.append_empty.symm, fun c _ hc hd => hc.unique hd ▸ .nil c⟩

/-- Later than later is later. -/
theorem trans (first : k.Later r s) (second : k.Later s t) : k.Later r t where
  fine := second.fine
  ahead := first.ahead.trans second.ahead
  failures := first.failures.trans second.failures
  comments := by
    obtain ⟨some, added, met⟩ := first.comments
    obtain ⟨more, addedThen, metThen⟩ := second.comments
    obtain ⟨m, stands⟩ := first.fine.stands
    refine ⟨some ++ more, ?_, fun c d hc hd => ?_⟩
    · rw [addedThen, added, Array.append_assoc]
    · rw [Array.toList_append]
      exact (met c m hc stands).trans (metThen m d stands hd)

/-- Where no error has been added up to the end, none was added on the way. -/
theorem clean (h : k.Later s t) {n : Nat} (clean : t.failures.size ≤ n) : s.failures.size ≤ n :=
  h.failures.size_le.trans clean

/-- A reading that differs in nothing that matters: it has come to the same token, with the same errors
and comments. -/
theorem of_same (stands : ∀ c, k.Stands c r.look → k.Stands c s.look)
    (offset : s.look.offset = r.look.offset) (failures : s.failures = r.failures)
    (comments : s.comments = r.comments) (fine : k.Fine r)
    (memo : ∀ e ∈ s.memo.entries, ∃ c d, k.Remembers c d e) : k.Later r s where
  fine := ⟨fine.stands.imp stands, memo⟩
  ahead := offset ▸ Nat.le_refl _
  failures := failures ▸ .refl _
  comments := ⟨#[], by rw [comments, Array.append_empty], fun c d hc hd =>
    (stands c hc).unique hd ▸ .nil c⟩

end Later

/-- A reading that has come back to where another one was. -/
structure Back (k : Course) (r s : Reading) : Prop where
  fine : k.Fine s
  look : s.look = r.look
  failures : s.failures = r.failures
  comments : s.comments = r.comments

/-- Where a reading returns to is later than it. -/
theorem Back.later {r s : Reading} (h : k.Back r s) (fine : k.Fine r) : k.Later r s :=
  .of_same (fun _ stands => h.look ▸ stands) (by rw [h.look]) h.failures h.comments fine h.fine.memo

/-- Back at a place the same place is saved. -/
theorem Back.save {r s : Reading} (h : k.Back r s) : s.save = r.save := by
  rw [Reading.save, h.look, h.failures, h.comments, Reading.save]

/-! ## The judgement -/

/-- A parser leads from `u` to a reading that is later than `r`; and if no error was added to those of `r`,
its result is as described. -/
def Reads {α : Type} (k : Course) (r : Reading) (x : Parse α) (u : Reading)
    (Q : α → Reading → Prop) : Prop :=
  ∀ o depth journal,
    k.Later r (x.run k.env o ⟨u, depth, journal⟩).2.toReading ∧
    ∀ a, (x.run k.env o ⟨u, depth, journal⟩).1 = some a →
      (x.run k.env o ⟨u, depth, journal⟩).2.failures.size ≤ r.failures.size →
        Q a (x.run k.env o ⟨u, depth, journal⟩).2.toReading

namespace Reads

open Parse

variable {α β γ : Type} {r u v : Reading} {P : α → Reading → Prop} {Q : β → Reading → Prop}

/-- What is given at once. -/
theorem pure {a : α} (later : k.Later r u) (holds : u.failures.size ≤ r.failures.size → P a u) :
    k.Reads r (Pure.pure a) u P :=
  fun _ _ _ => ⟨later, fun _ result clean => Option.some.inj result ▸ holds clean⟩

/-- A parser that fails vouches for the reading only. -/
theorem fail (later : k.Later r u) : k.Reads r (Parse.fail : Parse α) u P :=
  fun _ _ _ => ⟨later, fun _ result => by cases result⟩

/-- One parser behind another. -/
theorem bind {x : Parse α} {f : α → Parse β} (before : k.Later r u) (first : k.Reads u x u P)
    (second : ∀ a t, k.Later r t → k.Later u t → (t.failures.size ≤ r.failures.size → P a t) →
      k.Reads r (f a) t Q) : k.Reads r (x >>= f) u Q := fun o depth journal => by
  obtain ⟨later, holds⟩ := first o depth journal
  rw [run_bind]
  rcases h : x.run k.env o ⟨u, depth, journal⟩ with ⟨_ | a, ⟨t, depth', journal'⟩⟩
  · rw [h] at later
    exact ⟨before.trans later, fun _ result => by cases result⟩
  · rw [h] at later holds
    exact second a t (before.trans later) later
      (fun clean => holds a rfl (clean.trans before.failures.size_le)) o depth' journal'

/-- What is said of a result may be less. -/
theorem weaken {Q : α → Reading → Prop} {x : Parse α} (h : k.Reads r x u P)
    (imp : ∀ a t, k.Later r t → t.failures.size ≤ r.failures.size → P a t → Q a t) :
    k.Reads r x u Q := fun o depth journal =>
  ⟨(h o depth journal).1, fun a result clean =>
    imp a _ (h o depth journal).1 clean ((h o depth journal).2 a result clean)⟩

/-- A parser that goes on to the end. -/
theorem tail {x : Parse α} {Q : α → Reading → Prop} (before : k.Later r u) (last : k.Reads u x u P)
    (imp : ∀ a t, k.Later u t → t.failures.size ≤ r.failures.size → P a t → Q a t) :
    k.Reads r x u Q := fun o depth journal => by
  obtain ⟨later, holds⟩ := last o depth journal
  exact ⟨before.trans later, fun a result clean =>
    imp a _ later clean (holds a result (clean.trans before.failures.size_le))⟩

/-- What an attempt gives is what the parser gives. -/
theorem attempt {x : Parse α} (h : k.Reads r x u P) :
    k.Reads r (Parse.attempt x) u fun a t => ∀ b ∈ a, P b t := fun o depth journal => by
  obtain ⟨later, holds⟩ := h o depth journal
  refine ⟨later, fun a result clean b given => ?_⟩
  exact holds b ((Option.some.inj result).trans given) clean

/-- What there is already is given. -/
theorem ofOption {a : Option α} (later : k.Later r u)
    (holds : u.failures.size ≤ r.failures.size → ∀ b ∈ a, P b u) : k.Reads r (ofOption a) u P := by
  cases a with
  | none => exact fail later
  | some b => exact pure later fun clean => holds clean b rfl

/-- A parser is as good as another one that does the same. -/
theorem of_run_eq {x y : Parse α}
    (same : ∀ o depth journal, x.run k.env o ⟨u, depth, journal⟩ = y.run k.env o ⟨u, depth, journal⟩)
    (h : k.Reads r y u P) : k.Reads r x u P := fun o depth journal => by
  rw [same]
  exact h o depth journal

/-! ### Asking -/

section asking

variable {f : α → Parse β} {x : Parse γ} {g : γ → Parse α}

@[simp] theorem pure_bind_iff {a : α} :
    k.Reads r (Pure.pure a >>= f) u Q ↔ k.Reads r (f a) u Q := Iff.rfl

@[simp] theorem bind_bind_iff :
    k.Reads r ((x >>= g) >>= f) u Q ↔ k.Reads r (x >>= fun c => g c >>= f) u Q := by
  rw [bind_assoc]

@[simp] theorem fail_bind_iff :
    k.Reads r (Parse.fail >>= f) u Q ↔ k.Reads r (Parse.fail : Parse β) u Q := Iff.rfl

@[simp] theorem token_iff {f : Token → Parse β} :
    k.Reads r (token >>= f) u Q ↔ k.Reads r (f u.look.token) u Q := Iff.rfl

@[simp] theorem location_iff {f : Location → Parse β} :
    k.Reads r (location >>= f) u Q ↔ k.Reads r (f u.look.location) u Q := Iff.rfl

@[simp] theorem offset_iff {f : Nat → Parse β} :
    k.Reads r (offset >>= f) u Q ↔ k.Reads r (f u.look.offset) u Q := Iff.rfl

@[simp] theorem lastStop_iff {f : Nat → Parse β} :
    k.Reads r (lastStop >>= f) u Q ↔ k.Reads r (f u.look.lastStop) u Q := Iff.rfl

@[simp] theorem text_iff {start stop : Nat} {f : String → Parse β} :
    k.Reads r (text start stop >>= f) u Q ↔ k.Reads r (f (u.look.text start stop)) u Q := Iff.rfl

@[simp] theorem look_iff {f : Look → Parse β} :
    k.Reads r (look >>= f) u Q ↔ k.Reads r (f u.look) u Q := Iff.rfl

@[simp] theorem reading_iff {f : Reading → Parse β} :
    k.Reads r (reading >>= f) u Q ↔ k.Reads r (f u) u Q := Iff.rfl

@[simp] theorem env_iff {f : Env → Parse β} :
    k.Reads r (Parse.env >>= f) u Q ↔ k.Reads r (f k.env) u Q := Iff.rfl

@[simp] theorem save_iff {f : Snapshot → Parse β} :
    k.Reads r (save >>= f) u Q ↔ k.Reads r (f u.save) u Q := Iff.rfl

@[simp] theorem noFailures_iff {f : Bool → Parse β} :
    k.Reads r (noFailures >>= f) u Q ↔ k.Reads r (f u.failures.isEmpty) u Q := Iff.rfl

@[simp] theorem placed_iff {t : Term} {l : Location} {start stop : Nat} {f : Term → Parse β} :
    k.Reads r (placed t l start stop >>= f) u Q ↔
      k.Reads r (f (t.placed { l with text := u.look.text start stop })) u Q := Iff.rfl

@[simp] theorem upToLastStop_iff {l : Location} {f : Location → Parse β} :
    k.Reads r (upToLastStop l >>= f) u Q ↔
      k.Reads r (f { l with text := u.look.text l.offset u.look.lastStop }) u Q := Iff.rfl

@[simp] theorem here_iff {value : Value} {f : Term → Parse β} :
    k.Reads r (here value >>= f) u Q ↔ k.Reads r (f ⟨value, some u.look.location⟩) u Q := Iff.rfl

@[simp] theorem isRefKeyword_iff {f : Bool → Parse β} :
    k.Reads r (isRefKeyword >>= f) u Q ↔
      k.Reads r (f (k.env.allowsInRefs u.look.scanner.keywords u.look.token.name)) u Q := Iff.rfl

@[simp] theorem peekBlank_iff {f : Token → Parse β} :
    k.Reads r (peekBlank >>= f) u Q ↔
      k.Reads r (f (next k.env false u.look).look.token) u Q := by
  have same (o : Settings) (depth : Nat) (journal : List (Question × Bool)) :
      (peekBlank >>= f).run k.env o ⟨u, depth, journal⟩ =
        (f (next k.env false u.look).look.token).run k.env o ⟨u, depth, journal⟩ := by
    rw [run_bind, run_peekBlank, andThen_some]
  exact ⟨of_run_eq fun o depth journal => (same o depth journal).symm, of_run_eq same⟩

/-- Whatever the settings answer. -/
theorem ask {q : Question} {f : Bool → Parse β} (h : ∀ b, k.Reads r (f b) u Q) :
    k.Reads r (Parse.ask q >>= f) u Q := fun o depth _ => h _ o depth _

/-- What has been asked last is the result. -/
theorem placed_self {t : Term} {l : Location} {start stop : Nat} {Q : Term → Reading → Prop}
    (h : k.Reads r (Pure.pure (t.placed { l with text := u.look.text start stop })) u Q) :
    k.Reads r (placed t l start stop) u Q := h

theorem here_self {value : Value} {Q : Term → Reading → Prop}
    (h : k.Reads r (Pure.pure ⟨value, some u.look.location⟩) u Q) :
    k.Reads r (here value) u Q := h

end asking

/-! ### Errors -/

section errors

variable {l : Location} {problem : Problem} {note : Note}

/-- Advice does not move a parser. -/
theorem Stands_hints {c : Cursor} {m : Look} (h : k.Stands c m) (hints : List Hint) :
    k.Stands c { m with hints } :=
  ⟨{ h.at' with }, h.solid, h.table, h.ident⟩

/-- An error is reported, so nothing more can be said of what comes. -/
theorem report (fine : k.Fine u) : k.Reads u (Parse.report l problem) u fun _ _ => False :=
  fun _ _ _ =>
    ⟨{ fine := ⟨fine.stands.imp fun _ h => Stands_hints h [], fine.memo⟩
       ahead := Nat.le_refl _
       failures := .push _ _
       comments := ⟨#[], Array.append_empty.symm, fun _ _ hc hd =>
        (Stands_hints hc []).unique hd ▸ .nil _⟩ },
      fun _ _ clean => by
        rw [run_report, Array.size_push] at clean
        exact Nat.not_succ_le_self _ clean⟩

/-- Behind an error nothing is promised. -/
theorem reportHere (fine : k.Fine u) : k.Reads u (Parse.reportHere problem) u fun _ _ => False := by
  unfold Parse.reportHere
  rw [location_iff]
  exact report fine

/-- Behind an error nothing is promised. -/
theorem unexpected (fine : k.Fine u) : k.Reads u (Parse.unexpected note) u fun _ _ => False := by
  unfold Parse.unexpected
  rw [token_iff]
  split
  · exact reportHere fine
  · exact reportHere fine

/-- An error is reported, and that is all. -/
theorem unexpected_fail {f : Unit → Parse α} (later : k.Later r u)
    (fails : ∀ t, k.Later r t → k.Reads r (f ()) t P) :
    k.Reads r (Parse.unexpected note >>= f) u P :=
  bind later (unexpected later.fine) fun _ t after _ _ => fails t after

/-- An error is reported, and the parser fails. -/
theorem reportHere_fail {f : Unit → Parse α} (later : k.Later r u)
    (fails : ∀ t, k.Later r t → k.Reads r (f ()) t P) :
    k.Reads r (Parse.reportHere problem >>= f) u P :=
  bind later (reportHere later.fine) fun _ t after _ _ => fails t after

end errors

end Reads

/-! ## Going on -/

/-- What is so where going on from one token has led to another one. -/
structure Passes (k : Course) (skipBlanks : Bool) (c d : Cursor) (m : Look) : Prop where
  stands : k.Stands d m
  exact : m.token = d.shown m.scanner.keywords
  blank : skipBlanks = true → d.lexeme.kind ≠ .whitespace
  ahead : c.skip.offset ≤ d.offset
  near : c.rest ≠ [] → c.skip.Significant → d = c.skip

/-- A token that is taken for an identifier, in the sense of a table, is a word that the table does not
have. -/
theorem get?_of_shown {c : Cursor} {keywords : KeywordTable} (ident : c.shown keywords = .ident)
    (known : keywords.Known) : c.lexeme.kind = .ident ∧ keywords.get? c.word = none := by
  have shows := Lexeme.Shows.of_classify c.lexeme known (c.rest.take c.lexeme.size)
  rw [← Cursor.shown, ident] at shows
  obtain ⟨kind, legal⟩ := Lexeme.Shows.word shows (.inl rfl)
  refine ⟨kind, ?_⟩
  rw [Cursor.shown, show c.lexeme.faults = [] from legal, Scanner.classify,
    show c.lexeme.kind = .ident from kind] at ident
  rcases reserved : keywords.get? c.word with _ | word
  · rfl
  · exfalso
    rw [Cursor.word] at reserved
    simp only [List.isEmpty_nil, beq_self_eq_true, if_true, reserved, Option.getD_some] at ident
    subst ident
    rcases KeywordTable.isKeyword_of_mem (known.get? reserved) with word | word <;> cases word

/-- A step passes tokens. -/
theorem passes_of_step {c d : Cursor} {l : Look} {b : Bool} (h : k.Stands c l)
    (step : Parse.Step k.source k.env b c d l (Parse.next k.env b l)) :
    k.Passes b c d (Parse.next k.env b l).look where
  stands :=
    { at' := step.at'
      solid := step.solid
      table := step.keywords ▸ h.table
      ident := fun token => .inl (k.free h.table (step.keywords ▸
        (get?_of_shown (step.exact ▸ token) step.at'.known).2)) }
  exact := step.exact
  blank := step.blank
  ahead := step.ahead
  near filled major := by
    have starts := h.at'.starts
    refine (step.at'.starts.eq_of_offset starts.skip (Nat.le_antisymm ?_ step.ahead))
    refine Nat.le_of_not_lt fun beyond => ?_
    exact step.gap c.skip starts.skip (Cursor.offset_lt_skip filled) beyond major

namespace Reads

open Parse

variable {α β : Type} {r u v w : Reading} {P : α → Reading → Prop} {Q : β → Reading → Prop}

/-- To go on passes tokens. -/
theorem advance (b : Bool) (fine : k.Fine u) :
    k.Reads u (Parse.advance b) u fun _ t =>
      ∀ c, k.Stands c u.look → ∃ d, k.Passes b c d t.look := fun o depth journal => by
  rw [run_advance]
  have passes : ∀ c, k.Stands c u.look → ∃ d, k.Passes b c d (next k.env b u.look).look ∧
      c.skip.Met k.source k.env.file (next k.env b u.look).comments.toList d := fun c hc => by
    obtain ⟨d, step⟩ := next_step k.env b hc.at'
    exact ⟨d, passes_of_step hc step, step.met⟩
  obtain ⟨c, stands⟩ := fine.stands
  obtain ⟨d, pass, met⟩ := passes c stands
  refine ⟨⟨⟨⟨d, pass.stands⟩, fine.memo⟩, ?_, ⟨_, rfl⟩, ⟨_, rfl, fun c' d' hc hd => ?_⟩⟩,
    fun _ _ _ c hc => (passes c hc).imp fun _ h => h.1⟩
  · show u.look.offset ≤ (next k.env b u.look).look.offset
    rw [stands.at'.offset, pass.stands.at'.offset]
    exact c.offset_le_skip.trans pass.ahead
  · rw [hc.unique stands, (show k.Stands d' (next k.env b u.look).look from hd).unique pass.stands]
    exact .pass stands.solid met

/-- To go on passes tokens, blanks among them. -/
theorem scan (fine : k.Fine u) :
    k.Reads u Parse.scan u fun _ t => ∀ c, k.Stands c u.look → ∃ d, k.Passes true c d t.look :=
  advance true fine

/-- To go on passes tokens up to a blank. -/
theorem scanBlank (fine : k.Fine u) :
    k.Reads u Parse.scanBlank u fun _ t => ∀ c, k.Stands c u.look → ∃ d, k.Passes false c d t.look :=
  advance false fine

/-! ### Changes -/

/-- A change of what does not matter. -/
theorem modify {f : Reading → Reading} (same : k.Later u (f u)) :
    k.Reads u (Parse.modify f) u fun _ t => t = f u :=
  fun _ _ _ => ⟨same, fun _ _ _ => rfl⟩

/-- Advice may be left. -/
theorem hint {h : Hint} (fine : k.Fine u) : k.Reads u (Parse.hint h) u fun _ _ => True := by
  unfold Parse.hint modifyLook
  refine (modify ?_).weaken fun _ _ _ _ _ => trivial
  exact .of_same (fun _ stands => Stands_hints stands _) rfl rfl rfl fine fine.memo

/-- A name that is drawn marks a wildcard. -/
theorem freshWildcard {n : Nat} (fine : k.Fine u) :
    k.Reads u (Parse.freshWildcard n) u fun name t => isWildcardName name = true ∧ t.look = u.look :=
  fun _ _ _ =>
    ⟨.of_same (fun _ stands => stands) rfl rfl rfl fine fine.memo, fun name result _ => by
      obtain rfl : wildcardName u.wildcards.size = name := Option.some.inj result
      refine ⟨?_, rfl⟩
      simp [isWildcardName, wildcardName, String.toList_append]⟩

/-- One level deeper nothing is different, unless it is too deep. -/
theorem nested {x : Parse α} (later : k.Later r u) (h : k.Reads r x u P) :
    k.Reads r (Parse.nested x) u P := fun o depth journal => by
  have refused : k.Reads r (do Parse.reportHere .tooDeep; Parse.fail) u P :=
    bind later (reportHere later.fine) fun _ _ since _ _ => fail since
  rcases answer : o.answer (.nest depth) with _ | _
  · rw [run_nested_refused k.env x answer]
    exact refused o depth _
  · rw [run_nested_granted k.env x answer]
    exact h o (depth + 1) _

/-! ### Returning -/

/-- To return is to be where the parser stood before, whatever has been met since. -/
theorem restore {f : Unit → Parse α} (there : k.Fine w) (before : k.Later w v)
    (h : ∀ t, k.Back w t → k.Reads r (f ()) t P) :
    k.Reads r (Parse.restore w.save >>= f) v P := by
  refine h { v with
    look := w.look, failures := v.failures.take w.failures.size
    comments := v.comments.take w.comments.size } ⟨⟨there.stands, before.fine.memo⟩, rfl, ?_, ?_⟩
  · exact before.failures.take
  · obtain ⟨more, added, -⟩ := before.comments
    exact Grows.take ⟨more, added⟩

/-- A parser that is run from where the parser stood before leaves nothing but its answer. -/
theorem probe {x : Parse α} (there : k.Fine w) (before : k.Later w v)
    (h : ∀ t, k.Back w t → k.Reads t x t P) :
    k.Reads v (Parse.probe w.save x) v fun _ t => k.Back v t := by
  unfold Parse.probe
  rw [reading_iff]
  refine restore there before fun t back o depth journal => ?_
  obtain ⟨later, -⟩ := h t back o depth journal
  rcases run : x.run k.env o ⟨t, depth, journal⟩ with ⟨a, ⟨t', depth', journal'⟩⟩
  rw [run] at later
  -- what was reported since the place of the probe is put back, and nothing of the probe is left
  have failures : t'.failures.take w.failures.size ++
      v.failures.extract w.failures.size v.failures.size = v.failures := by
    have grows : Grows w.failures t'.failures := back.failures ▸ later.failures
    rw [grows.take]
    exact before.failures.extract.symm
  have comments : t'.comments.take w.comments.size ++
      v.comments.extract w.comments.size v.comments.size = v.comments := by
    obtain ⟨met, added, -⟩ := later.comments
    obtain ⟨passed, collected, -⟩ := before.comments
    rw [Grows.take ⟨met, back.comments ▸ added⟩]
    exact (Grows.extract ⟨passed, collected⟩).symm
  have again : k.Back v { t' with
      look := v.look
      failures := t'.failures.take w.failures.size ++
        v.failures.extract w.failures.size v.failures.size
      comments := t'.comments.take w.comments.size ++
        v.comments.extract w.comments.size v.comments.size } :=
    ⟨⟨before.fine.stands, later.fine.memo⟩, rfl, failures, comments⟩
  rw [run_bind, run_attempt, run, andThen_some]
  exact ⟨again.later before.fine, fun _ _ _ => again⟩

/-! ### Reserved words -/

/-- A look with other words reserved. -/
theorem Stands_keywords {c : Cursor} {l : Look} (h : k.Stands c l) {t : KeywordTable}
    (table : k.table t) :
    k.Stands c { l with scanner := { l.scanner with keywords := t } } :=
  ⟨{ h.at' with known := k.known table }, h.solid, table, h.ident⟩

/-- What is read with other words reserved is not remembered, and the words are what they were. -/
theorem withKeywords {change : Scanner → Scanner} {x : Parse α} {P : α → Prop} {t : KeywordTable}
    (table : k.table t)
    (changed : change u.look.scanner = { u.look.scanner with keywords := t }) (fine : k.Fine u)
    (h : ∀ v, k.Fine v → v.look.offset = u.look.offset →
      (∀ c, k.Stands c u.look → k.Stands c v.look) → k.Reads v x v fun a _ => P a) :
    k.Reads u (Parse.withKeywords change x) u fun a _ => P a := by
  unfold Parse.withKeywords
  rw [reading_iff]
  intro o depth journal
  -- nothing is remembered inside, so only the table has to be accounted for
  have own := (fine.stands.choose_spec).table
  have opened := h
    { u with memo := .empty, look := { u.look with scanner := change u.look.scanner } }
    ⟨fine.stands.imp fun _ stands => changed ▸ Stands_keywords stands table,
      fun _ h => absurd h List.not_mem_nil⟩ rfl
    (fun _ stands => changed ▸ Stands_keywords stands table) o depth journal
  rw [run_bind, run_modify, andThen_some, run_bind, run_attempt, andThen_some, run_bind, run_modify,
    andThen_some]
  rcases run : x.run k.env o ⟨{ u with
    memo := .empty, look := { u.look with scanner := change u.look.scanner } }, depth, journal⟩ with
    ⟨a, ⟨v, depth', journal'⟩⟩
  rw [run] at opened
  obtain ⟨later, holds⟩ := opened
  -- the old words are back, and the cursors on the way are the same under either table
  have closed : k.Later u { v with
      memo := u.memo
      look := { v.look with scanner := { v.look.scanner with
        keywords := u.look.scanner.keywords } } } :=
    { fine := ⟨later.fine.stands.imp fun _ stands => Stands_keywords stands own, fine.memo⟩
      ahead := later.ahead
      failures := later.failures
      comments := by
        obtain ⟨more, added, met⟩ := later.comments
        refine ⟨more, added, fun c d hc hd => met c d ?_ ?_⟩
        · exact changed ▸ Stands_keywords hc table
        · obtain ⟨e, he⟩ := later.fine.stands
          exact (Stands_keywords he own).unique hd ▸ he }
  cases a with
  | none => exact ⟨closed, fun _ result => by cases result⟩
  | some a =>
      refine ⟨closed, fun b result clean => ?_⟩
      obtain rfl : a = b := Option.some.inj result
      exact holds a rfl clean

/-- What is read with all future words reserved. -/
theorem withFutureKeywords {x : Parse α} {P : α → Prop} (fine : k.Fine u)
    (h : ∀ v, k.Fine v → k.Reads v x v fun a _ => P a) :
    k.Reads u (Parse.withFutureKeywords x) u fun a _ => P a := by
  obtain ⟨c, stands⟩ := fine.stands
  exact withKeywords (k.extend stands.table) rfl fine fun v there _ _ => h v there

/-! ### Words as identifiers -/

/-- A reference goes on right behind a token, if it goes on at all. -/
theorem adjoined_of_peek {source : String} {env : Env} {c : Cursor} {l : Look} (at' : l.At source c)
    (continues : continuesRef (next env false l).look.token = true) : Adjoined c := by
  obtain ⟨d, step⟩ := next_step env false at'
  have kind : d.lexeme.kind = .dot ∨ d.lexeme.kind = .lbrack := by
    rcases Bool.or_eq_true _ _ ▸ continues with dot | lbrack
    · exact .inl ((step.at'.shows.plain_iff rfl).1 (beq_iff_eq.1 dot))
    · exact .inr ((step.at'.shows.plain_iff rfl).1 (beq_iff_eq.1 lbrack))
  rcases step.tight rfl with rfl | blank | ended
  · exact kind
  · rcases kind with other | other <;> rw [blank] at other <;> cases other
  · rcases kind with other | other <;> rw [ended] at other <;> cases other

/-- A word that may stand for an identifier is one from here on. -/
theorem asIdent (fine : k.Fine u)
    (allowed : k.env.allowsInRefs u.look.scanner.keywords u.look.token.name = true)
    (ident : ∀ c, k.Stands c u.look → k.names c.word ∨ Adjoined c) :
    k.Reads u Parse.asIdent u fun _ t => t = { u with look := { u.look with token := .ident } } := by
  unfold Parse.asIdent modifyLook
  exact modify (.of_same (fun c stands => ⟨stands.at'.asIdent allowed, stands.solid, stands.table,
    fun _ => ident c stands⟩) rfl rfl rfl fine fine.memo)

/-- A keyword that a reference goes on behind is read as an identifier. -/
theorem startsRefWithKeyword (fine : k.Fine u) :
    k.Reads u Parse.startsRefWithKeyword u fun b t =>
      (b = false ∧ t = u) ∨ (b = true ∧ t = { u with look := { u.look with token := .ident } }) := by
  have stays : k.Reads u (Pure.pure false) u fun b t => (b = false ∧ t = u) ∨
      (b = true ∧ t = { u with look := { u.look with token := .ident } }) :=
    pure (.refl fine) fun _ => .inl ⟨rfl, rfl⟩
  unfold Parse.startsRefWithKeyword
  rw [isRefKeyword_iff]
  split
  · next allowed =>
      rw [peekBlank_iff]
      split
      · next continues =>
          exact bind (.refl fine) (asIdent fine allowed fun _ stands =>
            .inr (adjoined_of_peek stands.at' continues)) fun _ t after _ same =>
              pure after fun clean => .inr ⟨rfl, same clean⟩
      · exact stays
  · exact stays

end Reads

end Course

end RegoSyntax
