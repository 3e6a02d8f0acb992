/-
# RegoSyntax.Proofs.Dialects.Early — readings in front of all words that are reserved.

In front of the clauses that reserve words, the current dialect reserves more than the older one, and readings are not
abreast: each of them looks up a word in its own table, and may take it for something else (`Dialects.Early`).  Even
so they stand at one token, and what is no word of the future they take for the same.

There only one direction is of interest: what the older reading gives, the newer one gives as well
(`Dialects.Trails`).  Nothing is said of where the older one gives nothing, so a token that only the newer one takes
for a keyword matters only where the older one goes on from it.  As with readings that are abreast, the rules here are
one for each way to put parsers together.
-/
import RegoSyntax.Proofs.Dialects.Imports

namespace RegoSyntax

open Parse

namespace Dialects

variable {δ : Dialects} {n : Nat} {s s' t t' : ParseState} {g : Grammar} {α β : Type}

/-! ## Early readings

The two readings differ in the tokens that the newer one takes for keywords.  Everything else is the same,
and neither of them has anything remembered that the other has not. -/

/-- Both readings have come to one token and have met the same, and neither remembers anything from there on.  The
newer one has the words of the future reserved in addition.  They take the token for the same, or each of them has
looked it up in its own table. -/
structure Early (δ : Dialects) (s s' : ParseState) : Prop extends Even s s' where
  seen : ∃ c, s.look.Beside δ.source c s'.look ∧ (s'.look.token = s.look.token ∨
    s.look.token = c.shown s.look.scanner.keywords ∧ s'.look.token = c.shown s'.look.scanner.keywords)
  tables : s'.look.scanner.keywords = s.look.scanner.keywords.extend .future
  backed : s.look.Backed
  fresh : ∀ o, s.look.offset ≤ o → s.memo.lookup o = none ∧ s'.memo.lookup o = none

namespace Early

theorem beside (h : δ.Early s s') : ∃ c, s.look.Beside δ.source c s'.look := h.seen.imp fun _ seen => seen.1

theorem ok (h : δ.Early s s') : s.look.Ok δ.source := by
  obtain ⟨c, beside⟩ := h.beside
  exact ⟨c, beside.left, beside.solid⟩

/-- A kind that no word has is seen on both sides. -/
theorem plain (h : δ.Early s s') {p : Token} (plain : p.isPlain) : s'.look.token = p ↔ s.look.token = p := by
  obtain ⟨c, beside⟩ := h.beside
  exact beside.plain plain

/-- A word of the future that is not reserved is all that the readings could take for something else. -/
theorem token_eq (h : δ.Early s s') (held : ∀ c, s.look.At δ.source c → c.lexeme.kind = .ident →
    KeywordTable.future.contains c.word = true → s.look.scanner.keywords.contains c.word = true) :
    s'.look.token = s.look.token := by
  obtain ⟨c, beside, same | ⟨shown, shown'⟩⟩ := h.seen
  · exact same
  · rw [shown, shown', h.tables, Cursor.shown_extend beside.left.known (held c beside.left)]

/-- What they take for something else is a word of the future, which the newer reading takes for a keyword. -/
theorem token_cases (h : δ.Early s s') : s'.look.token = s.look.token ∨
    KeywordTable.future.contains s'.look.token.name = true := by
  obtain ⟨c, beside, same | ⟨shown, shown'⟩⟩ := h.seen
  · exact .inl same
  by_cases held : c.lexeme.kind = .ident → KeywordTable.future.contains c.word = true →
      s.look.scanner.keywords.contains c.word = true
  · exact .inl (by rw [shown, shown', h.tables, Cursor.shown_extend beside.left.known held])
  · obtain ⟨word, future, -⟩ : c.lexeme.kind = .ident ∧ KeywordTable.future.contains c.word = true ∧
        ¬ s.look.scanner.keywords.contains c.word = true := by simpa only [Classical.not_imp] using held
    obtain ⟨kind, found⟩ := Option.isSome_iff_exists.1 future
    have token : s'.look.token = kind := by
      rw [shown', Cursor.shown_of_ident word, h.tables, KeywordTable.get?_extend, found]
      rfl
    rw [token, ← KeywordTable.name_of_mem (KeywordTable.known_future.get? found)]
    exact .inr future

/-- What is or may stand for a name in the older reading is or may stand for one in the newer one. -/
theorem allowed (h : δ.Early s s') (name : s.look.token = .ident ∨
    δ.older.allowsInRefs s.look.scanner.keywords s.look.token.name = true) :
    s'.look.token = .ident ∨ δ.newer.allowsInRefs s'.look.scanner.keywords s'.look.token.name = true := by
  rcases h.token_cases with same | future
  · rw [same, h.tables]
    refine name.imp_right fun allowed => ?_
    simp only [Env.allowsInRefs, δ.refs, δ.refs', Version.reserves, δ.version, δ.version', Bool.true_and,
      Bool.or_eq_true, KeywordTable.contains_extend_iff] at allowed ⊢
    rcases allowed with (base | current) | held
    · exact .inl (.inl base)
    · cases current
    · exact .inr (.inr held)
  · rw [h.tables]
    exact .inr (by simp only [Env.allowsInRefs, δ.refs', Bool.true_and, KeywordTable.contains_extend_iff, future,
      Bool.true_or, Bool.or_true])

/-- Both readings go on to the next token, and each looks it up in its own table. -/
theorem advance (h : δ.Early s s') (b : Bool) :
    δ.Early (s.followedBy (Parse.next δ.older b s.look)) (s'.followedBy (Parse.next δ.newer b s'.look)) ∧
      (s.look.token ≠ .eof → s.look.offset < (Parse.next δ.older b s.look).look.offset) := by
  obtain ⟨c, beside⟩ := h.beside
  obtain ⟨d, there, step, step', failures, comments⟩ := beside.next δ.file b
  obtain ⟨-, ahead, more⟩ := Route.ok_next (ρ := δ.route) h.ok b
  refine ⟨{ h with
    failures := congrArg₂ (· ++ ·) h.failures failures
    comments := congrArg₂ (· ++ ·) h.comments comments
    seen := ⟨d, there, .inr ⟨step.exact, step'.exact⟩⟩
    tables := step'.keywords.trans (h.tables.trans (congrArg (KeywordTable.extend · .future) step.keywords.symm))
    backed := .of_shown step.at' step.exact
    fresh := fun o behind => h.fresh o (ahead.trans behind) }, more⟩

/-- On the way of the older reading this is one token. -/
theorem onward (h : δ.Early s s') (seated : δ.route.Seated s.toReading) (b : Bool) :
    δ.Early (s.followedBy (Parse.next δ.older b s.look)) (s'.followedBy (Parse.next δ.newer b s'.look)) ∧
      δ.route.Seated (s.followedBy (Parse.next δ.older b s.look)).toReading ∧
      s.look.offset ≤ (s.followedBy (Parse.next δ.older b s.look)).look.offset :=
  ⟨(h.advance b).1, seated.passing (ρ := δ.route) b, Route.le_passing (ρ := δ.route) seated b⟩

end Early

/-! ## One after the other

What is said of two parsers is that the second gives what the first gives, and then a relation holds of
what is behind.  Where the older reading gives nothing, nothing is said. -/

/-- Where the older reading gives something and ends as told, the newer one gives the same, and the readings are
related behind it. -/
def Trails (δ : Dialects) (ends : α → Look → Prop) (x x' : Parse α) (s s' : ParseState)
    (behind : α → ParseState → ParseState → Prop) : Prop :=
  ∀ a t, x.run δ.older δ.settings s = (some a, t) → ends a t.look →
    ∃ t', x'.run δ.newer δ.settings s' = (some a, t') ∧ behind a t t'

/-- A relation between early readings that tells of nothing else but of what is seen. -/
structure Sighted (δ : Dialects) (B : ParseState → ParseState → Prop) : Prop where
  early : ∀ {s s'}, B s s' → δ.Early s s'
  sight : ∀ {s s' t t'}, B s s' → δ.Early t t' → t.look = s.look → t'.look = s'.look → B t t'

theorem Early.sighted : δ.Sighted δ.Early := ⟨id, fun _ early _ _ => early⟩

namespace Trails

variable {ends : α → Look → Prop} {after : β → Look → Prop} {x x' : Parse α} {f f' : α → Parse β}
  {P : α → ParseState → ParseState → Prop} {Q : β → ParseState → ParseState → Prop}

theorem pure {a : α} (holds : ends a s.look → P a s s') : δ.Trails ends (Pure.pure a) (Pure.pure a) s s' P :=
  fun _ _ run ended => by
  cases run
  exact ⟨s', rfl, holds ended⟩

/-- Where the older reading gives nothing, there is nothing to say. -/
theorem of_fails (fails : (x.run δ.older δ.settings s).1 = none) : δ.Trails ends x x' s s' P := fun a t run => by
  rw [run] at fails
  cases fails

theorem failing {x : Parse α} {y' : Parse β} {ends : β → Look → Prop} :
    δ.Trails ends (x >>= fun _ => Parse.fail) y' s s' Q :=
  of_fails (run_bind_fails fun _ _ => rfl)

/-- One after the other, if it is known from the end of the second one where the first one ended. -/
theorem bind (first : δ.Trails ends x x' s s' P)
    (back : ∀ a t b u, x.run δ.older δ.settings s = (some a, t) → (f a).run δ.older δ.settings t = (some b, u) →
      after b u.look → ends a t.look)
    (second : ∀ a t t', x.run δ.older δ.settings s = (some a, t) → P a t t' → δ.Trails after (f a) (f' a) t t' Q) :
    δ.Trails after (x >>= f) (x' >>= f') s s' Q := fun b u run holds => by
  rw [run_bind] at run
  rcases ran : x.run δ.older δ.settings s with ⟨_ | a, t⟩ <;> rw [ran] at run
  · cases run
  · obtain ⟨t', ran', early⟩ := first a t ran (back a t b u ran run holds)
    rw [run_bind, ran']
    exact second a t t' ran early b u run holds

/-- One after the other, whatever the first one ends with. -/
theorem next (first : δ.Trails (fun _ _ => True) x x' s s' P)
    (second : ∀ a t t', x.run δ.older δ.settings s = (some a, t) → P a t t' → δ.Trails after (f a) (f' a) t t' Q) :
    δ.Trails after (x >>= f) (x' >>= f') s s' Q := first.bind (fun _ _ _ _ _ _ _ => trivial) second

/-- One level deeper, if it is not too deep. -/
theorem nested {B : ParseState → ParseState → Prop} (sighted : δ.Sighted B) (early : δ.Early s s')
    (h : δ.Trails ends x x' s.entered s'.entered fun _ => B) :
    δ.Trails ends (Parse.nested x) (Parse.nested x') s s' fun _ => B := fun a t run holds => by
  rw [run_nested_eq] at run ⊢
  rw [early.depth]
  split at run
  · obtain ⟨given, rfl⟩ := Prod.mk.inj run
    obtain ⟨u', run', there⟩ := h a _ (Prod.ext given rfl) holds
    rw [run']
    exact ⟨_, rfl, sighted.sight there { sighted.early there with depth := rfl } rfl rfl⟩
  · cases run

/-- A term of which neither reading remembers anything is read and remembered. -/
theorem recallingOr {ends : Term → Look → Prop} {x x' : Parse Term} {B : ParseState → ParseState → Prop}
    (sighted : δ.Sighted B) (early : δ.Early s s')
    (ahead : ∀ j a t, x.run δ.older δ.settings { s with journal := j } = (some a, t) → s.look.offset < t.look.offset)
    (h : ∀ j j', δ.Trails ends x x' { s with journal := j } { s' with journal := j' } fun _ => B) :
    δ.Trails ends (Parse.recallingOr x) (Parse.recallingOr x') s s' fun _ => B := fun a t run holds => by
  obtain ⟨c, beside⟩ := early.beside
  obtain ⟨none, none'⟩ := early.fresh s.look.offset (Nat.le_refl _)
  obtain ⟨j, left⟩ := run_remembered δ.older δ.recalls s
  obtain ⟨j', right⟩ := run_remembered δ.newer δ.recalls s'
  unfold Parse.recallingOr at run ⊢
  rw [run_bind, left, none, andThen_some] at run
  rw [run_bind, right, beside.offset, none', andThen_some]
  have read := h j j'
  rw [run_bind, run_save, andThen_some, run_bind, run_attempt, andThen_some] at run
  rcases ran : x.run δ.older δ.settings { s with journal := j } with ⟨_ | b, u⟩ <;> rw [ran] at run
  · cases run
  · obtain ⟨given, rfl⟩ := Prod.mk.inj run
    obtain rfl := Option.some.inj given
    obtain ⟨u', ran', there⟩ := read b u ran holds
    rw [run_bind, run_save, andThen_some, run_bind, run_attempt, andThen_some, ran']
    have behind := sighted.early there
    refine ⟨_, rfl, sighted.sight there { behind with fresh := fun o (after : u.look.offset ≤ o) => ?_ } rfl rfl⟩
    -- what is remembered now stands in front of where the readings have come to
    have old : s.look.offset < o := (ahead j b u ran).trans_le after
    have old' : s'.look.offset < o := beside.offset.symm ▸ old
    have nothing {m : Memo} {e : MemoEntry} (before : e.offset < o) (none : m.lookup o = Option.none) :
        (m.push e).lookup o = Option.none := by
      rw [Memo.lookup_push, if_neg before.ne', if_pos before]
    exact ⟨nothing old (behind.fresh o after).1, nothing old' (behind.fresh o after).2⟩

section asking

variable {ends : β → Look → Prop} {Q : β → ParseState → ParseState → Prop} {γ : Type} {h h' : γ → Parse α}
  {y y' : Parse γ}

@[simp] theorem bind_bind_iff : δ.Trails ends ((y >>= h) >>= f) ((y' >>= h') >>= f') s s' Q ↔
    δ.Trails ends (y >>= fun c => h c >>= f) (y' >>= fun c => h' c >>= f') s s' Q := by
  rw [bind_assoc, bind_assoc]

@[simp] theorem token_iff {f f' : Token → Parse β} : δ.Trails ends (Parse.token >>= f) (Parse.token >>= f') s s' Q ↔
    δ.Trails ends (f s.look.token) (f' s'.look.token) s s' Q := Iff.rfl

@[simp] theorem offset_iff {f f' : Nat → Parse β} : δ.Trails ends (Parse.offset >>= f) (Parse.offset >>= f') s s' Q ↔
    δ.Trails ends (f s.look.offset) (f' s'.look.offset) s s' Q := Iff.rfl

@[simp] theorem location_iff {f f' : Location → Parse β} :
    δ.Trails ends (Parse.location >>= f) (Parse.location >>= f') s s' Q ↔
      δ.Trails ends (f s.look.location) (f' s'.look.location) s s' Q := Iff.rfl

@[simp] theorem look_iff {f f' : Look → Parse β} : δ.Trails ends (Parse.look >>= f) (Parse.look >>= f') s s' Q ↔
    δ.Trails ends (f s.look) (f' s'.look) s s' Q := Iff.rfl

@[simp] theorem lastStop_iff {f f' : Nat → Parse β} :
    δ.Trails ends (Parse.lastStop >>= f) (Parse.lastStop >>= f') s s' Q ↔
      δ.Trails ends (f s.look.lastStop) (f' s'.look.lastStop) s s' Q := Iff.rfl

@[simp] theorem text_iff {start stop start' stop' : Nat} {f f' : String → Parse β} :
    δ.Trails ends (Parse.text start stop >>= f) (Parse.text start' stop' >>= f') s s' Q ↔
      δ.Trails ends (f (s.look.text start stop)) (f' (s'.look.text start' stop')) s s' Q := Iff.rfl

@[simp] theorem advance_iff {f f' : Unit → Parse β} {b : Bool} :
    δ.Trails ends (Parse.advance b >>= f) (Parse.advance b >>= f') s s' Q ↔
      δ.Trails ends (f ()) (f' ()) (s.followedBy (Parse.next δ.older b s.look))
        (s'.followedBy (Parse.next δ.newer b s'.look)) Q := by
  unfold Trails
  simp only [run_bind, run_advance, andThen_some]

@[simp] theorem scan_iff {f f' : Unit → Parse β} : δ.Trails ends (Parse.scan >>= f) (Parse.scan >>= f') s s' Q ↔
    δ.Trails ends (f ()) (f' ()) (s.followedBy (Parse.next δ.older true s.look))
      (s'.followedBy (Parse.next δ.newer true s'.look)) Q := advance_iff

@[simp] theorem scanBlank_iff {f f' : Unit → Parse β} :
    δ.Trails ends (Parse.scanBlank >>= f) (Parse.scanBlank >>= f') s s' Q ↔
      δ.Trails ends (f ()) (f' ()) (s.followedBy (Parse.next δ.older false s.look))
        (s'.followedBy (Parse.next δ.newer false s'.look)) Q := advance_iff

end asking

end Trails

/-- Where the older reading leads, if it gives something. -/
theorem goes_of_takes {P : α → Reading → Prop} {x : Parse α} {a : α} (h : δ.route.Takes s.toReading x s.toReading P)
    (run : x.run δ.older δ.settings s = (some a, t)) : δ.route.Goes s.toReading t.toReading ∧ P a t.toReading := by
  obtain ⟨goes, holds, -⟩ := h δ.settings s.depth s.journal
  rw [show (⟨s.toReading, s.depth, s.journal⟩ : ParseState) = s from rfl, show δ.route.env = δ.older from rfl, run]
    at goes holds
  exact ⟨goes, holds a rfl⟩

end Dialects

end RegoSyntax
