/-
# RegoSyntax.Proofs.Runs — what the small parsers do to a state.

Most parsers of the lower layers look at nothing but the token the parser has come to, and do nothing
but go on from there, report errors and collect comments: what they do is the same in any state with
that token.  Such a parser is `Local`.  Two runs that stand at the same token therefore stay in step
over it, whatever else they differ in.
-/
import RegoSyntax.Parse.Primary

namespace RegoSyntax

/-- To return to where the parser stands changes nothing. -/
theorem Reading.restore_save (r : Reading) : r.restore r.save = r := by
  simp [Reading.restore, Reading.save]

namespace Parse

/-! ## Runs of the primitive parsers

What each primitive does to a state, as equations that a proof rewrites with; they hold by definition. -/

section runs

variable {α β : Type} (env : Env) (o : Settings) (s : ParseState)

@[simp] theorem run_pure (a : α) : (pure a : Parse α).run env o s = (some a, s) := rfl

/-- A parser and what goes on with its answer, one run behind the other. -/
@[simp] theorem run_bind (x : Parse α) (f : α → Parse β) :
    (x >>= f).run env o s = andThen (fun a => (f a).run env o) (x.run env o s) := rfl

@[simp] theorem andThen_some (f : α → ParseState → Option β × ParseState) (a : α) :
    andThen f (some a, s) = f a s := rfl

@[simp] theorem andThen_none (f : α → ParseState → Option β × ParseState) :
    andThen f (none, s) = (none, s) := rfl

@[simp] theorem run_fail : (fail : Parse α).run env o s = (none, s) := rfl

@[simp] theorem run_env : Parse.env.run env o s = (some env, s) := rfl

@[simp] theorem run_reading : reading.run env o s = (some s.toReading, s) := rfl

@[simp] theorem run_modify (f : Reading → Reading) :
    (modify f).run env o s = (some (), { s with toReading := f s.toReading }) := rfl

@[simp] theorem run_modifyLook (f : Look → Look) :
    (modifyLook f).run env o s = (some (), { s with look := f s.look }) := rfl

@[simp] theorem run_look : Parse.look.run env o s = (some s.look, s) := rfl

@[simp] theorem run_token : token.run env o s = (some s.look.token, s) := rfl

@[simp] theorem run_location : location.run env o s = (some s.look.location, s) := rfl

@[simp] theorem run_offset : offset.run env o s = (some s.look.offset, s) := rfl

@[simp] theorem run_lastStop : lastStop.run env o s = (some s.look.lastStop, s) := rfl

@[simp] theorem run_text (start stop : Nat) :
    (text start stop).run env o s = (some (s.look.text start stop), s) := rfl

@[simp] theorem run_save : save.run env o s = (some s.save, s) := rfl

@[simp] theorem run_restore (p : Snapshot) :
    (restore p).run env o s = (some (), { s with toReading := s.toReading.restore p }) := rfl

@[simp] theorem run_attempt (x : Parse α) :
    (attempt x).run env o s = (some (x.run env o s).1, (x.run env o s).2) := rfl

@[simp] theorem run_report (l : Location) (problem : Problem) :
    (report l problem).run env o s =
      (some (), { s with
        failures := s.failures.push ⟨problem, l, s.look.hints⟩
        look := { s.look with hints := [] } }) := rfl

/-- Whether an error has been reported is asked of the state. -/
@[simp] theorem run_noFailures : noFailures.run env o s = (some s.failures.isEmpty, s) := rfl

variable {o s}

/-- Behind a production the counter is what it was before. -/
theorem run_deeper (x : Parse α) :
    (deeper x).run env o s =
      ((x.run env o { s with depth := s.depth + 1 }).1,
        { (x.run env o { s with depth := s.depth + 1 }).2 with depth := s.depth }) := by
  have run : (deeper x).run env o s =
      ((x.run env o { s with depth := s.depth + 1 }).1,
        { (x.run env o { s with depth := s.depth + 1 }).2 with
          depth := (x.run env o { s with depth := s.depth + 1 }).2.depth - 1 }) := rfl
  rw [run, x.levels, Nat.add_sub_cancel]

/-- A production that may be entered is read with one more under way. -/
theorem run_nested_granted (x : Parse α) (granted : o.answer (.nest s.depth) = true) :
    (nested x).run env o s =
      (deeper x).run env o { s with journal := (.nest s.depth, true) :: s.journal } := by
  simp only [nested, run_bind, Parse.depth, ask, granted, andThen_some, if_true]

/-- A production that may not be entered is an error. -/
theorem run_nested_refused (x : Parse α) (refused : o.answer (.nest s.depth) = false) :
    (nested x).run env o s =
      (do reportHere .tooDeep; fail : Parse α).run env o
        { s with journal := (.nest s.depth, false) :: s.journal } := by
  simp only [nested, run_bind, Parse.depth, ask, refused, andThen_some, Bool.false_eq_true, if_false]

end runs

/-- Where what comes first gives nothing, nothing is given. -/
theorem run_bind_none {α β : Type} {x : Parse α} {f : α → Parse β} {env : Env} {o : Settings} {s : ParseState}
    (fails : (x.run env o s).1 = none) : ((x >>= f).run env o s).1 = none := by
  rw [run_bind]
  rcases run : x.run env o s with ⟨_ | a, t⟩ <;> rw [run] at fails
  · rfl
  · cases fails

/-- Where what comes second gives nothing, nothing is given. -/
theorem run_bind_fails {α β : Type} {x : Parse α} {f : α → Parse β} {env : Env} {o : Settings} {s : ParseState}
    (second : ∀ a t, ((f a).run env o t).1 = none) : ((x >>= f).run env o s).1 = none := by
  rw [run_bind]
  rcases x.run env o s with ⟨_ | a, t⟩
  · rfl
  · exact second a t

end Parse

/-! ## Local parsers

A local parser looks at the token and at the scanner behind it.  What it adds, errors and comments, does
not depend on what had been added before; so a run of it from a bare state tells what it does from any
state. -/

namespace ParseState

/-- A state of which nothing is known but the token. -/
def bare (l : Look) : ParseState :=
  { look := l, failures := #[], comments := #[], memo := .empty, wildcards := #[], depth := 0,
    journal := [] }

/-- A state, gone on to another token, with the errors and comments of a second state added. -/
def followedBy (s t : ParseState) : ParseState :=
  { s with
    look := t.look
    failures := s.failures ++ t.failures
    comments := s.comments ++ t.comments }

@[simp] theorem followedBy_look (s t : ParseState) : (s.followedBy t).look = t.look := rfl

theorem followedBy_assoc (s t u : ParseState) :
    (s.followedBy t).followedBy u = s.followedBy (t.followedBy u) := by
  simp only [followedBy, Array.append_assoc]

@[simp] theorem followedBy_bare (s : ParseState) : s.followedBy (bare s.look) = s := by
  simp only [followedBy, bare, Array.append_empty]

end ParseState

namespace Parse

/-- What a parser does depends on the token only, and the rest of the state is added to at most. -/
def Local {α : Type} (x : Parse α) : Prop :=
  ∀ env o s, x.run env o s =
    ((x.run env o (.bare s.look)).1, s.followedBy (x.run env o (.bare s.look)).2)

namespace Local

variable {α β : Type}

theorem pure (a : α) : Local (Pure.pure a : Parse α) := fun env o s => by
  rw [run_pure, run_pure, ParseState.followedBy_bare]

/-- One local parser behind another is local. -/
theorem bind {x : Parse α} {f : α → Parse β} (hx : Local x) (hf : ∀ a, Local (f a)) :
    Local (x >>= f) := fun env o s => by
  rw [run_bind, run_bind, hx env o s]
  rcases x.run env o (.bare s.look) with ⟨_ | a, t⟩
  · rfl
  · rw [andThen_some, andThen_some, hf a env o (s.followedBy t), hf a env o t,
      ParseState.followedBy_assoc, ParseState.followedBy_look]

/-- A try at a local parser is local, as it takes nothing back. -/
theorem attempt {x : Parse α} (hx : Local x) : Local (attempt x) := fun env o s => by
  rw [run_attempt, run_attempt, hx env o s]

theorem fail : Local (Parse.fail : Parse α) := fun env o s => by
  rw [run_fail, run_fail, ParseState.followedBy_bare]

/-- Asking the task and the token. -/
theorem asks (f : Env → Look → α) : Local (act fun env r => (some (f env r.look), r)) :=
  fun env o s => by
    show (some (f env s.look), s) = (some (f env s.look), s.followedBy (.bare s.look))
    rw [ParseState.followedBy_bare]

theorem modifyLook (f : Look → Look) : Local (modifyLook f) := fun env o s => by
  rw [run_modifyLook, run_modifyLook]
  simp only [ParseState.followedBy, ParseState.bare, Array.append_empty]

theorem report (l : Location) (problem : Problem) : Local (report l problem) := fun env o s => by
  rw [run_report, run_report]
  simp only [ParseState.followedBy, ParseState.bare, Array.append_empty, Array.push_eq_append,
    Array.empty_append]

/-- A comment is collected whatever was collected before. -/
theorem collect : Local collect := by
  refine (asks fun _ l => l).bind fun l env o s => ?_
  rw [run_modify, run_modify]
  simp only [ParseState.followedBy, ParseState.bare, Array.append_empty, Array.push_eq_append,
    Array.empty_append]

theorem reportHere (problem : Problem) : Local (reportHere problem) :=
  (asks fun _ l => l.location).bind fun l => report l problem

theorem unexpected (note : Note) : Local (unexpected note) := by
  refine (asks fun _ l => l.token).bind fun kind => ?_
  split
  · exact reportHere _
  · exact reportHere _

theorem upToLastStop (l : Location) : Local (upToLastStop l) :=
  (asks fun _ l => l.lastStop).bind fun stop =>
    (asks fun _ look => look.text l.offset stop).bind fun _ => pure _

theorem placed (t : Term) (l : Location) (start stop : Nat) : Local (placed t l start stop) :=
  (asks fun _ look => look.text start stop).bind fun _ => pure _

theorem here (v : Value) : Local (here v) := (asks fun _ l => l.location).bind fun _ => pure _

/-! ### Going on

To go on is to scan tokens, and blanks and comments may be skipped on the way.  Nothing but the scanner is
asked. -/

theorem reports (l : Location) (errors : List ScanError) :
    Local (errors.forM fun e => Parse.report l (.lexical e.cause)) := by
  induction errors with
  | nil => exact pure ()
  | cons e errors ih => exact (report l _).bind fun _ => ih

theorem take : Local take := by
  refine (asks fun env _ => env).bind fun env => (asks fun _ l => l).bind fun l => ?_
  exact (modifyLook _).bind fun _ => reports _ _

theorem takeUpTo (skipBlanks : Bool) (fuel : Nat) : Local (takeUpTo skipBlanks fuel) := by
  induction fuel with
  | zero => exact pure ()
  | succ fuel ih =>
      refine take.bind fun _ => (asks fun _ l => l.token).bind fun kind => ?_
      split
      · split
        · exact ih
        · exact pure ()
      · exact collect.bind fun _ => ih
      · exact pure ()

theorem advance (skipBlanks : Bool) : Local (advance skipBlanks) :=
  (modifyLook _).bind fun _ => (asks fun _ l => l).bind fun _ => takeUpTo skipBlanks _

end Local

/-- A local parser asks nothing, so it does the same under all settings. -/
theorem Local.settings {α : Type} {x : Parse α} (hx : Local x) (env : Env) (o o' : Settings)
    (l : Look) : x.run env o' (.bare l) = x.run env o (.bare l) := by
  apply x.follows
  have unasked : (x.run env o (.bare l)).2.journal = [] := by
    rw [hx env o (.bare l)]
    rfl
  rw [unasked]
  exact List.forall_mem_nil _

/-! ## Going on always succeeds

Going on gives no answer, so all there is to say of it is where it leads; `next` is the state behind it.
-/

/-- A parser that never fails. -/
def Goes (x : Parse Unit) : Prop := ∀ env o s, (x.run env o s).1 = some ()

theorem Goes.bind {x y : Parse Unit} (hx : Goes x) (hy : Goes y) : Goes (x >>= fun _ => y) :=
  fun env o s => by
    have first := hx env o s
    rw [run_bind]
    rcases h : x.run env o s with ⟨_ | a, t⟩ <;> rw [h] at first
    · cases first
    · exact hy env o t

theorem goes_reports (l : Location) (errors : List ScanError) :
    Goes (errors.forM fun e => report l (.lexical e.cause)) := by
  induction errors with
  | nil => exact fun _ _ _ => rfl
  | cons e errors ih => exact Goes.bind (fun _ _ _ => rfl) ih

theorem goes_take : Goes take := fun env o s => by
  simp only [take, run_bind, run_env, run_look, run_modifyLook, andThen_some]
  exact goes_reports _ _ _ _ _

theorem goes_takeUpTo (skipBlanks : Bool) (fuel : Nat) : Goes (takeUpTo skipBlanks fuel) := by
  induction fuel with
  | zero => exact fun _ _ _ => rfl
  | succ fuel ih =>
      refine Goes.bind goes_take fun env o s => ?_
      rw [run_bind, run_token, andThen_some]
      split
      · split
        · exact ih env o s
        · rfl
      · exact Goes.bind (fun _ _ _ => rfl) ih env o s
      · rfl

theorem goes_advance (skipBlanks : Bool) : Goes (advance skipBlanks) :=
  Goes.bind (fun _ _ _ => rfl) fun env o s => by
    rw [run_bind, run_look, andThen_some]
    exact goes_takeUpTo skipBlanks _ env o s

/-- Where going on from a token leads. -/
def next (env : Env) (skipBlanks : Bool) (l : Look) : ParseState :=
  ((advance skipBlanks).run env ⟨0, fun _ => true⟩ (.bare l)).2

/-- To go on leads to the token that `next` gives, with what was met on the way. -/
theorem run_advance (skipBlanks : Bool) (env : Env) (o : Settings) (s : ParseState) :
    (advance skipBlanks).run env o s = (some (), s.followedBy (next env skipBlanks s.look)) := by
  rw [Local.advance skipBlanks env o s, goes_advance skipBlanks env o,
    (Local.advance skipBlanks).settings env ⟨0, fun _ => true⟩ o s.look, next]

/-- To come back from a place leaves nothing of what was met since. -/
theorem restore_followedBy (s t : ParseState) :
    { s.followedBy t with toReading := (s.followedBy t).toReading.restore s.save } = s := by
  simp only [ParseState.followedBy, Reading.restore, Reading.save, Array.take_eq_extract,
    Array.extract_append_left, Array.extract_size]

/-- What comes next, blanks included, is seen without going there. -/
@[simp] theorem run_peekBlank (env : Env) (o : Settings) (s : ParseState) :
    peekBlank.run env o s = (some (next env false s.look).look.token, s) := by
  simp only [peekBlank, scanBlank, run_bind, run_save, andThen_some, run_advance, run_token,
    run_restore, run_pure, ParseState.followedBy_look, restore_followedBy]

theorem Local.peekBlank : Local peekBlank := fun env o s => by
  rw [run_peekBlank, run_peekBlank, ParseState.followedBy_bare]
  rfl

/-! ## Words that may be names

A reserved word may stand for a name where a reference goes on behind it, if the capabilities say so. -/

/-- The state behind a word that is taken for an identifier. -/
def named (s : ParseState) : ParseState := { s with look := { s.look with token := .ident } }

/-- A keyword is taken for an identifier where it may stand for one. -/
theorem run_isIdent (env : Env) (o : Settings) (s : ParseState) :
    isIdent.run env o s =
      if s.look.token == .ident then (some true, s)
      else if env.allowsInRefs s.look.scanner.keywords s.look.token.name then (some true, named s)
      else (some false, s) := by
  unfold isIdent
  rw [run_bind, run_token, andThen_some]
  split
  · rfl
  · show (if env.allowsInRefs s.look.scanner.keywords s.look.token.name then
      (do asIdent; return true) else return false).run env o s = _
    split <;> rfl

/-- It starts a reference where a point or a bracket is right behind it. -/
theorem run_startsRefWithKeyword (env : Env) (o : Settings) (s : ParseState) :
    startsRefWithKeyword.run env o s =
      if env.allowsInRefs s.look.scanner.keywords s.look.token.name then
        if continuesRef (next env false s.look).look.token then (some true, named s) else (some false, s)
      else (some false, s) := by
  show (if env.allowsInRefs s.look.scanner.keywords s.look.token.name then _ else _ : Parse Bool).run
    env o s = _
  split
  · rw [run_bind, run_peekBlank, andThen_some]
    split <;> rfl
  · rfl

/-- A wildcard gets a name of its own. -/
theorem run_variableHere (env : Env) (o : Settings) (s : ParseState) :
    Parse.variableHere.run env o s =
      if s.look.literal == wildcard then
        (some ⟨.var (wildcardName s.wildcards.size), some s.look.location⟩,
          { s with wildcards := s.wildcards.push s.look.offset })
      else (some ⟨.var s.look.literal, some s.look.location⟩, s) := by
  unfold Parse.variableHere
  rw [run_bind, run_look, andThen_some]
  dsimp only
  split
  · rfl
  · rfl

/-- What is remembered at the token is given, where everything that is remembered is taken up again. -/
theorem run_remembered (env : Env) {o : Settings} (recalls : ∀ q, o.recalls q = true) (s : ParseState) : ∃ j,
    remembered.run env o s = (some (s.memo.lookup s.look.offset), { s with journal := j }) := by
  rcases found : s.memo.lookup s.look.offset with _ | entry
  · refine ⟨s.journal, ?_⟩
    simp only [remembered, run_bind, run_reading, andThen_some, found]
    rfl
  · refine ⟨(.recall ⟨entry, s.look, s.failures.isEmpty⟩, true) :: s.journal, ?_⟩
    simp only [remembered, run_bind, run_reading, andThen_some, found]
    show andThen _ (some (o.recalls _), { s with journal := (_, o.recalls _) :: _ }) = _
    rw [recalls]
    rfl

end Parse

end RegoSyntax
