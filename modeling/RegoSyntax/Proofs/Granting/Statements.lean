/-
# RegoSyntax.Proofs.Granting.Statements — a statement without an error is read the same.

A strict task that stands between two statements, with words apart from what is behind them, reads a statement
and ends well (`Route.Ends`).  Another task that is granted keywords in references reads the same statement
then, and both remember the same (`statement_agrees`).

An import clause is one case by itself.  Of all other statements, that there are no barriers between the two
ends is known from the later one.
-/
import RegoSyntax.Proofs.Granting.Imports

namespace RegoSyntax

open Parse

/-- A strict task, and one that has been granted keywords in references and nothing else. -/
structure Env.Grants (a b : Env) : Prop where
  strict : a.Strict
  file : a.file = b.file
  version : a.version = b.version
  suggest : a.suggestImports = b.suggestImports
  features : ∀ feature, feature ≠ Capabilities.keywordsInRefs →
    b.capabilities.hasFeature feature = a.capabilities.hasFeature feature

namespace Env.Grants

variable {a b : Env}

theorem alike (h : a.Grants b) : a.Alike b := ⟨h.file, h.version, h.suggest, .inr h.strict⟩

/-- What imports reserve does not depend on what is granted. -/
theorem regoWords (h : a.Grants b) (i : Import) (r : Ref) : Parse.regoWords i r b = Parse.regoWords i r a := by
  unfold Parse.regoWords
  rw [h.features Capabilities.regoV1Import (by decide), h.features Capabilities.regoV1 (by decide), h.version]

/-- What an import does to what is known is the same for both tasks. -/
theorem applied (h : a.Grants b) (i : Import) (allowed : KeywordTable) (u : Reading) :
    i.applied b allowed u = i.applied a allowed u := by
  unfold Import.applied
  simp only [h.regoWords]

end Env.Grants

/-! ## Words that statements add

A statement adds words to the table in force or leaves it as it is; none takes a word out of it. -/

/-- Statements free no words. -/
theorem Statement.contains_foldl (ss : List Statement) (env : Env) (allowed : KeywordTable) {t : KeywordTable}
    {word : String} (h : t.contains word = true) :
    (ss.foldl (reserving env allowed) t).contains word = true := by
  induction ss generalizing t with
  | nil => exact h
  | cons s ss ih =>
      refine ih ?_
      cases s with
      | importClause i => exact i.contains_reserving env allowed h
      | package | rule | body | annotations => exact h

namespace Route

variable {ρ : Route} {u v w x : Reading} {τ : KeywordTable} {g : Grammar} {allowed : KeywordTable}
  {ss : List Statement}

/-! ## Where statements end

A statement that is no import clause does not get past a barrier, so whatever stands behind it was not
read as a part of it. -/

/-- At an import clause nothing is ahead that a barrier could be. -/
theorem Poised.ends_clause (poised : ρ.Poised u) (importKw : u.look.token = .importKw) :
    ρ.Ends u.look.scanner.keywords u := by
  refine ⟨poised.clean, fun c starts since within dot => ?_⟩
  obtain ⟨m, at', clause⟩ := poised.clause importKw
  have le := within m at'.starts clause at'.offset.le
  obtain rfl := at'.starts.eq_of_offset starts (Nat.le_antisymm (at'.offset ▸ since) le)
  cases dot.symm.trans clause.1

section strict

variable (strict : ρ.env.Strict) (poised : ρ.Poised u)

include strict poised

/-- Other statements than import clauses stop at barriers, and so does what is remembered of them. -/
theorem Arrives.stops (h : ρ.Arrives allowed u ss v) :
    (∃ i s, ss = [.importClause i] ∧ ρ.Imports u i s ∧ v = i.applied ρ.env allowed s) ∨
      v.memo.Halts ρ.source ∧ ρ.Stops u.look.scanner.keywords u v ∧
        ρ.Spaced u.look.offset u.look.scanner.keywords v := by
  have seated := poised.seated
  have spaced := poised.spaced
  cases h with
  | @package p w v names goes =>
      have start := names.seated seated
      have there := names.spaced strict spaced seated
      obtain ⟨halts, stops⟩ := goes.leads.stops spaced.narrow strict start there.reserves
        fun e he => poised.halts e (names.memo ▸ he)
      -- no barrier stands between the keyword of a clause and its path
      have before : ρ.Stops u.look.scanner.keywords u w := by
        refine ⟨names.grows.size_le, fun _ d barrier le => ?_⟩
        rw [names.look strict]
        refine barrier.next_le (ok_next seated.look false).1 true (fun dot => ?_)
          (barrier.next_le seated.look false (by rw [names.keyword]; decide) le)
        have apart := names.apart
        rw [Reading.passing_look, dot] at apart
        cases apart
      exact .inr ⟨halts, before.trans stops, goes.leads.spaced start strict there⟩
  | imports imports => exact .inl ⟨_, _, rfl, imports, rfl⟩
  | rules walks =>
      obtain ⟨halts, stops⟩ := walks.treads.stops strict seated spaced poised.halts
      exact .inr ⟨halts, stops, walks.treads.spaced strict spaced seated⟩
  -- a query starts where the rules that were tried have started
  | query lost clean goes =>
      have back := spaced.resumed (lost.spaced strict spaced seated)
      have halts := lost.stops strict seated spaced poised.halts
      obtain ⟨halts, stops⟩ := goes.leads.stops spaced.narrow strict goes.start back.reserves halts
      exact .inr ⟨halts, ⟨stops.size_le, stops.le⟩, goes.leads.spaced goes.start strict back⟩

/-- Where a statement ends well, it has started well. -/
theorem Arrives.ends (h : ρ.Arrives allowed u ss v) (ends : ρ.Ends v.look.scanner.keywords v) :
    ρ.Ends u.look.scanner.keywords u := by
  rcases h.stops strict poised with ⟨i, s, -, imports, -⟩ | ⟨-, stops, -⟩
  · exact poised.ends_clause imports.importKw
  · refine Ends.back (ends.mono fun word held => ?_) stops (h.strides poised.seated).le
    rw [h.keywords poised.seated poised.heeds.table]
    exact Statement.contains_foldl ss ρ.env allowed held

end strict

/-! ## Attempts

Three tries are made at one place.  Each of them is read the same if it ends well, and the one that counts
is found from the outcome. -/

namespace Agrees

variable {α : Type} {x y : Parse α} {F : Reading → Prop} {P : α → Reading → Prop} {Q : α → Reading → Prop}

/-- The second one of two readings counts where the first one gives nothing and leaves no trace. -/
theorem orElse_second (clean : u.failures = #[])
    (fails : ∀ env o depth journal, x.run env o ⟨u, depth, journal⟩ = (none, ⟨u, depth, journal⟩))
    (h : ρ.Agrees y u Q) : ρ.Agrees (Parse.orElse u.save x y) u Q := by
  refine of_run_eq (fun env o depth journal _ => ?_) h
  rw [run_orElse, fails]
  have back : u.restore u.save = u := (Leads.refl (ρ := ρ) u).restore_eq
  simp only [clean, back]
  rfl

/-- The first one counts where it leaves an error if it gives nothing. -/
theorem orElse_first {clear : Prop} (yields : ρ.Yields clear x u (fun t => t.failures ≠ #[]) P)
    (h : ρ.Agrees x u Q) (p : Snapshot) : ρ.Agrees (Parse.orElse p x y) u Q :=
  fun o depth journal a t run ends => by
  have fails := (yields o depth journal).1
  have same := h o depth journal
  rw [run_orElse] at run ⊢
  rcases first : x.run ρ.env o ⟨u, depth, journal⟩ with ⟨_ | b, t'⟩
  · rw [first] at run fails
    have unclean : t'.failures.isEmpty = false := by simpa using fails rfl
    simp only [unclean] at run
    cases run
  · rw [first] at run same
    obtain ⟨rfl, rfl⟩ := Prod.mk.inj run |>.imp Option.some.inj id
    rw [same _ _ rfl ends]

end Agrees

/-! ## Statements

The tries are put together to one statement.  An import clause reserves words in addition, and they are
the same for both tasks. -/

section statements

variable (h : Keeps g) (grants : ρ.env.Grants ρ.other) (poised : ρ.Poised u)

include h grants poised

/-- An import clause that ends well reserves the same. -/
theorem importStatement_agrees : ρ.Agrees (Parse.importStatement g allowed) u
    fun _ v => ρ.Ends v.look.scanner.keywords v := by
  have strict := grants.strict
  have yields := importClause_yields h poised.seated
  have applies (env : Env) (i : Import) (v : Reading) (o : Settings) (depth : Nat)
      (journal : List (Question × Bool)) : (do Parse.applyImport i allowed; return i).run env o
        ⟨v, depth, journal⟩ = (some i, ⟨i.applied env allowed v, depth, journal⟩) := by
    rw [run_bind, run_applyImport]
    rfl
  refine Agrees.bind (R := fun i v _ s => s = i.applied ρ.env allowed v)
    (importClause_agrees h strict poised) yields (fun i v _ o depth journal => ?_) ?_ fun i v _ o depth journal => ?_
  · rw [applies]
    exact ⟨fun none => (by cases none), fun _ _ => rfl, False.elim⟩
  -- what is clear of the words that the clause reserves is clear of those that were reserved before
  · rintro i v _ _ imports rfl ends
    obtain ⟨-, grows, hints, look⟩ := i.applied_same ρ.env allowed v
    have table := imports.keywords poised.seated poised.heeds.table
    have none := grows.size_le
    rw [ends.clean] at none
    refine ⟨Array.eq_empty_of_size_eq_zero (Nat.le_zero.1 none), ?_⟩
    have noSegment := ends.noSegment
    rw [look] at noSegment
    exact noSegment.mono fun word held => i.contains_reserving ρ.env allowed (table ▸ held)
  · intro a t run _
    rw [applies] at run ⊢
    rw [grants.applied]
    exact run

omit h poised in
/-- Where a statement is read, the word behind the keyword of a package is a name. -/
theorem calls_of_read {skipRules : Bool} {o : Settings} {depth : Nat} {journal : List (Question × Bool)}
    {s : ParseState} (run : (Parse.statement g skipRules allowed).run ρ.env o ⟨u, depth, journal⟩ = (some ss, s)) :
    ρ.Calls .packageKw u := fun keyword apart other => by
  -- -- without an identifier behind its keyword a package fails, and that failure ends the statement
  have package : ρ.Yields False (Parse.package g) u (fun t => t.failures ≠ #[]) fun _ _ => False := by
    unfold Parse.package
    rw [Yields.location_iff]
    refine Yields.clause_bind False.elim (fun t stays => ?_) rfl fun w names => ?_
    · cases stays with
      | here different => exact absurd keyword different
      | behind continues => cases apart.symm.trans continues
      | failed failed => exact failed
    · have ident := names.ident
      rw [names.look grants.strict] at ident
      exact absurd ident other
  have statement : ρ.Yields False (Parse.statement g skipRules allowed) u (fun _ => True) fun _ _ => False := by
    unfold Parse.statement
    rw [Yields.save_iff]
    exact orElse_yields (package.bind (fun _ => id) fun _ _ => False.elim)
      (fun t failed clean => absurd clean failed) fun t failed clean => absurd clean failed
  have gives := (statement o depth journal).2.1
  rw [run] at gives
  exact (gives ss rfl).elim

/-- An import clause that ends well is read the same as a statement. -/
theorem importKw_agrees (importKw : u.look.token = .importKw) (skipRules : Bool) :
    ρ.Agrees (Parse.statement g skipRules allowed) u fun _ v => ρ.Ends v.look.scanner.keywords v := by
  -- an import clause that fails leaves an error, so nothing else is tried
  have yields : ρ.Yields False (do return [Statement.importClause (← Parse.importStatement g allowed)]) u
      (fun t => t.failures ≠ #[]) fun _ _ => True := by
    refine Yields.bind (importStatement_yields h poised.seated allowed) (fun t stays => ?_) fun _ _ _ => .pure trivial
    cases stays with
    | here different => exact absurd importKw different
    | behind continues =>
        obtain ⟨m, at', clause⟩ := poised.clause importKw
        have reserved := poised.spaced.bounded.look.reserved poised.spaced.based at' (by rw [importKw]; decide)
        obtain ⟨since, within⟩ := poised.spaced.inside at'
        rw [Reading.passing_look] at continues
        exact absurd (Course.Reads.adjoined_of_peek at' continues)
          (poised.spaced.apart.fronts m at'.starts since within reserved)
    | failed failed => exact failed
  unfold Parse.statement
  rw [Agrees.save_iff]
  refine Agrees.orElse_second poised.clean (fun env o depth journal => ?_) (Agrees.orElse_first yields ?_ _)
  · have package : (Parse.package g).run env o ⟨u, depth, journal⟩ = (none, ⟨u, depth, journal⟩) := by
      unfold Parse.package clauseKeyword
      simp only [run_bind, run_location, run_token, andThen_some, importKw]
      rfl
    rw [run_bind, package]
    rfl
  · exact Agrees.bind (R := fun _ v _ s => s = v) (importStatement_agrees h grants poised)
      (importStatement_yields h poised.seated allowed) (fun _ _ _ => .pure rfl)
      (fun _ _ _ _ _ same ends => same ▸ ends) fun _ _ _ => .pure

/-- A statement that ends well is read the same. -/
theorem statement_agrees (carries : Carries g) (proper : ρ.Proper g u) (skipRules : Bool) :
    ρ.Agrees (Parse.statement g skipRules allowed) u fun _ v => ρ.Ends v.look.scanner.keywords v := by
  by_cases importKw : u.look.token = .importKw
  · exact importKw_agrees h grants poised importKw skipRules
  · intro o depth journal ss s run ends
    have yields : ρ.Yields (ρ.Even u) (Parse.statement g skipRules allowed) u (fun _ => True)
        (ρ.Arrives allowed u) := statement_yields h carries poised.seated proper skipRules
    obtain ⟨-, gives, same⟩ := yields o depth journal
    rw [run] at gives same
    have started := (gives ss rfl).ends grants.strict poised ends
    exact same ⟨fun _ => ⟨_, _, poised.spaced, started.noSegment⟩, calls_of_read grants run, importKw⟩

end statements

/-! ## What is known behind a statement

The invariant between two statements is restored: a strict task without an error stands behind a statement
as it stood before it. -/

section behind

variable (strict : ρ.env.Strict) (poised : ρ.Poised u)

/-- What is seen from a place on is seen from a later one on. -/
theorem Spaced.settle {n : Nat} (h : ρ.Spaced n τ v)
    (apart : v.look.scanner.keywords.Apart ρ.source v.look.offset) :
    ρ.Spaced v.look.offset v.look.scanner.keywords v := by
  obtain rfl := h.bounded.look.table
  exact ⟨h.narrow, h.based, apart, Nat.le_refl _, h.bounded.look.since h.bounded.behind, fun e he since =>
    (h.bounded.memo e he (h.bounded.behind.trans since)).since h.bounded.behind⟩

include strict poised

/-- Behind an import clause, before any words are reserved. -/
theorem Imports.bounded {i : Import} (h : ρ.Imports u i v) : v.memo.Halts ρ.source ∧
    Holds (Look.Bounded ρ.source v.look.offset u.look.scanner.keywords) v.look.offset v ∧
      (i.localName = none → ∀ e ∈ v.memo.entries, e.offset < v.look.offset) := by
  cases h with
  -- the path takes a token, so all that is remembered is before it
  | @plain w x v path place names narrows same =>
      obtain ⟨hints, look⟩ := same.look
      have read := (narrows.goes.leads.spaced narrows.goes.start strict (poised.path strict names)).bounded.look
      have before : ∀ e ∈ v.memo.entries, e.offset < v.look.offset := fun e he => by
        rw [same.offset]
        exact (poised.remembers_before names e (same.memo ▸ he)).trans narrows.strides
      refine ⟨fun e he => poised.halts e (names.memo ▸ same.memo ▸ he), ⟨Nat.le_refl _, ?_, fun e he since =>
        absurd since (Nat.not_le.2 (before e he))⟩, fun _ => before⟩
      rw [look]
      refine ⟨names.keywords poised.seated, fun future => ?_, fun _ _ _ => id, read.clause⟩
      have held := read.backed future
      rw [read.table] at held
      exact (names.keywords poised.seated).symm ▸ KeywordTable.contains_removeAll held
  | @renamed w x v path name place names narrows renames =>
      have start := poised.name strict names narrows renames.asKw
      have spaced := renames.goes.leads.spaced renames.goes.start strict start
      obtain ⟨halts, -⟩ := renames.goes.leads.stops start.narrow strict renames.goes.start start.reserves
        fun e he => poised.halts e (names.memo ▸ he)
      have behind := spaced.bounded.behind
      exact ⟨halts, ⟨Nat.le_refl _, spaced.bounded.look.since behind, fun e he since =>
        (spaced.bounded.memo e he (behind.trans since)).since behind⟩, nofun⟩

/-- What is remembered behind a statement ends at barriers, and words are apart again. -/
theorem Arrives.spaced (h : ρ.Arrives allowed u ss v)
    (apart : v.look.scanner.keywords.Apart ρ.source v.look.offset) :
    v.memo.Halts ρ.source ∧ ρ.Spaced v.look.offset v.look.scanner.keywords v := by
  -- -- an import may move the table; behind any other statement it stands as it was
  rcases h.stops strict poised with ⟨i, s, rfl, imports, rfl⟩ | ⟨halts, -, spaced⟩
  · have based : (i.applied ρ.env allowed s).look.scanner.keywords.Based := fun word held => by
      rw [h.keywords poised.seated poised.heeds.table]
      exact Statement.contains_foldl _ ρ.env allowed (poised.spaced.based word held)
    obtain ⟨halts, bounded, before⟩ := imports.bounded strict poised
    obtain ⟨memo, -, hints, look⟩ := i.applied_same ρ.env allowed s
    refine ⟨memo ▸ halts, poised.spaced.narrow, based, apart, Nat.le_refl _, ?_, fun e he since => ?_⟩
    · rw [look]
      exact ⟨rfl, fun future => i.contains_reserving ρ.env allowed (bounded.look.backed future),
        fun _ _ _ => id, bounded.look.clause⟩
    · rw [memo] at he
      rw [look] at since ⊢
      rcases named : i.localName with _ | name
      · exact absurd since (Nat.not_le.2 (before named e he))
      · -- an import with a name reserves no words
        have there := bounded.memo e he since
        rw [← bounded.look.table] at there
        dsimp only
        rw [Import.reserving_renamed named]
        exact there
  · exact ⟨halts, spaced.settle apart⟩

/-- Behind a statement without an error a strict task stands as before it. -/
theorem Poised.onward (h : ρ.Arrives allowed u ss v) (known : allowed.Known) (clean : v.failures = #[])
    (separate : v.look.scanner.keywords.Separate ρ.source v.look.offset) : ρ.Poised v := by
  obtain ⟨halts, spaced⟩ := h.spaced strict poised separate.apart
  exact ⟨h.seated poised.seated known, clean, spaced, halts,
    h.heeds poised.spaced.narrow known poised.heeds (by rw [clean]; exact Nat.zero_le _), separate⟩

end behind

end Route

end RegoSyntax
