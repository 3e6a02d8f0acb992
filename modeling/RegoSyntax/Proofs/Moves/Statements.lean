/-
# RegoSyntax.Proofs.Moves.Statements — where a statement leads.

A statement that was read is a package clause, an import clause, the rules of one head or a query, and
`Route.Arrives` says for each of them where the parser has come to and what it remembers.  A clause that is
none leaves no trace, unless it leaves an error (`Route.Stays`); rules that are none leave what they have
made the parser remember.

The path of an import is read with fewer words reserved, so it is told by a reading of its own, of which
only the place is taken over.
-/
import RegoSyntax.Proofs.Clauses
import RegoSyntax.Proofs.Moves.Rules

namespace RegoSyntax

open Parse

/-! ## Words that imports reserve

An import acts on what is known in one step, behind its clause. -/

/-- What an import does to what is known: it reserves words, or something is wrong with it. -/
def Import.applied (i : Import) (env : Env) (allowed : KeywordTable) (u : Reading) : Reading :=
  let r := i.path.value.ref?.getD []
  let apply (table : KeywordTable) : Except Problem (List String) → Reading
    | .ok words =>
      { u with
        look := { u.look with
          scanner := words.foldl (fun s word =>
            match table.get? word with
            | some kind => s.addKeyword word kind
            | none => s) u.look.scanner } }
    | .error problem => u.reporting problem i.path.place
  if Ref.headVar? r == some regoRoot then apply .future (regoWords i r env)
  else if Ref.headVar? r == some futureRoot then apply allowed (futureWords i r allowed)
  else u

/-- To apply an import is to change what is known, and never fails. -/
theorem Parse.run_applyImport (i : Import) (allowed : KeywordTable) (env : Env) (o : Settings)
    (s : ParseState) : (Parse.applyImport i allowed).run env o s =
      (some (), { s with toReading := i.applied env allowed s.toReading }) := by
  unfold Parse.applyImport Import.applied
  dsimp only
  split
  · rw [run_bind]
    show (match regoWords i (i.path.value.ref?.getD []) env with
      | .ok words => Parse.reserve .future words
      | .error problem => Parse.report i.path.place problem).run env o s = _
    rcases regoWords i (i.path.value.ref?.getD []) env with problem | words
    · rfl
    · rfl
  · split
    · rcases futureWords i (i.path.value.ref?.getD []) allowed with problem | words
      · rfl
      · rfl
    · rfl

/-! ## Imports by parts

A clause is cut into its path and what stands behind it, so that the two can be followed apart. -/

/-- What stands behind the path of an import clause. -/
def Parse.importEnd (g : Grammar) (place : Location) (path : Term) (r : Ref) : Parse Import := do
  let root := (r.head?.map Term.render).getD ""
  if !importRoots.contains root then
    hint .updateTooling
    report path.place (.importRoot root)
    fail
  if (← token) == .asKw then
    let localName ← importAlias g
    return ⟨path, some localName, some (← upToLastStop place)⟩
  else
    if root != futureRoot then checkLastSegment path r
    return ⟨path, none, some (← upToLastStop place)⟩

/-- An import clause consists of its keyword, its path, and a name perhaps. -/
theorem Parse.importClause_eq (g : Grammar) : Parse.importClause g = (do
    let place ← location
    clauseKeyword .importKw
    if !(← isIdent) then
      unexpected .ident
      fail
    let p ← importPath g
    importEnd g place p.1 p.2) := rfl

/-! ## Attempts

Two readings are tried from one place; which of them counts depends on what the first one gave and on the
errors it left. -/

/-- The second one of two readings from a place counts where the first one gives nothing, and no error. -/
theorem Parse.run_orElse {α : Type} (p : Snapshot) (x y : Parse α) (env : Env) (o : Settings) (s : ParseState) :
    (orElse p x y).run env o s = match x.run env o s with
      | (some a, t) => (some a, t)
      | (none, t) =>
        if t.failures.isEmpty then y.run env o { t with toReading := t.restore p } else (none, t) := by
  unfold orElse
  rw [run_bind, run_attempt]
  rcases x.run env o s with ⟨_ | a, t⟩
  · rw [andThen_some, run_bind, run_noFailures, andThen_some]
    dsimp only
    split
    · rfl
    · rfl
  · rfl

namespace Route

variable {ρ : Route} {r s t u v w x : Reading} {g : Grammar}

/-! ## Where clauses start

Behind its keyword a clause is followed by an identifier, or it is none.  That is where the two tasks
could differ, since a word may be taken for a name by one of them only. -/

/-- A clause that is none leaves no trace, or an error. -/
inductive Stays (ρ : Route) (keyword : Token) (u : Reading) : Reading → Prop
  | here : u.look.token ≠ keyword → Stays ρ keyword u u
  | behind : continuesRef (u.passing ρ.env false).look.token = true →
      Stays ρ keyword u (u.passing ρ.env false)
  | failed {t : Reading} : t.failures ≠ #[] → Stays ρ keyword u t

/-- The token that the path of a clause starts with: it is an identifier, or a word that may stand for
one. -/
structure Names (ρ : Route) (keyword : Token) (u w : Reading) : Prop where
  keyword : u.look.token = keyword
  apart : continuesRef (u.passing ρ.env false).look.token = false
  path : w = (u.passing ρ.env false).passing ρ.env true ∨
    ρ.env.allowsInRefs ((u.passing ρ.env false).passing ρ.env true).look.scanner.keywords
        ((u.passing ρ.env false).passing ρ.env true).look.token.name = true ∧
      w = { (u.passing ρ.env false).passing ρ.env true with
        look := { ((u.passing ρ.env false).passing ρ.env true).look with token := .ident } }
  ident : w.look.token = .ident

namespace Names

variable {keyword : Token}

/-- Behind the keyword of a clause the parser is seated. -/
theorem seated (h : ρ.Names keyword u w) (seated : ρ.Seated u) : ρ.Seated w := by
  have there := (seated.passing false).passing true
  rcases h.path with rfl | ⟨allowed, rfl⟩
  · exact there
  · exact ⟨ok_ident there.look allowed, there.memo⟩

/-- Behind the keyword of a clause the same is remembered. -/
theorem memo (h : ρ.Names keyword u w) : w.memo = u.memo := by
  rcases h.path with rfl | ⟨-, rfl⟩
  · rfl
  · rfl

/-- The name behind a keyword stands where the parser has gone on to. -/
theorem offset (h : ρ.Names keyword u w) :
    w.look.offset = ((u.passing ρ.env false).passing ρ.env true).look.offset := by
  rcases h.path with rfl | ⟨-, rfl⟩
  · rfl
  · rfl

/-- The path is behind the keyword. -/
theorem strides (h : ρ.Names keyword u w) (seated : ρ.Seated u) (more : keyword ≠ .eof) :
    u.look.offset < w.look.offset := by
  rw [h.offset]
  exact (lt_passing seated false (h.keyword ▸ more)).trans_le (le_passing (seated.passing false) true)

/-- The path of a package does not start behind an import clause. -/
theorem spaced {n : Nat} {τ : KeywordTable} (h : ρ.Names .packageKw u w) (strict : ρ.env.Strict)
    (spaced : ρ.Spaced n τ u) (seated : ρ.Seated u) : ρ.Spaced n τ w := by
  have apart := next_not_word (ρ := ρ) seated.look (by rw [h.keyword]; decide)
  have there := (spaced.passing seated false (by rw [h.keyword]; decide)).passing (seated.passing false) true
    fun clause => apart (by rw [← Reading.passing_look, clause]; decide)
  rcases h.path with rfl | ⟨allowed, -⟩
  · exact there
  · rw [strict.refuses] at allowed
    cases allowed

end Names

/-- Whether the word behind the keyword of a clause may be a name is the same for both tasks. -/
def Calls (ρ : Route) (keyword : Token) (u : Reading) : Prop :=
  u.look.token = keyword → continuesRef (u.passing ρ.env false).look.token = false →
    ((u.passing ρ.env false).passing ρ.env true).look.token ≠ .ident →
      ρ.other.allowsInRefs ((u.passing ρ.env false).passing ρ.env true).look.scanner.keywords
          ((u.passing ρ.env false).passing ρ.env true).look.token.name =
        ρ.env.allowsInRefs ((u.passing ρ.env false).passing ρ.env true).look.scanner.keywords
          ((u.passing ρ.env false).passing ρ.env true).look.token.name

namespace Yields

variable {α β : Type} {clear : Prop} {F F' : Reading → Prop} {P : α → Reading → Prop}
  {Q : β → Reading → Prop}

/-- Where an error is reported, and nothing else. -/
theorem unexpected_fail {note : Note} :
    ρ.Yields clear (do unexpected note; Parse.fail : Parse α) u (fun t => t.failures ≠ #[]) P := by
  have reported (problem : Problem) :
      (u.reporting problem u.look.location).failures ≠ #[] := Array.push_ne_empty
  unfold unexpected
  rw [bind_bind_iff, token_iff]
  split
  · exact fun _ _ _ => ⟨fun _ => reported _, fun _ result => (by cases result), fun _ => rfl⟩
  · exact fun _ _ _ => ⟨fun _ => reported _, fun _ result => (by cases result), fun _ => rfl⟩

/-- To report and fail leaves an error. -/
theorem reportHere_fail {problem : Problem} :
    ρ.Yields clear (do reportHere problem; Parse.fail : Parse α) u (fun t => t.failures ≠ #[]) P :=
  fun _ _ _ => ⟨fun _ => Array.push_ne_empty, fun _ result => (by cases result), fun _ => rfl⟩

/-- To report at a place and fail leaves an error. -/
theorem report_fail {problem : Problem} {l : Location} :
    ρ.Yields clear (do Parse.report l problem; Parse.fail : Parse α) u (fun t => t.failures ≠ #[]) P :=
  fun _ _ _ => ⟨fun _ => Array.push_ne_empty, fun _ result => (by cases result), fun _ => rfl⟩

/-- Behind the keyword of a clause there is a path, unless the clause is none. -/
theorem clause_bind {keyword : Token} {note : Note} {f : Bool → Parse β}
    (calls : clear → ρ.Calls keyword u) (fails : ∀ t, ρ.Stays keyword u t → F t)
    (absent : f false = (do unexpected note; Parse.fail))
    (path : ∀ w, ρ.Names keyword u w → ρ.Yields clear (f true) w F Q) :
    ρ.Yields clear (do clauseKeyword keyword; let b ← isIdent; f b) u F Q := by
  unfold clauseKeyword
  rw [bind_bind_iff, token_iff]
  split
  · next other => exact fail (fails _ (.here (by simpa using other)))
  · next same =>
      have same : u.look.token = keyword := by simpa using same
      dsimp only
      rw [bind_bind_iff, scanBlank_iff, bind_bind_iff, token_iff]
      split
      · next continues => exact fail (fails _ (.behind continues))
      · next apart =>
          have apart : continuesRef (u.passing ρ.env false).look.token = false := by simpa using apart
          rw [scan_iff]
          unfold isIdent
          rw [bind_bind_iff, token_iff]
          split
          · next ident => exact path _ ⟨same, apart, .inl rfl, beq_iff_eq.1 ident⟩
          · next other =>
              rw [bind_bind_iff]
              -- an identifier is read as one; for a keyword it matters which words may stand for one
              refine isRefKeyword_bind (fun there => calls there same apart (mt beq_iff_eq.2 other)) ?_
              split
              · next allowed =>
                  rw [bind_bind_iff, asIdent_iff]
                  exact path _ ⟨same, apart, .inr ⟨allowed, rfl⟩, rfl⟩
              · rw [pure_bind_iff, absent]
                exact unexpected_fail.weaken (fun _ failed => fails _ (.failed failed))
                  fun _ _ holds => holds

/-- Where a path is missing there is an error. -/
theorem missingPath : ρ.Yields clear (Parse.missingPath : Parse α) u (fun t => t.failures ≠ #[]) P := by
  unfold Parse.missingPath
  rw [noFailures_iff]
  split
  · exact reportHere_fail
  · next some => exact fail (mt Array.isEmpty_iff.2 some)

/-- Segments that are looked at leave the reading as it is. -/
theorem stringSegments (path : Ref) :
    ρ.Yields clear (Parse.stringSegments path) u (fun t => t.failures ≠ #[]) fun _ v => v = u := by
  induction path with
  | nil => exact pure rfl
  | cons t path ih =>
      unfold Parse.stringSegments
      split
      · exact ih
      · exact report_fail

/-- A path that is looked at leaves the reading as it is. -/
theorem packagePath {path : Ref} (proper : u.failures = #[] → path ≠ []) :
    ρ.Yields clear (Parse.packagePath path) u (fun t => t.failures ≠ #[]) fun _ v => v = u := by
  cases path with
  | nil => exact fail fun clean => proper clean rfl
  | cons head path =>
      unfold Parse.packagePath
      rw [List.head?_cons, show ofOption (some head) = Pure.pure head from rfl, pure_bind_iff]
      split
      · exact (stringSegments path).bind (fun _ => id) fun _ _ same => pure same
      · exact report_fail

end Yields

/-! ## Packages

The path of a package is read as a term and looked at afterwards, which moves nothing. -/

/-- Behind the keyword of a clause, terms are none without a path. -/
def Proper (ρ : Route) (g : Grammar) (u : Reading) : Prop :=
  ∀ keyword w, ρ.Names keyword u w → ∀ o depth journal t,
    ((g .term).run ρ.env o ⟨w, depth, journal⟩).1 = some t →
      ((g .term).run ρ.env o ⟨w, depth, journal⟩).2.failures = #[] → t.value ≠ .ref []

/-- What a package clause gives, and where it leads. -/
theorem package_yields (h : Keeps g) (seated : ρ.Seated u) (proper : ρ.Proper g u) :
    ρ.Yields (ρ.Clear u ∧ ρ.Calls .packageKw u) (Parse.package g) u (ρ.Stays .packageKw u) fun _ v =>
      ∃ w, ρ.Names .packageKw u w ∧ ρ.Goes w v ∧ w.look.offset < v.look.offset := by
  unfold Parse.package
  rw [Yields.location_iff]
  refine Yields.clause_bind And.right (fun _ => id) rfl fun w names => ?_
  -- with no failure reported, the term read here is no empty path
  have term : ρ.Yields (ρ.Clear u ∧ ρ.Calls .packageKw u) (g .term) w (ρ.Goes w) fun t v =>
      (ρ.Goes w v ∧ w.look.offset < v.look.offset) ∧ (v.failures = #[] → t.value ≠ .ref []) :=
    fun o depth journal => by
    obtain ⟨goes, ahead, same⟩ := h.term ρ (names.seated seated) o depth journal
    exact ⟨fun _ => goes, fun t result => ⟨⟨goes, ahead t result⟩, proper _ w names o depth journal t result⟩,
      fun there => same (there.1.onward fun _ _ strict spaced => names.spaced strict spaced seated)⟩
  refine .attempt_bind term (fun t _ => ?_) fun t v ⟨there, proper⟩ => ?_
  · exact Yields.missingPath.weaken (fun _ => .failed) fun _ _ holds => holds
  · have ended {path : Parse Ref} {place : Location}
        (tracks : ρ.Yields (ρ.Clear u ∧ ρ.Calls .packageKw u) path v (fun t => t.failures ≠ #[]) fun _ v' => v' = v) :
        ρ.Yields (ρ.Clear u ∧ ρ.Calls .packageKw u) (do
          let path ← path
          return (⟨path, some (← upToLastStop place)⟩ : Package)) v (ρ.Stays .packageKw u) fun _ v =>
            ∃ w, ρ.Names .packageKw u w ∧ ρ.Goes w v ∧ w.look.offset < v.look.offset :=
      tracks.bind (fun _ => .failed) fun path t same => by
        subst same
        rw [Yields.upToLastStop_iff]
        exact .pure ⟨w, names, there⟩
    dsimp only
    split
    · exact ended (Yields.packagePath fun _ => List.cons_ne_nil _ _)
    · next path ref => exact ended (Yields.packagePath fun clean none => proper clean (none ▸ ref))
    · exact Yields.unexpected_fail.weaken (fun _ => .failed) fun _ _ holds => holds

/-- Behind a package clause the parser is beyond its keyword. -/
theorem package_strides (h : Keeps g) (seated : ρ.Seated u) :
    ρ.Yields False (Parse.package g) u (fun _ => True) fun _ v => u.look.offset < v.look.offset := by
  unfold Parse.package
  rw [Yields.location_iff]
  refine Yields.clause_bind False.elim (fun _ _ => trivial) rfl fun w names => ?_
  have term : ρ.Yields False (g .term) w (fun _ => True) fun _ v => u.look.offset < v.look.offset :=
    .of_takes (h.term ρ (names.seated seated)) False.elim (fun _ _ => trivial)
      fun _ _ _ ahead => (names.strides seated (by decide)).trans ahead
  refine .attempt_bind term (fun t _ => Yields.missingPath.weaken (fun _ _ => trivial) fun _ _ holds => holds)
    fun t v ahead => ?_
  -- the path of a reference has a head, or reading the clause fails
  have path (r : Ref) : ρ.Yields False (Parse.packagePath r) v (fun _ => True) fun _ v' => v' = v := by
    cases r with
    | nil => exact .fail trivial
    | cons head r =>
        exact (Yields.packagePath fun _ => List.cons_ne_nil head r).weaken (fun _ _ => trivial)
          fun _ _ same => same
  have ended {x : Parse Ref} {place : Location}
      (stays : ρ.Yields False x v (fun _ => True) fun _ v' => v' = v) :
      ρ.Yields False (do
        let path ← x
        return (⟨path, some (← upToLastStop place)⟩ : Package)) v (fun _ => True)
        fun _ v => u.look.offset < v.look.offset :=
    stays.bind (fun _ _ => trivial) fun path t same => by
      subst same
      rw [Yields.upToLastStop_iff]
      exact .pure ahead
  dsimp only
  split
  · exact ended (path _)
  · exact ended (path _)
  · exact Yields.unexpected_fail.weaken (fun _ _ => trivial) fun _ _ holds => holds

/-! ## Imports

The path of an import is read with fewer words reserved; the reading of it is narrowed, and closed again
behind it. -/

/-- A reading with no word of the future reserved, in which nothing is remembered. -/
def Narrowed (u : Reading) : Reading := Takes.Under (·.withoutKeywords .future) u

/-- With fewer words reserved the parser is seated. -/
theorem seated_narrowed (h : ρ.Seated u) : ρ.Seated (Narrowed u) := by
  obtain ⟨c, at', solid⟩ := h.look
  exact ⟨⟨c, { at' with known := at'.known.removeAll .future }, solid⟩, fun _ he => absurd he List.not_mem_nil⟩

/-- With the words from before the parser is seated again. -/
theorem seated_closed (h : ρ.Seated u) (h' : ρ.Seated x) : ρ.Seated (Takes.Closed u x) := by
  obtain ⟨c, at', -⟩ := h.look
  obtain ⟨d, at'', solid⟩ := h'.look
  exact ⟨⟨d, { at'' with known := at'.known }, solid⟩, h.memo⟩

/-- The path of a clause has been read with no word of the future reserved. -/
structure Narrows (ρ : Route) (w x : Reading) : Prop where
  goes : ρ.Goes (Narrowed w) x
  strides : w.look.offset < x.look.offset

/-- The parser has gone on to a name, and has read it. -/
structure Renames (ρ : Route) (u v : Reading) : Prop where
  asKw : u.look.token = .asKw
  ident : (u.passing ρ.env true).look.token = .ident
  goes : ρ.Goes (u.passing ρ.env true) v
  strides : (u.passing ρ.env true).look.offset < v.look.offset

/-- What is left of a reading is the same in another one, errors and advice aside. -/
structure Same (u v : Reading) : Prop where
  memo : v.memo = u.memo
  look : ∃ hints, v.look = { u.look with hints }

/-- A reading is the same as itself. -/
theorem Same.refl (u : Reading) : Same u u := ⟨rfl, _, rfl⟩

/-- To report leaves a reading the same. -/
theorem Same.reporting (u : Reading) (problem : Problem) (place : Location) :
    Same u (u.reporting problem place) := ⟨rfl, _, rfl⟩

/-- What an import clause leaves, words that it reserves aside. -/
inductive Imports (ρ : Route) (u : Reading) : Import → Reading → Prop
  | plain {w x v : Reading} {path : Term} {place : Option Location} :
      ρ.Names .importKw u w → ρ.Narrows w x → Same (Takes.Closed w x) v →
      Imports ρ u ⟨path, none, place⟩ v
  | renamed {w x v : Reading} {path : Term} {name : String} {place : Option Location} :
      ρ.Names .importKw u w → ρ.Narrows w x → ρ.Renames (Takes.Closed w x) v →
      Imports ρ u ⟨path, some name, place⟩ v

/-- An import clause starts with its keyword. -/
theorem Imports.importKw {i : Import} (h : ρ.Imports u i v) : u.look.token = .importKw := by
  cases h with
  | plain names | renamed names => exact names.keyword

section imports

variable (h : Keeps g)

include h

/-- The path of an import has been read with fewer words reserved. -/
theorem importPath_yields (seated : ρ.Seated w) :
    ρ.Yields (ρ.Clear (Narrowed w)) (Parse.importPath g) w (fun t => t.failures ≠ #[]) fun _ v =>
      ∃ x, ρ.Narrows w x ∧ v = Takes.Closed w x := by
  have read : ρ.Yields (ρ.Clear (Narrowed w)) (withoutFutureKeywords (Parse.attempt (g .term))) w
      (fun _ => False) fun a v =>
        (∃ x, v = Takes.Closed w x) ∧ (a.isSome → ∃ x, ρ.Narrows w x ∧ v = Takes.Closed w x) :=
    -- under the table without words of the future, and behind it under the one that was there
    fun o depth journal => by
    obtain ⟨goes, ahead, same⟩ := (h.term ρ (seated_narrowed seated)).attempt o depth journal
    have run (env : Env) := Takes.run_withKeywords (u := w) (·.withoutKeywords .future)
      (Parse.attempt (g .term)) env o depth journal
    unfold withoutFutureKeywords
    rw [run, run]
    refine ⟨fun none => (by cases none), fun a result => ⟨⟨_, rfl⟩, fun given => ?_⟩, fun clear => ?_⟩
    · obtain ⟨t, rfl⟩ := Option.isSome_iff_exists.1 given
      exact ⟨_, ⟨goes, ahead _ result t rfl⟩, rfl⟩
    · have same := same clear
      rw [Narrowed] at same
      rw [same]
  unfold Parse.importPath
  refine read.bind (fun _ => False.elim) fun a v ⟨_, given⟩ => ?_
  split
  · have there := given rfl
    split
    · exact .pure there
    · exact (Yields.stringSegments _).bind (fun _ => id) fun _ _ same => .pure (same ▸ there)
    · exact Yields.reportHere_fail
  · exact Yields.missingPath

/-- The name of an import has been read behind its word. -/
theorem importAlias_yields (seated : ρ.Seated u) (asKw : u.look.token = .asKw) :
    ρ.Yields (ρ.Clear (u.passing ρ.env true)) (Parse.importAlias g) u (fun t => t.failures ≠ #[])
      fun _ v => ρ.Renames u v := by
  unfold Parse.importAlias
  rw [Yields.scan_iff, Yields.token_iff]
  split
  · exact Yields.unexpected_fail
  · next ident =>
      have ident : (u.passing ρ.env true).look.token = .ident := by simpa using ident
      have term : ρ.Yields (ρ.Clear (u.passing ρ.env true)) (g .term) (u.passing ρ.env true) (fun _ => True)
          fun _ v => ρ.Renames u v :=
        .of_takes (h.term ρ (seated.passing true)) id (fun _ _ => trivial)
          fun _ _ goes ahead => ⟨asKw, ident, goes, ahead⟩
      refine .attempt_bind term (fun t _ => Yields.unexpected_fail) fun t v there => ?_
      split
      · exact .pure there
      · exact Yields.unexpected_fail

omit h in
/-- The last segment that is looked at leaves the reading the same. -/
theorem checkLastSegment_yields (path : Term) (r : Ref) :
    ρ.Yields True (Parse.checkLastSegment path r) u (fun _ => False) fun _ v =>
      Same u v ∧ Grows u.failures v.failures := by
  unfold Parse.checkLastSegment
  refine Yields.env_bind (fun _ => by simp only [ρ.alike.version]) ?_
  split
  · rw [Yields.hint_iff]
    exact fun _ _ _ => ⟨fun none => (by cases none), fun _ _ => ⟨⟨rfl, _, rfl⟩, .push _ _⟩, fun _ => rfl⟩
  · exact .pure ⟨.refl u, .refl _⟩

/-- Behind the path of an import there may be a name. -/
theorem importEnd_yields (seated : ρ.Seated u) (place : Location) (path : Term) (r : Ref) :
    ρ.Yields False (Parse.importEnd g place path r) u (fun t => t.failures ≠ #[]) fun i v =>
      Grows u.failures v.failures ∧ ((∃ l, i = ⟨path, none, l⟩) ∧ Same u v ∨
        (∃ name l, i = ⟨path, some name, l⟩) ∧ ρ.Renames u v) := by
  unfold Parse.importEnd
  dsimp only
  split
  -- -- a root that imports may not begin with is reported
  · rw [Yields.hint_iff]
    exact Yields.report_fail
  · rw [Yields.token_iff]
    split
    -- -- only an alias takes tokens: a clause without a name leaves the reading where it was
    · next asKw =>
        refine ((importAlias_yields h seated (beq_iff_eq.1 asKw)).under False.elim).bind (fun _ => id)
          fun name v renames => ?_
        rw [Yields.upToLastStop_iff]
        exact .pure ⟨.trans ⟨_, rfl⟩ renames.goes.leads.grows.1, .inr ⟨⟨name, _, rfl⟩, renames⟩⟩
    · split
      · refine ((checkLastSegment_yields path r).under False.elim).bind (fun _ => False.elim)
          fun _ v ⟨same, grows⟩ => ?_
        rw [Yields.upToLastStop_iff]
        exact .pure ⟨grows, .inl ⟨⟨_, rfl⟩, same⟩⟩
      · rw [Yields.upToLastStop_iff]
        exact .pure ⟨.refl _, .inl ⟨⟨_, rfl⟩, .refl u⟩⟩

/-- What an import clause gives, and what it leaves. -/
theorem importClause_yields (seated : ρ.Seated u) :
    ρ.Yields False (Parse.importClause g) u (ρ.Stays .importKw u) fun i v => ρ.Imports u i v := by
  rw [Parse.importClause_eq, Yields.location_iff]
  refine Yields.clause_bind False.elim (fun _ => id) rfl fun w names => ?_
  have there := names.seated seated
  refine ((importPath_yields h there).under False.elim).bind (fun _ => .failed) fun p v ⟨x, narrows, same⟩ => ?_
  subst same
  refine (importEnd_yields h (seated_closed there narrows.goes.seated) _ p.1 p.2).weaken (fun _ => .failed)
    fun i v ⟨_, given⟩ => ?_
  rcases given with ⟨⟨l, rfl⟩, same⟩ | ⟨⟨name, l, rfl⟩, renames⟩
  · exact .plain names narrows same
  · exact .renamed names narrows renames

/-- What an import gives, with the words that it reserves. -/
theorem importStatement_yields (seated : ρ.Seated u) (allowed : KeywordTable) :
    ρ.Yields False (Parse.importStatement g allowed) u (ρ.Stays .importKw u) fun i v =>
      ∃ w, ρ.Imports u i w ∧ v = i.applied ρ.env allowed w := by
  refine (importClause_yields h seated).bind (fun _ => id) fun i w imports => ?_
  have applies : ρ.Yields False (Parse.applyImport i allowed) w (fun _ => False)
      fun _ v => v = i.applied ρ.env allowed w := fun o depth journal => by
    rw [run_applyImport]
    exact ⟨fun none => (by cases none), fun _ _ => rfl, False.elim⟩
  exact applies.bind (fun _ => False.elim) fun _ v same => .pure ⟨w, imports, same⟩

end imports

/-! ## Statements

A statement leads somewhere that is told by its kind, and this is all that a run has to know of it. -/

/-- Where a statement leads that could be read, and what it is. -/
inductive Arrives (ρ : Route) (allowed : KeywordTable) (u : Reading) : List Statement → Reading → Prop
  | package {p : Package} {w v : Reading} : ρ.Names .packageKw u w → ρ.Goes w v →
      w.look.offset < v.look.offset → Arrives ρ allowed u [.package p] v
  | imports {i : Import} {w : Reading} : ρ.Imports u i w →
      Arrives ρ allowed u [.importClause i] (i.applied ρ.env allowed w)
  | rules {rs : List Rule} {v : Reading} : ρ.Walks u v → u.look.offset < v.look.offset →
      Arrives ρ allowed u (rs.map .rule) v
  /-- a query, read after an attempt to read rules -/
  | query {b : Body} {t v : Reading} : ρ.Lost u t → t.failures.size ≤ u.failures.size →
      ρ.Goes (u.resumed t) v → u.look.offset < v.look.offset → Arrives ρ allowed u [.body b] v

section statements

variable {allowed : KeywordTable} {α : Type} {clear : Prop}

/-- Of two attempts the second one starts where the first one did. -/
theorem orElse_yields {x y : Parse α} {F : Reading → Prop} {Q : α → Reading → Prop}
    (first : ρ.Yields clear x v F Q) (since : ∀ t, F t → t.failures = #[] → ρ.unbound.Leads u t)
    (second : ∀ t, F t → t.failures = #[] → ρ.Yields clear y (u.resumed t) (fun _ => True) Q) :
    ρ.Yields clear (Parse.orElse u.save x y) v (fun _ => True) Q := by
  unfold Parse.orElse
  refine .attempt_bind first (fun t lost => ?_) fun a t holds => .pure holds
  rw [Yields.noFailures_iff]
  split
  · next none =>
      have none := Array.isEmpty_iff.1 none
      exact .restore_bind (since t lost none) (second t lost none)
  · exact .fail trivial

/-- A clause that is none leaves the parser where it was. -/
theorem Stays.resumed {keyword : Token} (h : ρ.Stays keyword u t) (clean : t.failures = #[]) :
    ρ.unbound.Leads u t ∧ u.resumed t = u := by
  cases h with
  | here _ => exact ⟨.refl _, rfl⟩
  | behind _ => exact ⟨.pass false trivial, rfl⟩
  | failed failed => exact absurd clean failed

variable (h : Keeps g) (carries : Carries g)

include h

/-- A query, read behind rules that were none. -/
theorem queryStatement_yields (seated : ρ.Seated u) (lost : ρ.Lost u t)
    (clean : t.failures.size ≤ u.failures.size) :
    ρ.Yields (ρ.Clear u) (Parse.queryStatement g) (u.resumed t) (fun _ => True) (ρ.Arrives allowed u) := by
  have there : ρ.Seated (u.resumed t) := seated.resumed (lost.seated seated)
  have back : ρ.Clear u → ρ.Clear (u.resumed t) := fun clear => clear.onward fun _ _ strict spaced =>
    spaced.resumed (lost.spaced strict spaced seated)
  unfold Parse.queryStatement
  exact .moves (h.query there true .eof) back (fun _ _ => trivial) fun b v goes ⟨_, ahead⟩ =>
    .pure (.query lost clean goes ahead)

include carries

/-- Rules, or else a query. -/
theorem definitionStatement_yields (seated : ρ.Seated u) (skipRules : Bool) :
    ρ.Yields (ρ.Clear u) (Parse.definitionStatement g skipRules u.save) u (fun _ => True)
      (ρ.Arrives allowed u) := by
  unfold Parse.definitionStatement
  split
  · exact queryStatement_yields h seated (.treads (.refl u)) (Nat.le_refl _)
  · have rules : ρ.Yields (ρ.Clear u) (do return (← Parse.rules g).map Statement.rule) u (ρ.Lost u)
        (ρ.Arrives allowed u) :=
      Yields.bind (Carries.rules h carries seated) (fun _ => id) fun rs v ⟨walks, ahead⟩ => .pure (.rules walks ahead)
    exact orElse_yields rules (fun t lost _ => lost.unbound) fun t lost clean =>
      queryStatement_yields h seated lost (clean ▸ Nat.zero_le _)

/-- A reading from which a statement is the same for both tasks. -/
structure Even (ρ : Route) (u : Reading) : Prop where
  clear : ρ.Clear u
  calls : ρ.Calls .packageKw u
  other : u.look.token ≠ .importKw

/-- What a statement gives, and where it leads; and where no import clause starts, a task that is alike
reads the same. -/
theorem statement_yields (seated : ρ.Seated u) (proper : ρ.Proper g u) (skipRules : Bool) :
    ρ.Yields (ρ.Even u) (Parse.statement g skipRules allowed) u
      (fun _ => True) (ρ.Arrives allowed u) := by
  have package : ρ.Yields (ρ.Even u) (do
      return [Statement.package (← Parse.package g)]) u (ρ.Stays .packageKw u) (ρ.Arrives allowed u) :=
    Yields.bind ((package_yields h seated proper).under fun even => ⟨even.clear, even.calls⟩) (fun _ => id)
      fun p v ⟨w, names, goes, ahead⟩ => .pure (.package names goes ahead)
  have importClause : ρ.Yields (ρ.Even u) (do
      return [Statement.importClause (← Parse.importStatement g allowed)]) u (ρ.Stays .importKw u)
        (ρ.Arrives allowed u) := by
    -- at another token the clause fails at once
    by_cases importKw : u.look.token = .importKw
    · refine Yields.bind ((importStatement_yields h seated allowed).under fun even => even.other importKw) (fun _ => id)
        fun i v ⟨w, imports, same⟩ => ?_
      subst same
      exact .pure (.imports imports)
    · unfold Parse.importStatement Parse.importClause clauseKeyword
      simp only [Yields.bind_bind_iff, Yields.location_iff, Yields.token_iff]
      rw [if_pos (by simpa using importKw)]
      exact Yields.fail (.here importKw)
  have definition : ρ.Yields (ρ.Even u)
      (Parse.definitionStatement g skipRules u.save) u (fun _ => True) (ρ.Arrives allowed u) :=
    (definitionStatement_yields h carries seated skipRules).under Even.clear
  -- a statement that was not there has left the state as it was
  have again {keyword : Token} {y : Parse (List Statement)}
      (yields : ρ.Yields (ρ.Even u) y u (fun _ => True) (ρ.Arrives allowed u)) (t : Reading)
      (stays : ρ.Stays keyword u t) (clean : t.failures = #[]) :
      ρ.Yields (ρ.Even u) y (u.resumed t) (fun _ => True) (ρ.Arrives allowed u) := by
    rwa [(stays.resumed clean).2]
  unfold Parse.statement
  rw [Yields.save_iff]
  exact orElse_yields package (fun t stays clean => (stays.resumed clean).1) <| again <|
    orElse_yields importClause (fun t stays clean => (stays.resumed clean).1) <| again definition

end statements

end Route

end RegoSyntax
