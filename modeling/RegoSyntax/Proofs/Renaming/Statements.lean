/-
# RegoSyntax.Proofs.Renaming.Statements — statements in step.

Paths of packages and imports are variables and strings.  Which words an import reserves depends on names of
the language only, so two parsers that have read alike imports reserve the same words.

A statement is a package clause, an import clause, rules or a query.  The first two have paths in which a
variable may stand where a text is expected; `headVar_beq` and `getLast?` say that such a path is judged
alike on both sides, and `AlikeWords` that the words to reserve are the same or that the problems are
alike.

`regoWords_string` and `futureWords_string` restate two functions of the parser by the segment behind the
root of the path, which is how a proof by cases on alike paths meets them.
-/
import RegoSyntax.Proofs.Clauses
import RegoSyntax.Proofs.Renaming.Rules

namespace RegoSyntax

open Parse

/-- An import of future words, by the segment behind the root. -/
theorem futureWords_string (i : Import) (t : Term) (word : String) (l : Option Location) (rest : Ref)
    (allowed : KeywordTable) : futureWords i (t :: ⟨.string word, l⟩ :: rest) allowed =
      if word = "keywords" then
        if i.localName.isSome then .error .futureImportAlias
        else
          match rest with
          | [] => .ok allowed.words
          | [⟨.string word, _⟩] =>
            if allowed.contains word then .ok [word] else .error (.futureImportUnknown allowed.words)
          | _ => .error .futureImportShape
      else .error .futureImportPath := by
  split
  · next same =>
      subst same
      rfl
  -- -- under another word than `keywords` the last case is left, whatever follows
  · next other =>
      unfold futureWords
      split
      · next same =>
          cases same
          exact absurd rfl other
      · rfl

/-- An import of a version, by the segment behind the root. -/
theorem regoWords_string (i : Import) (t : Term) (word : String) (l : Option Location)
    (env : Env) : regoWords i [t, ⟨.string word, l⟩] env =
      if !env.capabilities.hasFeature Capabilities.regoV1Import &&
        !env.capabilities.hasFeature Capabilities.regoV1 then .error .regoImportUnsupported
      else if word = "v1" then
        if env.version == .v1 then .ok []
        else if i.localName.isSome then .error .regoImportAlias
        else .ok KeywordTable.future.words
      else .error (.regoImportPath i.path.render) := by
  unfold regoWords
  split
  · rfl
  · split
    · next same =>
        cases same
        rfl
    · next other =>
        rw [if_neg]
        rintro rfl
        exact other _ _ rfl
/-! ## Alike imports

An import has a path and perhaps a name.  Which words it reserves is told by these, and quotes no name of
a wildcard. -/

/-- Alike imports: their paths and their names are. -/
structure Import.Alike (N : Nat → Nat → Prop) (i j : Import) : Prop where
  path : i.path.Alike N j.path
  localName : Option.Rel (AlikeName N) i.localName j.localName
  location : i.location = j.location

section

variable {N : Nat → Nat → Prop}

/-- Alike imports are alike statements. -/
theorem Import.Alike.statement {i j : Import} (alike : i.Alike N j) :
    (Statement.importClause i).Alike N (.importClause j) := by
  obtain ⟨p, a, l⟩ := i
  obtain ⟨q, b, m⟩ := j
  obtain ⟨path, localName, location⟩ := alike
  obtain rfl : l = m := location
  exact .importClause l path localName

/-- Names are compared alike with a name of the language. -/
theorem AlikeTerms.headVar_beq {p q : Ref} (alike : AlikeTerms N p q) {name : String}
    (plain : isWildcardName name = false) :
    (Ref.headVar? p == some name) = (Ref.headVar? q == some name) := by
  have head := alike.headVar?
  generalize Ref.headVar? p = a at head ⊢
  generalize Ref.headVar? q = b at head ⊢
  cases head with
  | some n => exact n.beq_plain plain
  | none => rfl

/-- The last segment of alike paths is the same text, if it is a text. -/
theorem AlikeTerms.getLast? {p q : Ref} (alike : AlikeTerms N p q) :
    p.getLast?.bind (·.value.string?) = q.getLast?.bind (·.value.string?) :=
  match alike with
  | .nil => rfl
  | .cons t .nil => t.value.string?
  | .cons _ (.cons u rest) => by
      rw [List.getLast?_cons_cons, List.getLast?_cons_cons]
      exact (AlikeTerms.cons u rest).getLast?

/-- Alike values are alike paths, or are none. -/
theorem Value.Alike.ref? {v w : Value} (alike : v.Alike N w) :
    AlikeTerms N (v.ref?.getD []) (w.ref?.getD []) := by
  cases alike with
  | ref terms => exact terms
  | _ => exact .nil

/-- What alike imports reserve, or alike problems. -/
inductive AlikeWords (N : Nat → Nat → Prop) :
    Except Problem (List String) → Except Problem (List String) → Prop where
  | ok (words : List String) : AlikeWords N (.ok words) (.ok words)
  | error {p q : Problem} : p.Alike N q → AlikeWords N (.error p) (.error q)

/-- Alike imports of future words reserve the same words. -/
theorem AlikeTerms.futureWords {p q : Ref} (alike : AlikeTerms N p q) {i j : Import}
    (imports : i.Alike N j) (allowed : KeywordTable) :
    AlikeWords N (Parse.futureWords i p allowed) (Parse.futureWords j q allowed) := by
  obtain _ | ⟨-, _ | ⟨@⟨v, w, l, value⟩, rest⟩⟩ := alike
  · exact .error (.same _)
  · exact .error (.same _)
  cases value with
  | string word =>
      rw [futureWords_string, futureWords_string, rel_isSome imports.localName]
      split
      · split
        · exact .error (.same _)
        -- all words are asked for, or one by its name
        · obtain _ | ⟨@⟨v, w, l, value⟩, _ | _⟩ := rest
          · exact .ok _
          · cases value with
            | string word =>
                dsimp only
                split
                · exact .ok _
                · exact .error (.same _)
            | _ => exact .error (.same _)
          · cases value <;> exact .error (.same _)
      · exact .error (.same _)
  | _ => exact .error (.same _)

/-- Alike imports of a version reserve the same words; whether imports are suggested has no say in it. -/
theorem AlikeTerms.regoWords {p q : Ref} (alike : AlikeTerms N p q) {i j : Import}
    (imports : i.Alike N j) (env : Env) (suggests : Bool) :
    AlikeWords N (Parse.regoWords i p env)
      (Parse.regoWords j q { env with suggestImports := suggests }) := by
  have path : (Problem.regoImportPath i.path.render).Alike N (.regoImportPath j.path.render) :=
    .regoImportPath imports.path.render
  -- a path of another length is no path of a version
  have other {p q : Ref} (left : ∀ t word l, p ≠ [t, ⟨.string word, l⟩])
      (right : ∀ t word l, q ≠ [t, ⟨.string word, l⟩]) :
      AlikeWords N (Parse.regoWords i p env)
        (Parse.regoWords j q { env with suggestImports := suggests }) := by
    unfold Parse.regoWords
    split
    · exact .error (.same _)
    · split
      · exact absurd rfl (left _ _ _)
      · split
        · exact absurd rfl (right _ _ _)
        · exact .error path
  obtain _ | ⟨-, _ | ⟨@⟨v, w, l, value⟩, _ | _⟩⟩ := alike
  · exact other (by simp) (by simp)
  · exact other (by simp) (by simp)
  · cases value with
    | string word =>
        rw [regoWords_string, regoWords_string, rel_isSome imports.localName]
        split
        · exact .error (.same _)
        · split
          · split
            · exact .ok _
            · split
              · exact .error (.same _)
              · exact .ok _
          · exact .error path
    | _ => exact other (by simp) (by simp)
  · exact other (by simp) (by simp)

end

namespace Twins.InStep

variable {τ : Twins} {F : Floor} {N : Pairing} {g g' : Grammar} {t u : Term} {p q : Ref}
  {α β : Type} {Q : Pairing → α → β → Prop}

/-! ## Beginnings

A clause starts with a keyword and with a name; both parsers see the same token there. -/

/-- The word of a clause is passed, with the blanks behind it. -/
theorem clauseKeyword {keyword : Token} {f : Unit → Parse α} {f' : Unit → Parse β}
    (rest : τ.InStep F N (f ()) (f' ()) Q) :
    τ.InStep F N (Parse.clauseKeyword keyword >>= f) (Parse.clauseKeyword keyword >>= f') Q := by
  unfold Parse.clauseKeyword
  simp only [bind_assoc]
  refine token fun kind => ?_
  split
  · exact fail
  · simp only [bind_assoc]
    refine scanBlank (token fun kind => ?_)
    split
    · exact fail
    · exact scan rest

/-- A clause without a path is reported alike. -/
theorem missingPath {R : Pairing → α → β → Prop} :
    τ.InStep F N Parse.missingPath Parse.missingPath R := by
  refine noFailures fun clean => ?_
  split
  · exact reportHere (.same _) fail
  · exact fail

/-- Segments that have to be strings. -/
theorem stringSegments (alike : AlikeTerms N.pairs p q) {f : Unit → Parse α} {f' : Unit → Parse β}
    (rest : τ.InStep F N (f ()) (f' ()) Q) :
    τ.InStep F N (Parse.stringSegments p >>= f) (Parse.stringSegments q >>= f') Q := by
  induction p generalizing q with
  | nil =>
      cases alike
      exact rest
  | cons t p ih =>
      obtain _ | ⟨first, others⟩ := alike
      unfold Parse.stringSegments
      rw [first.value.string?, first.place, first.value.kind]
      split
      · exact ih others
      · rw [bind_assoc, bind_assoc]
        exact report (.same _) fail

/-! ## Packages

The name of a package may be a wildcard: then its name is stored as a text, and differs on the two sides.
-/

/-- The path of a package is called by the name that it starts with. -/
theorem packagePath {place : Location} (alike : AlikeTerms N.pairs p q) :
    τ.InStep F N
      (do return (⟨← Parse.packagePath p, some (← Parse.upToLastStop place)⟩ : Package))
      (do return (⟨← Parse.packagePath q, some (← Parse.upToLastStop place)⟩ : Package))
      fun M a b => (Statement.package a).Alike M.pairs (.package b) := by
  obtain _ | ⟨@⟨v, w, l, value⟩, rest⟩ := alike
  · exact fail
  · unfold Parse.packagePath
    dsimp only [List.head?, Parse.ofOption]
    rw [pure_bind, pure_bind]
    cases value with
    | var name =>
        simp only [bind_assoc, pure_bind]
        exact stringSegments rest (upToLastStop fun l => pure (.package name rest))
    | _ =>
        simp only [bind_assoc]
        exact report (.same _) fail

/-- A package clause is read in step. -/
theorem package (follows : τ.Follows g g') :
    τ.InStep F N (Parse.package g) (Parse.package g') fun M a b =>
      (Statement.package a).Alike M.pairs (.package b) := by
  refine location fun place => clauseKeyword (isIdent fun word => ?_)
  split
  · exact unexpected (.same _) fail
  · refine trying follows.term (fun M t u le alike => ?_) fun M le => missingPath
    obtain @⟨v, w, l, value⟩ := alike
    cases value with
    | var name => exact packagePath (.one (.mk (.var name)))
    | ref path => exact packagePath path
    | _ => exact unexpected (.same _) fail

/-! ## Imports

The path of an import is made of texts behind a root, and a wildcard can only be its name. -/

/-- The path of an import is a term that is taken as a path. -/
theorem importPath (follows : τ.Follows g g') :
    τ.InStep F N (Parse.importPath g) (Parse.importPath g') fun M a b =>
      a.1.Alike M.pairs b.1 ∧ AlikeTerms M.pairs a.2 b.2 := by
  refine bind (withoutFutureKeywords (attempt follows.term)) fun M t u le read => ?_
  cases read with
  | none => exact missingPath
  | some alike =>
      obtain @⟨v, w, l, value⟩ := alike
      cases value with
      | var name =>
          have path : AlikeTerms M.pairs _ _ := .one (.mk (l := l) (.var name))
          exact pure ⟨.mk (.ref path), path⟩
      | ref path => exact stringSegments path.tail (pure ⟨.mk (.ref path), path⟩)
      | _ => exact reportHere (.same _) fail

/-- The name of an import is the name of a variable. -/
theorem importAlias (follows : τ.Follows g g') :
    τ.InStep F N (Parse.importAlias g) (Parse.importAlias g') fun M => AlikeName M.pairs := by
  refine scan (token fun kind => ?_)
  split
  · exact unexpected (.same _) fail
  · refine trying follows.term (fun M t u le alike => ?_) fun M le => reject (.same _)
    obtain @⟨v, w, l, value⟩ := alike
    cases value with
    | var name => exact pure name
    | _ => exact reject (.same _)

/-- An import without a name is reported where its last segment cannot be one. -/
theorem checkLastSegment (path : t.Alike N.pairs u) (alike : AlikeTerms N.pairs p q)
    {f : Unit → Parse α} {f' : Unit → Parse β} (rest : τ.InStep F N (f ()) (f' ()) Q) :
    τ.InStep F N (Parse.checkLastSegment t p >>= f) (Parse.checkLastSegment u q >>= f') Q := by
  unfold Parse.checkLastSegment
  rw [alike.getLast?, alike.length, path.place]
  simp only [bind_assoc]
  refine env ?_
  have same (word : String) : τ.env'.version.reserves word = τ.env.version.reserves word := rfl
  rw [same]
  split
  · rw [bind_assoc, bind_assoc]
    exact hint (report (.importEndsInKeyword path.render) rest)
  · exact rest

/-- An import clause is read in step, with its name or without. -/
theorem importClause (follows : τ.Follows g g') :
    τ.InStep F N (Parse.importClause g) (Parse.importClause g') fun M => Import.Alike M.pairs := by
  refine location fun place => clauseKeyword (isIdent fun word => ?_)
  split
  · exact unexpected (.same _) fail
  · refine bind (importPath follows) fun M a b le read => ?_
    obtain ⟨t, p⟩ := a
    obtain ⟨u, q⟩ := b
    obtain ⟨path, alike⟩ : t.Alike M.pairs u ∧ AlikeTerms M.pairs p q := read
    -- the root of the path is shown in the report, and decides whether there is one
    have root : AlikeText M.pairs ((p.head?.map Term.render).getD "")
        ((q.head?.map Term.render).getD "") := by
      cases alike with
      | nil => exact .same _
      | cons head _ => exact head.render
    have future := congrArg (!·) (root.beq_unmarked (s := futureRoot) (by decide))
    dsimp only at future ⊢
    rw [← bne, ← bne] at future
    rw [root.contains (by decide), future, path.place]
    split
    -- roots other than the two that are known are reported
    · exact hint (report (.importRoot root) fail)
    · refine token fun kind => ?_
      split
      · refine bind (importAlias follows) fun L a b le name => upToLastStop fun l => pure ?_
        exact ⟨path.mono le.more, .some name, rfl⟩
      · split
        · exact checkLastSegment path alike (upToLastStop fun l => pure ⟨path, .none, rfl⟩)
        · exact upToLastStop fun l => pure ⟨path, .none, rfl⟩

/-! ### Words that imports reserve

Reserving is a step of its own, behind the clause; the tables stay equal on both sides. -/

/-- Only words of the language are reserved. -/
theorem reserve {allowed : KeywordTable} (known : allowed.Known) (words : List String) :
    τ.InStep F N (Parse.reserve allowed words) (Parse.reserve allowed words) fun _ _ _ => True :=
  fun s s' meets => by
    obtain ⟨hints, same⟩ := meets.look
    obtain ⟨c, at', solid⟩ := meets.ok
    obtain ⟨table, knows, scanner⟩ := s.look.scanner.reserve_known known words at'.known
    refine .gives le_rfl { meets with
      look := ⟨hints, ?_⟩
      ok := ?_ } trivial
    · show ({ s'.look with scanner := _ } : Look) = _
      rw [same]
    · exact (congrArg (fun scanner => Look.Ok τ.source { s.look with scanner }) scanner).mpr
        ⟨c, { at' with known := knows }, solid⟩

/-- Words are reserved from a table, or what is wrong is reported. -/
theorem reserveOrReport {table : KeywordTable} (known : table.Known) {a b : Except Problem (List String)}
    (words : AlikeWords N.pairs a b) (place : Location) :
    τ.InStep F N
      (match a with
        | .ok words => Parse.reserve table words
        | .error problem => Parse.report place problem)
      (match b with
        | .ok words => Parse.reserve table words
        | .error problem => Parse.report place problem) fun _ _ _ => True := by
  cases words with
  | ok words => exact reserve known words
  | error problem => exact last (report problem (pure trivial))

/-- What an import reserves is reserved on both sides, or reported on both. -/
theorem applyImport {allowed : KeywordTable} (known : allowed.Known) {i j : Import}
    (alike : i.Alike N.pairs j) :
    τ.InStep F N (Parse.applyImport i allowed) (Parse.applyImport j allowed) fun _ _ _ => True := by
  have path := alike.path.value.ref?
  unfold Parse.applyImport
  dsimp only
  rw [path.headVar_beq (by decide), path.headVar_beq (by decide), alike.path.place]
  split
  · refine env (reserveOrReport KeywordTable.known_future (path.regoWords alike τ.env τ.suggests) _)
  · split
    · exact reserveOrReport known (path.futureWords alike allowed) _
    · exact pure trivial

/-- An import clause is read, and then takes effect. -/
theorem importStatement (follows : τ.Follows g g') {allowed : KeywordTable} (known : allowed.Known) :
    τ.InStep F N (Parse.importStatement g allowed) (Parse.importStatement g' allowed) fun M =>
      Import.Alike M.pairs :=
  bind (importClause follows) fun _ _ _ _ alike => bind (applyImport known alike) fun _ _ _ le _ =>
    pure ⟨alike.path.mono le.more, rel_mono (fun _ _ => AlikeName.mono le.more) alike.localName,
      alike.location⟩

/-! ## Statements

The second reading of a statement is asked for on both sides or on neither, since both have reported
errors or none. -/

variable {s s' : Snapshot}

/-- Two readings from a place, of which the second one is for where the first one fails without an
error. -/
theorem orElse {R : Pairing → α → β → Prop} {x y : Parse α} {x' y' : Parse β}
    (saved : τ.Saved F N s s') (first : τ.InStep F N x x' R)
    (second : ∀ M, N ≤ M → τ.InStep F M y y' R) :
    τ.InStep F N (Parse.orElse s x y) (Parse.orElse s' x' y') R := by
  refine trying first (fun M a b _ result => pure result) fun M le => noFailures fun clean => ?_
  split
  · exact restore (saved.mono le) (second M le)
  · exact fail

/-- A statement that is a query is read in step. -/
theorem queryStatement (follows : τ.Follows g g') :
    τ.InStep F N (Parse.queryStatement g) (Parse.queryStatement g') fun M =>
      List.Forall₂ (Statement.Alike M.pairs) :=
  bind (query follows true .eof) fun _ _ _ _ body => pure (.cons (.body body) .nil)

/-- A statement that is made of rules is read in step. -/
theorem ruleStatements (follows : τ.Follows g g') :
    τ.InStep F N (do return (← Parse.rules g).map .rule) (do return (← Parse.rules g').map .rule)
      fun M => List.Forall₂ (Statement.Alike M.pairs) :=
  bind (rules follows) fun _ _ _ _ rules => pure
    (List.forall₂_map_left_iff.2 (List.forall₂_map_right_iff.2 (rules.imp fun _ _ => .rule)))

/-- Rules are tried first, and a query where they are none. -/
theorem definitionStatement (follows : τ.Follows g g') (skipRules : Bool) (saved : τ.Saved F N s s') :
    τ.InStep F N (Parse.definitionStatement g skipRules s)
      (Parse.definitionStatement g' skipRules s') fun M =>
        List.Forall₂ (Statement.Alike M.pairs) :=
  ite (queryStatement follows) (orElse saved (ruleStatements follows) fun _ _ => queryStatement follows)

/-- A statement is told by its first token. -/
theorem statement (follows : τ.Follows g g') (skipRules : Bool) {allowed : KeywordTable}
    (known : allowed.Known) :
    τ.InStep F N (Parse.statement g skipRules allowed) (Parse.statement g' skipRules allowed) fun M =>
      List.Forall₂ (Statement.Alike M.pairs) := by
  refine save fun G p p' saved => orElse saved ?_ fun L le => orElse (saved.mono le) ?_ fun M le' => ?_
  · exact bind (package follows) fun _ _ _ _ clause => pure (.cons clause .nil)
  · exact bind (importStatement follows known) fun _ _ _ _ clause => pure (.cons clause.statement .nil)
  · exact definitionStatement follows skipRules (saved.mono (le.trans le'))

end Twins.InStep

/-! ## The grammar

The grammar of a depth is put together of that below it, so the two are in step at each depth. -/

namespace Twins

variable {τ : Twins} {g g' : Grammar}

/-- One more level of the grammar keeps the two in step. -/
theorem Follows.rule (follows : τ.Follows g g') : τ.Follows (Parse.rule g) (Parse.rule g') where
  term := .term follows
  reference start head := .reference follows head start
  segments place start path := .segments follows path place start
  elements stop read := .elements follows read stop
  pairs stop read := .pairs follows read stop
  compound keyed := .compound follows keyed
  membership keyed start left := .membership follows keyed left start
  operation tier start left := .operation follows tier left start
  body stop := .body follows stop
  literals oneLine stop read := .literals follows oneLine stop read
  literal := .literal follows
  replacements read := .replacements follows read
  symbols read := .symbols follows read
  alternative head := .alternative follows head
  siblings first read := .siblings follows first read

/-- The grammar is in step with itself, to any depth. -/
theorem follows_grammar (τ : Twins) (n : Nat) : τ.Follows (Parse.grammar n) (Parse.grammar n) := by
  induction n with
  | zero => constructor <;> intros <;> exact .fail
  | succ n ih => exact ih.rule

end Twins

end RegoSyntax
