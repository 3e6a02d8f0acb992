/-
# RegoSyntax.Proofs.Clauses — statements are read formed.

Imports change which words are reserved, and the words of a clause are reserved or free as it goes on.  So
the course of a whole source is the one on which any words may be variables, whatever table of the words of
the language is in force.

The path of an import is read with no word of the future reserved, and so it is formed on the whole course
only, whatever course the rest of the statement is on.  That is why the whole course has all tables of
words of the language (`Course.Wide`).
-/
import Mathlib.Data.List.Chain
import RegoSyntax.Parser
import RegoSyntax.Proofs.Definitions

namespace RegoSyntax

open Parse

/-- Reserving allowed words changes nothing but the words, and all of them are words of the language. -/
theorem Scanner.reserve_known (s : Scanner) {allowed : KeywordTable} (known : allowed.Known)
    (words : List String) (here : s.keywords.Known) : ∃ t : KeywordTable, t.Known ∧
      words.foldl (fun s word =>
        match allowed.get? word with
        | some kind => s.addKeyword word kind
        | none => s) s = { s with keywords := t } := by
  induction words generalizing s with
  | nil => exact ⟨s.keywords, here, rfl⟩
  | cons word words ih =>
      rw [List.foldl_cons]
      split
      · next kind found =>
          obtain ⟨t, there, same⟩ := ih (s.addKeyword word kind) (here.insert (known.get? found))
          exact ⟨t, there, same⟩
      · exact ih s here

/-! ## Statements

What is asked of the statements of a clause, and of what may stand behind what. -/

/-- The path of a package: the root of all packages, a name, and strings. -/
def Package.Formed (p : Package) : Prop :=
  ∃ l m name rest, p.path = ⟨.var dataRoot, l⟩ :: ⟨.string name, m⟩ :: rest ∧
    ∀ t ∈ rest, t.value.string?.isSome = true

/-- The path of an import: a root of imports, and strings. -/
def Import.Formed (i : Import) : Prop :=
  ∃ l name rest, i.path.value = .ref (⟨.var name, l⟩ :: rest) ∧ name ∈ importRoots ∧
    ∀ t ∈ rest, t.value.string?.isSome = true

/-- A statement with all trees in it formed. -/
def Statement.Formed (names : String → Prop) : Statement → Prop
  | .package p => p.Formed
  | .importClause i => i.Formed
  | .rule r => r.Good names
  | .body b => b.Whole names
  | .annotations _ => True

/-- What may stand behind a statement: a rule for a further body stands behind a rule without
alternatives, and has none itself. -/
def Statement.Precedes (s t : Statement) : Prop :=
  ∀ r, t = .rule r → r.isFurther = true → r.elseRule = none ∧ ∃ r', s = .rule r' ∧ r'.elseRule = none

/-- Statements that one statement of a source may give. -/
structure Statement.Clause (names : String → Prop) (ss : List Statement) : Prop where
  formed : ∀ s ∈ ss, s.Formed names
  chain : ss.IsChain Statement.Precedes
  first : ∀ s ∈ ss.head?, ∀ r, s = .rule r → r.isFurther = false

/-- A statement that is no rule stands alone. -/
theorem Statement.clause_single {names : String → Prop} {s : Statement} (formed : s.Formed names)
    (other : ∀ r, s ≠ .rule r) : Statement.Clause names [s] where
  formed _ hs := List.mem_singleton.1 hs ▸ formed
  chain := .singleton s
  first _ hs r same := absurd ((Option.some.inj hs).trans same) (other r)

/-- Rules without alternatives may stand behind each other. -/
theorem Statement.chain_rules {first : Rule} {more : List Rule}
    (single : more ≠ [] → first.elseRule = none) (rest : ∀ r ∈ more, r.elseRule = none) :
    ((first :: more).map Statement.rule).IsChain Statement.Precedes := by
  induction more generalizing first with
  | nil => exact .singleton _
  | cons r more ih =>
      have none : r.elseRule = none := rest r List.mem_cons_self
      rw [List.map_cons, List.map_cons, List.isChain_cons_cons]
      refine ⟨fun r' same _ => ?_, ih (fun _ => none) fun r' hr => rest r' (List.mem_cons_of_mem _ hr)⟩
      obtain rfl := Statement.rule.inj same
      exact ⟨none, first, rfl, single (List.cons_ne_nil _ _)⟩

/-- The rules of one clause, as statements. -/
theorem Rule.Clause.statements {names : String → Prop} {rs : List Rule} (h : Rule.Clause names rs) :
    Statement.Clause names (rs.map .rule) := by
  obtain ⟨first, more, rfl, good, opens, single, rest⟩ := h
  refine ⟨fun s hs => ?_, ?_, fun s hs r same => ?_⟩
  · obtain ⟨r, hr, rfl⟩ := List.mem_map.1 hs
    rcases List.mem_cons.1 hr with rfl | hr
    · exact good
    · exact (rest r hr).1
  · exact Statement.chain_rules single fun r hr => (rest r hr).2.1
  · obtain rfl : Statement.rule first = s := Option.some.inj hs
    cases same
    exact opens

namespace Course

/-- The course on which any word may be a variable. -/
def whole (source : String) (env : Env) : Course where
  source
  env
  table := KeywordTable.Known
  names _ := True
  known := id
  extend known := known.extend KeywordTable.known_future
  free _ _ := trivial

variable {k : Course} {g : Grammar} {r u w : Reading}

namespace Keeps

/-! ## The whole grammar

All productions keep to what they are to give, by induction on the depth. -/

/-- The productions keep to what they are to give, if those below do. -/
theorem rule (h : k.Keeps g) : k.Keeps (Parse.rule g) := fun _ p _ fine =>
  match p with
  | .term => (term h fine).weaken fun _ _ _ _ given _ => given
  | .reference head start => (reference h fine head start).weaken fun _ _ _ _ given ok =>
      given ok.1 ok.2
  | .segments place start path => segments h fine place start path
  | .elements stop read => (elements h fine stop read).weaken fun _ _ _ _ given _ => given
  | .pairs stop read => (pairs h fine stop read).weaken fun _ _ _ _ given _ => given
  | .compound keyed => (compound h fine keyed).weaken fun _ _ _ _ given _ => given
  | .membership keyed left start => membership h fine keyed left start
  | .operation tier left start => operation h fine tier left start
  | .body stop => (body h fine stop).weaken fun _ _ _ _ given _ => given
  | .literals oneLine stop read => literals h fine oneLine stop read
  | .literal => (literal h fine).weaken fun _ _ _ _ given _ => given
  | .replacements read => replacements h fine read
  | .symbols read => symbols h fine read
  | .alternative head => alternative h fine head
  | .siblings first read => siblings h fine first read

/-- The grammar keeps to what its productions are to give, at every depth. -/
theorem grammar (k : Course) (n : Nat) : k.Keeps (Parse.grammar n) := by
  induction n with
  | zero => exact fun _ _ _ fine => .fail (.refl fine)
  | succ n ih => exact ih.rule

end Keeps

/-! ## Clauses

Imports reserve words as the run goes on, so the statements are read on a course on which any table of
known words may be in force. -/

/-- A course on which all tables of words of the language may be in force, and all words may be
variables. -/
structure Wide (k : Course) : Prop where
  table : ∀ {t : KeywordTable}, t.Known → k.table t
  names : ∀ word, k.names word

/-- On the whole course nothing is asked of words. -/
theorem whole_wide (source : String) (env : Env) : (whole source env).Wide :=
  ⟨id, fun _ => trivial⟩

namespace Keeps

open Reads

/-- The keyword of a clause is read. -/
theorem clauseKeyword (fine : k.Fine u) (keyword : Token) :
    k.Reads u (Parse.clauseKeyword keyword) u fun _ _ => True := by
  unfold Parse.clauseKeyword
  rw [token_iff]
  split
  · exact .fail (.refl fine)
  · refine .bind (.refl fine) (.scanBlank fine) fun _ t₁ l₁ _ _ => ?_
    rw [token_iff]
    split
    · exact .fail l₁
    · exact .tail l₁ (.scan l₁.fine) fun _ _ _ _ _ => trivial

/-- Whether there is a name is read. -/
theorem isIdent (wide : k.Wide) (fine : k.Fine u) :
    k.Reads u Parse.isIdent u fun _ _ => True := by
  unfold Parse.isIdent
  rw [token_iff]
  split
  · exact .pure (.refl fine) fun _ => trivial
  · rw [isRefKeyword_iff]
    split
    · next allowed =>
        exact .bind (.refl fine) (.asIdent fine allowed fun _ _ => .inl (wide.names _))
          fun _ _ l _ _ => .pure l fun _ => trivial
    · exact .pure (.refl fine) fun _ => trivial

/-- A path that is missing is reported. -/
theorem missingPath {α : Type} {P : α → Reading → Prop} (fine : k.Fine u) :
    k.Reads u Parse.missingPath u P := by
  unfold Parse.missingPath
  rw [noFailures_iff]
  split
  · exact .reportHere_fail (.refl fine) fun _ l => .fail l
  · exact .fail (.refl fine)

/-- Segments that have been looked at are strings. -/
theorem stringSegments (fine : k.Fine u) (r : Ref) :
    k.Reads u (Parse.stringSegments r) u fun _ _ => ∀ t ∈ r, t.value.string?.isSome = true := by
  induction r with
  | nil => exact .pure (.refl fine) fun _ => List.forall_mem_nil _
  | cons t r ih =>
      unfold Parse.stringSegments
      split
      · next string =>
          exact ih.weaken fun _ _ _ _ rest => List.forall_mem_cons.2 ⟨string, rest⟩
      · exact .bind (.refl fine) (.report fine) fun _ _ l _ _ => .fail l

/-! ### Packages

The path of a package is checked for strings after it was read. -/

/-- The path of a package is put below the root of all packages. -/
theorem packagePath (fine : k.Fine u) (r : Ref) :
    k.Reads u (Parse.packagePath r) u fun path _ => ∃ l m name rest,
      path = ⟨.var dataRoot, l⟩ :: ⟨.string name, m⟩ :: rest ∧
        ∀ t ∈ rest, t.value.string?.isSome = true := by
  unfold Parse.packagePath
  refine .bind (.refl fine) (.ofOption (P := fun _ _ => True) (.refl fine) fun _ _ _ => trivial)
    fun head t₁ l₁ _ _ => ?_
  split
  · exact .bind l₁ (stringSegments l₁.fine r.tail) fun _ t₂ l₂ _ strings => .pure l₂ fun clean =>
      ⟨_, _, _, r.tail, rfl, strings clean⟩
  · exact .bind l₁ (.report l₁.fine) fun _ _ l _ _ => .fail l

/-- A package clause gives a package that is formed. -/
theorem package (h : k.Keeps g) (wide : k.Wide) (fine : k.Fine u) :
    k.Reads u (Parse.package g) u fun p _ => p.Formed := by
  unfold Parse.package
  rw [location_iff]
  refine .bind (.refl fine) (clauseKeyword fine _) fun _ t₁ l₁ _ _ => ?_
  refine .bind l₁ (isIdent wide l₁.fine) fun b t₂ l₂ _ _ => ?_
  split
  · exact .unexpected_fail l₂ fun _ l => .fail l
  · refine .bind l₂ (.attempt (h .term t₂ l₂.fine)) fun a t₃ l₃ _ _ => ?_
    split
    · next t =>
        -- a variable and a reference are both taken by their path
        have ended {path : Parse Ref} (read : k.Reads t₃ path t₃ fun path _ => ∃ l m name rest,
            path = ⟨.var dataRoot, l⟩ :: ⟨.string name, m⟩ :: rest ∧
              ∀ t ∈ rest, t.value.string?.isSome = true) (place : Location) :
            k.Reads u (do
              let path ← path
              return (⟨path, some (← upToLastStop place)⟩ : Package)) t₃ fun p _ => p.Formed :=
          .bind l₃ read fun path t₄ l₄ _ shape => by
            rw [upToLastStop_iff]
            exact .pure l₄ shape
        split
        · exact ended (packagePath l₃.fine _) _
        · exact ended (packagePath l₃.fine _) _
        · exact .unexpected_fail l₃ fun _ l => .fail l
    · exact .tail l₃ (missingPath l₃.fine) fun _ _ _ _ formed => formed

/-! ### Imports

So is that of an import, whose root is looked at as a text. -/

/-- The path of an import: a head that may be one, and strings. -/
def PathOfImport (k : Course) (t : Term) (r : Ref) : Prop :=
  t.value = .ref r ∧ ∃ head rest, r = head :: rest ∧ canHeadRef head.value = true ∧
    head.Formed k.names ∧ ∀ s ∈ rest, s.value.string?.isSome = true

/-- What an import has for a path is one, if it is given. -/
theorem importPath (h : k.Keeps g) (wide : k.Wide) (fine : k.Fine u) :
    k.Reads u (Parse.importPath g) u fun p _ => PathOfImport k p.1 p.2 := by
  unfold Parse.importPath
  obtain ⟨c, stands⟩ := fine.stands
  -- no word of the future is reserved in the path
  have read : k.Reads u (withoutFutureKeywords (Parse.attempt (g .term))) u fun a _ =>
      ∀ t ∈ a, t.Whole k.names :=
    .withKeywords (wide.table (stands.at'.known.removeAll .future)) rfl fine fun v fine _ _ =>
      (Reads.attempt (wholeTerm h fine)).weaken fun _ _ _ _ given => given
  refine .bind (.refl fine) read fun a t₁ l₁ _ whole => ?_
  split
  · next t =>
      split
      · next name var =>
          refine .pure l₁ fun clean => ⟨rfl, t, [], rfl, ?_, (whole clean t rfl).2, List.forall_mem_nil _⟩
          rw [var]
          rfl
      · next r ref =>
          refine .bind l₁ (stringSegments l₁.fine r.tail) fun _ t₂ l₂ after strings => .pure l₂ ?_
          intro clean
          obtain ⟨own, below⟩ := Term.formed_iff.1 (whole (after.clean clean) t rfl).2
          rw [ref] at own below
          obtain ⟨head, segments, rfl, heads, -⟩ := own
          exact ⟨ref, head, segments, rfl, heads, forall_walkTerms.1 below head List.mem_cons_self,
            strings clean⟩
      · exact .reportHere_fail l₁ fun _ l => .fail l
  · exact .tail l₁ (missingPath l₁.fine) fun _ _ _ _ formed => formed

/-- The name of an import is read. -/
theorem importAlias (h : k.Keeps g) (fine : k.Fine u) :
    k.Reads u (Parse.importAlias g) u fun _ _ => True := by
  unfold Parse.importAlias
  refine .bind (.refl fine) (.scan fine) fun _ t₁ l₁ _ _ => ?_
  rw [token_iff]
  dsimp only
  split
  · exact .unexpected_fail l₁ fun _ l => .fail l
  · refine .bind l₁ (.attempt (h .term t₁ l₁.fine)) fun a t₂ l₂ _ _ => ?_
    split
    · exact .pure l₂ fun _ => trivial
    · exact .unexpected_fail l₂ fun _ l => .fail l

/-- The last segment of a path is looked at. -/
theorem checkLastSegment (fine : k.Fine u) (t : Term) (r : Ref) :
    k.Reads u (Parse.checkLastSegment t r) u fun _ _ => True := by
  unfold Parse.checkLastSegment
  rw [env_iff]
  split
  · exact .bind (.refl fine) (.hint fine) fun _ _ l _ _ =>
      .tail l (.report l.fine) fun _ _ _ _ _ => trivial
  · exact .pure (.refl fine) fun _ => trivial

/-- A path whose head has the text of a root is one from there. -/
theorem formed_of_root {i : Import} {r : Ref} (path : PathOfImport k i.path r)
    (root : importRoots.contains ((r.head?.map Term.render).getD "") = true) : i.Formed := by
  obtain ⟨ref, head, rest, rfl, heads, formed, strings⟩ := path
  have root : head.render ∈ importRoots := List.contains_iff_mem.1 root
  have plain : ∀ s ∈ importRoots, s.toList.head?.all Lexeme.isLetter = true ∧ '(' ∉ s.toList := by
    decide +kernel
  obtain ⟨letter, paren⟩ := plain _ root
  obtain ⟨name, l, rfl, -⟩ := eq_var_of_render heads formed [] (by rwa [List.append_nil]) paren
  rw [Term.render, Value.render] at root
  exact ⟨l, name, rest, ref, root, strings⟩

/-- An import clause gives an import that is formed. -/
theorem importClause (h : k.Keeps g) (wide : k.Wide) (fine : k.Fine u) :
    k.Reads u (Parse.importClause g) u fun i _ => i.Formed := by
  unfold Parse.importClause
  rw [location_iff]
  refine .bind (.refl fine) (clauseKeyword fine _) fun _ t₁ l₁ _ _ => ?_
  refine .bind l₁ (isIdent wide l₁.fine) fun b t₂ l₂ _ _ => ?_
  split
  · exact .unexpected_fail l₂ fun _ l => .fail l
  · refine .bind l₂ (importPath h wide l₂.fine) fun p t₃ l₃ _ path => ?_
    obtain ⟨t, r⟩ := p
    dsimp only
    split
    · exact .bind l₃ (.hint l₃.fine) fun _ _ l _ _ =>
        .bind l (.report l.fine) fun _ _ l _ _ => .fail l
    · next root =>
        have root : importRoots.contains ((r.head?.map Term.render).getD "") = true := by
          simpa using root
        -- with an alias and without one, the path starts with one of the roots
        have formed {v : Reading} (since : k.Later t₃ v) (clean : v.failures.size ≤ u.failures.size)
            (localName : Option String) (l : Option Location) :
            Import.Formed ⟨t, localName, l⟩ :=
          formed_of_root (i := ⟨t, localName, l⟩) (path (since.clean clean)) root
        rw [token_iff]
        split
        · refine .bind l₃ (importAlias h l₃.fine) fun name t₄ l₄ since _ => ?_
          rw [upToLastStop_iff]
          exact .pure l₄ fun clean => formed since clean _ _
        · split
          · refine .bind l₃ (checkLastSegment l₃.fine t r) fun _ t₄ l₄ since _ => ?_
            rw [upToLastStop_iff]
            exact .pure l₄ fun clean => formed since clean _ _
          · rw [upToLastStop_iff]
            exact .pure l₃ fun clean => formed (.refl l₃.fine) clean _ _

/-! ### Words that imports reserve

Which words are reserved is no matter here, as long as they are words of the language. -/

/-- Only words that are allowed are reserved. -/
theorem reserve (wide : k.Wide) (fine : k.Fine u) {allowed : KeywordTable} (known : allowed.Known)
    (words : List String) : k.Reads u (Parse.reserve allowed words) u fun _ _ => True := by
  obtain ⟨c, stands⟩ := fine.stands
  obtain ⟨t, there, same⟩ := u.look.scanner.reserve_known known words stands.at'.known
  unfold Parse.reserve Parse.modifyLook
  refine (Reads.modify (.of_same (fun c stands => ?_) rfl rfl rfl fine fine.memo)).weaken
    fun _ _ _ _ _ => trivial
  exact (congrArg (fun scanner => k.Stands c { u.look with scanner }) same).mpr
    (Stands_keywords stands (wide.table there))

/-- To apply an import keeps to the course. -/
theorem applyImport (wide : k.Wide) (fine : k.Fine u) (i : Import) {allowed : KeywordTable}
    (known : allowed.Known) : k.Reads u (Parse.applyImport i allowed) u fun _ _ => True := by
  have reported (place : Location) (problem : Problem) :
      k.Reads u (Parse.report place problem) u fun _ _ => True :=
    (report fine).weaken fun _ _ _ _ _ => trivial
  unfold Parse.applyImport
  dsimp only
  split
  · rw [env_iff]
    rcases regoWords i (i.path.value.ref?.getD []) k.env with problem | words
    · exact reported _ problem
    · exact reserve wide fine KeywordTable.known_future words
  · split
    · rcases futureWords i (i.path.value.ref?.getD []) allowed with problem | words
      · exact reported _ problem
      · exact reserve wide fine known words
    · exact .pure (.refl fine) fun _ => trivial

/-- An import that has been applied is formed. -/
theorem importStatement (h : k.Keeps g) (wide : k.Wide) (fine : k.Fine u) {allowed : KeywordTable}
    (known : allowed.Known) :
    k.Reads u (Parse.importStatement g allowed) u fun i _ => i.Formed := by
  refine .bind (.refl fine) (importClause h wide fine) fun i t₁ l₁ _ formed => ?_
  exact .bind l₁ (applyImport wide l₁.fine i known) fun _ _ l after _ => .pure l fun clean =>
    formed (after.clean clean)

/-! ## Statements

Of the three readings of a statement one counts, and the statement is formed by that one. -/

/-- Of two readings the second one starts where the first one did. -/
theorem orElse {α : Type} {x y : Parse α} {P : α → Prop} (fine : k.Fine w)
    (first : ∀ v, k.Back w v → k.Reads v x v fun a _ => P a)
    (second : ∀ v, k.Back w v → k.Reads v y v fun a _ => P a) (back : k.Back w u) :
    k.Reads u (Parse.orElse w.save x y) u fun a _ => P a := by
  have since := back.later fine
  unfold Parse.orElse
  refine .bind (.refl back.fine) (.attempt (first u back)) fun a t₁ l₁ _ read => ?_
  split
  · next a => exact .pure l₁ fun clean => read clean a rfl
  · rw [noFailures_iff]
    split
    · refine .restore fine (since.trans l₁) fun t again => ?_
      have here : k.Back u t := ⟨again.fine, again.look.trans back.look.symm,
        again.failures.trans back.failures.symm, again.comments.trans back.comments.symm⟩
      exact .tail (here.later back.fine) (second t again) fun _ _ _ _ read => read
    · exact .fail l₁

/-- A query is a clause of one statement. -/
theorem queryStatement (h : k.Keeps g) (fine : k.Fine u) :
    k.Reads u (Parse.queryStatement g) u fun ss _ => Statement.Clause k.names ss :=
  .bind (.refl fine) (query h fine true .eof) fun _ _ l _ whole => .pure l fun clean =>
    Statement.clause_single (whole clean) nofun

/-- A statement gives a clause, with all trees in it formed. -/
theorem statement (h : k.Keeps g) (wide : k.Wide) (fine : k.Fine u) (skipRules : Bool)
    {allowed : KeywordTable} (known : allowed.Known) :
    k.Reads u (Parse.statement g skipRules allowed) u fun ss _ => Statement.Clause k.names ss := by
  unfold Parse.statement
  rw [save_iff]
  have here : k.Back u u := ⟨fine, rfl, rfl, rfl⟩
  refine orElse fine (fun v back => ?_) (fun v back => ?_) here
  · exact .bind (.refl back.fine) (package h wide back.fine) fun _ _ l _ formed => .pure l
      fun clean => Statement.clause_single (formed clean) nofun
  refine orElse fine (fun v back => ?_) (fun v back => ?_) back
  · exact .bind (.refl back.fine) (importStatement h wide back.fine known) fun _ _ l _ formed => .pure l
      fun clean => Statement.clause_single (formed clean) nofun
  unfold Parse.definitionStatement
  split
  · exact queryStatement h back.fine
  · refine orElse fine (fun v back => ?_) (fun v back => queryStatement h back.fine) back
    exact .bind (.refl back.fine) (rules h back.fine) fun _ _ l _ shape => .pure l
      fun clean => (shape clean).statements

end Keeps

end Course

end RegoSyntax
