/-
# RegoSyntax.Proofs.Descent.Shares — every statement has a token of its own.

To move on is not enough for that: a blank lies between any two tokens, and a parser that moved on over blanks
alone would read statements out of nothing.  But no query can be read from a blank (`Route.grammar_rejects`),
clauses and rules start with words, and every further rule of a head with a brace.  So whoever reads
statements comes past as many solid tokens (`Route.statement_shares`).

`Rejects` says that a parser gives nothing where it is.  From a blank that is so of every production that
starts with a token of a literal (`Production.starts`), since all of them begin with one another or with a
term, and a term with a token; what is remembered of a blank is a failure, and so is what it gives again.
-/
import RegoSyntax.Proofs.Descent.Statements
import RegoSyntax.Proofs.Stream

namespace RegoSyntax

open Parse

/-! ## Solid tokens

Tokens are counted by where they start.  A parser that moves on passes at least one of them, if it did not
start at a blank. -/

/-- The number of tokens of a source before an offset, blanks, comments and the end aside. -/
def solidBefore (source : String) (n : Nat) : Nat :=
  ((tokensOf source).filter (·.isSolid)).countP (·.position.offset < n)

/-- Further on there are no fewer solid tokens behind. -/
theorem solidBefore_mono (source : String) {n m : Nat} (le : n ≤ m) :
    solidBefore source n ≤ solidBefore source m := by
  refine List.countP_mono_left fun x _ before => ?_
  exact decide_eq_true ((of_decide_eq_true before).trans_le le)

/-- No more solid tokens are behind than there are. -/
theorem solidBefore_le (source : String) (n : Nat) :
    solidBefore source n ≤ (tokensOf source).countP (·.isSolid) := by
  rw [List.countP_eq_length_filter]
  exact List.countP_le_length

/-- A solid token counts behind it, and does not count where it starts. -/
theorem Cursor.solidBefore_lt {source : String} {c : Cursor} {n : Nat} (starts : c.Starts source)
    (major : c.Significant) (filled : c.rest ≠ []) (behind : c.offset < n) :
    solidBefore source c.offset < solidBefore source n := by
  have listed : c.scanned source ∈ (tokensOf source).filter (·.isSolid) :=
    List.mem_filter.2 ⟨mem_tokensOf.2 ⟨c, starts, rfl⟩, (scanned_solid source c).2 ⟨major, filled⟩⟩
  obtain ⟨before, after, split⟩ := List.append_of_mem listed
  have place : (c.scanned source).position.offset = c.offset := rfl
  have mono (xs : List Scanned) : xs.countP (·.position.offset < c.offset) ≤
      xs.countP (·.position.offset < n) := by
    refine List.countP_mono_left fun x _ before => ?_
    exact decide_eq_true ((of_decide_eq_true before).trans behind)
  have first := mono before
  have second := mono after
  simp only [solidBefore, split, List.countP_append, List.countP_cons, place, Nat.lt_irrefl, behind,
    decide_false, decide_true, Bool.false_eq_true, if_false, if_true]
  omega

namespace Production

/-- The productions that start with a token of a literal. -/
def starts : {α : Type} → Production α → Bool
  | _, .term | _, .compound _ | _, .literal | _, .literals _ _ _ | _, .body _ => true
  | _, .membership _ left _ | _, .operation _ left _ => left.isNone
  | _, _ => false

end Production

namespace Route

variable {ρ : Route} {u v w : Reading} {g : Grammar} {α β : Type}

/-- The number of solid tokens before the one that the parser has come to. -/
def solid (ρ : Route) (u : Reading) : Nat := solidBefore ρ.source u.look.offset

/-- A parser that has not gone back has passed no fewer solid tokens. -/
theorem solid_mono (ahead : u.look.offset ≤ v.look.offset) : ρ.solid u ≤ ρ.solid v :=
  solidBefore_mono ρ.source ahead

/-- To move on from anything but a blank is to pass a solid token. -/
theorem solid_lt (seated : ρ.Seated u) (there : ρ.Seated v) (filled : u.look.token ≠ .whitespace)
    (ahead : u.look.offset < v.look.offset) : ρ.solid u < ρ.solid v := by
  obtain ⟨c, at', uncommented⟩ := seated.look
  have major : c.Significant :=
    ⟨fun white => filled ((at'.shows.plain_iff rfl).2 white), uncommented⟩
  have more : c.rest ≠ [] := by
    intro none
    have ended : c.offset = ρ.source.utf8ByteSize := at'.starts.in.offset_of_end none
    have inside := there.inside
    rw [at'.offset, ended] at ahead
    exact absurd inside (Nat.not_le_of_lt ahead)
  rw [at'.offset] at ahead
  have less := Cursor.solidBefore_lt at'.starts major more ahead
  rwa [← at'.offset] at less

/-! ## Blanks

A blank starts no literal and no rule, so nothing that starts with a token is given there.  That is what
keeps two productions from using one token. -/

/-- From a reading a parser gives nothing. -/
def Rejects (ρ : Route) (x : Parse α) (u : Reading) : Prop :=
  ∀ o depth journal, (x.run ρ.env o ⟨u, depth, journal⟩).1 = none

namespace Rejects

variable {x : Parse α} {f : α → Parse β} {P : α → Reading → Prop}

/-- A parser that fails gives nothing. -/
theorem fail : ρ.Rejects (Parse.fail : Parse α) u := fun _ _ _ => rfl

/-- What is given nowhere first is given nowhere. -/
theorem bind (h : ρ.Rejects x u) : ρ.Rejects (x >>= f) u := by
  intro o depth journal
  have none := h o depth journal
  rw [run_bind]
  rcases result : x.run ρ.env o ⟨u, depth, journal⟩ with ⟨_ | a, t⟩
  · rfl
  · rw [result] at none
    cases none

/-- What is given nowhere behind a parser is given nowhere. -/
theorem behind (takes : ρ.Takes u x u P) (h : ∀ a t, P a t → ρ.Rejects (f a) t) :
    ρ.Rejects (x >>= f) u := by
  intro o depth journal
  obtain ⟨-, holds, -⟩ := takes o depth journal
  rw [run_bind]
  rcases result : x.run ρ.env o ⟨u, depth, journal⟩ with ⟨_ | a, ⟨t, depth', journal'⟩⟩
  · rfl
  · rw [result] at holds
    exact h a t (holds a rfl) o depth' journal'

/-- What is given nowhere is not given. -/
theorem last (h : ∀ a t, ρ.Rejects (f a) t) : ρ.Rejects (x >>= f) u := by
  intro o depth journal
  rw [run_bind]
  rcases x.run ρ.env o ⟨u, depth, journal⟩ with ⟨_ | a, ⟨t, depth', journal'⟩⟩
  · rfl
  · exact h a t o depth' journal'

/-- Where an attempt fails it goes on with nothing. -/
theorem attempt {f : Option α → Parse β} (h : ρ.Rejects x u) (after : ∀ t, ρ.Rejects (f none) t) :
    ρ.Rejects (Parse.attempt x >>= f) u := by
  intro o depth journal
  rw [run_bind, run_attempt, h o depth journal, andThen_some]
  exact after _ o _ _

/-- A production that gives nothing gives nothing when it is entered. -/
theorem nested (h : ρ.Rejects x u) : ρ.Rejects (Parse.nested x) u := by
  intro o depth journal
  rcases answer : o.answer (.nest depth) with _ | _
  · rw [run_nested_refused _ x answer]
    rfl
  · rw [run_nested_granted _ x answer]
    exact h o (depth + 1) ((.nest depth, true) :: journal)

/-- What gives nothing yields what one likes. -/
theorem yields (h : ρ.Rejects x u) : ρ.Yields False x u (fun _ => True) P := by
  intro o depth journal
  refine ⟨fun _ => trivial, fun a given => ?_, False.elim⟩
  rw [h o depth journal] at given
  cases given

/-- To look at the token changes nothing. -/
theorem token_iff {f : Token → Parse β} : ρ.Rejects (token >>= f) u ↔ ρ.Rejects (f u.look.token) u := Iff.rfl

/-- To look at the place changes nothing. -/
theorem location_iff {f : Location → Parse β} :
    ρ.Rejects (location >>= f) u ↔ ρ.Rejects (f u.look.location) u := Iff.rfl

/-- To look at the offset changes nothing. -/
theorem offset_iff {f : Nat → Parse β} : ρ.Rejects (offset >>= f) u ↔ ρ.Rejects (f u.look.offset) u := Iff.rfl

/-- To save the place changes nothing. -/
theorem save_iff {f : Snapshot → Parse β} : ρ.Rejects (save >>= f) u ↔ ρ.Rejects (f u.save) u := Iff.rfl

/-- To look whether a keyword may stand for a name changes nothing. -/
theorem isRefKeyword_iff {f : Bool → Parse β} : ρ.Rejects (isRefKeyword >>= f) u ↔
    ρ.Rejects (f (ρ.env.allowsInRefs u.look.scanner.keywords u.look.token.name)) u := Iff.rfl

end Rejects

/-- A blank is no word. -/
theorem not_allowed_of_blank (seated : ρ.Seated u) (blank : u.look.token = .whitespace) :
    ρ.env.allowsInRefs u.look.scanner.keywords u.look.token.name = false := by
  refine Bool.eq_false_iff.2 fun allowed => ?_
  obtain ⟨c, at', -⟩ := seated.look
  rcases Env.word_of_allowsInRefs at'.known allowed with word | word
  · rw [blank] at word
    cases word
  · rw [blank] at word
    cases word

/-- What is remembered of a blank is that there was no term. -/
theorem Sits.term_of_blank {e : MemoEntry} (sits : ρ.Sits e) (seated : ρ.Seated u)
    (here : e.offset = u.look.offset) (blank : u.look.token = .whitespace) : e.term = none := by
  obtain ⟨c, at', -⟩ := seated.look
  obtain ⟨d, before, -⟩ := sits.before
  have same : d = c := before.starts.eq_of_offset at'.starts (by
    rw [← before.offset, ← at'.offset]
    exact here)
  subst same
  have white : d.lexeme.kind = .whitespace := (at'.shows.plain_iff rfl).1 blank
  refine Option.not_isSome_iff_eq_none.1 fun given => ?_
  exact sits.filled given ((before.shows.plain_iff rfl).2 white)

section blanks

variable (seated : ρ.Seated u) (blank : u.look.token = .whitespace)

include seated blank

/-- From a blank no term is given, be it remembered or fresh. -/
theorem term_rejects : ρ.Rejects (Parse.term g) u := by
  refine .nested (.behind (Keeps.remembered seated) fun a v known => ?_)
  obtain ⟨rfl, known⟩ := known
  cases a with
  | some e =>
      obtain ⟨listed, here⟩ := known e rfl
      have none : e.term = none := (seated.memo e listed).term_of_blank seated here blank
      show ρ.Rejects (Parse.replay e) v
      rw [Parse.replay, none]
      exact .last fun _ _ => .fail
  | none =>
      have head : ρ.Rejects (Parse.head g) v := by
        unfold Parse.head
        rw [Rejects.token_iff, blank]
        exact .last fun _ _ => .fail
      show ρ.Rejects (Parse.freshTerm g) v
      unfold Parse.freshTerm
      rw [Rejects.save_iff]
      exact .attempt head.bind fun _ => .last fun _ _ => .fail

/-- From a blank no literal is given, as it would start with a word or with a term. -/
theorem unplacedLiteral_rejects (compound : ρ.Rejects (g (.compound true)) u) :
    ρ.Rejects (Parse.unplacedLiteral g) u := by
  have plain (negated : Bool) : ρ.Rejects (Parse.plainLiteral g negated) u := by
    unfold Parse.plainLiteral
    rw [Rejects.save_iff]
    exact .bind (.bind compound)
  have unnamed (f : Bool → Parse Expr) :
      ρ.Rejects (Parse.startsRefWithKeyword >>= f) u ↔ ρ.Rejects (f false) u := by
    unfold Parse.startsRefWithKeyword
    rw [bind_assoc, Rejects.isRefKeyword_iff, not_allowed_of_blank seated blank]
    exact Iff.rfl
  have unsigned (f : Bool → Parse Expr) :
      ρ.Rejects (Parse.negation >>= f) u ↔ ρ.Rejects (f false) u := by
    unfold Parse.negation
    rw [bind_assoc, Rejects.token_iff, blank]
    exact Iff.rfl
  unfold Parse.unplacedLiteral
  rw [unnamed, if_neg Bool.false_ne_true, unsigned, Rejects.token_iff, blank]
  exact plain false

/-- No production that starts with a token can be read from a blank, if those below cannot. -/
theorem rule_rejects (below : ∀ ⦃β : Type⦄ (q : Production β), q.starts = true → ρ.Rejects (g q) u)
    (p : Production α) (starts : p.starts = true) : ρ.Rejects (Parse.rule g p) u := by
  -- each production starts with one below it that starts with a token as well
  cases p with
  | term => exact term_rejects seated blank
  | compound keyed =>
      refine .nested ?_
      rw [Rejects.offset_iff]
      exact below (.membership keyed none _) rfl
  | membership keyed left start =>
      obtain rfl : left = none := Option.isNone_iff_eq_none.1 starts
      exact .nested (.bind (below (.operation .relation none start) rfl))
  | operation tier left start =>
      obtain rfl : left = none := Option.isNone_iff_eq_none.1 starts
      have operand : ρ.Rejects (Parse.operand g tier start) u := by
        unfold Parse.operand
        split
        · next tier _ => exact below (.operation tier none start) rfl
        · exact below .term rfl
      exact .nested operand.bind
  | body stop =>
      refine .nested ?_
      unfold Parse.query
      rw [Rejects.token_iff]
      split
      · exact .last fun _ _ => .fail
      · exact below (.literals false stop []) rfl
  | literals oneLine stop read => exact .bind (below .literal rfl)
  | literal =>
      have unplaced := unplacedLiteral_rejects seated blank (below (.compound true) rfl)
      show ρ.Rejects (Parse.literal g) u
      unfold Parse.literal
      rw [Rejects.location_iff]
      exact unplaced.bind
  | reference | segments | elements | pairs | replacements | symbols | alternative | siblings => cases starts

end blanks

/-- Nothing that starts with a token can be read from a blank. -/
theorem grammar_rejects (seated : ρ.Seated u) (blank : u.look.token = .whitespace) (n : Nat)
    (p : Production α) (starts : p.starts = true) : ρ.Rejects (Parse.grammar n p) u := by
  induction n generalizing α with
  | zero => exact .fail
  | succ n ih => exact rule_rejects seated blank (fun _ q => ih q) p starts

/-! ## Rules

Each rule has a token of its own: the first one its name, and each further one the brace of its body. -/

/-- As many solid tokens are passed as there are results, up to some that were there before. -/
def Shares (ρ : Route) (x : Parse (List α)) (u : Reading) (before : Nat) : Prop :=
  ρ.Yields False x u (fun _ => True) fun as v => as.length + ρ.solid u ≤ ρ.solid v + before

namespace Shares

variable {x : Parse (List α)} {f : β → Parse (List α)} {before : Nat}

/-- What is passed behind a reading is passed before it as well. -/
theorem since (h : ρ.Shares x v before) (ahead : u.look.offset ≤ v.look.offset) :
    ρ.Yields False x v (fun _ => True) fun as t => as.length + ρ.solid u ≤ ρ.solid t + before := by
  have more : ρ.solid u ≤ ρ.solid v := solid_mono ahead
  exact h.weaken (fun _ _ => trivial) fun as t le => by omega

/-- Where a parser leads that gives nothing is another matter. -/
theorem losing {backed : Prop} {F : Reading → Prop} {P : List α → Reading → Prop} (h : ρ.Shares x u before)
    (loses : ρ.Yields backed x u F P) :
    ρ.Yields False x u F fun as v => as.length + ρ.solid u ≤ ρ.solid v + before :=
  fun o depth journal => ⟨(loses o depth journal).1, (h o depth journal).2.1, False.elim⟩

/-- Behind what the rules have led over. -/
theorem behind {y : Parse β} (first : ρ.Follows u y u)
    (second : ∀ b t, ρ.Walks u t → ρ.Shares (f b) t before) : ρ.Shares (y >>= f) u before := by
  have walks : ρ.Yields False y u (fun _ => True) fun _ t => ρ.Walks u t :=
    (first.under False.elim).weaken (fun _ _ => trivial) fun _ _ walks => walks
  exact walks.bind (fun _ _ => trivial) fun b t there => (second b t there).since there.ahead

/-- Behind what has been moved over, a solid token among it that makes up for one result. -/
theorem passing {y : Parse β} (seated : ρ.Seated u) (filled : u.look.token ≠ .whitespace)
    (first : ρ.Takes u y u fun _ v => u.look.offset < v.look.offset)
    (second : ∀ b t, ρ.Goes u t → ρ.Shares (f b) t (before + 1)) : ρ.Shares (y >>= f) u before := by
  refine Yields.moves first False.elim (fun _ _ => trivial) fun b t goes ahead => ?_
  have more : ρ.solid u < ρ.solid t := solid_lt seated goes.seated filled ahead
  exact (second b t goes).weaken (fun _ _ => trivial) fun as v le => by omega

end Shares

/-- Every body that is read makes a rule, and starts with a brace. -/
theorem siblings_shares (n : Nat) (seated : ρ.Seated u) (first : Rule) (read : List Rule) :
    ρ.Shares (Parse.grammar n (.siblings first read)) u read.length := by
  -- along the grammar, in which every further body is one production deeper
  induction n generalizing u read with
  | zero => exact Yields.fail trivial
  | succ n ih =>
      show ρ.Shares (Parse.siblings (Parse.grammar n) first read) u read.length
      unfold Parse.siblings Shares
      rw [Yields.token_iff]
      split
      · exact Yields.pure (by omega)
      next brace =>
      have brace : u.look.token = .lbrace := by simpa using brace
      dsimp only
      split
      · exact (Rejects.last fun _ _ => Rejects.fail.bind).yields
      rw [Yields.location_iff]
      refine Shares.passing seated (by rw [brace]; decide) ((Keeps.grammar n).bracedBody seated brace)
        fun b t goes => ?_
      unfold Shares
      rw [Yields.upToLastStop_iff]
      refine Shares.behind (.of_takes (.refl goes.seated) (renewed goes.seated _ _)) fun head t there => ?_
      -- one more rule has been read, and one more solid token passed
      have again (rule : Rule) :
          ρ.Shares (Parse.grammar n (.siblings first (read ++ [rule]))) t (read.length + 1) := by
        have more := ih there.seated (read ++ [rule])
        rwa [List.length_append] at more
      exact again _

section rules

variable (n : Nat) {head : Head}

/-- The first rule has had its token; each further one has its brace. -/
theorem rulesFrom_shares (seated : ρ.Seated u) (head : Head) (b : Body) (place : Location) :
    ρ.Shares (Parse.rulesFrom (Parse.grammar n) head b place) u 1 := by
  unfold Parse.rulesFrom
  refine Shares.behind ((Carries.grammar n).alternative? (.refl seated) head) fun next t there => ?_
  unfold Shares
  rw [Yields.upToLastStop_iff]
  exact siblings_shares n there.seated _ [_]

/-- The rules behind a head that has had its token. -/
theorem definedRules_shares (seated : ρ.Seated u) (head : Head) (place : Location) :
    ρ.Shares (Parse.definedRules (Parse.grammar n) head place) u 1 := by
  have keeps := Keeps.grammar n
  unfold Parse.definedRules Shares
  rw [Yields.token_iff]
  refine Yields.moves (Keeps.resolved seated head place _) False.elim (fun _ _ => trivial)
    fun head t _ same => ?_
  subst same
  split
  · next ifKw =>
      exact Shares.behind (keeps.ifBody (.refl seated) ifKw) fun b t there =>
        rulesFrom_shares n there.seated _ b place
  · next brace =>
      have braced := keeps.bracedBody seated brace
      exact Shares.behind (.of_takes (.refl seated) braced) fun b t there =>
        rulesFrom_shares n there.seated head b place
  · split
    · exact Yields.pure (Nat.add_comm _ _).le
    · exact Yields.fail trivial

/-- The rules of one head are no more than the solid tokens that they are read from. -/
theorem rules_shares (seated : ρ.Seated u) : ρ.Shares (Parse.rules (Parse.grammar n)) u 0 := by
  have keeps := Keeps.grammar n
  -- the head takes a token, and that is the one for the first rule
  have headed {t : Reading} (there : ρ.Seated t) (ident : t.look.token = .ident) (isDefault : Bool)
      {f : Head → Parse (List Rule)} (rest : ∀ head v, ρ.Goes t v → ρ.Shares (f head) v 1) :
      ρ.Shares (Parse.ruleHead (Parse.grammar n) isDefault >>= f) t 0 :=
    Shares.passing there (by rw [ident]; decide) (keeps.ruleHead there ident isDefault) rest
  unfold Parse.rules Shares
  rw [Yields.location_iff]
  refine Shares.behind (.of_takes (.refl seated) (.startsRefWithKeyword seated)) fun _ t₁ w₁ => ?_
  unfold Shares
  rw [Yields.token_iff]
  dsimp only
  split
  · have there := w₁.seated.passing true
    rw [Yields.scan_iff]
    refine Shares.since (Shares.behind (.of_takes (.refl there) (.startsRefWithKeyword there))
      fun _ t₂ w₂ => ?_) (le_passing w₁.seated true)
    unfold Shares
    rw [Yields.token_iff]
    split
    · exact Rejects.fail.bind.yields
    · next ident =>
        refine headed w₂.seated (by simpa using ident) _ fun head v goes => ?_
        refine Shares.behind (.of_takes (.refl goes.seated) (Keeps.defaultRule goes.seated head _))
          fun rule t w₃ => ?_
        exact Yields.pure (Nat.add_comm _ _).le
  · rw [Yields.token_iff]
    split
    · exact Yields.fail trivial
    · next ident =>
        exact headed w₁.seated (by simpa using ident) _ fun head v goes =>
          definedRules_shares n goes.seated head _

end rules

/-! ## Statements

So the statements are no more than the tokens of the source, whatever the parser tries in between. -/

section statements

variable (n : Nat) {allowed : KeywordTable}

/-- A statement of one piece, which starts with a solid token. -/
theorem Arrives.shares {s : Statement} (h : ρ.Arrives allowed u [s] v) (seated : ρ.Seated u)
    (known : allowed.Known) (filled : u.look.token ≠ .whitespace) :
    [s].length + ρ.solid u ≤ ρ.solid v + 0 := by
  have less : ρ.solid u < ρ.solid v := solid_lt seated (h.seated seated known) filled (h.strides seated)
  rw [List.length_singleton]
  omega

/-- A query is one statement, and starts with a solid token. -/
theorem query_shares (seated : ρ.Seated u) : ρ.Shares (Parse.queryStatement (Parse.grammar n)) u 0 := by
  have query : ρ.Takes u (Parse.query (Parse.grammar n) true .eof) u fun _ v => u.look.offset < v.look.offset :=
    ((Keeps.grammar n).query seated true .eof).weaken fun _ _ _ ends => ends.2
  by_cases blank : u.look.token = .whitespace
  · have literals := grammar_rejects seated blank n (.literals true .eof []) rfl
    have rejects : ρ.Rejects (Parse.query (Parse.grammar n) true .eof) u := by
      unfold Parse.query
      rw [Rejects.token_iff, blank]
      exact literals
    exact rejects.bind.yields
  · exact Shares.passing seated blank query fun b v _ => Yields.pure (Nat.add_comm _ _).le

/-- Statements are no more than the solid tokens that they are read from. -/
theorem statement_shares (seated : ρ.Seated u) (proper : ρ.Proper (Parse.grammar n) u)
    (known : allowed.Known) (skipRules : Bool) :
    ρ.Shares (Parse.statement (Parse.grammar n) skipRules allowed) u 0 := by
  have keeps := Keeps.grammar n
  have carries := Carries.grammar n
  -- a package has its keyword
  have package : ρ.Yields False (do return [Statement.package (← Parse.package (Parse.grammar n))]) u
      (ρ.Stays .packageKw u) fun ss v => ss.length + ρ.solid u ≤ ρ.solid v + 0 := by
    refine Yields.bind ((package_yields keeps seated proper).under False.elim) (fun _ => id) fun p v read => ?_
    obtain ⟨w, names, goes, ahead⟩ := read
    have arrives : ρ.Arrives allowed u [.package p] v := .package names goes ahead
    exact .pure (arrives.shares seated known (by rw [names.keyword]; decide))
  -- an import has its keyword
  have importClause : ρ.Yields False (do
      return [Statement.importClause (← Parse.importStatement (Parse.grammar n) allowed)]) u
      (ρ.Stays .importKw u) fun ss v => ss.length + ρ.solid u ≤ ρ.solid v + 0 := by
    refine Yields.bind (importStatement_yields keeps seated allowed) (fun _ => id) fun i v read => ?_
    obtain ⟨w, imports, rfl⟩ := read
    have arrives : ρ.Arrives allowed u [.importClause i] (i.applied ρ.env allowed w) := .imports imports
    exact .pure (arrives.shares seated known (by rw [imports.importKw]; decide))
  -- rules have the tokens of their heads and bodies
  have rules : ρ.Yields False (do return (← Parse.rules (Parse.grammar n)).map Statement.rule) u
      (ρ.Lost u) fun ss v => ss.length + ρ.solid u ≤ ρ.solid v + 0 := by
    refine Yields.bind ((rules_shares n seated).losing (Carries.rules keeps carries seated)) (fun _ => id)
      fun rs v le => .pure ?_
    rwa [List.length_map]
  have definition : ρ.Yields False (Parse.definitionStatement (Parse.grammar n) skipRules u.save) u
      (fun _ => True) fun ss v => ss.length + ρ.solid u ≤ ρ.solid v + 0 := by
    unfold Parse.definitionStatement
    split
    · exact query_shares n seated
    · refine orElse_yields rules (fun t lost _ => lost.unbound) fun t lost _ => ?_
      exact query_shares n (seated.resumed (lost.seated seated))
  -- an attempt that left no error has changed nothing that the next one depends on
  have again {keyword : Token} {y : Parse (List Statement)}
      (yields : ρ.Yields False y u (fun _ => True) fun ss v => ss.length + ρ.solid u ≤ ρ.solid v + 0)
      (t : Reading) (stays : ρ.Stays keyword u t) (clean : t.failures = #[]) :
      ρ.Yields False y (u.resumed t) (fun _ => True) fun ss v => ss.length + ρ.solid u ≤ ρ.solid v + 0 := by
    rwa [(stays.resumed clean).2]
  have since {keyword : Token} (t : Reading) (stays : ρ.Stays keyword u t) (clean : t.failures = #[]) :
      ρ.unbound.Leads u t := (stays.resumed clean).1
  unfold Parse.statement Shares
  rw [Yields.save_iff]
  exact orElse_yields package since (again (orElse_yields importClause since (again definition)))

end statements

end Route

end RegoSyntax
