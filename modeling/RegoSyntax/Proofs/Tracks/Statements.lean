/-
# RegoSyntax.Proofs.Tracks.Statements — statements cover what they were read from.

A statement is tried as one kind after the other, and the parser comes back in between.  What it comes back
to is sound, unless an error has been reported; then there is no other kind to try.

`Passage` is what the statements of a source are shown to be, one after the other: their nodes outside of
heads stand between two offsets in the order in which they were read, and clauses and rules have places
with text.  Passages are put together in `Placement`, where a statement ends and the next one starts.
-/
import RegoSyntax.Proofs.Clauses
import RegoSyntax.Proofs.Tracks.Rules

namespace RegoSyntax

open Parse

/-! ## Nodes of statements

Heads are told from the rest of a statement, because two rules of one clause share what is in their heads.
-/

namespace Statement

/-- The nodes in the heads of the rules that a statement consists of. -/
def inHeads : Statement → List Visit
  | .rule r => r.inHeads
  | _ => []

/-- The nodes of a statement outside of heads. -/
def inBodies : Statement → List Visit
  | .package p => walkTerms p.path
  | .importClause i => i.path.walk
  | .rule r => r.inBodies
  | .body b => b.walk
  | .annotations _ => []

end Statement

namespace Survey

variable {m : Survey} {c d : Cursor} {r u v w t : Reading} {a b : Nat} {W : Array Nat}

/-- A statement has a place if it is a clause, and its rules have places. -/
def Sets (m : Survey) : Statement → Prop
  | .package p => ∃ l, p.location = some l ∧ m.Spanned l
  | .importClause i => ∃ l, i.location = some l ∧ m.Spanned l
  | .rule r => m.Laid r
  | _ => True

/-- Statements that were read between two offsets. -/
structure Passage (m : Survey) (drawn : Array Nat) (start stop : Nat) (ss : List Statement) : Prop where
  clear : m.Clear drawn (fun _ => False) start stop (ss.flatMap Statement.inBodies)
    (ss.flatMap Statement.inHeads)
  sets : ∀ s ∈ ss, m.Sets s

/-- A statement without heads. -/
theorem Passage.single {s : Statement} (headless : s.inHeads = []) (covers : m.Spans W a b s.inBodies)
    (sets : m.Sets s) : m.Passage W a b [s] := by
  refine ⟨?_, fun s' hs => List.mem_singleton.1 hs ▸ sets⟩
  rw [List.flatMap_singleton, List.flatMap_singleton, headless]
  exact ⟨covers, .nil, fun _ hx => absurd hx List.not_mem_nil⟩

/-- The rules of one clause. -/
theorem Passage.rules {rs : List Rule}
    (clear : m.Clear W (fun _ => False) a b (rs.flatMap Rule.inBodies) (rs.flatMap Rule.inHeads))
    (laid : ∀ r ∈ rs, m.Laid r) : m.Passage W a b (rs.map Statement.rule) := by
  refine ⟨?_, fun s hs => ?_⟩
  · rw [List.flatMap_map, List.flatMap_map]
    exact clear
  · obtain ⟨r, hr, rfl⟩ := List.mem_map.1 hs
    exact laid r hr

/-- The terms among nodes have places. -/
theorem Spans.located {ts : List Term} (h : m.Spans W a b (walkTerms ts)) :
    ∀ t ∈ ts, m.Anchored t.place := by
  induction ts with
  | nil => exact List.forall_mem_nil _
  | cons t ts ih =>
      refine List.forall_mem_cons.2 ⟨?_, ih (h.sub (fun n hn => h.placed n (List.mem_append_right _ hn)) ?_)⟩
      · obtain ⟨l, located, anchored⟩ := h.placed (.term t) (by rw [walkTerms, walk_eq]; exact List.mem_cons_self)
        rwa [Term.place, located]
      · rw [walkTerms, wildcardsOf_append]
        exact List.sublist_append_right _ _

namespace Keeps

variable {g : Grammar}

open Tracks

/-! ## Beginnings

A clause begins with a keyword and a name; where either is missing the clause is given up or reported. -/

/-- A word that may be a name is taken for one, which moves nothing. -/
theorem isIdent (sound : m.Sound c u) :
    m.Tracks (m.Later u) Parse.isIdent u fun _ _ => True := by
  unfold Parse.isIdent
  rw [token_iff]
  split
  · exact .pure (.refl sound) trivial
  · rw [isRefKeyword_iff]
    split
    · next allowed =>
        exact .bind (asIdent sound allowed) (fun _ later => later) fun _ _ later _ => .pure later trivial
    · exact .pure (.refl sound) trivial

/-- Behind the keyword of a clause there is a path, if the source goes on there. -/
theorem clauseKeyword {β : Type} {Q : β → Reading → Prop} {keyword : Token} {note : Note}
    {f : Bool → Parse β} (sound : m.Sound c u) (word : keyword.isKeyword = true)
    (absent : f false = (do Parse.unexpected note; Parse.fail))
    (path : ∀ t d, m.Sound d t → m.Later u t → u.look.offset < t.look.offset → c.Proper m.source →
      m.Tracks (m.Since u) (f true) t Q) :
    m.Tracks (m.Since u) (do Parse.clauseKeyword keyword; let b ← Parse.isIdent; f b) u Q := by
  unfold Parse.clauseKeyword
  rw [bind_bind_iff, token_iff]
  split
  · exact .fail (Later.refl sound).since
  · next same =>
      have same : u.look.token = keyword := by simpa using same
      have more : u.look.token ≠ .eof := fun ended => by
        rw [same.symm.trans ended] at word
        cases word
      have proper := sound.rests.proper_of_word (.inr (.inl (same ▸ word)))
      dsimp only
      rw [bind_bind_iff]
      refine .go (.refl sound) (.scanBlank sound more) fun _ t₁ d₁ s₁ l₁ _ ⟨ahead, _⟩ => ?_
      rw [bind_bind_iff, token_iff]
      split
      · exact .fail l₁.since
      -- at the end of the text the scanner is ended too, and what comes next is no path
      · by_cases ended : t₁.look.token = .eof
        · refine .bind (Tracks.scan_ended s₁ ended) (fun t ⟨astray, same⟩ => ?_)
            fun _ t ⟨astray, same⟩ _ => ?_
          · exact l₁.since.trans ⟨astray.toMarked, same ▸ .refl _, fun _ => astray.recalls⟩
          · unfold Parse.isIdent
            rw [bind_bind_iff, token_iff, astray.token, if_neg (by decide), bind_bind_iff, isRefKeyword_iff,
              astray.no_word, if_neg Bool.false_ne_true, pure_bind_iff, absent]
            refine (unexpected_ended astray).weaken (fun v broken => ?_) fun _ _ _ holds => holds
            exact l₁.since.trans ⟨broken.marked, same ▸ broken.drawn, broken.since.recalls⟩
        · refine .go l₁ (.scan s₁ ended) fun _ t₂ d₂ s₂ l₂ n₂ _ => ?_
          refine .go l₂ (isIdent s₂) fun b t₃ d₃ s₃ l₃ n₃ _ => ?_
          cases b with
          | true => exact path t₃ d₃ s₃ l₃ (ahead.trans_le (n₂.trans n₃).ahead) proper
          | false =>
              rw [absent]
              exact (unexpected_fail l₃ s₃).weaken (fun _ later => later.since) fun _ _ _ holds => holds

/-- A clause without a path is reported. -/
theorem missingPath {α : Type} {P : α → Reading → Prop} (sound : m.Sound c u) :
    m.Tracks (m.Later u) Parse.missingPath u P := by
  unfold Parse.missingPath
  rw [noFailures_iff]
  split
  · exact .reportHere_fail (.refl sound) sound
  · exact .fail (.refl sound)

/-- Segments that are no texts are reported at their own places. -/
theorem stringSegments (sound : m.Sound c u) {path : Ref} (located : ∀ t ∈ path, m.Anchored t.place) :
    m.Tracks (m.Later u) (Parse.stringSegments path) u fun _ v => v = u := by
  induction path with
  | nil => exact .pure (.refl sound) rfl
  | cons t path ih =>
      obtain ⟨here, rest⟩ := List.forall_mem_cons.1 located
      unfold Parse.stringSegments
      split
      · exact ih rest
      · exact .bind (.report sound here.located) (fun _ later => later) fun _ _ later _ => .fail later

/-! ## Packages

The path of a package gets the root of all documents put in front, and the name that was a variable is a
text from then on. -/

/-- The path of a package has the nodes of the path that was read, behind the root. -/
theorem packagePath (sound : m.Sound c u) {path : Ref} (covers : m.Covers u a (walkTerms path)) :
    m.Tracks (m.Later u) (Parse.packagePath path) u fun path' v => m.Covers v a (walkTerms path') := by
  cases path with
  | nil => exact .fail (.refl sound)
  | cons head path =>
      have all := List.forall_mem_cons.1 covers.located
      have tail : m.Covers u a (walkTerms path) :=
        covers.sub (fun n hn => covers.placed n (List.mem_append_right _ hn))
          (by rw [walkTerms, wildcardsOf_append]; exact List.sublist_append_right _ _)
      unfold Parse.packagePath
      refine .bind (P := fun x v => x = head ∧ v = u) (.ofOption (.refl sound) fun x hx =>
        ⟨(Option.some.inj hx).symm, rfl⟩) (fun _ later => later) fun x v _ here => ?_
      obtain ⟨rfl, rfl⟩ := here
      split
      -- -- the name becomes a string behind the root, at the place it was written
      · next name _ =>
          refine .bind (stringSegments sound all.2) (fun _ later => later) fun _ t later same => .pure later ?_
          subst same
          have root : m.Spans t.wildcards a a (Term.mk (.var dataRoot) (some x.place)).walk :=
            .named (Nat.le_refl _) (by decide) all.1
          have name : m.Spans t.wildcards a a (Term.mk (.string name) (some x.place)).walk :=
            .term (.nil (Nat.le_refl _)) all.1 rfl
          exact root.append (name.append tail)
      · exact .bind (.report sound all.1.located) (fun _ later => later) fun _ _ later _ => .fail later

/-- A package clause stands at its word. -/
theorem package (h : m.Keeps g) (sound : m.Sound c u) :
    m.Tracks (m.Since u) (Parse.package g) u fun p v =>
      m.Later u v ∧ m.Passage v.wildcards c.offset v.look.offset [.package p] := by
  unfold Parse.package
  rw [location_iff]
  refine clauseKeyword sound rfl rfl fun t₁ d₁ s₁ l₁ lt proper => ?_
  refine .go l₁ (.attempt (h .term d₁ t₁ s₁ trivial)) fun x t₂ d₂ s₂ l₂ n₂ read => ?_
  have le : c.offset ≤ d₁.offset := by
    rw [← sound.offset, ← s₁.offset]
    exact l₁.ahead
  -- a path of either shape ends the clause at the same place
  have ended {path : Parse Ref} (tracks : m.Tracks (m.Later t₂) path t₂ fun path v =>
      m.Covers v c.offset (walkTerms path)) :
      m.Tracks (m.Since u) (do
        let path ← path
        return (⟨path, some (← upToLastStop u.look.location)⟩ : Package)) t₂ fun p v =>
          m.Later u v ∧ m.Passage v.wildcards c.offset v.look.offset [.package p] := by
    refine .go l₂ tracks fun path t₃ d₃ s₃ l₃ n₃ covers => ?_
    rw [upToLastStop_iff]
    exact .pure l₃.since ⟨l₃, .single rfl covers
      ⟨_, rfl, sound.spanned_up s₃ proper (lt.trans_le (n₂.trans n₃).ahead)⟩⟩
  split
  -- a word of its own and a path are the two shapes; any other term is an error
  · next t =>
      have read := read t rfl
      split
      · exact ended (packagePath s₂ (read.path.mono (.refl _) le (Nat.le_refl _)))
      · next path ref =>
          have parts := read.spans.parts
          rw [ref] at parts
          exact ended (packagePath s₂ (parts.mono (.refl _) le (Nat.le_refl _)))
      · exact (unexpected_fail l₂ s₂).weaken (fun _ later => later.since) fun _ _ _ holds => holds
  · exact (missingPath s₂).weaken (fun _ later => (l₂.trans later).since) fun _ _ _ holds => holds

/-! ## Imports

The path of an import keeps its nodes, and the name behind `as` is kept as a text, so it adds none. -/

/-- The path of an import is a term that was read there. -/
theorem importPath (h : m.Keeps g) (sound : m.Sound c u) :
    m.Tracks (m.Later u) (Parse.importPath g) u fun p v => m.Reads v c p.1 := by
  unfold Parse.importPath
  -- -- the path is read with the future words set aside and put back, which moves no mark
  have term : m.Tracks (m.Later u) (withoutFutureKeywords (Parse.attempt (g .term))) u fun x v =>
      ∀ t ∈ x, m.Reads v c t := by
    refine (Tracks.withoutFutureKeywords (P := fun x s => ∀ t ∈ x, m.Reads s c t) sound
      fun v there _ _ => .attempt (h .term c v there trivial)).weaken
      (fun _ later => later) fun x v _ ⟨s, read, drawn, offset⟩ t ht => ?_
    show m.Read v.wildcards c v.look.offset t
    rw [← drawn, ← offset]
    exact read t ht
  refine .step (.refl sound) term fun x t₁ d₁ s₁ l₁ _ read => ?_
  split
  · next t =>
      have read := read t rfl
      split
      · exact .pure l₁ (read.location ▸ .of_parts read.path rfl read.anchored read.root)
      · next path ref =>
          have parts := read.spans.parts
          rw [ref] at parts
          refine .bind (stringSegments s₁ fun s hs => parts.located s (List.mem_of_mem_tail hs))
            (fun _ later => l₁.trans later) fun _ t₂ later same => ?_
          subst same
          exact .pure (l₁.trans later) read
      · exact .reportHere_fail l₁ s₁
  · exact .tail l₁ (missingPath s₁) fun _ _ _ holds => holds

/-- The name of an import is a variable that leaves no node. -/
theorem importAlias (h : m.Keeps g) (sound : m.Sound c u) (asKw : u.look.token = .asKw) :
    m.Tracks (m.Later u) (Parse.importAlias g) u fun _ _ => True := by
  unfold Parse.importAlias
  refine .step (.refl sound) (.scan sound (by rw [asKw]; decide)) fun _ t₁ d₁ s₁ l₁ _ _ => ?_
  rw [token_iff]
  dsimp only
  split
  · exact .unexpected_fail l₁ s₁
  · refine .step l₁ (.attempt (h .term d₁ t₁ s₁ trivial)) fun x t₂ d₂ s₂ l₂ _ _ => ?_
    split
    · exact .pure l₂ trivial
    · exact .unexpected_fail l₂ s₂

/-- A last segment that is a keyword is reported at the path. -/
theorem checkLastSegment (sound : m.Sound c u) {t : Term} (anchored : m.Anchored t.place) (path : Ref) :
    m.Tracks (m.Later u) (Parse.checkLastSegment t path) u fun _ _ => True := by
  unfold Parse.checkLastSegment
  rw [env_iff]
  split
  · refine .step (.refl sound) (.hint sound) fun _ t₁ d₁ s₁ l₁ _ _ => ?_
    exact .tail l₁ (.report s₁ anchored.located) fun _ _ _ _ => trivial
  · exact .pure (.refl sound) trivial

/-- An import clause stands at its word. -/
theorem importClause (h : m.Keeps g) (sound : m.Sound c u) :
    m.Tracks (m.Since u) (Parse.importClause g) u fun i v =>
      m.Later u v ∧ m.Passage v.wildcards c.offset v.look.offset [.importClause i] := by
  unfold Parse.importClause
  rw [location_iff]
  refine clauseKeyword sound rfl rfl fun t₁ d₁ s₁ l₁ lt proper => ?_
  refine .go l₁ (importPath h s₁) fun p t₂ d₂ s₂ l₂ n₂ read => ?_
  obtain ⟨path, segments⟩ := p
  have le : c.offset ≤ d₁.offset := by
    rw [← sound.offset, ← s₁.offset]
    exact l₁.ahead
  -- whatever comes behind the path, the clause has the path and stretches up to there
  have set {v : Reading} {d : Cursor} (s : m.Sound d v) (later : m.Later t₂ v) (localName : Option String) :
      m.Passage v.wildcards c.offset v.look.offset [.importClause ⟨path, localName, some
        { u.look.location with text := v.look.text u.look.location.offset v.look.lastStop }⟩] :=
    .single rfl ((read.spans.later later).mono (.refl _) le (Nat.le_refl _))
      ⟨_, rfl, sound.spanned_up s proper (lt.trans_le (n₂.trans later).ahead)⟩
  dsimp only
  split
  · refine .go l₂ (.hint s₂) fun _ t₃ d₃ s₃ l₃ _ _ => ?_
    exact .go l₃ (.report s₃ read.anchored.located) fun _ _ _ _ l _ _ => .fail l.since
  · rw [token_iff]
    split
    · next asKw =>
        refine .go l₂ (importAlias h s₂ (beq_iff_eq.1 asKw)) fun name t₃ d₃ s₃ l₃ n₃ _ => ?_
        rw [upToLastStop_iff]
        exact .pure l₃.since ⟨l₃, set s₃ n₃ _⟩
    · split
      · refine .go l₂ (checkLastSegment s₂ read.anchored _) fun _ t₃ d₃ s₃ l₃ n₃ _ => ?_
        rw [upToLastStop_iff]
        exact .pure l₃.since ⟨l₃, set s₃ n₃ _⟩
      · rw [upToLastStop_iff]
        exact .pure l₂.since ⟨l₂, set s₂ (.refl s₂) _⟩

/-! ### Words that imports reserve

Reserving words changes the table of the scanner, and perhaps the kind of the token that is seen.  The
token stays where it is. -/

/-- To reserve words changes what is seen of the token, not where it stands. -/
theorem reserve (sound : m.Sound c u) {allowed : KeywordTable} (known : allowed.Known) (words : List String) :
    m.Tracks (m.Later u) (Parse.reserve allowed words) u fun _ _ => True := by
  obtain ⟨t, there, same⟩ := u.look.scanner.reserve_known known words sound.rests.at'.known
  unfold Parse.reserve Parse.modifyLook
  refine (Tracks.modify (R := m.Later u) (.of_same (c := c) (sound.look ?_) rfl rfl)).weaken
    (fun _ later => later) fun _ _ _ _ => trivial
  exact (congrArg (fun scanner => m.Rests c { u.look with scanner }) same).mpr
    (sound.rests.keywords there)

/-- What an import reserves is reserved, or reported at its path. -/
theorem applyImport (sound : m.Sound c u) {i : Import} (anchored : m.Anchored i.path.place)
    {allowed : KeywordTable} (known : allowed.Known) :
    m.Tracks (m.Later u) (Parse.applyImport i allowed) u fun _ _ => True := by
  have reported (problem : Problem) :
      m.Tracks (m.Later u) (Parse.report i.path.place problem) u fun _ _ => True :=
    (report sound anchored.located).weaken (fun _ later => later) fun _ _ _ _ => trivial
  unfold Parse.applyImport
  dsimp only
  split
  · rw [env_iff]
    rcases regoWords i (i.path.value.ref?.getD []) m.env with problem | words
    · exact reported problem
    · exact reserve sound KeywordTable.known_future words
  · split
    · rcases futureWords i (i.path.value.ref?.getD []) allowed with problem | words
      · exact reported problem
      · exact reserve sound known words
    · exact .pure (.refl sound) trivial

/-- An import clause stands where it was read, whatever it reserves. -/
theorem importStatement (h : m.Keeps g) (sound : m.Sound c u) {allowed : KeywordTable}
    (known : allowed.Known) :
    m.Tracks (m.Since u) (Parse.importStatement g allowed) u fun i v =>
      m.Later u v ∧ m.Passage v.wildcards c.offset v.look.offset [.importClause i] := by
  refine .bind (importClause h sound) (fun _ since => since) fun i t _ ⟨later, set⟩ => ?_
  obtain ⟨d, there⟩ := later.sound
  have covers : m.Spans t.wildcards c.offset t.look.offset i.path.walk := by
    have bodies := set.clear.bodies
    rwa [List.flatMap_singleton] at bodies
  have anchored : m.Anchored i.path.place := by
    obtain ⟨l, located, anchored⟩ := covers.anchored
    rwa [Term.place, located]
  refine .go later (applyImport there anchored known) fun _ v _ _ l₁ n₁ _ => .pure l₁.since ⟨l₁, ?_⟩
  exact .single rfl (covers.later n₁) (set.sets _ List.mem_cons_self)

/-! ## Statements

A statement is tried in three ways from one place, and each try that fails leaves the places of nodes
alone. -/

/-- A query is a statement without heads. -/
theorem queryStatement (h : m.Keeps g) (sound : m.Sound c u) :
    m.Tracks (m.Since u) (Parse.queryStatement g) u fun ss v =>
      m.Later u v ∧ m.Passage v.wildcards c.offset v.look.offset ss :=
  .go (.refl sound) (query h sound true .eof) fun _ _ _ _ later _ ⟨_, covers⟩ =>
    .pure later.since ⟨later, .single rfl covers.body trivial⟩

/-- Of two readings the second one starts where the first one did. -/
theorem orElse {α : Type} {x y : Parse α} {Q : α → Reading → Prop} (there : m.Sound c w)
    (first : ∀ v, Back m c w v v → m.Tracks (m.Since v) x v fun a t => m.Later v t ∧ Q a t)
    (second : ∀ v, Back m c w v v → m.Tracks (m.Since v) y v fun a t => m.Later v t ∧ Q a t)
    (here : Back m c w u u) :
    m.Tracks (m.Since u) (Parse.orElse w.save x y) u fun a t => m.Later u t ∧ Q a t := by
  unfold Parse.orElse
  refine attempt_bind (first u here) fun a t since read => ?_
  split
  · next a => exact .pure since (read a rfl)
  · rw [noFailures_iff]
    split
    · next none =>
        have none : t.failures = #[] := Array.isEmpty_iff.1 none
        have again := back there since.marked (since.recalls none) (here.later.drawn.trans since.drawn)
        have onward : m.Later u (t.restore w.save) :=
          ⟨⟨c, again.sound⟩, by rw [again.look, here.look], again.drawn ▸ since.drawn⟩
        have after : m.Tracks (m.Since u) y (t.restore w.save) fun a v => m.Later u v ∧ Q a v :=
          (second _ ⟨again.sound, again.look, again.later, rfl⟩).weaken
            (fun _ after => onward.since.trans after) fun a v _ ⟨later, holds⟩ => ⟨onward.trans later, holds⟩
        exact fun o depth _ => after o depth _
    · exact .fail since

/-- A statement of any kind is a passage from where it was read. -/
theorem statement (h : m.Keeps g) (lost : m.Loses g) (sound : m.Sound c u) (skipRules : Bool)
    {allowed : KeywordTable} (known : allowed.Known) :
    m.Tracks (m.Since u) (Parse.statement g skipRules allowed) u fun ss v =>
      m.Later u v ∧ m.Passage v.wildcards c.offset v.look.offset ss := by
  unfold Parse.statement
  rw [save_iff]
  have here : Back m c u u u := ⟨sound, rfl, .refl sound, rfl⟩
  refine orElse sound (fun v back => ?_) (fun v back => ?_) here
  · exact .bind (package h back.sound) (fun _ since => since) fun _ _ since set => .pure since set
  refine orElse sound (fun v back => ?_) (fun v back => ?_) back
  · exact .bind (importStatement h back.sound known) (fun _ since => since) fun _ _ since set => .pure since set
  unfold Parse.definitionStatement
  split
  · exact queryStatement h back.sound
  · refine orElse sound (fun v back => ?_) (fun v back => queryStatement h back.sound) back
    refine .bind (rules h lost back.sound) (fun _ since => since) fun rs t since defined => .pure since ?_
    exact ⟨defined.later, .rules defined.clear defined.laid⟩

end Keeps

end Survey

end RegoSyntax
