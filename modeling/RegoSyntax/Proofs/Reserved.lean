/-
# RegoSyntax.Proofs.Reserved — which words an import reserves.

`Import.reserving` says it in terms of the path and of the name behind it; `Import.applied_keywords` proves
that it is what the parser does.  An import that reserves nothing, or with which something is wrong, leaves
the table as it was.

The parser goes over the words of a list and adds them to the scanner one by one; the table that results
is told by what it holds (`Scanner.reserve_eq`), and from then on tables are compared by what they hold.
Which imports have a list is told by their path (`regoWords_ok`, `futureWords_ok`).
-/
import RegoSyntax.Proofs.Moves.Statements
import RegoSyntax.Proofs.Outcome

namespace RegoSyntax

open Parse

namespace KeywordTable

/-- The words of a table are those that it contains. -/
theorem mem_words {t : KeywordTable} {x : String} : x ∈ t.words ↔ t.contains x = true := by
  rw [contains, get?_eq_find, find, Option.isSome_map, List.find?_isSome, words, List.mem_map]
  simp

/-- A word that is added to a table takes none out of it. -/
theorem contains_insert (t : KeywordTable) (word : String) (kind : Token) {x : String}
    (h : t.contains x = true) : (t.insert word kind).contains x = true := by
  rw [contains, get?_insert]
  split
  · rfl
  · exact h

end KeywordTable

/-- To reserve the words of a list that are allowed changes nothing but the table. -/
theorem Scanner.reserve_eq (s : Scanner) (allowed : KeywordTable) (words : List String) :
    ∃ t : KeywordTable, words.foldl (fun s word =>
        match allowed.get? word with
        | some kind => s.addKeyword word kind
        | none => s) s = { s with keywords := t } ∧
      ∀ x, t.get? x = if x ∈ words then (allowed.get? x).or (s.keywords.get? x) else s.keywords.get? x := by
  induction words generalizing s with
  | nil => exact ⟨s.keywords, rfl, fun x => rfl⟩
  | cons word words ih =>
      rw [List.foldl_cons]
      rcases found : allowed.get? word with _ | kind
      · obtain ⟨t, same, holds⟩ := ih s
        refine ⟨t, same, fun x => ?_⟩
        rw [holds]
        -- a word that occurs in the list again is allowed again, with the same kind
        by_cases here : x = word
        · subst here
          simp [found]
        · simp [here]
      · obtain ⟨t, same, holds⟩ := ih (s.addKeyword word kind)
        refine ⟨t, same, fun x => ?_⟩
        rw [holds]
        by_cases here : x = word
        · subst here
          simp [Scanner.addKeyword, found]
        · have other : ¬ word = x := fun h => here h.symm
          simp [Scanner.addKeyword, here, other]

namespace Import

/-- The segments of the path of an import. -/
def segments (i : Import) : List Value := (i.path.value.ref?.getD []).map Term.value

/-- The table that is in force behind an import: all allowed words are reserved by
`import future.keywords`, one of them by `import future.keywords.word`, and those of the current dialect by
`import rego.v1`, as far as capabilities have it. -/
def reserving (i : Import) (env : Env) (allowed t : KeywordTable) : KeywordTable :=
  match i.segments, i.localName with
  | [.var "future", .string "keywords"], none => t.extend allowed
  | [.var "future", .string "keywords", .string word], none =>
    match allowed.get? word with
    | some kind => t.insert word kind
    | none => t
  | [.var "rego", .string "v1"], none =>
    if env.version != .v1 && (env.capabilities.hasFeature Capabilities.regoV1Import ||
      env.capabilities.hasFeature Capabilities.regoV1) then t.extend .future else t
  | _, _ => t

section reserving

variable {i : Import} {env : Env} {allowed t : KeywordTable}

/-- What is reserved by an import of all words of the future. -/
theorem reserving_keywords (path : i.segments = [.var "future", .string "keywords"])
    (unnamed : i.localName = none) : i.reserving env allowed t = t.extend allowed := by
  simp only [reserving, path, unnamed]

/-- What is reserved by an import of one word of the future. -/
theorem reserving_keyword {word : String} {kind : Token}
    (path : i.segments = [.var "future", .string "keywords", .string word])
    (unnamed : i.localName = none) (found : allowed.get? word = some kind) :
    i.reserving env allowed t = t.insert word kind := by
  simp only [reserving, path, unnamed, found]

/-- What is reserved by an import of the current dialect, which is nothing where it is the dialect
already. -/
theorem reserving_rego (path : i.segments = [.var "rego", .string "v1"]) (unnamed : i.localName = none) :
    i.reserving env allowed t = if env.version != .v1 &&
      (env.capabilities.hasFeature Capabilities.regoV1Import ||
        env.capabilities.hasFeature Capabilities.regoV1) then t.extend .future else t := by
  simp only [reserving, path, unnamed]

/-- All other imports leave the table as it was. -/
theorem reserving_other
    (keywords : ¬ (i.segments = [.var "future", .string "keywords"] ∧ i.localName = none))
    (keyword : ∀ word, ¬ (i.segments = [.var "future", .string "keywords", .string word] ∧
      i.localName = none ∧ allowed.contains word = true))
    (rego : ¬ (i.segments = [.var "rego", .string "v1"] ∧ i.localName = none)) :
    i.reserving env allowed t = t := by
  unfold reserving
  split
  · next path unnamed => exact absurd ⟨path, unnamed⟩ keywords
  · next word path unnamed =>
      rcases found : allowed.get? word with _ | kind
      · rfl
      · exact absurd ⟨path, unnamed, by rw [KeywordTable.contains, found]; rfl⟩ (keyword word)
  · next path unnamed => exact absurd ⟨path, unnamed⟩ rego
  · rfl

end reserving

/-- A path whose root is a name. -/
theorem headVar?_eq {r : Ref} {name : String} (h : Ref.headVar? r = some name) :
    ∃ l rest, r = ⟨.var name, l⟩ :: rest := by
  cases r with
  | nil => cases h
  | cons head rest =>
      obtain ⟨value, l⟩ := head
      have named : value.varName? = some name := h
      cases value <;> first
        | (obtain rfl := Option.some.inj named; exact ⟨l, rest, rfl⟩)
        | cases named

/-- What reserving words makes of a table. -/
theorem reserve_keywords (s : Scanner) (allowed : KeywordTable) (words : List String) (x : String) :
    (words.foldl (fun s word =>
        match allowed.get? word with
        | some kind => s.addKeyword word kind
        | none => s) s).keywords.get? x =
      if x ∈ words then (allowed.get? x).or (s.keywords.get? x) else s.keywords.get? x := by
  obtain ⟨t, same, holds⟩ := s.reserve_eq allowed words
  rw [same]
  exact holds x

/-- A list of all allowed words reserves all of them. -/
theorem reserve_all (s : Scanner) (allowed : KeywordTable) :
    (allowed.words.foldl (fun s word =>
        match allowed.get? word with
        | some kind => s.addKeyword word kind
        | none => s) s).keywords = s.keywords.extend allowed :=
  KeywordTable.ext_get? fun x => by
    rw [reserve_keywords, KeywordTable.get?_extend]
    split
    · rfl
    · next other =>
        rw [KeywordTable.mem_words] at other
        have none : allowed.get? x = none := by simpa [KeywordTable.contains] using other
        rw [none, Option.none_or]

/-- When `import rego.v1` has words to reserve. -/
theorem regoWords_ok {i : Import} {r : Ref} {env : Env} {words : List String}
    (h : regoWords i r env = .ok words) :
    words = [] ∧ env.version = .v1 ∨ words = KeywordTable.future.words ∧ env.version ≠ .v1 ∧
      (env.capabilities.hasFeature Capabilities.regoV1Import ||
        env.capabilities.hasFeature Capabilities.regoV1) = true ∧
      i.localName = none ∧ ∃ a m, r = [a, ⟨.string "v1", m⟩] := by
  unfold regoWords at h
  split at h
  · cases h
  · next supported =>
      split at h
      · next a m =>
          split at h
          -- -- under the current version there is no word left to reserve
          · next current =>
              exact .inl ⟨(Except.ok.inj h).symm, beq_iff_eq.1 current⟩
          -- -- an older version reserves every future word, once no alias stands in the way
          · next older =>
              split at h
              · cases h
              · next unnamed =>
                  refine .inr ⟨(Except.ok.inj h).symm, by simpa using older, ?_, by simpa using unnamed, a, m, rfl⟩
                  rw [Bool.or_eq_true, ← not_not (a := _ ∨ _), not_or]
                  simpa using supported
      · cases h

/-- When `import future.keywords` has words to reserve. -/
theorem futureWords_ok {i : Import} {r : Ref} {allowed : KeywordTable} {words : List String}
    (h : futureWords i r allowed = .ok words) : i.localName = none ∧
      ((words = allowed.words ∧ ∃ a m, r = [a, ⟨.string "keywords", m⟩]) ∨
        ∃ word, words = [word] ∧ ∃ a m n, r = [a, ⟨.string "keywords", m⟩, ⟨.string word, n⟩]) := by
  unfold futureWords at h
  split at h
  · next a m rest =>
      split at h
      · cases h
      · next unnamed =>
          refine ⟨by simpa using unnamed, ?_⟩
          split at h
          · exact .inl ⟨(Except.ok.inj h).symm, a, m, rfl⟩
          · next word n =>
              split at h
              · exact .inr ⟨word, (Except.ok.inj h).symm, a, m, n, rfl⟩
              · cases h
          · cases h
  · cases h

/-- A list of one word reserves that word, if it is allowed, and nothing else. -/
theorem reserve_one (s : Scanner) {allowed : KeywordTable} {word : String} {kind : Token}
    (found : allowed.get? word = some kind) :
    ([word].foldl (fun s word =>
        match allowed.get? word with
        | some kind => s.addKeyword word kind
        | none => s) s).keywords = s.keywords.insert word kind := by
  rw [List.foldl_cons, found]
  rfl

/-- A path of two segments has one behind its root. -/
theorem segments_pair {l : Option Location} {root : Value} {rest : Ref} {a b : Value}
    (h : (⟨root, l⟩ :: rest : Ref).map Term.value = [a, b]) : ∃ m, rest = [⟨b, m⟩] := by
  obtain ⟨-, h⟩ := List.cons.inj h
  obtain ⟨⟨value, m⟩, rfl, rfl⟩ := List.map_eq_singleton_iff.1 h
  exact ⟨m, rfl⟩

/-- What an import of the current dialect does. -/
theorem applied_rego {i : Import} {env : Env} {allowed : KeywordTable} {u : Reading} {l : Option Location}
    {rest : Ref} (segments : i.segments = (⟨.var regoRoot, l⟩ :: rest : Ref).map Term.value) :
    (match regoWords i (⟨.var regoRoot, l⟩ :: rest) env with
      | .ok words => (words.foldl (fun (s : Scanner) word =>
          match KeywordTable.future.get? word with
          | some kind => s.addKeyword word kind
          | none => s) u.look.scanner).keywords
      | .error _ => u.look.scanner.keywords) = i.reserving env allowed u.look.scanner.keywords := by
  -- an import of this root that is refused, or that has another shape, reserves nothing
  have other : (i.segments = [.var "rego", .string "v1"] ∧ i.localName = none →
      (env.version != .v1 && (env.capabilities.hasFeature Capabilities.regoV1Import ||
        env.capabilities.hasFeature Capabilities.regoV1)) = false) →
      i.reserving env allowed u.look.scanner.keywords = u.look.scanner.keywords := fun refused => by
    by_cases shape : i.segments = [.var "rego", .string "v1"] ∧ i.localName = none
    · rw [reserving_rego shape.1 shape.2, refused shape]
      rfl
    · refine reserving_other (fun h => ?_) (fun word h => ?_) shape
      · simp [segments, regoRoot] at h
      · simp [segments, regoRoot] at h
  rcases words : regoWords i (⟨.var regoRoot, l⟩ :: rest) env with problem | words
  -- refused: for the one path that could be granted, a refusal contradicts the conditions
  · refine (other fun ⟨path, unnamed⟩ => Bool.eq_false_iff.2 fun granted => ?_).symm
    obtain ⟨m, rfl⟩ := segments_pair (segments.symm.trans path)
    obtain ⟨older, supported⟩ := Bool.and_eq_true_iff.1 granted
    simp [regoWords, unnamed] at words supported older
    simp [older] at words
    grind
  · rcases regoWords_ok words with ⟨rfl, current⟩ | ⟨rfl, older, supported, unnamed, a, m, shape⟩
    · refine (other fun _ => ?_).symm
      simp [current]
    · cases shape
      rw [reserving_rego segments unnamed, if_pos (by simpa [older] using supported)]
      exact reserve_all _ _

/-- What an import of words of the future does. -/
theorem applied_future {i : Import} {env : Env} {allowed : KeywordTable} {u : Reading}
    {l : Option Location} {rest : Ref}
    (segments : i.segments = (⟨.var futureRoot, l⟩ :: rest : Ref).map Term.value) :
    (match futureWords i (⟨.var futureRoot, l⟩ :: rest) allowed with
      | .ok words => (words.foldl (fun (s : Scanner) word =>
          match allowed.get? word with
          | some kind => s.addKeyword word kind
          | none => s) u.look.scanner).keywords
      | .error _ => u.look.scanner.keywords) = i.reserving env allowed u.look.scanner.keywords := by
  rcases words : futureWords i (⟨.var futureRoot, l⟩ :: rest) allowed with problem | words
  -- refused: no path that reserves words is refused, as the words are known
  · symm
    apply reserving_other
    · rintro ⟨path, unnamed⟩
      obtain ⟨m, rfl⟩ := segments_pair (segments.symm.trans path)
      simp [futureWords, unnamed] at words
    · rintro word ⟨path, unnamed, known⟩
      obtain ⟨-, path⟩ := List.cons.inj (segments.symm.trans path)
      obtain ⟨⟨_, m⟩, rest, rfl, rfl, last⟩ := List.map_eq_cons_iff.1 path
      obtain ⟨⟨_, n⟩, rfl, rfl⟩ := List.map_eq_singleton_iff.1 last
      simp [futureWords, unnamed, known] at words
    · rintro ⟨path, -⟩
      simp [segments, futureRoot] at path
  · obtain ⟨unnamed, ⟨rfl, a, m, shape⟩ | ⟨word, rfl, a, m, n, shape⟩⟩ := futureWords_ok words
    · cases shape
      rw [reserving_keywords segments unnamed]
      exact reserve_all _ _
    · cases shape
      rcases found : allowed.get? word with _ | kind
      · simp [futureWords, unnamed, KeywordTable.contains, found] at words
      · rw [reserving_keyword segments unnamed found]
        exact reserve_one _ found

/-- The parser reserves what the import says. -/
theorem applied_keywords (i : Import) (env : Env) (allowed : KeywordTable) (u : Reading) :
    (i.applied env allowed u).look.scanner.keywords =
      i.reserving env allowed u.look.scanner.keywords := by
  have segments : i.segments = (i.path.value.ref?.getD []).map Term.value := rfl
  unfold applied
  dsimp only
  generalize i.path.value.ref?.getD [] = r at segments
  -- the root of the path tells which list of words is asked for
  by_cases rego : Ref.headVar? r = some regoRoot
  · obtain ⟨l, rest, rfl⟩ := headVar?_eq rego
    rw [if_pos (beq_iff_eq.2 rego), ← applied_rego segments]
    rcases regoWords i (⟨.var regoRoot, l⟩ :: rest) env with problem | words
    · rfl
    · rfl
  rw [if_neg (mt beq_iff_eq.1 rego)]
  by_cases future : Ref.headVar? r = some futureRoot
  · obtain ⟨l, rest, rfl⟩ := headVar?_eq future
    rw [if_pos (beq_iff_eq.2 future), ← applied_future segments]
    rcases futureWords i (⟨.var futureRoot, l⟩ :: rest) allowed with problem | words
    · rfl
    · rfl
  -- a path with neither root is no import of words
  · rw [if_neg (mt beq_iff_eq.1 future)]
    have named {name : String} {rest : List Value} (path : i.segments = .var name :: rest) :
        Ref.headVar? r = some name := by
      obtain ⟨⟨value, l⟩, r, rfl, rfl, -⟩ := List.map_eq_cons_iff.1 (segments.symm.trans path)
      rfl
    symm
    apply reserving_other
    · exact fun h => future (named h.1)
    · exact fun word h => future (named h.1)
    · exact fun h => rego (named h.1)

/-- What is wrong with an import that would reserve words. -/
def problem? (i : Import) (env : Env) (allowed : KeywordTable) : Option Problem :=
  let r := i.path.value.ref?.getD []
  let problem : Except Problem (List String) → Option Problem
    | .ok _ => none
    | .error problem => some problem
  if Ref.headVar? r == some regoRoot then problem (regoWords i r env)
  else if Ref.headVar? r == some futureRoot then problem (futureWords i r allowed)
  else none

/-- An import reserves words or reports what is wrong with it. -/
theorem applied_eq (i : Import) (env : Env) (allowed : KeywordTable) (u : Reading) :
    match i.problem? env allowed with
    | some problem => i.applied env allowed u = u.reporting problem i.path.place
    | none => ∃ t, i.applied env allowed u =
        { u with look := { u.look with scanner := { u.look.scanner with keywords := t } } } := by
  -- to reserve a list of words changes the table and nothing else
  have reserved (table : KeywordTable) (words : List String) :
      ∃ t, ({ u with
        look := { u.look with
          scanner := words.foldl (fun s word =>
            match table.get? word with
            | some kind => s.addKeyword word kind
            | none => s) u.look.scanner } } : Reading) =
        { u with look := { u.look with scanner := { u.look.scanner with keywords := t } } } := by
    obtain ⟨t, same, -⟩ := u.look.scanner.reserve_eq table words
    exact ⟨t, by rw [same]⟩
  unfold problem? applied
  dsimp only
  by_cases rego : (Ref.headVar? (i.path.value.ref?.getD []) == some regoRoot) = true
  · simp only [if_pos rego]
    rcases regoWords i (i.path.value.ref?.getD []) env with problem | words
    · rfl
    · exact reserved _ words
  simp only [if_neg rego]
  by_cases future : (Ref.headVar? (i.path.value.ref?.getD []) == some futureRoot) = true
  · simp only [if_pos future]
    rcases futureWords i (i.path.value.ref?.getD []) allowed with problem | words
    · rfl
    · exact reserved _ words
  · simp only [if_neg future]
    exact ⟨u.look.scanner.keywords, rfl⟩

/-- An import with which something is wrong reserves nothing. -/
theorem reserving_problem {i : Import} {env : Env} {allowed : KeywordTable} {problem : Problem}
    (wrong : i.problem? env allowed = some problem) (u : Reading) :
    i.reserving env allowed u.look.scanner.keywords = u.look.scanner.keywords := by
  have same := i.applied_eq env allowed u
  rw [wrong] at same
  rw [← applied_keywords, same]
  rfl

/-- What an import does otherwise is to report what is wrong with it. -/
theorem applied_same (i : Import) (env : Env) (allowed : KeywordTable) (u : Reading) :
    (i.applied env allowed u).memo = u.memo ∧ Grows u.failures (i.applied env allowed u).failures ∧
      ∃ hints, (i.applied env allowed u).look = { u.look with
        hints, scanner := { u.look.scanner with
          keywords := i.reserving env allowed u.look.scanner.keywords } } := by
  have table := i.applied_keywords env allowed u
  have same := i.applied_eq env allowed u
  rw [← table]
  split at same
  · rw [same]
    exact ⟨rfl, .push _ _, [], rfl⟩
  · obtain ⟨t, same⟩ := same
    rw [same]
    exact ⟨rfl, .refl _, u.look.hints, rfl⟩

/-- An import with a name of its own reserves nothing. -/
theorem reserving_renamed {i : Import} {env : Env} {allowed t : KeywordTable} {name : String}
    (named : i.localName = some name) : i.reserving env allowed t = t := by
  apply reserving_other
  · rintro ⟨-, unnamed⟩
    cases named.symm.trans unnamed
  · rintro word ⟨-, unnamed, -⟩
    cases named.symm.trans unnamed
  · rintro ⟨-, unnamed⟩
    cases named.symm.trans unnamed

/-- An import frees no words. -/
theorem contains_reserving (i : Import) (env : Env) (allowed : KeywordTable) {t : KeywordTable}
    {word : String} (h : t.contains word = true) : (i.reserving env allowed t).contains word = true := by
  -- a table is extended, or one word is added, or it stays
  unfold reserving
  split
  · exact t.contains_extend allowed h
  · split
    · exact t.contains_insert _ _ h
    · exact h
  · split
    · exact t.contains_extend .future h
    · exact h
  · exact h

/-- Imports reserve words of the future only. -/
theorem reserving_removeAll (i : Import) (env : Env) {allowed : KeywordTable} (t : KeywordTable)
    (future : ∀ x, KeywordTable.future.contains x = false → allowed.get? x = none) :
    (i.reserving env allowed t).removeAll .future = t.removeAll .future := by
  -- ?_ => a word that is not of the future is looked up alike
  refine KeywordTable.removeAll_congr fun x other => ?_
  have unreserved : KeywordTable.future.get? x = none := by simpa [KeywordTable.contains] using other
  unfold reserving
  split
  · rw [KeywordTable.get?_extend, future x other, Option.none_or]
  · next word _ _ =>
      split
      · next kind found =>
          rw [KeywordTable.get?_insert, if_neg]
          rintro rfl
          rw [future word other] at found
          cases found
      · rfl
  · split
    · rw [KeywordTable.get?_extend, unreserved, Option.none_or]
    · rfl
  · rfl

end Import

/-! ## Words that options allow

The table of allowed words is picked from the words of the future, so whatever an import reserves is one
of these. -/

namespace Negotiated

/-- What is picked is out of the words that there are. -/
theorem get?_pick {source : KeywordTable} {problem : String → Problem} {words : List String}
    {t t' : KeywordTable} (picked : pick source problem t words = .ok t') {x : String} {kind : Token}
    (found : t'.get? x = some kind) : source.get? x = some kind ∨ t.get? x = some kind := by
  -- on the words that are picked, with the table that has been picked so far
  induction words generalizing t with
  | nil =>
      obtain rfl := Except.ok.inj picked
      exact .inr found
  | cons word words ih =>
      unfold pick at picked
      split at picked
      · next kind' named =>
          rcases ih picked with there | here
          · exact .inl there
          · rw [KeywordTable.get?_insert] at here
            split at here
            · next same => exact .inl (same ▸ named.trans here)
            · exact .inr here
      · cases picked

end Negotiated

/-- Options allow words of the future only. -/
theorem Options.allowed_future {o : Options} {words : Negotiated} (h : o.negotiate = .ok words)
    (x : String) (other : KeywordTable.future.contains x = false) : words.allowed.get? x = none := by
  have unreserved : KeywordTable.future.get? x = none := by simpa [KeywordTable.contains] using other
  obtain ⟨allowed, admitted, h⟩ := Except.ok_of_bind h
  obtain ⟨selected, -, h⟩ := Except.ok_of_bind h
  obtain rfl := Except.ok.inj h
  unfold Negotiated.allowedWords at admitted
  dsimp only at admitted
  split at admitted
  · cases admitted
  obtain ⟨named, picked, result⟩ := Except.ok_of_bind admitted
  have unnamed : named.get? x = none := Option.eq_none_iff_forall_not_mem.2 fun kind found => by
    rcases Negotiated.get?_pick picked found with there | none
    · cases unreserved.symm.trans there
    · cases none
  obtain rfl := Except.ok.inj result
  show (if _ then named.extend .future else named).get? x = none
  split
  · rw [KeywordTable.get?_extend, unreserved, unnamed]
    rfl
  · exact unnamed

end RegoSyntax
