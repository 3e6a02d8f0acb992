/-
# RegoSyntax.Proofs.Negotiation — which options fit together, and which words they reserve.

Options are settled without looking at the source.  `Options.Fits` says when that works, and
`Options.Admits` and `Options.Selects` say which words of the future may be reserved then, and which are
reserved from the start.  All three are told by which words the lists of the options have, so their order and
their repetitions do not count: a table of reserved words has one representation.
-/
import RegoSyntax.Proofs.Tables
import RegoSyntax.Source

namespace RegoSyntax

/-! ## Tables of the words of the language

Which words there are, and in which dialects they are reserved, are two fixed lists.  What follows from
them is found by running through the lists. -/

namespace KeywordTable

/-- A word is in the table of the future if it is listed there. -/
theorem get?_future {word : String} {kind : Token} :
    future.get? word = some kind ↔ (word, kind) ∈ futureWords := by
  have same : ∀ e, e ∈ future.entries ↔ e ∈ futureWords := fun e =>
    (show future.entries.Perm futureWords by decide).mem_iff
  exact ⟨fun h => (same _).1 (mem_of_get? h), fun h => get?_of_mem ((same _).2 h)⟩

theorem get?_base {word : String} {kind : Token} :
    base.get? word = some kind ↔ (word, kind) ∈ baseWords := by
  have same : ∀ e, e ∈ base.entries ↔ e ∈ baseWords := fun e =>
    (show base.entries.Perm baseWords by decide).mem_iff
  exact ⟨fun h => (same _).1 (mem_of_get? h), fun h => get?_of_mem ((same _).2 h)⟩

/-- The words that the older dialects reserve only once they are imported. -/
def futureNames : List String := futureWords.map Prod.fst

/-- The names of the future are the words of its list. -/
theorem mem_futureNames {word : String} :
    word ∈ futureNames ↔ ∃ kind, (word, kind) ∈ futureWords := by
  simp [futureNames]

/-- No word is both in every dialect and of the future. -/
theorem not_base_of_future {word : String} {kind kind' : Token} (future : (word, kind) ∈ futureWords) :
    (word, kind') ∉ baseWords := fun base => by
  have apart : ∀ e ∈ futureWords, ∀ e' ∈ baseWords, e.1 ≠ e'.1 := by decide
  exact apart _ future _ base rfl

/-- A table reserves the words of the future for which something holds, and nothing else. -/
def Holds (t : KeywordTable) (P : String → Prop) : Prop :=
  ∀ word kind, t.get? word = some kind ↔ (word, kind) ∈ futureWords ∧ P word

namespace Holds

variable {t u : KeywordTable} {P Q : String → Prop}

/-- A table that holds the words of a property has those words, and no others. -/
theorem contains_iff (h : t.Holds P) {word : String} :
    t.contains word = true ↔ word ∈ futureNames ∧ P word := by
  rw [contains, Option.isSome_iff_exists, mem_futureNames]
  simp only [h word]
  exact exists_and_right

/-- What a table reserves tells which table it is. -/
theorem unique (h : t.Holds P) (h' : u.Holds P) : t = u :=
  ext_get? fun word => Option.ext fun kind => (h word kind).trans (h' word kind).symm

theorem congr (h : t.Holds P) (same : ∀ word ∈ futureNames, P word ↔ Q word) : t.Holds Q :=
  fun word kind => (h word kind).trans <| and_congr_right fun listed =>
    same word (mem_futureNames.2 ⟨kind, listed⟩)

end Holds

/-- For any words of the future there is a table that reserves them. -/
theorem exists_holds (P : String → Prop) : ∃ t : KeywordTable, t.Holds P := by
  classical
  refine ⟨⟨future.entries.filter fun e => P e.1, future.sorted.filter _⟩, fun word kind => ?_⟩
  rw [← get?_future]
  constructor
  · intro found
    obtain ⟨listed, holds⟩ := List.mem_filter.1 (mem_of_get? found)
    exact ⟨get?_of_mem listed, of_decide_eq_true holds⟩
  · intro ⟨found, holds⟩
    exact get?_of_mem (List.mem_filter.2 ⟨mem_of_get? found, decide_eq_true holds⟩)

theorem holds_future : future.Holds fun _ => True := fun _ _ => get?_future.trans (iff_of_eq (and_true _)).symm

/-- With all words of the future a table of words of the future is the whole of them. -/
theorem Holds.extend_future {t : KeywordTable} {P : String → Prop} (h : t.Holds P) :
    (t.extend future).Holds (· ∈ futureNames) := by
  intro word kind
  rw [get?_extend, Option.or_eq_some_iff, get?_future]
  constructor
  · rintro (listed | ⟨-, found⟩)
    · exact ⟨listed, mem_futureNames.2 ⟨kind, listed⟩⟩
    · have listed := ((h word kind).1 found).1
      exact ⟨listed, mem_futureNames.2 ⟨kind, listed⟩⟩
  · exact fun h => .inl h.1

/-- What is reserved beside the words of every dialect. -/
theorem Holds.get?_base_extend {t : KeywordTable} {P : String → Prop} (h : t.Holds P) {word : String}
    {kind : Token} : (base.extend t).get? word = some kind ↔
      (word, kind) ∈ baseWords ∨ (word, kind) ∈ futureWords ∧ P word := by
  rw [get?_extend, Option.or_eq_some_iff, h word kind, get?_base]
  constructor
  · rintro (listed | ⟨-, listed⟩)
    · exact .inr listed
    · exact .inl listed
  · rintro (listed | listed)
    · refine .inr ⟨Option.eq_none_iff_forall_ne_some.2 fun other found => ?_, listed⟩
      exact not_base_of_future ((h word other).1 found).1 listed
    · exact .inl listed

end KeywordTable

/-! ## Picking words

A list of words is picked from a table one word at a time, and a word that the table does not have is an
error.  Where all of them are there, the outcome depends on which words are in the list, and not on their
order. -/

namespace Negotiated

variable {source u : KeywordTable} {problem : String → Problem} {words : List String} {P : String → Prop}

/-- Words that a table has are picked from it, and keep what they are reserved for. -/
theorem pick_of_contains {t : KeywordTable} (all : ∀ w ∈ words, source.contains w = true) :
    ∃ u, pick source problem t words = .ok u ∧
      ∀ word, u.get? word = if word ∈ words then source.get? word else t.get? word := by
  induction words generalizing t with
  | nil => exact ⟨t, rfl, fun _ => rfl⟩
  | cons first words ih =>
      obtain ⟨here, all⟩ := List.forall_mem_cons.1 all
      obtain ⟨kind, found⟩ := Option.isSome_iff_exists.1 here
      obtain ⟨u, picked, holds⟩ := ih (t := t.insert first kind) all
      refine ⟨u, by rw [pick, found]; exact picked, fun word => ?_⟩
      rw [holds, KeywordTable.get?_insert]
      by_cases same : word = first
      · subst same
        simp [found]
      · simp [same, Ne.symm same]

/-- Only words that a table has are picked from it. -/
theorem contains_of_pick {t : KeywordTable} (h : pick source problem t words = .ok u) :
    ∀ w ∈ words, source.contains w = true := by
  induction words generalizing t with
  | nil => exact List.forall_mem_nil _
  | cons first words ih =>
      rw [pick] at h
      rcases found : source.get? first with _ | kind <;> rw [found] at h
      · cases h
      · exact List.forall_mem_cons.2 ⟨by rw [KeywordTable.contains, found]; rfl, ih h⟩

/-- What is picked from a table of words of the future: the words of the list, which have to be in it. -/
theorem pick_eq_ok (from' : source.Holds P) : pick source problem .empty words = .ok u ↔
    (∀ w ∈ words, w ∈ KeywordTable.futureNames ∧ P w) ∧ u.Holds (· ∈ words) := by
  have all : (∀ w ∈ words, source.contains w = true) ↔ ∀ w ∈ words, w ∈ KeywordTable.futureNames ∧ P w := by
    simp only [from'.contains_iff]
  rw [← all]
  -- the table that is picked holds the words of the list, and no other table does
  have holds {v : KeywordTable} (all : ∀ w ∈ words, source.contains w = true)
      (tell : ∀ word, v.get? word = if word ∈ words then source.get? word else KeywordTable.empty.get? word) :
      v.Holds (· ∈ words) := by
    intro word kind
    rw [tell]
    by_cases listed : word ∈ words
    · rw [if_pos listed, from' word kind]
      exact and_congr_right fun _ => iff_of_true (from'.contains_iff.1 (all word listed)).2 listed
    · rw [if_neg listed]
      exact iff_of_false nofun fun h => listed h.2
  constructor
  · intro h
    have all := contains_of_pick h
    obtain ⟨v, picked, tell⟩ : ∃ v, pick source problem .empty words = .ok v ∧ _ := pick_of_contains all
    obtain rfl := Except.ok.inj (picked.symm.trans h)
    exact ⟨all, holds all tell⟩
  · intro ⟨all, there⟩
    obtain ⟨v, picked, tell⟩ : ∃ v, pick source problem .empty words = .ok v ∧ _ := pick_of_contains all
    rw [picked, (holds all tell).unique there]

end Negotiated

/-! ## Options

What it takes for options to fit together, and which words they admit and select, are told as predicates,
without the tables that are computed. -/

namespace Options

variable (o : Options)

/-- All words of the future may be reserved: in the current dialect, and where its syntax is supported. -/
def AdmitsAll : Prop :=
  o.effectiveVersion = .v1 ∨ o.effectiveCapabilities.hasFeature Capabilities.regoV1 = true

instance : Decidable o.AdmitsAll := inferInstanceAs (Decidable (_ ∨ _))

/-- The words that may be reserved: all of the future, or else those that the capabilities name. -/
def Admits (word : String) : Prop :=
  if o.AdmitsAll then word ∈ KeywordTable.futureNames else word ∈ o.effectiveCapabilities.futureKeywords

/-- The words that are reserved from the start: all that may be, or else those that were asked for. -/
def Selects (word : String) : Prop :=
  if o.allFutureKeywords = true ∨ o.effectiveVersion = .v1 then o.Admits word else word ∈ o.futureKeywords

/-- Options fit together: the syntax of the dialect is supported, the capabilities name words of the future
only, and only words that may be reserved are asked for. -/
structure Fits : Prop where
  supported : o.effectiveVersion = .v1 → o.effectiveCapabilities.hasFeature Capabilities.regoV1 = true
  named : ∀ word ∈ o.effectiveCapabilities.futureKeywords, word ∈ KeywordTable.futureNames
  admitted : ∀ word ∈ o.futureKeywords, o.Admits word

/-- Options that differ, as far as reserved words go, in the order and the repetitions of their lists at
most. -/
structure Rearranged (p : Options) : Prop where
  version : p.effectiveVersion = o.effectiveVersion
  all : p.allFutureKeywords = o.allFutureKeywords
  named : ∀ word, word ∈ p.effectiveCapabilities.futureKeywords ↔
    word ∈ o.effectiveCapabilities.futureKeywords
  features : ∀ f, f ∈ p.effectiveCapabilities.features ↔ f ∈ o.effectiveCapabilities.features
  requested : ∀ word, word ∈ p.futureKeywords ↔ word ∈ o.futureKeywords

variable {o} {p : Options} {words : Negotiated} {allowed selected : KeywordTable}

/-- Words that may be reserved are words of the future, if the capabilities name no others. -/
theorem Admits.mem_futureNames {word : String} (h : o.Admits word)
    (named : ∀ word ∈ o.effectiveCapabilities.futureKeywords, word ∈ KeywordTable.futureNames) :
    word ∈ KeywordTable.futureNames := by
  unfold Admits at h
  split at h
  · exact h
  · exact named word h

/-- When there are allowed words, and which they are. -/
theorem allowedWords_eq_ok :
    Negotiated.allowedWords o.effectiveVersion o.effectiveCapabilities = .ok allowed ↔
      (o.effectiveVersion = .v1 → o.effectiveCapabilities.hasFeature Capabilities.regoV1 = true) ∧
        (∀ word ∈ o.effectiveCapabilities.futureKeywords, word ∈ KeywordTable.futureNames) ∧
          allowed.Holds o.Admits := by
  unfold Negotiated.allowedWords
  by_cases unsupported :
      (o.effectiveVersion == .v1 && !o.effectiveCapabilities.hasFeature Capabilities.regoV1) = true
  · rw [if_pos unsupported]
    refine iff_of_false nofun fun h => ?_
    obtain ⟨current, lacks⟩ := Bool.and_eq_true_iff.1 unsupported
    rw [h.1 (beq_iff_eq.1 current)] at lacks
    cases lacks
  rw [if_neg unsupported]
  have supported : o.effectiveVersion = .v1 →
      o.effectiveCapabilities.hasFeature Capabilities.regoV1 = true := by
    intro current
    simpa [current] using unsupported
  have picked {u : KeywordTable} : Negotiated.pick .future .unknownCapabilityKeyword .empty
      o.effectiveCapabilities.futureKeywords = .ok u ↔ _ :=
    Negotiated.pick_eq_ok KeywordTable.holds_future
  -- the table that was picked, with all words of the future if they are admitted
  have complete {u : KeywordTable} (named : u.Holds (· ∈ o.effectiveCapabilities.futureKeywords)) :
      KeywordTable.Holds (if (o.effectiveVersion == .v1 ||
        o.effectiveCapabilities.hasFeature Capabilities.regoV1) = true then u.extend .future else u)
          o.Admits := by
    have admits : (o.effectiveVersion == .v1 ||
        o.effectiveCapabilities.hasFeature Capabilities.regoV1) = true ↔ o.AdmitsAll := by
      rw [Bool.or_eq_true, beq_iff_eq, AdmitsAll]
    unfold Admits
    by_cases every : o.AdmitsAll
    · rw [if_pos (admits.2 every)]
      simp only [if_pos every]
      exact named.extend_future
    · rw [if_neg (mt admits.1 every)]
      simpa only [if_neg every] using named
  constructor
  · intro h
    rcases there : Negotiated.pick .future .unknownCapabilityKeyword .empty
      o.effectiveCapabilities.futureKeywords with _ | u
    · rw [there] at h
      cases h
    · rw [there] at h
      obtain ⟨named, holds⟩ := picked.1 there
      exact ⟨supported, fun word hw => (named word hw).1, Except.ok.inj h ▸ complete holds⟩
  · rintro ⟨-, named, holds⟩
    obtain ⟨u, there⟩ := KeywordTable.exists_holds (· ∈ o.effectiveCapabilities.futureKeywords)
    rw [picked.2 ⟨fun word hw => ⟨named word hw, trivial⟩, there⟩]
    exact congrArg Except.ok ((complete there).unique holds)

/-- When there are selected words, and which they are. -/
theorem selectedWords_eq_ok (admitted : allowed.Holds o.Admits)
    (named : ∀ word ∈ o.effectiveCapabilities.futureKeywords, word ∈ KeywordTable.futureNames) :
    Negotiated.selectedWords o allowed = .ok selected ↔
      (∀ word ∈ o.futureKeywords, o.Admits word) ∧ selected.Holds o.Selects := by
  unfold Negotiated.selectedWords
  have picked {u : KeywordTable} : Negotiated.pick allowed .unknownFutureKeyword .empty o.futureKeywords =
      .ok u ↔ _ := Negotiated.pick_eq_ok admitted
  -- the table that was picked, or all words that are admitted
  have complete {u : KeywordTable} (asked : u.Holds (· ∈ o.futureKeywords)) :
      KeywordTable.Holds (if (o.allFutureKeywords || o.effectiveVersion == .v1) = true then allowed else u)
        o.Selects := by
    have every : (o.allFutureKeywords || o.effectiveVersion == .v1) = true ↔
        o.allFutureKeywords = true ∨ o.effectiveVersion = .v1 := by
      rw [Bool.or_eq_true, beq_iff_eq]
    unfold Selects
    by_cases all : o.allFutureKeywords = true ∨ o.effectiveVersion = .v1
    · rw [if_pos (every.2 all)]
      simpa only [if_pos all] using admitted
    · rw [if_neg (mt every.1 all)]
      simpa only [if_neg all] using asked
  constructor
  · intro h
    rcases there : Negotiated.pick allowed .unknownFutureKeyword .empty o.futureKeywords with _ | u
    · rw [there] at h
      cases h
    · rw [there] at h
      obtain ⟨asked, holds⟩ := picked.1 there
      exact ⟨fun word hw => (asked word hw).2, Except.ok.inj h ▸ complete holds⟩
  · intro ⟨asked, holds⟩
    obtain ⟨u, there⟩ := KeywordTable.exists_holds (· ∈ o.futureKeywords)
    rw [picked.2 ⟨fun word hw => ⟨(asked word hw).mem_futureNames named, asked word hw⟩, there⟩]
    exact congrArg Except.ok ((complete there).unique holds)

/-! ### Both tables

The two tables are settled one behind the other, and the second one picks from the first. -/

/-- What options come to: they fit together, and the tables are those of the words that are admitted and of the
words that are selected. -/
theorem negotiate_eq_ok : o.negotiate = .ok words ↔
    o.Fits ∧ words.allowed.Holds o.Admits ∧ words.selected.Holds o.Selects := by
  unfold negotiate
  rcases first : Negotiated.allowedWords o.effectiveVersion o.effectiveCapabilities with problem | allowed
  -- in the order of the checks: the words that are admitted, and then those that are selected
  · refine iff_of_false nofun fun ⟨fits, admitted, _⟩ => ?_
    rw [allowedWords_eq_ok.2 ⟨fits.supported, fits.named, admitted⟩] at first
    cases first
  obtain ⟨supported, named, admitted⟩ := allowedWords_eq_ok.1 first
  rcases second : Negotiated.selectedWords o allowed with problem | selected
  · refine iff_of_false (fun h => ?_) fun ⟨fits, _, holds⟩ => ?_
    · have h : (Except.error problem : Except Problem Negotiated) = .ok words := by
        rw [← h]
        show _ = Negotiated.selectedWords o allowed >>= _
        rw [second]
        rfl
      cases h
    · rw [(selectedWords_eq_ok admitted named).2 ⟨fits.admitted, holds⟩] at second
      cases second
  obtain ⟨asked, holds⟩ := (selectedWords_eq_ok admitted named).1 second
  have settled : (Except.ok allowed >>= fun allowed => do
      let selected ← Negotiated.selectedWords o allowed
      pure { allowed, selected } : Except Problem Negotiated) = .ok ⟨allowed, selected⟩ := by
    show (Negotiated.selectedWords o allowed >>= fun selected =>
      (pure { allowed, selected } : Except Problem Negotiated)) = _
    rw [second]
    rfl
  rw [settled]
  -- tables of the same words are equal, so there is no other outcome
  constructor
  · intro h
    obtain rfl := Except.ok.inj h
    exact ⟨⟨supported, named, asked⟩, admitted, holds⟩
  · rintro ⟨-, admitted', holds'⟩
    obtain ⟨allowed', selected'⟩ := words
    rw [admitted.unique admitted', holds.unique holds']

/-- Options that fit together come to something. -/
theorem isOk_negotiate : o.negotiate.isOk = true ↔ o.Fits := by
  constructor
  · intro ok
    rcases settled : o.negotiate with problem | words <;> rw [settled] at ok
    · cases ok
    · exact (negotiate_eq_ok.1 settled).1
  · intro fits
    obtain ⟨allowed, admitted⟩ := KeywordTable.exists_holds o.Admits
    obtain ⟨selected, holds⟩ := KeywordTable.exists_holds o.Selects
    have settled : o.negotiate = .ok ⟨allowed, selected⟩ := negotiate_eq_ok.2 ⟨fits, admitted, holds⟩
    rw [settled]
    rfl

/-! ### Lists of options

Two lists of words with the same members are as good as one another, as the predicates above ask for
members alone. -/

namespace Rearranged

variable (h : o.Rearranged p)

include h

theorem hasFeature (f : String) :
    p.effectiveCapabilities.hasFeature f = o.effectiveCapabilities.hasFeature f := by
  rw [Bool.eq_iff_iff, Capabilities.hasFeature, Capabilities.hasFeature, List.contains_iff_mem,
    List.contains_iff_mem]
  exact h.features f

theorem admits : p.Admits = o.Admits := by
  funext word
  have every : p.AdmitsAll = o.AdmitsAll := by
    unfold AdmitsAll
    rw [h.version, h.hasFeature]
  simp only [Admits, every, h.named]

theorem selects : p.Selects = o.Selects := by
  funext word
  simp only [Selects, h.version, h.all, h.admits, h.requested]

theorem fits : p.Fits ↔ o.Fits := by
  constructor
  · intro ⟨supported, named, admitted⟩
    rw [h.version, h.hasFeature] at supported
    rw [h.admits] at admitted
    exact ⟨supported, fun word hw => named word ((h.named word).2 hw),
      fun word hw => admitted word ((h.requested word).2 hw)⟩
  · intro ⟨supported, named, admitted⟩
    rw [← h.version, ← h.hasFeature] at supported
    rw [← h.admits] at admitted
    exact ⟨supported, fun word hw => named word ((h.named word).1 hw),
      fun word hw => admitted word ((h.requested word).1 hw)⟩

/-- Neither order nor repetitions in the lists make a difference. -/
theorem negotiate (words : Negotiated) : p.negotiate = .ok words ↔ o.negotiate = .ok words := by
  rw [negotiate_eq_ok, negotiate_eq_ok, h.fits, h.admits, h.selects]

end Rearranged

end Options

/-! ## Parses

A source is looked at only once the options are settled, so what they come to is said without one. -/

/-- Options that do not fit together leave nothing but their error. -/
theorem parse_of_error {source file : String} {o : Options} {problem : Problem}
    (unsettled : o.negotiate = .error problem) :
    parse source file o = { errors := [{ message := problem.message }] } := by
  have syntactic : parseSyntax source file o = { errors := [{ message := problem.message }] } := by
    rw [parseSyntax, unsettled]
  unfold parse
  dsimp only
  rw [syntactic]
  split
  · rfl
  · rfl

/-- How options are settled.  It works out if they fit together, and then gives the table of the words that may
be reserved; the words of every dialect and the selected ones are reserved from the start.  Otherwise nothing
is read, and there is one error, which has no place.  The order of the lists and their repetitions do not
count. -/
theorem negotiate_settles (source file : String) (o : Options) :
    (o.negotiate.isOk = true ↔ o.Fits) ∧
    (∀ words, o.negotiate = .ok words →
      (∀ word kind, words.allowed.get? word = some kind ↔
        (word, kind) ∈ KeywordTable.futureWords ∧ o.Admits word) ∧
      ∀ word kind, (Task.new source file o words).opening.look.scanner.keywords.get? word = some kind ↔
        (word, kind) ∈ KeywordTable.baseWords ∨
          (word, kind) ∈ KeywordTable.futureWords ∧ o.Selects word) ∧
    (∀ problem, o.negotiate = .error problem →
      (parse source file o).statements = [] ∧ (parse source file o).comments = [] ∧
        ∃ e, (parse source file o).errors = [e] ∧ e.location = none) ∧
    ∀ p : Options, o.Rearranged p → ∀ words, p.negotiate = .ok words ↔ o.negotiate = .ok words := by
  refine ⟨Options.isOk_negotiate, fun words settled => ?_, fun problem unsettled => ?_,
    fun p rearranged => rearranged.negotiate⟩
  · obtain ⟨-, admitted, selected⟩ := Options.negotiate_eq_ok.1 settled
    exact ⟨admitted, fun word kind => selected.get?_base_extend⟩
  · rw [parse_of_error unsettled]
    exact ⟨rfl, rfl, _, rfl, rfl⟩

/-- A word that is asked for twice, the same word asked for once, and a word that may not be reserved. -/
theorem settles_repeated :
    let once : Options := { version := some .v0, futureKeywords := ["in"] }
    let twice : Options := { version := some .v0, futureKeywords := ["in", "in"] }
    let wrong : Options := { version := some .v0, futureKeywords := ["not"] }
    (∃ words, once.negotiate = .ok words ∧ ∀ word kind,
      (Task.new "" "" once words).opening.look.scanner.keywords.get? word = some kind ↔
        (word, kind) ∈ KeywordTable.baseWords ∨
          (word, kind) ∈ KeywordTable.futureWords ∧ once.Selects word) ∧
    (∃ problem, wrong.negotiate = .error problem ∧ ∃ e, (parse "" "" wrong).errors = [e] ∧
      e.location = none) ∧
    once.Rearranged twice ∧ ∀ words, twice.negotiate = .ok words ↔ once.negotiate = .ok words := by
  intro once twice wrong
  have rearranged : once.Rearranged twice := ⟨rfl, rfl, fun _ => .rfl, fun _ => .rfl, by simp [once, twice]⟩
  refine ⟨?_, ?_, rearranged, (negotiate_settles "" "" once).2.2.2 twice rearranged⟩
  · obtain ⟨words, settled⟩ : ∃ words, once.negotiate = .ok words := ⟨_, rfl⟩
    exact ⟨words, settled, ((negotiate_settles "" "" once).2.1 words settled).2⟩
  · obtain ⟨problem, unsettled⟩ : ∃ problem, wrong.negotiate = .error problem := ⟨_, rfl⟩
    exact ⟨problem, unsettled, ((negotiate_settles "" "" wrong).2.2.1 problem unsettled).2.2⟩

end RegoSyntax
