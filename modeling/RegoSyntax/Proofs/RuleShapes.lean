/-
# RegoSyntax.Proofs.RuleShapes — what heads, bodies and alternatives of parsed rules have in common.

However a rule was written, its normalized head has only some combinations of parts, its alternatives fit it,
and a default rule is constant.  `parse_rules_shaped` says so of every rule of a source that is read without
an error, and of every link of its chain of alternatives.
-/
import RegoSyntax.Proofs.Outcome

namespace RegoSyntax

open Parse

/-! ## Constants

A default rule has a constant value: its check looks for kinds that need evaluation, and a value without
them is one. -/

/-- A value in which no path, variable or call occurs outside of comprehensions. -/
inductive Value.Constant : Value → Prop where
  | null : Constant .null
  | boolean (b : Bool) : Constant (.boolean b)
  | number (s : String) : Constant (.number s)
  | string (s : String) : Constant (.string s)
  | array {ts : List Term} : (∀ t ∈ ts, Constant t.value) → Constant (.array ts)
  | set {ts : List Term} : (∀ t ∈ ts, Constant t.value) → Constant (.set ts)
  | object {ps : List (Term × Term)} : (∀ p ∈ ps, Constant p.1.value) →
      (∀ p ∈ ps, Constant p.2.value) → Constant (.object ps)
  | arrayComprehension (t : Term) (b : Body) : Constant (.arrayComprehension t b)
  | setComprehension (t : Term) (b : Body) : Constant (.setComprehension t b)
  | objectComprehension (k v : Term) (b : Body) : Constant (.objectComprehension k v b)

mutual

/-- A term without anything to evaluate is constant. -/
theorem Term.constant_of_kinds : (t : Term) → t.evaluatedKinds = [] → t.value.Constant
  | ⟨v, _⟩, nothing => v.constant_of_kinds nothing

theorem Value.constant_of_kinds : (v : Value) → v.evaluatedKinds = [] → v.Constant
  | .null, _ => .null
  | .boolean b, _ => .boolean b
  | .number s, _ => .number s
  | .string s, _ => .string s
  | .array ts, nothing => .array (constants_of_kinds ts nothing)
  | .set ts, nothing => .set (constants_of_kinds ts nothing)
  | .object ps, nothing =>
    .object (fun p hp => (pairs_of_kinds ps nothing p hp).1) fun p hp => (pairs_of_kinds ps nothing p hp).2
  | .arrayComprehension t b, _ => .arrayComprehension t b
  | .setComprehension t b, _ => .setComprehension t b
  | .objectComprehension k v b, _ => .objectComprehension k v b

theorem constants_of_kinds :
    (ts : List Term) → evaluatedKindsOf ts = [] → ∀ t ∈ ts, t.value.Constant
  | [], _ => List.forall_mem_nil _
  | t :: ts, nothing =>
    have parts := List.append_eq_nil_iff.1 nothing
    List.forall_mem_cons.2 ⟨t.constant_of_kinds parts.1, constants_of_kinds ts parts.2⟩

theorem pairs_of_kinds : (ps : List (Term × Term)) → evaluatedKindsOfPairs ps = [] →
    ∀ p ∈ ps, p.1.value.Constant ∧ p.2.value.Constant
  | [], _ => List.forall_mem_nil _
  | (k, v) :: ps, nothing =>
    have parts := List.append_eq_nil_iff.1 nothing
    have pair := List.append_eq_nil_iff.1 parts.1
    List.forall_mem_cons.2
      ⟨⟨k.constant_of_kinds pair.1, v.constant_of_kinds pair.2⟩, pairs_of_kinds ps parts.2⟩

end

/-! ## Arguments

The arguments of a default rule are variables with different names, which is what its check makes sure of.
-/

/-- The names of the variables among terms that are no wildcards. -/
def plainNames (ts : List Term) : List String :=
  (ts.filterMap (·.value.varName?)).filter (!isWildcardName ·)

/-- Arguments without problems are variables, and no two of them have one name, except wildcards. -/
theorem plainNames_of_problems {seen : List String} {ts : List Term}
    (none : argumentProblems seen ts = []) : (∀ t ∈ ts, t.value.isVar = true) ∧
      (plainNames ts).Nodup ∧ ∀ name ∈ plainNames ts, name ∉ seen := by
  -- on the arguments; `seen` grows by each name that is no wildcard
  induction ts generalizing seen with
  | nil => exact ⟨List.forall_mem_nil _, .nil, List.forall_mem_nil _⟩
  | cons t ts ih =>
      unfold argumentProblems at none
      split at none
      · next name var =>
          have isVar : t.value.isVar = true := by rw [var]; rfl
          have first : t.value.varName? = some name := by rw [var]; rfl
          split at none
          -- a wildcard is neither among the plain names nor among those seen
          · next wild =>
              obtain ⟨vars, distinct, fresh⟩ := ih none
              have same : plainNames (t :: ts) = plainNames ts := by
                simp [plainNames, first, wild]
              rw [same]
              exact ⟨List.forall_mem_cons.2 ⟨isVar, vars⟩, distinct, fresh⟩
          · next plain =>
              split at none
              · cases none
              · next unseen =>
                  obtain ⟨vars, distinct, fresh⟩ := ih none
                  have same : plainNames (t :: ts) = name :: plainNames ts := by
                    simp [plainNames, first, plain]
                  rw [same]
                  refine ⟨List.forall_mem_cons.2 ⟨isVar, vars⟩, List.nodup_cons.2 ⟨fun again =>
                    fresh name again List.mem_cons_self, distinct⟩, List.forall_mem_cons.2 ⟨?_, ?_⟩⟩
                  · simpa using unseen
                  · exact fun other listed member => fresh other listed (List.mem_cons_of_mem _ member)
      · cases none

/-! ## Shapes

A rule is followed by its alternatives, and every link of this chain has a shape of its own. -/

/-- What an alternative has to do with the rule before it. -/
structure Rule.Fits (r next : Rule) : Prop where
  single : r.head.key = none
  ground : r.head.reference.length = 1 ∨ Ref.isGround r.head.reference = true
  reference : next.head.reference = r.head.reference
  arity : next.head.args.length = r.head.args.length
  key : next.head.key = none
  value : next.head.value ≠ none
  body : next.body ≠ []

/-- What a default rule is like. -/
structure Rule.IsConstant (r : Rule) : Prop where
  alone : r.elseRule = none
  body : r.generatedBody = true
  value : ∃ v, r.head.value = some v ∧ v.value.Constant
  args : ∀ t ∈ r.head.args, t.value.isVar = true
  names : (plainNames r.head.args).Nodup

/-- A rule in a chain of alternatives. -/
structure Rule.Shaped (r : Rule) : Prop where
  argsOrKey : r.head.args = [] ∨ r.head.key = none
  valueOrKey : r.head.value = none → r.head.key ≠ none
  contains : HeadKeyword.containsKw ∈ r.head.keywords → r.head.key ≠ none ∧ r.head.value = none
  generatedValue : r.head.generatedValue = true → ∃ l, r.head.value = some ⟨.boolean true, l⟩
  body : r.body ≠ []
  generatedBody : r.generatedBody = true → r.body.IsTrue
  alternative : ∀ next, r.elseRule = some next → r.Fits next
  constant : r.isDefault = true → r.IsConstant

/-- The rules of a file: all rules in their chains are in shape; and a rule that was made for a further body
has no alternative, and stands behind a rule without an alternative. -/
structure RulesShaped (ss : List Statement) : Prop where
  shaped : ∀ r, .rule r ∈ ss → ∀ link ∈ r.links, link.Shaped
  further : ∀ i r, ss[i]? = some (.rule r) → r.isFurther = true → r.elseRule = none ∧
    ∃ j r', i = j + 1 ∧ ss[j]? = some (.rule r') ∧ r'.elseRule = none

section good

variable {names : String → Prop}

/-- What stands behind a link of a chain is a link itself, and not the first one. -/
theorem Rule.mem_alternatives : (r : Rule) → {link next : Rule} → link ∈ r.links →
    link.elseRule = some next → next ∈ r.alternatives
  | ⟨d, h, b, none, g, l⟩, link, next, listed, behind => by
    obtain rfl := List.mem_singleton.1 listed
    cases behind
  | ⟨d, h, b, some e, g, l⟩, link, next, listed, behind => by
    rcases List.mem_cons.1 listed with rfl | listed
    · obtain rfl := Option.some.inj behind
      exact List.mem_cons_self
    · exact List.mem_cons_of_mem _ (e.mem_alternatives listed behind)

/-- A constant rule is one that a default rule may be. -/
theorem Rule.Constant.isConstant {r : Rule} (h : r.Constant) : r.IsConstant := by
  obtain ⟨v, some, constant⟩ := h.value
  obtain ⟨vars, distinct, -⟩ := plainNames_of_problems h.args
  exact ⟨h.alone, h.body, ⟨v, some, v.constant_of_kinds constant⟩, vars, distinct⟩

/-- All rules in the chain of a good rule are in shape. -/
theorem Rule.Good.shaped {r : Rule} (h : r.Good names) : ∀ link ∈ r.links, link.Shaped := by
  intro link listed
  have sound := h.sound link listed
  have keys {key : Option Term} (some : key.isSome = true) : key ≠ none := by
    rintro rfl
    cases some
  refine ⟨sound.shaped.argsOrKey, fun none => ?_, fun uses => ?_, sound.shaped.generated,
    (Body.whole_iff.1 sound.body).1, sound.generated, fun next behind => ?_, fun default => ?_⟩
  · rcases sound.shaped.valueOrKey with value | key
    · exact absurd none (keys value)
    · exact keys key
  · obtain ⟨key, value⟩ := sound.shaped.contains (List.contains_iff_mem.2 uses)
    exact ⟨keys key, value⟩
  · have after := r.mem_alternatives listed behind
    have fits := h.alternates next after
    have some : r.elseRule ≠ none := by
      intro none
      rw [Rule.alternatives_eq, none] at after
      cases after
    obtain ⟨single, ground⟩ := h.shared some
    have value : next.head.value ≠ none := keys fits.value
    have body : next.body ≠ [] :=
      (Body.whole_iff.1 (h.sound next (List.mem_cons_of_mem _ after)).body).1
    -- the first link, or one behind it: an alternative has the path and the arity of the first
    rcases List.mem_cons.1 listed with rfl | listed
    · exact ⟨single, ground, fits.reference, fits.arity, fits.key, value, body⟩
    · have own := h.alternates link listed
      exact ⟨own.key, own.reference ▸ ground, fits.reference.trans own.reference.symm,
        fits.arity.trans own.arity.symm, fits.key, value, body⟩
  · rcases List.mem_cons.1 listed with rfl | listed
    · exact (h.constant default).isConstant
    · exact absurd ((h.alternates link listed).plain.symm.trans default) Bool.false_ne_true

end good

/-- The rules of formed statements are in shape. -/
theorem Statement.Clause.rulesShaped {names : String → Prop} {ss : List Statement}
    (h : Statement.Clause names ss) : RulesShaped ss where
  shaped r listed := Rule.Good.shaped (h.formed _ listed)
  further i r here further := by
    cases i with
    | zero =>
        rw [← List.head?_eq_getElem?] at here
        exact absurd ((h.first _ here r rfl).symm.trans further) Bool.false_ne_true
    | succ j =>
        obtain ⟨there, same⟩ := List.getElem?_eq_some_iff.1 here
        have before : j < ss.length := Nat.lt_of_succ_lt there
        have precedes := List.isChain_iff_getElem.1 h.chain j there
        rw [same] at precedes
        obtain ⟨alone, r', first, single⟩ := precedes r rfl further
        exact ⟨alone, j, r', rfl, List.getElem?_eq_some_iff.2 ⟨before, first⟩, single⟩

/-- Statements that are no rules may stand behind the rules. -/
theorem RulesShaped.append {ss as : List Statement} (h : RulesShaped ss) (others : ∀ s ∈ as, ∀ r, s ≠ .rule r) :
    RulesShaped (ss ++ as) where
  shaped r listed := by
    rcases List.mem_append.1 listed with listed | listed
    · exact h.shaped r listed
    · exact absurd rfl (others _ listed r)
  further i r here further := by
    have inside : i < ss.length := by
      by_contra beyond
      rw [List.getElem?_append_right (Nat.le_of_not_lt beyond)] at here
      exact others _ (List.mem_of_getElem? here) r rfl
    rw [List.getElem?_append_left inside] at here
    obtain ⟨alone, j, r', rfl, first, single⟩ := h.further i r here further
    exact ⟨alone, j, r', rfl, by rw [List.getElem?_append_left (Nat.lt_of_succ_lt inside)]; exact first,
      single⟩

/-- All rules of a source without errors are in shape. -/
theorem parse_rules_shaped (source file : String) (o : Options)
    (clean : (parse source file o).errors = []) : RulesShaped (parse source file o).statements := by
  obtain ⟨ss, as, same, clause, annotations⟩ := clause_of_clean clean
  rw [same]
  refine clause.rulesShaped.append fun s hs r rule => ?_
  obtain ⟨a, rfl⟩ := annotations s hs
  cases rule

/-- A policy with an alternative and a further body. -/
theorem rules_shaped_policy :
    (parse "p = 2 if x else = 3\nq { x } { y }" "" {}).errors = [] ∧
      RulesShaped (parse "p = 2 if x else = 3\nq { x } { y }" "" {}).statements := by
  have clean : (parse "p = 2 if x else = 3\nq { x } { y }" "" {}).errors = [] := by decide +kernel
  exact ⟨clean, parse_rules_shaped _ "" {} clean⟩

/-- The keyword of a further alternative opens it even if a reference starts there, where that of the first
alternative yields to the reference. -/
theorem alternative_taken :
    (parse "p if \x7b a \x7d\nelse.x" "" {}).errors = [] ∧
      (parse "p if \x7b a \x7d else if \x7b b \x7d\nelse.x" "" {}).errors.map (·.message) =
        ["unexpected . token: expected else value term or rule body"] := by
  decide +kernel

end RegoSyntax
