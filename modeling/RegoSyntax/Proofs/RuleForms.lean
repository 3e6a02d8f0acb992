/-
# RegoSyntax.Proofs.RuleForms — rules as a parser makes them.

The normalized head of a rule has a value or a key, and arguments or a key, in few combinations only; its
alternatives share its reference and the number of its arguments.  `Rule.Good` says all this of a rule and
of every link in its chain of alternatives, and that all trees in it are formed.
-/
import RegoSyntax.Proofs.Relocation

namespace RegoSyntax

/-! ## Chains of alternatives -/

namespace Rule

/-- The rules behind a rule in its chain of alternatives. -/
def alternatives : Rule → List Rule
  | ⟨_, _, _, none, _, _⟩ => []
  | ⟨_, _, _, some r, _, _⟩ => r :: r.alternatives

/-- A rule and the rules behind it. -/
def links (r : Rule) : List Rule := r :: r.alternatives

theorem alternatives_eq (r : Rule) : r.alternatives = (r.elseRule.map links).getD [] := by
  obtain ⟨_, _, _, _ | _, _, _⟩ := r <;> rfl

end Rule

/-! ## Heads -/

/-- The combinations of parts that a head may have. -/
structure Head.Shaped (h : Head) : Prop where
  argsOrKey : h.args = [] ∨ h.key = none
  valueOrKey : h.value.isSome = true ∨ h.key.isSome = true
  contains : Parse.usesContains h = true → h.key.isSome = true ∧ h.value = none
  generated : h.generatedValue = true → ∃ l, h.value = some ⟨.boolean true, l⟩

/-- A head with all trees in it formed. -/
structure Head.Whole (names : String → Prop) (h : Head) : Prop where
  reference : ∃ head segments, h.reference = head :: segments ∧ head.Formed names ∧
    ∀ t ∈ segments, t.Whole names
  args : ∀ t ∈ h.args, t.Whole names
  key : ∀ t ∈ h.key, t.Whole names
  value : ∀ t ∈ h.value, t.Whole names

/-! ## Rules -/

/-- The query that consists of `true`. -/
def Body.IsTrue (b : Body) : Prop :=
  ∃ i g l m, b = [⟨i, g, false, .term ⟨.boolean true, m⟩, [], l⟩]

/-- One rule by itself, whatever its alternatives. -/
structure Rule.Sound (names : String → Prop) (r : Rule) : Prop where
  shaped : r.head.Shaped
  head : r.head.Whole names
  body : r.body.Whole names
  generated : r.generatedBody = true → r.body.IsTrue

/-- An alternative of a rule with a head. -/
structure Rule.Alternates (h : Head) (r : Rule) : Prop where
  plain : r.isDefault = false
  reference : r.head.reference = h.reference
  arity : r.head.args.length = h.args.length
  key : r.head.key = none
  value : r.head.value.isSome = true

/-- What a default rule is like. -/
structure Rule.Constant (r : Rule) : Prop where
  alone : r.elseRule = none
  body : r.generatedBody = true
  value : ∃ v, r.head.value = some v ∧ v.evaluatedKinds = []
  args : Parse.argumentProblems [] r.head.args = []

/-- A rule with its alternatives. -/
structure Rule.Good (names : String → Prop) (r : Rule) : Prop where
  sound : ∀ link ∈ r.links, link.Sound names
  alternates : ∀ link ∈ r.alternatives, link.Alternates r.head
  shared : r.elseRule ≠ none →
    r.head.key = none ∧ (r.head.reference.length = 1 ∨ Ref.isGround r.head.reference = true)
  constant : r.isDefault = true → r.Constant

/-- A rule whose text starts with a brace: it was made for a further body behind a rule. -/
def Rule.isFurther (r : Rule) : Bool := r.location.any (·.text.toList.head? == some '{')

/-! ## Heads that were moved -/

section relocate

variable {names : String → Prop} {l : Location}

theorem Head.Whole.relocate {h : Head} (w : h.Whole names) : (h.relocate l).Whole names where
  reference := by
    obtain ⟨head, segments, reference, formed, whole⟩ := w.reference
    refine ⟨head.relocate l, segments.map (·.relocate l), ?_, formed.relocate, fun t ht => ?_⟩
    · rw [Head.relocate, reference, List.map_cons]
    · obtain ⟨u, hu, rfl⟩ := List.mem_map.1 ht
      exact (whole u hu).relocate
  args t ht := by
    obtain ⟨u, hu, rfl⟩ := List.mem_map.1 ht
    exact (w.args u hu).relocate
  key t ht := by
    obtain ⟨u, hu, rfl⟩ := Option.map_eq_some_iff.1 ht
    exact (w.key u hu).relocate
  value t ht := by
    obtain ⟨u, hu, rfl⟩ := Option.map_eq_some_iff.1 ht
    exact (w.value u hu).relocate

theorem Head.Shaped.relocate {h : Head} (s : h.Shaped) : (h.relocate l).Shaped where
  argsOrKey := s.argsOrKey.imp (fun none => by rw [Head.relocate, none, List.map_nil])
    fun none => by rw [Head.relocate, none, Option.map_none]
  valueOrKey := s.valueOrKey.imp (fun some => by rwa [Head.relocate, Option.isSome_map])
    fun some => by rwa [Head.relocate, Option.isSome_map]
  contains word := by
    obtain ⟨key, value⟩ := s.contains word
    exact ⟨by rwa [Head.relocate, Option.isSome_map], by rw [Head.relocate, value, Option.map_none]⟩
  generated made := by
    obtain ⟨m, value⟩ := s.generated made
    exact ⟨some l, by rw [Head.relocate, value]; rfl⟩

/-! ## Made-up bodies -/

theorem whole_trueTerm (place : Location) : (Parse.trueTerm place).Whole names :=
  ⟨trivial, Term.formed_iff.2 ⟨trivial, List.forall_mem_nil _⟩⟩

theorem isTrue_trueBody (place : Location) : (Parse.trueBody place).IsTrue :=
  ⟨0, true, some place, some place, rfl⟩

theorem Body.IsTrue.relocate {b : Body} (h : b.IsTrue) : Body.IsTrue (b.relocate l) := by
  obtain ⟨i, g, m, n, rfl⟩ := h
  exact ⟨i, g, some l, some l, rfl⟩

theorem whole_trueBody (place : Location) : (Parse.trueBody place).Whole names := by
  refine Body.whole_single (Expr.whole_iff.2 ⟨?_, ?_, fun _ h => absurd h List.not_mem_nil⟩)
  · exact ⟨⟨trivial, rfl⟩, fun _ => rfl, fun _ h => absurd h List.not_mem_nil,
      fun _ _ _ _ => rfl⟩
  · exact (whole_trueTerm place).2

end relocate

end RegoSyntax
