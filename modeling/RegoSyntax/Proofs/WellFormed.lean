/-
# RegoSyntax.Proofs.WellFormed — what tools may rely on in a parsed source.

The types of trees admit empty paths, calls of numbers and queries numbered at random.  A tool that walks a
parsed source need not be ready for them: `parse_wellFormed` rules them out for every source that is read
without an error, at every node of every statement.
-/
import RegoSyntax.Proofs.Outcome

namespace RegoSyntax

open Parse

/-! ## Nodes of statements

A walk lists the nodes of a statement: those of the path of a clause, of all links of a rule, or of a
query. -/

/-- The nodes of one rule, without those of its alternatives. -/
def Rule.nodes (r : Rule) : List Visit :=
  walkTerms r.head.reference ++ walkTerms r.head.args ++ walkKey r.head.key ++
    walkKey r.head.value ++ r.body.walk

/-- The nodes of a statement.  Annotations have none that were read from source text. -/
def Statement.nodes : Statement → List Visit
  | .package p => walkTerms p.path
  | .importClause i => i.path.walk
  | .rule r => r.links.flatMap Rule.nodes
  | .body b => b.walk
  | .annotations _ => []

/-! ## Well-formed nodes

What a tool may rely on is told node by node: of a value by its constructor, of an expression by what it
consists of. -/

/-- A value that a path may start with: a variable, a collection, a comprehension or a call. -/
def Value.StartsPath : Value → Prop
  | .var _ | .array _ | .object _ | .set _ | .call _ => True
  | .arrayComprehension .. | .setComprehension .. | .objectComprehension .. => True
  | _ => False

/-- The terms of a call: the first one is a path. -/
def IsCall (terms : List Term) : Prop :=
  ∃ op args path, terms = op :: args ∧ op.value = .ref path

/-- A term that is the path `internal.segment`. -/
def Term.IsInternal (t : Term) (segment : String) : Prop :=
  ∃ l m, t.value = .ref [⟨.var "internal", l⟩, ⟨.string segment, m⟩]

/-- A call of a membership, of values or of keys and values. -/
def Term.IsMembership (t : Term) : Prop :=
  (∃ op a b, t.value = .call [op, a, b] ∧ op.IsInternal "member_2") ∨
    ∃ op a b c, t.value = .call [op, a, b, c] ∧ op.IsInternal "member_3"

/-- What an expression consists of. -/
def ExprTerms.WellFormed : ExprTerms → Prop
  | .term _ => True
  | .call terms => IsCall terms
  | .some symbols _ =>
    (symbols ≠ [] ∧ ∀ t ∈ symbols, t.value.isVar = true) ∨ ∃ t, symbols = [t] ∧ t.IsMembership
  | .every key value _ _ _ => value.value.isVar = true ∧ ∀ k ∈ key, k.value.isVar = true

/-- An expression: only a term or a call is negated, and only paths and variables are replaced. -/
structure Expr.WellFormed (e : Expr) : Prop where
  terms : e.terms.WellFormed
  sign : e.negated = true → (∃ t, e.terms = .term t) ∨ ∃ ts, e.terms = .call ts
  targets : ∀ w ∈ e.withs, w.target.value.isVar = true ∨ ∃ path, w.target.value = .ref path

/-- One node of a tree. -/
def Visit.WellFormed : Visit → Prop
  | .value (.ref path) => ∃ head segments, path = head :: segments ∧ head.value.StartsPath
  | .value (.call terms) => IsCall terms
  | .body b => b ≠ [] ∧ ∀ i (h : i < b.length), b[i].index = i
  | .expr e => e.WellFormed
  | _ => True

/-- A statement with all nodes well-formed.  The paths of clauses and of heads are lists of terms and no
nodes themselves. -/
structure Statement.WellFormed (s : Statement) : Prop where
  nodes : ∀ n ∈ s.nodes, n.WellFormed
  package : ∀ p, s = .package p → ∃ l name rest,
    p.path = ⟨.var "data", l⟩ :: name :: rest ∧ ∀ t ∈ name :: rest, ∃ x, t.value = .string x
  imports : ∀ i, s = .importClause i → ∃ root l rest, i.path.value = .ref (⟨.var root, l⟩ :: rest) ∧
    root ∈ ["data", "future", "input", "rego"] ∧ ∀ t ∈ rest, ∃ x, t.value = .string x
  heads : ∀ r, s = .rule r → ∀ link ∈ r.links, link.head.reference ≠ []

/-! ## Formed trees are well-formed

What is formed was shaped by the grammar, with names that it knows.  Well-formed asks for less, and is
told without any notion of the parser; the lemmas go from the one to the other, a node at a time. -/

section formed

variable {names : String → Prop}

theorem startsPath_of_canHeadRef {v : Value} (heads : canHeadRef v = true) : v.StartsPath := by
  cases v <;> trivial

/-- The terms of a formed call start with a path. -/
theorem Applies.isCall {terms : List Term} (h : Applies names terms) : IsCall terms := by
  obtain ⟨op, path, args, same, operates, -⟩ := h
  exact ⟨op, args, path, same, operates⟩

theorem Term.IsMember.isInternal {op : Term} {n : Nat} (h : op.IsMember n) {segment : String}
    (named : memberSegment n = segment) : op.IsInternal segment := by
  obtain ⟨l, m, operates⟩ := h
  exact ⟨l, m, named ▸ operates⟩

theorem DeclaresMembers.isMembership {symbols : List Term} (h : DeclaresMembers symbols) :
    ∃ t, symbols = [t] ∧ t.IsMembership := by
  obtain ⟨t, op, args, rfl, call, member, arity⟩ := h
  refine ⟨t, rfl, ?_⟩
  rcases arity with two | three
  · obtain ⟨a, b, rfl⟩ := List.length_eq_two.1 two
    exact .inl ⟨op, a, b, call, member.isInternal (show memberSegment 2 = _ by decide +kernel)⟩
  · obtain ⟨a, b, c, rfl⟩ := List.length_eq_three.1 three
    exact .inr ⟨op, a, b, c, call, member.isInternal (show memberSegment 3 = _ by decide +kernel)⟩

/-- The parts of a formed expression are well-formed, in each of its forms. -/
theorem ExprTerms.Formed.wellFormed {t : ExprTerms} (h : t.Formed names) : t.WellFormed := by
  cases t with
  | term t => trivial
  | call ts => exact h.isCall
  | some symbols l =>
      refine h.imp (fun declares => ⟨declares.1, fun t ht => ?_⟩) DeclaresMembers.isMembership
      obtain ⟨name, var, -⟩ := declares.2 t ht
      rw [var]
      rfl
  | every k v d b l => exact ⟨h.2.1, fun t ht => (h.1 t ht).1⟩

theorem Expr.Formed.wellFormed {e : Expr} (h : e.Formed names) : e.WellFormed where
  terms := h.terms.wellFormed
  sign negated := by
    have plain := h.sign negated
    rcases terms : e.terms with t | ts | _ | _
    · exact .inl ⟨t, rfl⟩
    · exact .inr ⟨ts, rfl⟩
    · rw [terms] at plain
      cases plain
    · rw [terms] at plain
      cases plain
  targets w hw := by
    refine (h.withs w hw).target.imp id fun path => ?_
    rcases target : w.target.value with _ | _ | _ | _ | _ | path' | _ | _ | _ | _ | _ | _ | _ <;> first
      | exact ⟨_, rfl⟩
      | rw [target] at path
        cases path

/-- A formed node is well-formed. -/
theorem Visit.Formed.wellFormed {n : Visit} (h : n.Formed names) : n.WellFormed := by
  cases n with
  | term t => trivial
  | value v =>
      cases v with
      | ref path =>
          obtain ⟨head, segments, same, heads, -⟩ := h
          exact ⟨head, segments, same, startsPath_of_canHeadRef heads⟩
      | call ts => exact h.isCall
      | _ => trivial
  | body b => exact h
  | expr e => exact Expr.Formed.wellFormed h

/-- Strings have no nodes that could be ill-formed. -/
theorem wellFormed_of_strings {ts : List Term} (h : ∀ t ∈ ts, t.value.string?.isSome = true) :
    (∀ n ∈ walkTerms ts, n.WellFormed) ∧ ∀ t ∈ ts, ∃ x, t.value = .string x := by
  have value (t : Term) (ht : t ∈ ts) : ∃ x, t.value = .string x := by
    have string := h t ht
    rcases v : t.value with _ | _ | _ | x | _ | _ | _ | _ | _ | _ | _ | _ | _ <;> first
      | exact ⟨x, rfl⟩
      | rw [v] at string
        cases string
  refine ⟨fun n hn => ?_, value⟩
  obtain ⟨t, ht, hn⟩ := mem_walkTerms.1 hn
  obtain ⟨x, string⟩ := value t ht
  rw [walk_eq, string] at hn
  simp only [Value.walkParts, List.mem_cons, List.not_mem_nil, or_false] at hn
  rcases hn with rfl | rfl <;> trivial

/-- The path of a package is a variable and strings, and all of these are well-formed. -/
theorem Package.Formed.wellFormed {p : Package} (h : p.Formed) : (Statement.package p).WellFormed := by
  obtain ⟨l, m, name, rest, path, strings⟩ := h
  have strings : ∀ t ∈ (⟨.string name, m⟩ :: rest : List Term), t.value.string?.isSome = true :=
    List.forall_mem_cons.2 ⟨rfl, strings⟩
  obtain ⟨nodes, values⟩ := wellFormed_of_strings strings
  refine ⟨fun n hn => ?_, fun p' same => ?_, nofun, nofun⟩
  · rw [Statement.nodes, path, walkTerms, List.mem_append, walk_eq] at hn
    simp only [Value.walkParts, List.mem_cons, List.not_mem_nil, or_false] at hn
    rcases hn with (rfl | rfl) | hn
    · trivial
    · trivial
    · exact nodes n hn
  · obtain rfl := Statement.package.inj same
    exact ⟨l, _, rest, path, values⟩

theorem Import.Formed.wellFormed {i : Import} (h : i.Formed) :
    (Statement.importClause i).WellFormed := by
  obtain ⟨l, name, rest, path, root, strings⟩ := h
  obtain ⟨nodes, values⟩ := wellFormed_of_strings strings
  refine ⟨fun n hn => ?_, nofun, fun i' same => ?_, nofun⟩
  · rw [Statement.nodes, walk_eq, path] at hn
    simp only [Value.walkParts, walkTerms, walk_eq, List.mem_cons, List.mem_append, List.not_mem_nil,
      or_false] at hn
    rcases hn with rfl | rfl | (rfl | rfl) | hn
    · trivial
    · exact ⟨_, rest, rfl, trivial⟩
    · trivial
    · trivial
    · exact nodes n hn
  · obtain rfl := Statement.importClause.inj same
    exact ⟨name, l, rest, path, root, values⟩

/-- Nodes of formed terms. -/
theorem wellFormed_of_terms {ts : List Term} (h : ∀ t ∈ ts, t.Formed names) :
    ∀ n ∈ walkTerms ts, n.WellFormed :=
  fun n hn => (forall_walkTerms.2 h n hn).wellFormed

theorem wellFormed_of_key {key : Option Term} (h : ∀ t ∈ key, t.Whole names) :
    ∀ n ∈ walkKey key, n.WellFormed := fun n hn => by
  obtain ⟨t, ht, hn⟩ := mem_walkKey.1 hn
  exact ((h t ht).2 n hn).wellFormed

/-- The nodes of a rule are those of its head, of its value and of its body. -/
theorem Rule.Sound.nodes {r : Rule} (h : r.Sound names) : ∀ n ∈ r.nodes, n.WellFormed := by
  intro n hn
  obtain ⟨head, segments, reference, formed, whole⟩ := h.head.reference
  simp only [Rule.nodes, List.mem_append] at hn
  rcases hn with (((hn | hn) | hn) | hn) | hn
  · have all : ∀ t ∈ r.head.reference, t.Formed names := by
      rw [reference]
      exact List.forall_mem_cons.2 ⟨formed, fun t ht => (whole t ht).2⟩
    exact wellFormed_of_terms all n hn
  · exact wellFormed_of_terms (fun t ht => (h.head.args t ht).2) n hn
  · exact wellFormed_of_key h.head.key n hn
  · exact wellFormed_of_key h.head.value n hn
  · exact (h.body n hn).wellFormed

theorem Rule.Good.wellFormed {r : Rule} (h : r.Good names) : (Statement.rule r).WellFormed := by
  refine ⟨fun n hn => ?_, nofun, nofun, fun r' same link hl => ?_⟩
  · obtain ⟨link, hl, hn⟩ := List.mem_flatMap.1 hn
    exact (h.sound link hl).nodes n hn
  · obtain rfl := Statement.rule.inj same
    obtain ⟨head, segments, reference, -⟩ := (h.sound link hl).head.reference
    rw [reference]
    exact List.cons_ne_nil _ _

/-- A formed statement is well-formed. -/
theorem Statement.Formed.wellFormed {s : Statement} (h : s.Formed names) : s.WellFormed := by
  cases s with
  | package p => exact Package.Formed.wellFormed h
  | importClause i => exact Import.Formed.wellFormed h
  | rule r => exact Rule.Good.wellFormed h
  | body b => exact ⟨fun n hn => (h n hn).wellFormed, nofun, nofun, nofun⟩
  | annotations a => exact ⟨List.forall_mem_nil _, nofun, nofun, nofun⟩

end formed

/-- All that is read from a source without errors is well-formed, down to the last node. -/
theorem parse_wellFormed (source file : String) (o : Options)
    (clean : (parse source file o).errors = []) :
    ∀ s ∈ (parse source file o).statements, s.WellFormed := by
  obtain ⟨ss, as, same, clause, annotations⟩ := clause_of_clean clean
  rw [same]
  intro s hs
  rcases List.mem_append.1 hs with hs | hs
  · exact (clause.formed s hs).wellFormed
  · obtain ⟨a, rfl⟩ := annotations s hs
    exact ⟨List.forall_mem_nil _, nofun, nofun, nofun⟩

/-- A policy with a path, a negation and a replacement. -/
theorem wellFormed_policy :
    (parse "package a\np[x] if not x with input as [1]" "" {}).errors = [] ∧
      ∀ s ∈ (parse "package a\np[x] if not x with input as [1]" "" {}).statements, s.WellFormed := by
  have clean : (parse "package a\np[x] if not x with input as [1]" "" {}).errors = [] := by
    decide +kernel
  exact ⟨clean, parse_wellFormed _ "" {} clean⟩

end RegoSyntax
