/-
# RegoSyntax.Proofs.Renaming.Agreement — what alike trees agree on.

Whatever the parser asks about a tree has one answer for alike trees: their kinds and shapes, which
names of the language occur in them, whether they are ground and whether they need evaluation.  What
it builds from alike trees is alike again.

The parser looks at trees that it has read to decide what to do next, and so two parsers that hold alike
trees could part there.  They do not: a name that a wildcard got is never a name of the language
(`AlikeName.eq_of_plain`), and no question tells one generated name from another.  `Value.Alike.kind`,
`isVar` and `canHeadRef` answer what a term may be followed by, `evaluatedKinds` what a default rule may
hold, and `isGround` and `mentionsVar` which heads need a variable.

The questions that walk a whole tree are answered by induction over the likeness, with one equation for
each sort of node; likeness has the constructors of the trees, so the cases are the same for all of them.
-/
import RegoSyntax.Proofs.Renaming.Alike
import RegoSyntax.Proofs.Tracks.Operators

namespace RegoSyntax

section

variable {N : Nat → Nat → Prop}

/-! ## Names

Only the names of wildcards may differ.  All names of the language are known not to be such names, so a
comparison with one of them has the same outcome on both sides. -/

/-- A wildcard has the name of a wildcard on both sides. -/
theorem AlikeName.isWildcardName {a b : String} (alike : AlikeName N a b) :
    isWildcardName a = isWildcardName b := by
  cases alike with
  | plain _ => rfl
  | wildcard _ => rw [isWildcardName_wildcardName, isWildcardName_wildcardName]

/-- A name that is no wildcard's is alike to itself only. -/
theorem AlikeName.eq_of_plain {a b : String} (alike : AlikeName N a b)
    (plain : RegoSyntax.isWildcardName a = false) : a = b := by
  cases alike with
  | plain _ => rfl
  | wildcard _ =>
      rw [isWildcardName_wildcardName] at plain
      cases plain

/-- Alike names are compared alike with a name that is no wildcard's. -/
theorem AlikeName.beq_plain {a b : String} (alike : AlikeName N a b) {name : String}
    (plain : RegoSyntax.isWildcardName name = false) : (a == name) = (b == name) := by
  cases alike with
  | plain _ => rfl
  | wildcard _ =>
      have differs (n : Nat) : (Parse.wildcardName n == name) = false := by
        rw [beq_eq_false_iff_ne]
        rintro rfl
        -- the name of a wildcard starts with a sign that no plain name starts with
        rw [isWildcardName_wildcardName] at plain
        cases plain
      rw [differs, differs]

/-! ## Shapes

Most of what the parser asks of a term is asked of its constructor, which is the same on both sides. -/

/-- Alike terms hold alike values. -/
theorem Term.Alike.value {t u : Term} : t.Alike N u → t.value.Alike N u.value
  | .mk v => v

/-- Alike terms stand at the same place. -/
theorem Term.Alike.location {t u : Term} : t.Alike N u → t.location = u.location
  | .mk _ => rfl

theorem Term.Alike.place {t u : Term} (alike : t.Alike N u) : t.place = u.place := by
  rw [Term.place, Term.place, alike.location]

/-- Alike terms are alike at another place. -/
theorem Term.Alike.placed {t u : Term} (alike : t.Alike N u) (l : Location) :
    (t.placed l).Alike N (u.placed l) :=
  .mk alike.value

/-- Alike values are of one kind. -/
theorem Value.Alike.kind {v w : Value} (alike : v.Alike N w) : v.kind = w.kind := by
  cases alike <;> rfl

theorem Value.Alike.isVar {v w : Value} (alike : v.Alike N w) : v.isVar = w.isVar := by
  cases alike <;> rfl

/-- Texts are the same on both sides, and so are the values that are texts. -/
theorem Value.Alike.string? {v w : Value} (alike : v.Alike N w) : v.string? = w.string? := by
  cases alike <;> rfl

/-- What heads a reference is told by the kind of the value. -/
theorem Value.Alike.canHeadRef {v w : Value} (alike : v.Alike N w) :
    Parse.canHeadRef v = Parse.canHeadRef w := by
  cases alike <;> rfl

/-- Alike values are the same variable of the language, if they are one. -/
theorem Value.Alike.isVarNamed {v w : Value} (alike : v.Alike N w) {name : String}
    (plain : isWildcardName name = false) : v.isVarNamed name = w.isVarNamed name := by
  cases alike with
  | var n =>
      have same := n.beq_plain plain
      simpa [Value.isVarNamed, Value.varName?] using same
  | _ => rfl

/-- A root of a reference is a variable, whatever its name. -/
theorem Value.Alike.isRoot {v w : Value} (alike : v.Alike N w) :
    Parse.isRoot v = Parse.isRoot w := by
  rw [Parse.isRoot, Parse.isRoot, alike.isVarNamed (by decide), alike.isVarNamed (by decide)]

/-- The empty set is made by a name of the language. -/
theorem Term.Alike.isSetConstructor {t u : Term} (alike : t.Alike N u) :
    Parse.isSetConstructor t = Parse.isSetConstructor u := by
  obtain @⟨v, w, l, value⟩ := alike
  cases value with
  | ref terms =>
      cases terms with
      | nil => rfl
      | cons head rest =>
          cases rest with
          -- the one name that counts is a plain one, so both sides have it or neither
          | nil => exact head.value.isVarNamed (by decide)
          | cons _ _ => rfl
  | _ => rfl

/-! ## Lists

Lists are alike entry by entry, so they agree on their lengths; and what is appended to alike lists on
both sides leaves them alike. -/

/-- Alike lists are as long as one another. -/
theorem AlikeTerms.length {ts us : List Term} : AlikeTerms N ts us → ts.length = us.length
  | .nil => rfl
  | .cons _ rest => congrArg (· + 1) rest.length

theorem AlikeTerms.append {ts us vs ws : List Term} (first : AlikeTerms N ts us)
    (second : AlikeTerms N vs ws) : AlikeTerms N (ts ++ vs) (us ++ ws) :=
  match first with
  | .nil => second
  | .cons t rest => .cons t (rest.append second)

theorem AlikeTerms.isEmpty {ts us : List Term} : AlikeTerms N ts us → ts.isEmpty = us.isEmpty
  | .nil => rfl
  | .cons _ _ => rfl

theorem AlikeTerms.tail {ts us : List Term} : AlikeTerms N ts us → AlikeTerms N ts.tail us.tail
  | .nil => .nil
  | .cons _ rest => rest

theorem AlikeTerms.one {t u : Term} (alike : t.Alike N u) : AlikeTerms N [t] [u] := .cons alike .nil

theorem AlikePairs.append {ps qs rs ss : List (Term × Term)} (first : AlikePairs N ps qs)
    (second : AlikePairs N rs ss) : AlikePairs N (ps ++ rs) (qs ++ ss) :=
  match first with
  | .nil => second
  | .cons k v rest => .cons k v (rest.append second)

theorem AlikeWiths.append {ws xs ys zs : List With} (first : AlikeWiths N ws xs)
    (second : AlikeWiths N ys zs) : AlikeWiths N (ws ++ ys) (xs ++ zs) :=
  match first with
  | .nil => second
  | .cons t v rest => .cons t v (rest.append second)

theorem AlikeBodies.length {b c : Body} : AlikeBodies N b c → b.length = c.length
  | .nil => rfl
  | .cons _ rest => congrArg (· + 1) rest.length

theorem AlikeBodies.append {a b c d : List Expr} (first : AlikeBodies N a b)
    (second : AlikeBodies N c d) : AlikeBodies N (a ++ c) (b ++ d) :=
  match first with
  | .nil => second
  | .cons e rest => .cons e (rest.append second)

/-- A literal that is put behind alike queries gets the same index on both sides. -/
theorem AlikeBodies.push {b c : Body} (first : AlikeBodies N b c) {e f : Expr}
    (last : e.Alike N f) : AlikeBodies N (b.push e) (c.push f) := by
  rw [Body.push, Body.push, first.length]
  cases last with
  | mk terms withs => exact first.append (.cons (.mk terms withs) .nil)

/-- The head of a path is the same variable on both sides, up to the name of a wildcard. -/
theorem AlikeTerms.headVar? {p q : Ref} (alike : AlikeTerms N p q) :
    Option.Rel (AlikeName N) (Ref.headVar? p) (Ref.headVar? q) := by
  cases alike with
  | nil => exact .none
  | cons head _ =>
      obtain @⟨v, w, l, value⟩ := head
      cases value with
      | var n => exact .some n
      | _ => exact .none

/-- Two answers that are related are both given, or neither is. -/
theorem rel_isSome {α : Type} {R : α → α → Prop} {x y : Option α} (related : Option.Rel R x y) :
    x.isSome = y.isSome := by
  cases related <;> rfl

/-- Alike keys are both given, or neither is. -/
theorem AlikeKeys.isSome {j k : Option Term} (alike : AlikeKeys N j k) : j.isSome = k.isSome := by
  cases alike <;> rfl

theorem AlikeKeys.isNone {j k : Option Term} (alike : AlikeKeys N j k) : j.isNone = k.isNone := by
  cases alike <;> rfl

/-! ## Expressions

An expression has an index, a sign and replacements beside its parts.  None of them holds a name of its
own. -/

/-- Alike parts make alike expressions. -/
theorem ExprTerms.Alike.ofTerms {t u : ExprTerms} (alike : t.Alike N u) :
    (Expr.ofTerms t).Alike N (Expr.ofTerms u) :=
  .mk alike .nil

theorem Expr.Alike.placed {e f : Expr} (alike : e.Alike N f) (l : Location) :
    (e.placed l).Alike N (f.placed l) := by
  cases alike with
  | mk terms withs => exact .mk terms withs

/-- Alike literals are both sets, or neither is. -/
theorem Expr.Alike.isSet {e f : Expr} (alike : e.Alike N f) : Parse.isSet e = Parse.isSet f := by
  cases alike with
  | mk terms _ =>
      cases terms with
      | term t =>
          obtain @⟨v, w, l, value⟩ := t
          cases value <;> rfl
      | _ => rfl

/-! ## Evaluation

A default value may hold no reference, no variable and no call outside of its comprehensions.  Which kinds
are found in a term, and in which order, is told by recursion on it, and the cases go down both trees at
once. -/

mutual

/-- The kinds that a default value may not have are found at the same terms. -/
theorem Term.Alike.evaluatedKinds :
    ∀ {t u : Term}, t.Alike N u → t.evaluatedKinds = u.evaluatedKinds
  | _, _, .mk v => by
      simp only [Term.evaluatedKinds]
      exact v.evaluatedKinds

/-- The kinds found in a value are told by its constructor and its parts. -/
theorem Value.Alike.evaluatedKinds :
    ∀ {v w : Value}, v.Alike N w → v.evaluatedKinds = w.evaluatedKinds
  | _, _, .null | _, _, .boolean _ | _, _, .number _ | _, _, .string _ => rfl
  | _, _, .var _ | _, _, .ref _ | _, _, .call _ => by
      simp only [Value.evaluatedKinds, Value.kind]
  | _, _, .array ts => by
      simp only [Value.evaluatedKinds]
      exact ts.evaluatedKinds
  | _, _, .set ts => by
      simp only [Value.evaluatedKinds]
      exact ts.evaluatedKinds
  | _, _, .object ps => by
      simp only [Value.evaluatedKinds]
      exact ps.evaluatedKinds
  | _, _, .arrayComprehension _ _ | _, _, .objectComprehension _ _ _
  | _, _, .setComprehension _ _ => by simp only [Value.evaluatedKinds]

theorem AlikeTerms.evaluatedKinds :
    ∀ {ts us : List Term}, AlikeTerms N ts us → evaluatedKindsOf ts = evaluatedKindsOf us
  | _, _, .nil => rfl
  | _, _, .cons t rest => by
      simp only [evaluatedKindsOf]
      rw [t.evaluatedKinds, rest.evaluatedKinds]

theorem AlikePairs.evaluatedKinds :
    ∀ {ps qs : List (Term × Term)}, AlikePairs N ps qs →
      evaluatedKindsOfPairs ps = evaluatedKindsOfPairs qs
  | _, _, .nil => rfl
  | _, _, .cons k v rest => by
      simp only [evaluatedKindsOfPairs]
      rw [k.evaluatedKinds, v.evaluatedKinds, rest.evaluatedKinds]

end

/-! ## Variables

The search for a variable is a walk through all nodes, so it is followed through every form of term,
literal and replacement; the test at a node asks for its kind alone. -/

theorem Value.Alike.visit {v w : Value} (alike : v.Alike N w) :
    (Visit.value v).isVar = (Visit.value w).isVar := alike.isVar

mutual

/-- A variable stands below alike trees, or below neither. -/
theorem Term.Alike.anyVar :
    ∀ {t u : Term}, t.Alike N u → t.walk.any Visit.isVar = u.walk.any Visit.isVar
  | _, _, .mk v => by
      simp only [Term.walk, List.any_cons]
      rw [v.visit, v.anyVar]
      rfl

theorem Value.Alike.anyVar :
    ∀ {v w : Value}, v.Alike N w → v.walkParts.any Visit.isVar = w.walkParts.any Visit.isVar
  | _, _, .null | _, _, .boolean _ | _, _, .number _ | _, _, .string _ | _, _, .var _ => rfl
  | _, _, .ref ts | _, _, .array ts | _, _, .set ts | _, _, .call ts => by
      simp only [Value.walkParts]
      exact ts.anyVar
  | _, _, .object ps => by
      simp only [Value.walkParts]
      exact ps.anyVar
  | _, _, .arrayComprehension t b | _, _, .setComprehension t b => by
      simp only [Value.walkParts, List.any_append]
      rw [t.anyVar, b.anyVar]
  | _, _, .objectComprehension k v b => by
      simp only [Value.walkParts, List.any_append]
      rw [k.anyVar, v.anyVar, b.anyVar]

theorem AlikeTerms.anyVar :
    ∀ {ts us : List Term}, AlikeTerms N ts us →
      (walkTerms ts).any Visit.isVar = (walkTerms us).any Visit.isVar
  | _, _, .nil => rfl
  | _, _, .cons t rest => by
      simp only [walkTerms, List.any_append]
      rw [t.anyVar, rest.anyVar]

theorem AlikePairs.anyVar :
    ∀ {ps qs : List (Term × Term)}, AlikePairs N ps qs →
      (walkPairs ps).any Visit.isVar = (walkPairs qs).any Visit.isVar
  | _, _, .nil => rfl
  | _, _, .cons k v rest => by
      simp only [walkPairs, List.any_append]
      rw [k.anyVar, v.anyVar, rest.anyVar]

theorem AlikeBodies.anyVar :
    ∀ {b c : List Expr}, AlikeBodies N b c →
      (walkBody b).any Visit.isVar = (walkBody c).any Visit.isVar
  | _, _, .nil => rfl
  | _, _, .cons e rest => by
      simp only [walkBody, List.any_cons, List.any_append]
      rw [e.anyVar, rest.anyVarExprs]
      rfl

theorem AlikeBodies.anyVarExprs :
    ∀ {b c : List Expr}, AlikeBodies N b c →
      (walkExprs b).any Visit.isVar = (walkExprs c).any Visit.isVar
  | _, _, .nil => rfl
  | _, _, .cons e rest => by
      simp only [walkExprs, List.any_append]
      rw [e.anyVar, rest.anyVarExprs]

theorem Expr.Alike.anyVar :
    ∀ {e f : Expr}, e.Alike N f → e.walk.any Visit.isVar = f.walk.any Visit.isVar
  | _, _, .mk terms withs => by
      simp only [Expr.walk, List.cons_append, List.any_cons, List.any_append]
      rw [terms.anyVar, withs.anyVar]
      rfl

theorem ExprTerms.Alike.anyVar :
    ∀ {t u : ExprTerms}, t.Alike N u →
      t.walkParts.any Visit.isVar = u.walkParts.any Visit.isVar
  | _, _, .term t => by
      simp only [ExprTerms.walkParts]
      exact t.anyVar
  | _, _, .call ts | _, _, .some _ ts => by
      simp only [ExprTerms.walkParts]
      exact ts.anyVar
  | _, _, .every _ k v d b => by
      simp only [ExprTerms.walkParts, List.any_append]
      rw [k.anyVar, v.anyVar, d.anyVar, b.anyVar]

theorem AlikeKeys.anyVar :
    ∀ {j k : Option Term}, AlikeKeys N j k →
      (walkKey j).any Visit.isVar = (walkKey k).any Visit.isVar
  | _, _, .none => rfl
  | _, _, .some t => by
      simp only [walkKey]
      exact t.anyVar

theorem AlikeWiths.anyVar :
    ∀ {ws xs : List With}, AlikeWiths N ws xs →
      (walkWiths ws).any Visit.isVar = (walkWiths xs).any Visit.isVar
  | _, _, .nil => rfl
  | _, _, .cons t v rest => by
      simp only [walkWiths, List.any_append]
      rw [t.anyVar, v.anyVar, rest.anyVar]

end

/-- Whether a value mentions a variable is told by the walk through it. -/
theorem Value.Alike.mentionsVar {v w : Value} (alike : v.Alike N w) :
    v.mentionsVar = w.mentionsVar := by
  simp only [Value.mentionsVar, Value.walk, List.any_cons]
  rw [alike.visit, alike.anyVar]

mutual

/-- Alike trees are both ground, or neither is. -/
theorem Term.Alike.isGround : ∀ {t u : Term}, t.Alike N u → t.isGround = u.isGround
  | _, _, .mk v => by
      simp only [Term.isGround]
      exact v.isGround

theorem Value.Alike.isGround : ∀ {v w : Value}, v.Alike N w → v.isGround = w.isGround
  | _, _, .null | _, _, .boolean _ | _, _, .number _ | _, _, .string _ => rfl
  | _, _, .var _ => by simp only [Value.isGround]
  | _, _, .ref .nil => rfl
  | _, _, .ref (.cons _ ts) => by
      simp only [Value.isGround]
      exact ts.isGround
  | _, _, .array ts | _, _, .set ts | _, _, .call ts => by
      simp only [Value.isGround]
      exact ts.isGround
  | _, _, .object ps => by
      simp only [Value.isGround]
      exact ps.isGround
  | _, _, .arrayComprehension t b => by
      simp only [Value.isGround]
      -- a comprehension is ground if no variable is mentioned in it at all
      rw [(Value.Alike.arrayComprehension t b).mentionsVar]
  | _, _, .objectComprehension k v b => by
      simp only [Value.isGround]
      rw [(Value.Alike.objectComprehension k v b).mentionsVar]
  | _, _, .setComprehension t b => by
      simp only [Value.isGround]
      rw [(Value.Alike.setComprehension t b).mentionsVar]

theorem AlikeTerms.isGround :
    ∀ {ts us : List Term}, AlikeTerms N ts us → areGround ts = areGround us
  | _, _, .nil => rfl
  | _, _, .cons t rest => by
      simp only [areGround]
      rw [t.isGround, rest.isGround]

theorem AlikePairs.isGround :
    ∀ {ps qs : List (Term × Term)}, AlikePairs N ps qs → arePairsGround ps = arePairsGround qs
  | _, _, .nil => rfl
  | _, _, .cons k v rest => by
      simp only [arePairsGround]
      rw [k.isGround, v.isGround, rest.isGround]

end

/-- So are alike paths, which are told without their heads. -/
theorem AlikeTerms.isGroundRef {p q : Ref} (alike : AlikeTerms N p q) :
    p.isGround = q.isGround :=
  alike.tail.isGround

/-! ## Other places

Where rules are made up, trees are moved to another place.  A move goes through a tree and keeps every
name. -/

section

variable {l : Location}

mutual

/-- Alike trees that are moved to one place are alike there: a move renames nothing. -/
theorem Term.Alike.edit :
    ∀ {t u : Term}, t.Alike N u → (t.edit (.relocate l) ()).1.Alike N (u.edit (.relocate l) ()).1
  | _, _, .mk v => by
      simp only [Term.edit]
      exact .mk v.edit

theorem Value.Alike.edit :
    ∀ {v w : Value}, v.Alike N w → (v.edit (.relocate l) ()).1.Alike N (w.edit (.relocate l) ()).1
  | _, _, .null => .null
  | _, _, .boolean b => .boolean b
  | _, _, .number n => .number n
  | _, _, .string s => .string s
  | _, _, .var n => .var n
  | _, _, .ref ts => by
      simp only [Value.edit]
      exact .ref ts.edit
  | _, _, .array ts => by
      simp only [Value.edit]
      exact .array ts.edit
  | _, _, .set ts => by
      simp only [Value.edit]
      exact .set ts.edit
  | _, _, .call ts => by
      simp only [Value.edit]
      exact .call ts.edit
  | _, _, .object ps => by
      simp only [Value.edit]
      exact .object ps.edit
  | _, _, .arrayComprehension t b => by
      simp only [Value.edit]
      exact .arrayComprehension t.edit b.edit
  | _, _, .objectComprehension k v b => by
      simp only [Value.edit]
      exact .objectComprehension k.edit v.edit b.edit
  | _, _, .setComprehension t b => by
      simp only [Value.edit]
      exact .setComprehension t.edit b.edit

theorem AlikeTerms.edit :
    ∀ {ts us : List Term}, AlikeTerms N ts us →
      AlikeTerms N (editTerms (.relocate l) ts ()).1 (editTerms (.relocate l) us ()).1
  | _, _, .nil => .nil
  | _, _, .cons t rest => by
      simp only [editTerms]
      exact .cons t.edit rest.edit

theorem AlikePairs.edit :
    ∀ {ps qs : List (Term × Term)}, AlikePairs N ps qs →
      AlikePairs N (editPairs (.relocate l) ps ()).1 (editPairs (.relocate l) qs ()).1
  | _, _, .nil => .nil
  | _, _, .cons k v rest => by
      simp only [editPairs]
      exact .cons k.edit v.edit rest.edit

theorem AlikeBodies.edit :
    ∀ {b c : List Expr}, AlikeBodies N b c →
      AlikeBodies N (editBody (.relocate l) b ()).1 (editBody (.relocate l) c ()).1
  | _, _, .nil => .nil
  | _, _, .cons e rest => by
      simp only [editBody]
      exact .cons e.edit rest.edit

theorem Expr.Alike.edit :
    ∀ {e f : Expr}, e.Alike N f → (e.edit (.relocate l) ()).1.Alike N (f.edit (.relocate l) ()).1
  | _, _, .mk terms withs => by
      simp only [Expr.edit]
      exact .mk terms.edit withs.edit

theorem ExprTerms.Alike.edit :
    ∀ {t u : ExprTerms}, t.Alike N u →
      (t.edit (.relocate l) ()).1.Alike N (u.edit (.relocate l) ()).1
  | _, _, .term t => by
      simp only [ExprTerms.edit]
      exact .term t.edit
  | _, _, .call ts => by
      simp only [ExprTerms.edit]
      exact .call ts.edit
  | _, _, .some _ ts => by
      simp only [ExprTerms.edit]
      exact .some _ ts.edit
  | _, _, .every _ k v d b => by
      simp only [ExprTerms.edit]
      exact .every _ k.edit v.edit d.edit b.edit

theorem AlikeKeys.edit :
    ∀ {j k : Option Term}, AlikeKeys N j k →
      AlikeKeys N (editKey (.relocate l) j ()).1 (editKey (.relocate l) k ()).1
  | _, _, .none => .none
  | _, _, .some t => by
      simp only [editKey]
      exact .some t.edit

theorem AlikeWiths.edit :
    ∀ {ws xs : List With}, AlikeWiths N ws xs →
      AlikeWiths N (editWiths (.relocate l) ws ()).1 (editWiths (.relocate l) xs ()).1
  | _, _, .nil => .nil
  | _, _, .cons t v rest => by
      simp only [editWiths]
      exact .cons t.edit v.edit rest.edit

end

theorem Term.Alike.relocate {t u : Term} (alike : t.Alike N u) :
    (t.relocate l).Alike N (u.relocate l) := alike.edit

theorem AlikeBodies.relocate {b c : Body} (alike : AlikeBodies N b c) :
    AlikeBodies N (b.relocate l) (c.relocate l) := alike.edit

theorem AlikeTerms.relocate {ts us : List Term} (alike : AlikeTerms N ts us) :
    AlikeTerms N (ts.map (·.relocate l)) (us.map (·.relocate l)) :=
  match alike with
  | .nil => .nil
  | .cons t rest => .cons t.relocate rest.relocate

theorem AlikeKeys.relocate {j k : Option Term} (alike : AlikeKeys N j k) :
    AlikeKeys N (j.map (·.relocate l)) (k.map (·.relocate l)) :=
  match alike with
  | .none => .none
  | .some t => .some t.relocate

/-- Alike heads are alike at another place, part by part. -/
theorem Head.Alike.relocate {h k : Head} (alike : h.Alike N k) :
    (h.relocate l).Alike N (k.relocate l) where
  name := alike.name
  reference := alike.reference.relocate
  args := alike.args.relocate
  key := alike.key.relocate
  value := alike.value.relocate
  assign := alike.assign
  generatedValue := alike.generatedValue
  keywords := alike.keywords
  location := rfl

end

end

end RegoSyntax
