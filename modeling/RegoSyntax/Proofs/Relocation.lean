/-
# RegoSyntax.Proofs.Relocation — trees that were moved are the same trees.

Where the parser makes up rules it moves what was read elsewhere to one place.  A walk through a tree that
was moved meets the nodes of the tree that it was, moved; and no node is less formed for it.

The move is one of the walks that may change a tree (`Editor.relocate`), so `relocate` is not defined by
recursion here: for each sort of node there is an equation that says what the walk makes of it, and these
equations are what all proofs below rewrite with.  A value keeps its constructor and its texts, and only
the terms and bodies in it get the new place.

The second half says that nothing that the parser asks of a tree looks at places.  Whether a term may head
a reference, which call or reference it is, and which variable a path leads with are the same before and
after, and so a tree that the grammar could have read (`Formed`) still is one where it stands now.  Rules
that repeat a head rely on this, since their bodies are moved to the head's own place.
-/
import RegoSyntax.Proofs.Formed

namespace RegoSyntax

variable {l : Location}

/-! ## Parts that were moved -/

/-- A value with every node below it at one place. -/
def Value.relocate (v : Value) (l : Location) : Value := (v.edit (.relocate l) ()).1

/-- An expression with every node of it at one place. -/
def Expr.relocate (e : Expr) (l : Location) : Expr := (e.edit (.relocate l) ()).1

/-- What an expression consists of, with every node of it at one place. -/
def ExprTerms.relocate (t : ExprTerms) (l : Location) : ExprTerms := (t.edit (.relocate l) ()).1

/-- A replacement with every node of it at one place. -/
def With.relocate (w : With) (l : Location) : With :=
  ⟨w.target.relocate l, w.value.relocate l, some l⟩

namespace Relocation

/-- A term takes the place itself, and its value is moved. -/
theorem term (t : Term) : t.relocate l = ⟨t.value.relocate l, some l⟩ := by
  cases t
  rfl

theorem terms (ts : List Term) : (editTerms (.relocate l) ts ()).1 = ts.map (·.relocate l) := by
  induction ts with
  | nil => rfl
  | cons t ts ih => exact congrArg (t.relocate l :: ·) ih

theorem pairs (ps : List (Term × Term)) :
    (editPairs (.relocate l) ps ()).1 = ps.map fun p => (p.1.relocate l, p.2.relocate l) := by
  induction ps with
  | nil => rfl
  | cons p ps ih => exact congrArg ((p.1.relocate l, p.2.relocate l) :: ·) ih

/-- A body is moved literal by literal. -/
theorem body (b : Body) : b.relocate l = b.map (·.relocate l) := by
  unfold Body.relocate
  induction b with
  | nil => rfl
  | cons e es ih => exact congrArg (e.relocate l :: ·) ih

theorem withs (ws : List With) : (editWiths (.relocate l) ws ()).1 = ws.map (·.relocate l) := by
  induction ws with
  | nil => rfl
  | cons w ws ih =>
      obtain ⟨t, v, m⟩ := w
      exact congrArg ((With.mk t v m).relocate l :: ·) ih

theorem key (k : Option Term) : (editKey (.relocate l) k ()).1 = k.map (·.relocate l) := by
  cases k <;> rfl

/-- A literal keeps its sign and whether it was generated; what it consists of and its replacements are
moved. -/
theorem expr (e : Expr) : e.relocate l =
    { e with terms := e.terms.relocate l, withs := e.withs.map (·.relocate l), location := some l } := by
  obtain ⟨i, g, n, t, ws, m⟩ := e
  rw [← withs]
  rfl

end Relocation

namespace Value

@[simp] theorem relocate_null : Value.null.relocate l = .null := rfl
@[simp] theorem relocate_boolean (b : Bool) : (Value.boolean b).relocate l = .boolean b := rfl
@[simp] theorem relocate_number (s : String) : (Value.number s).relocate l = .number s := rfl
@[simp] theorem relocate_string (s : String) : (Value.string s).relocate l = .string s := rfl
@[simp] theorem relocate_var (name : String) : (Value.var name).relocate l = .var name := rfl

@[simp] theorem relocate_ref (ts : List Term) :
    (Value.ref ts).relocate l = .ref (ts.map (·.relocate l)) := by
  rw [← Relocation.terms]
  rfl

@[simp] theorem relocate_array (ts : List Term) :
    (Value.array ts).relocate l = .array (ts.map (·.relocate l)) := by
  rw [← Relocation.terms]
  rfl

@[simp] theorem relocate_set (ts : List Term) :
    (Value.set ts).relocate l = .set (ts.map (·.relocate l)) := by
  rw [← Relocation.terms]
  rfl

@[simp] theorem relocate_call (ts : List Term) :
    (Value.call ts).relocate l = .call (ts.map (·.relocate l)) := by
  rw [← Relocation.terms]
  rfl

@[simp] theorem relocate_object (ps : List (Term × Term)) :
    (Value.object ps).relocate l = .object (ps.map fun p => (p.1.relocate l, p.2.relocate l)) := by
  rw [← Relocation.pairs]
  rfl

@[simp] theorem relocate_arrayComprehension (t : Term) (b : Body) :
    (Value.arrayComprehension t b).relocate l =
      .arrayComprehension (t.relocate l) (b.relocate l) := rfl

@[simp] theorem relocate_setComprehension (t : Term) (b : Body) :
    (Value.setComprehension t b).relocate l =
      .setComprehension (t.relocate l) (b.relocate l) := rfl

@[simp] theorem relocate_objectComprehension (k v : Term) (b : Body) :
    (Value.objectComprehension k v b).relocate l =
      .objectComprehension (k.relocate l) (v.relocate l) (b.relocate l) := rfl

end Value

@[simp] theorem Term.relocate_value (t : Term) : (t.relocate l).value = t.value.relocate l := by
  rw [Relocation.term]

namespace ExprTerms

@[simp] theorem relocate_term (t : Term) : (ExprTerms.term t).relocate l = .term (t.relocate l) := rfl

@[simp] theorem relocate_call (ts : List Term) :
    (ExprTerms.call ts).relocate l = .call (ts.map (·.relocate l)) := by
  rw [← Relocation.terms]
  rfl

@[simp] theorem relocate_some (ts : List Term) (m : Option Location) :
    (ExprTerms.some ts m).relocate l = .some (ts.map (·.relocate l)) (Option.some l) := by
  rw [← Relocation.terms]
  rfl

@[simp] theorem relocate_every (k : Option Term) (v d : Term) (b : Body) (m : Option Location) :
    (ExprTerms.every k v d b m).relocate l =
      .every (k.map (·.relocate l)) (v.relocate l) (d.relocate l) (b.relocate l) (Option.some l) := by
  rw [← Relocation.key]
  rfl

end ExprTerms

/-! ## Walks through trees that were moved

A walk lists the nodes of a tree.  Moving is done at each node by itself, so it makes no difference
whether a tree is moved before the walk or the nodes behind it. -/

/-- A node that was moved. -/
def Visit.relocate (l : Location) : Visit → Visit
  | .term t => .term (t.relocate l)
  | .value v => .value (v.relocate l)
  | .body b => .body (b.relocate l)
  | .expr e => .expr (e.relocate l)

mutual

/-- The nodes of a tree that was moved are the nodes of the tree, moved, in the same order. -/
theorem Term.walk_relocate : (t : Term) → (t.relocate l).walk = t.walk.map (Visit.relocate l)
  | ⟨v, m⟩ => by
    rw [walk_eq, walk_eq, Term.relocate_value, Value.walkParts_relocate v]
    rfl

/-- The nodes of a value: the recursion of the walk, constructor by constructor. -/
theorem Value.walkParts_relocate :
    (v : Value) → (v.relocate l).walkParts = v.walkParts.map (Visit.relocate l)
  | .null | .boolean _ | .number _ | .string _ | .var _ => rfl
  | .ref ts => by simpa [Value.walkParts] using walkTerms_relocate ts
  | .array ts => by simpa [Value.walkParts] using walkTerms_relocate ts
  | .set ts => by simpa [Value.walkParts] using walkTerms_relocate ts
  | .call ts => by simpa [Value.walkParts] using walkTerms_relocate ts
  | .object ps => by simpa [Value.walkParts] using walkPairs_relocate ps
  | .arrayComprehension t b => by
    simp only [Value.relocate_arrayComprehension, Value.walkParts, List.map_append,
      Term.walk_relocate t, walkBody_relocate b]
  | .setComprehension t b => by
    simp only [Value.relocate_setComprehension, Value.walkParts, List.map_append,
      Term.walk_relocate t, walkBody_relocate b]
  | .objectComprehension k v b => by
    simp only [Value.relocate_objectComprehension, Value.walkParts, List.map_append,
      Term.walk_relocate k, Term.walk_relocate v, walkBody_relocate b]

theorem walkTerms_relocate :
    (ts : List Term) → walkTerms (ts.map (·.relocate l)) = (walkTerms ts).map (Visit.relocate l)
  | [] => rfl
  | t :: ts => by
    simp only [List.map_cons, walkTerms, List.map_append, Term.walk_relocate t, walkTerms_relocate ts]

theorem walkPairs_relocate : (ps : List (Term × Term)) →
    walkPairs (ps.map fun p => (p.1.relocate l, p.2.relocate l)) =
      (walkPairs ps).map (Visit.relocate l)
  | [] => rfl
  | (k, v) :: ps => by
    simp only [List.map_cons, walkPairs, List.map_append, Term.walk_relocate k, Term.walk_relocate v,
      walkPairs_relocate ps]

theorem walkBody_relocate :
    (b : Body) → walkBody (b.relocate l) = (walkBody b).map (Visit.relocate l)
  | [] => rfl
  | e :: es => by
    have head : Body.relocate (e :: es) l = e.relocate l :: Body.relocate es l := rfl
    simp only [walkBody_eq, head, walkExprs, List.map_cons, List.map_append, Expr.walk_relocate e]
    rw [Relocation.body, walkExprs_relocate es]
    simp only [Visit.relocate, head, Relocation.body]

theorem walkExprs_relocate :
    (es : List Expr) → walkExprs (es.map (·.relocate l)) = (walkExprs es).map (Visit.relocate l)
  | [] => rfl
  | e :: es => by
    simp only [List.map_cons, walkExprs, List.map_append, Expr.walk_relocate e, walkExprs_relocate es]

theorem Expr.walk_relocate : (e : Expr) → (e.relocate l).walk = e.walk.map (Visit.relocate l)
  | ⟨i, g, n, t, ws, m⟩ => by
    have terms : (Expr.relocate ⟨i, g, n, t, ws, m⟩ l).terms = t.relocate l := rfl
    have withs : (Expr.relocate ⟨i, g, n, t, ws, m⟩ l).withs = ws.map (·.relocate l) :=
      Relocation.withs ws
    rw [expr_walk_eq, expr_walk_eq, terms, withs, ExprTerms.walkParts_relocate t,
      walkWiths_relocate ws, ← List.map_append]
    rfl

theorem ExprTerms.walkParts_relocate :
    (t : ExprTerms) → (t.relocate l).walkParts = t.walkParts.map (Visit.relocate l)
  | .term t => Term.walk_relocate t
  | .call ts => by simpa [ExprTerms.walkParts] using walkTerms_relocate ts
  | .some ts _ => by simpa [ExprTerms.walkParts] using walkTerms_relocate ts
  | .every k v d b _ => by
    simp only [ExprTerms.relocate_every, ExprTerms.walkParts, List.map_append, walkKey_relocate k,
      Term.walk_relocate v, Term.walk_relocate d, walkBody_relocate b]

theorem walkKey_relocate :
    (k : Option Term) → walkKey (k.map (·.relocate l)) = (walkKey k).map (Visit.relocate l)
  | none => rfl
  | some k => Term.walk_relocate k

theorem walkWiths_relocate :
    (ws : List With) → walkWiths (ws.map (·.relocate l)) = (walkWiths ws).map (Visit.relocate l)
  | [] => rfl
  | ⟨t, v, _⟩ :: ws => by
    rw [List.map_cons, With.relocate, walkWiths, walkWiths, Term.walk_relocate t,
      Term.walk_relocate v, walkWiths_relocate ws, List.map_append, List.map_append]

end

/-! ## Trees that were moved -/

section formed

variable {names : String → Prop}

/-- Where a tree stands does not matter to what may start a reference. -/
theorem Parse.isRoot_relocate (v : Value) : Parse.isRoot (v.relocate l) = Parse.isRoot v := by
  cases v <;> simp [Parse.isRoot, Value.isVarNamed, Value.varName?]

theorem Parse.canHeadRef_relocate (v : Value) :
    Parse.canHeadRef (v.relocate l) = Parse.canHeadRef v := by
  cases v <;> simp [Parse.canHeadRef]

theorem Value.call?_relocate (v : Value) :
    (v.relocate l).call? = v.call?.map (·.map (·.relocate l)) := by
  cases v <;> simp [Value.call?]

theorem Value.ref?_relocate (v : Value) :
    (v.relocate l).ref? = v.ref?.map (·.map (·.relocate l)) := by
  cases v <;> simp [Value.ref?]

theorem Value.isVar_relocate (v : Value) : (v.relocate l).isVar = v.isVar := by
  cases v <;> simp [Value.isVar, Value.varName?]

theorem Value.isVarNamed_relocate (v : Value) (name : String) :
    (v.relocate l).isVarNamed name = v.isVarNamed name := by
  cases v <;> simp [Value.isVarNamed, Value.varName?]

theorem Parse.isSetConstructor_relocate (op : Term) :
    Parse.isSetConstructor (op.relocate l) = Parse.isSetConstructor op := by
  obtain ⟨v, m⟩ := op
  unfold Parse.isSetConstructor
  rw [Term.relocate_value]
  cases v with
  | ref path =>
      rcases path with _ | ⟨t, _ | ⟨u, ts⟩⟩
      · simp
      · simp [Value.isVarNamed_relocate]
      · simp
  | _ => simp

mutual

/-- The variable that a path leads with is found below calls and references, and is not renamed. -/
theorem Term.lead_relocate : (t : Term) → (t.relocate l).lead = t.lead
  | ⟨v, m⟩ => by
    rw [Term.lead_eq, Term.relocate_value]
    exact Value.lead_relocate v

theorem Value.lead_relocate : (v : Value) → (v.relocate l).lead = v.lead
  | .null | .boolean _ | .number _ | .string _ | .var _ => rfl
  | .array ts => by rw [Value.relocate_array]; rfl
  | .object ps => by rw [Value.relocate_object]; rfl
  | .arrayComprehension .. | .setComprehension .. | .objectComprehension .. => rfl
  | .set [] => rfl
  | .set (t :: ts) => by rw [Value.relocate_set]; rfl
  | .ref ts => by
    rw [Value.relocate_ref]
    exact leadOf_relocate ts
  | .call ts => by
    rw [Value.relocate_call]
    exact leadOf_relocate ts

theorem leadOf_relocate : (ts : List Term) → leadOf (ts.map (·.relocate l)) = leadOf ts
  | [] => rfl
  | t :: _ => Term.lead_relocate t

end

/-- A term that may stand where it does may stand so at any place. -/
theorem Value.Stands.relocate {v : Value} (h : v.Stands names) : (v.relocate l).Stands names := by
  cases v with
  | ref path =>
      rw [Value.relocate_ref]
      rcases h with long | ⟨t, rfl, root⟩
      · exact .inl (by rwa [List.length_map])
      · exact .inr ⟨t.relocate l, rfl, by rwa [Term.relocate_value, Parse.isRoot_relocate]⟩
  | var name => exact h
  | _ => simp [Value.Stands]

theorem forall_stands_relocate {ts : List Term} (h : ∀ t ∈ ts, t.value.Stands names) :
    ∀ t ∈ ts.map (·.relocate l), t.value.Stands names := by
  intro t ht
  obtain ⟨u, hu, rfl⟩ := List.mem_map.1 ht
  rw [Term.relocate_value]
  exact (h u hu).relocate

theorem Applies.relocate {ts : List Term} (h : Applies names ts) :
    Applies names (ts.map (·.relocate l)) := by
  obtain ⟨op, path, args, rfl, operator, stand, some⟩ := h
  refine ⟨op.relocate l, path.map (·.relocate l), args.map (·.relocate l), rfl, ?_,
    forall_stands_relocate stand, ?_⟩
  · rw [Term.relocate_value, operator, Value.relocate_ref]
  · intro none
    rw [Parse.isSetConstructor_relocate]
    exact some (List.map_eq_nil_iff.1 none)

/-- The parts of a value are as good as before: in a reference the head and the segments, in a collection
every term. -/
theorem Value.Formed.relocate {v : Value} (h : v.Formed names) : (v.relocate l).Formed names := by
  -- only places change, so every part keeps its value and with it what makes it stand
  cases v with
  | ref path =>
      obtain ⟨head, segments, rfl, heads, stand⟩ := h
      rw [Value.relocate_ref]
      refine ⟨head.relocate l, segments.map (·.relocate l), rfl, ?_, forall_stands_relocate stand⟩
      rw [Term.relocate_value, Parse.canHeadRef_relocate]
      exact heads
  | array ts =>
      rw [Value.relocate_array]
      exact forall_stands_relocate h
  | set ts =>
      rw [Value.relocate_set]
      exact forall_stands_relocate h
  | call ts =>
      rw [Value.relocate_call]
      exact Applies.relocate h
  | object ps =>
      rw [Value.relocate_object]
      intro p hp
      obtain ⟨q, hq, rfl⟩ := List.mem_map.1 hp
      have stand := h q hq
      exact ⟨Term.relocate_value q.1 ▸ stand.1.relocate, Term.relocate_value q.2 ▸ stand.2.relocate⟩
  | arrayComprehension t b =>
      have stands : (t.relocate l).value.Stands names := Term.relocate_value t ▸ Value.Stands.relocate h
      exact stands
  | setComprehension t b =>
      have stands : (t.relocate l).value.Stands names := Term.relocate_value t ▸ Value.Stands.relocate h
      exact stands
  | objectComprehension k v b =>
      rw [Value.relocate_objectComprehension]
      exact ⟨Term.relocate_value k ▸ h.1.relocate, Term.relocate_value v ▸ h.2.relocate⟩
  | _ => exact h

/-- The operator of a membership is found by its name. -/
theorem Term.IsMember.relocate {op : Term} {n : Nat} (h : op.IsMember n) :
    (op.relocate l).IsMember n := by
  obtain ⟨l₁, l₂, operator⟩ := h
  refine ⟨some l, some l, ?_⟩
  rw [Term.relocate_value, operator, Value.relocate_ref]
  rfl

theorem DeclaresNames.relocate {ts : List Term} (h : DeclaresNames names ts) :
    DeclaresNames names (ts.map (·.relocate l)) := by
  refine ⟨fun none => h.1 (List.map_eq_nil_iff.1 none), fun t ht => ?_⟩
  obtain ⟨u, hu, rfl⟩ := List.mem_map.1 ht
  obtain ⟨name, var, free⟩ := h.2 u hu
  exact ⟨name, by rw [Term.relocate_value, var, Value.relocate_var], free⟩

/-- What an expression consists of is as good as before, each form by its own parts. -/
theorem ExprTerms.Formed.relocate {t : ExprTerms} (h : t.Formed names) :
    (t.relocate l).Formed names := by
  cases t with
  | term t =>
      rw [ExprTerms.relocate_term]
      refine ⟨Term.relocate_value t ▸ h.1.relocate, ?_⟩
      rw [Term.relocate_value, Value.call?_relocate, h.2]
      rfl
  | call ts =>
      rw [ExprTerms.relocate_call]
      exact Applies.relocate h
  | some ts m =>
      rw [ExprTerms.relocate_some]
      -- a declaration lists variables, or is a membership in the form of a call
      rcases h with declares | ⟨t, op, args, rfl, call, member, arity⟩
      · exact .inl declares.relocate
      · refine .inr ⟨t.relocate l, op.relocate l, args.map (·.relocate l), rfl, ?_, ?_, ?_⟩
        · rw [Term.relocate_value, call, Value.relocate_call]
          rfl
        · rw [List.length_map]
          exact member.relocate
        · rwa [List.length_map]
  | every k v d b m =>
      obtain ⟨key, var, value, domain⟩ := h
      rw [ExprTerms.relocate_every]
      refine ⟨fun t ht => ?_, ?_, Term.relocate_value v ▸ value.relocate,
        Term.relocate_value d ▸ domain.relocate⟩
      · obtain ⟨u, hu, rfl⟩ := Option.map_eq_some_iff.1 ht
        rw [Term.relocate_value, Value.isVar_relocate]
        exact ⟨(key u hu).1, (key u hu).2.relocate⟩
      · rw [Term.relocate_value, Value.isVar_relocate]
        exact var

/-- A replacement still has a path that leads with a name that is no keyword. -/
theorem With.Formed.relocate {w : With} (h : w.Formed names) : (w.relocate l).Formed names where
  target := by
    rcases h.target with var | ref
    · exact .inl (by rw [With.relocate, Term.relocate_value, Value.isVar_relocate]; exact var)
    · refine .inr ?_
      rw [With.relocate, Term.relocate_value, Value.ref?_relocate, Option.isSome_map]
      exact ref
  lead := by
    obtain ⟨name, lead, free⟩ := h.lead
    refine ⟨name, ?_, free⟩
    exact (Term.lead_relocate w.target).trans lead
  targetStands := by
    rw [With.relocate, Term.relocate_value]
    exact h.targetStands.relocate
  valueStands := by
    rw [With.relocate, Term.relocate_value]
    exact h.valueStands.relocate

/-- A literal is as good as before, by what it consists of and by each replacement. -/
theorem Expr.Formed.relocate {e : Expr} (h : e.Formed names) : (e.relocate l).Formed names := by
  rw [Relocation.expr]
  refine ⟨h.terms.relocate, fun negated => ?_, fun w hw => ?_, fun symbols m terms declares => ?_⟩
  · have plain := h.sign negated
    revert plain
    cases e.terms <;> simp [ExprTerms.isPlain]
  · obtain ⟨x, hx, rfl⟩ := List.mem_map.1 hw
    exact (h.withs x hx).relocate
  -- names are declared in one of the four forms only
  · rcases own : e.terms with t | ts | ⟨ts, m⟩ | ⟨k, v, d, b, m⟩ <;> rw [own] at terms
    · cases terms
    · rw [ExprTerms.relocate_call] at terms
      cases terms
    · rw [ExprTerms.relocate_some] at terms
      obtain ⟨rfl, -⟩ := ExprTerms.some.inj terms
      have none := h.bare ts m own fun t ht => by
        have var := declares (t.relocate l) (List.mem_map_of_mem ht)
        rwa [Term.relocate_value, Value.isVar_relocate] at var
      rw [none]
      rfl
    · rw [ExprTerms.relocate_every] at terms
      cases terms

/-- Every node of a walk is as good as before. -/
theorem Visit.Formed.relocate {n : Visit} (h : n.Formed names) : (n.relocate l).Formed names := by
  cases n with
  | term t => trivial
  | value v => exact Value.Formed.relocate h
  | expr e => exact Expr.Formed.relocate h
  | body b =>
      rw [Visit.relocate, Relocation.body]
      refine ⟨fun none => h.1 (List.map_eq_nil_iff.1 none), fun i hi => ?_⟩
      rw [List.getElem_map, Relocation.expr]
      exact h.2 i (by rwa [List.length_map] at hi)

/-- A term that was moved is as good as before. -/
theorem Term.Whole.relocate {t : Term} (h : t.Whole names) : (t.relocate l).Whole names := by
  refine ⟨Term.relocate_value t ▸ h.1.relocate, fun n hn => ?_⟩
  rw [Term.walk_relocate] at hn
  obtain ⟨m, hm, rfl⟩ := List.mem_map.1 hn
  exact (h.2 m hm).relocate

theorem Term.Formed.relocate {t : Term} (h : t.Formed names) : (t.relocate l).Formed names := by
  intro n hn
  rw [Term.walk_relocate] at hn
  obtain ⟨m, hm, rfl⟩ := List.mem_map.1 hn
  exact (h m hm).relocate

/-- A query that was moved is as good as before. -/
theorem Body.Whole.relocate {b : Body} (h : b.Whole names) : Body.Whole names (b.relocate l) := by
  intro n hn
  rw [Body.walk, walkBody_relocate] at hn
  obtain ⟨m, hm, rfl⟩ := List.mem_map.1 hn
  exact (h m hm).relocate

end formed

end RegoSyntax
