/-
# RegoSyntax.Proofs.Stamps — trees with one place at every node.

To stamp a tree is to write one place, or none, at each of its nodes, and to copy all else.  It is written out
constructor by constructor, without the traversal that moves trees, so what a moved tree is can be told by it:
the tree stamped with the place it was moved to (`Body.relocate_eq_stamp`).  Stamping with no place erases all
places, and what was stamped before does not count.  Neither the text of a tree nor which trees are the same
depends on stamps.

Each function on trees that is looked at here goes down the tree in its own way, so for each of them there
is one lemma for each kind of node, all proved together.
-/
import RegoSyntax.Proofs.Places

namespace RegoSyntax

/-! ## Stamping -/

section stamp

variable (p : Option Location)

mutual

/-- A term with one place at every node. -/
def Term.stamp : Term → Term
  | ⟨v, _⟩ => ⟨v.stamp, p⟩

/-- A value with one place at every node below it. -/
def Value.stamp : Value → Value
  | .null => .null
  | .boolean b => .boolean b
  | .number spelling => .number spelling
  | .string s => .string s
  | .var name => .var name
  | .ref path => .ref (stampTerms path)
  | .array ts => .array (stampTerms ts)
  | .object ps => .object (stampPairs ps)
  | .set ts => .set (stampTerms ts)
  | .call ts => .call (stampTerms ts)
  | .arrayComprehension t b => .arrayComprehension t.stamp (stampExprs b)
  | .objectComprehension k v b => .objectComprehension k.stamp v.stamp (stampExprs b)
  | .setComprehension t b => .setComprehension t.stamp (stampExprs b)

/-- Terms with one place at every node. -/
def stampTerms : List Term → List Term
  | [] => []
  | t :: ts => t.stamp :: stampTerms ts

/-- Entries with one place at every node. -/
def stampPairs : List (Term × Term) → List (Term × Term)
  | [] => []
  | (k, v) :: ps => (k.stamp, v.stamp) :: stampPairs ps

/-- Expressions with one place at every node. -/
def stampExprs : List Expr → List Expr
  | [] => []
  | e :: es => e.stamp :: stampExprs es

/-- An expression with one place at every node. -/
def Expr.stamp : Expr → Expr
  | ⟨index, generated, negated, terms, withs, _⟩ =>
    ⟨index, generated, negated, terms.stamp, stampWiths withs, p⟩

/-- What an expression consists of, with one place at every node. -/
def ExprTerms.stamp : ExprTerms → ExprTerms
  | .term t => .term t.stamp
  | .call ts => .call (stampTerms ts)
  | .some symbols _ => .some (stampTerms symbols) p
  | .every k v d b _ => .every (stampKey k) v.stamp d.stamp (stampExprs b) p

/-- A key, if there is one, with one place at every node. -/
def stampKey : Option Term → Option Term
  | none => none
  | some k => some k.stamp

/-- Replacements with one place at every node. -/
def stampWiths : List With → List With
  | [] => []
  | ⟨target, value, _⟩ :: ws => ⟨target.stamp, value.stamp, p⟩ :: stampWiths ws

end

/-- A query with one place at every node. -/
def Body.stamp (b : Body) : Body := stampExprs p b

/-- A head with one place at every node. -/
def Head.stamp (h : Head) : Head :=
  { h with
    location := p
    reference := stampTerms p h.reference
    args := stampTerms p h.args
    key := stampKey p h.key
    value := stampKey p h.value }

end stamp

/-! ## Moved trees -/

section moved

variable {l : Location}

mutual

/-- A moved term has the place at every node. -/
theorem Term.relocate_eq_stamp : (t : Term) → t.relocate l = t.stamp (some l)
  | ⟨v, m⟩ => by rw [Relocation.term, Term.stamp, Value.relocate_eq_stamp v]

/-- A moved value has the place at every node below it. -/
theorem Value.relocate_eq_stamp : (v : Value) → v.relocate l = v.stamp (some l)
  | .null | .boolean _ | .number _ | .string _ | .var _ => rfl
  | .ref ts => by rw [Value.relocate_ref, relocate_eq_stampTerms ts, Value.stamp]
  | .array ts => by rw [Value.relocate_array, relocate_eq_stampTerms ts, Value.stamp]
  | .set ts => by rw [Value.relocate_set, relocate_eq_stampTerms ts, Value.stamp]
  | .call ts => by rw [Value.relocate_call, relocate_eq_stampTerms ts, Value.stamp]
  | .object ps => by rw [Value.relocate_object, relocate_eq_stampPairs ps, Value.stamp]
  | .arrayComprehension t b => by
    rw [Value.relocate_arrayComprehension, Relocation.body, Term.relocate_eq_stamp t,
      relocate_eq_stampExprs b, Value.stamp]
  | .setComprehension t b => by
    rw [Value.relocate_setComprehension, Relocation.body, Term.relocate_eq_stamp t,
      relocate_eq_stampExprs b, Value.stamp]
  | .objectComprehension k v b => by
    rw [Value.relocate_objectComprehension, Relocation.body, Term.relocate_eq_stamp k,
      Term.relocate_eq_stamp v, relocate_eq_stampExprs b, Value.stamp]

/-- Moved terms have the place at every node. -/
theorem relocate_eq_stampTerms : (ts : List Term) → ts.map (·.relocate l) = stampTerms (some l) ts
  | [] => rfl
  | t :: ts => by rw [List.map_cons, stampTerms, Term.relocate_eq_stamp t, relocate_eq_stampTerms ts]

/-- Moved entries have the place at every node. -/
theorem relocate_eq_stampPairs : (ps : List (Term × Term)) →
    (ps.map fun p => (p.1.relocate l, p.2.relocate l)) = stampPairs (some l) ps
  | [] => rfl
  | (k, v) :: ps => by
    rw [List.map_cons, stampPairs, Term.relocate_eq_stamp k, Term.relocate_eq_stamp v,
      relocate_eq_stampPairs ps]

/-- Moved expressions have the place at every node. -/
theorem relocate_eq_stampExprs : (es : List Expr) → es.map (·.relocate l) = stampExprs (some l) es
  | [] => rfl
  | e :: es => by rw [List.map_cons, stampExprs, Expr.relocate_eq_stamp e, relocate_eq_stampExprs es]

/-- A moved expression has the place at every node. -/
theorem Expr.relocate_eq_stamp : (e : Expr) → e.relocate l = e.stamp (some l)
  | ⟨_, _, _, t, ws, _⟩ => by
    rw [Relocation.expr, Expr.stamp]
    dsimp only
    rw [ExprTerms.relocate_eq_stamp t, relocate_eq_stampWiths ws]

/-- What a moved expression consists of has the place at every node. -/
theorem ExprTerms.relocate_eq_stamp : (t : ExprTerms) → t.relocate l = t.stamp (some l)
  | .term t => by rw [ExprTerms.relocate_term, Term.relocate_eq_stamp t, ExprTerms.stamp]
  | .call ts => by rw [ExprTerms.relocate_call, relocate_eq_stampTerms ts, ExprTerms.stamp]
  | .some ts _ => by rw [ExprTerms.relocate_some, relocate_eq_stampTerms ts, ExprTerms.stamp]
  | .every k v d b _ => by
    rw [ExprTerms.relocate_every, Relocation.body, relocate_eq_stampKey k, Term.relocate_eq_stamp v,
      Term.relocate_eq_stamp d, relocate_eq_stampExprs b, ExprTerms.stamp]

/-- A moved key has the place at every node, if there is one. -/
theorem relocate_eq_stampKey : (k : Option Term) → k.map (·.relocate l) = stampKey (some l) k
  | none => rfl
  | some k => congrArg some (Term.relocate_eq_stamp k)

/-- Moved replacements have the place at every node. -/
theorem relocate_eq_stampWiths : (ws : List With) → ws.map (·.relocate l) = stampWiths (some l) ws
  | [] => rfl
  | ⟨t, v, _⟩ :: ws => by
    rw [List.map_cons, With.relocate, stampWiths, Term.relocate_eq_stamp t, Term.relocate_eq_stamp v,
      relocate_eq_stampWiths ws]

end

/-- A query that was moved has the place it was moved to at every node. -/
theorem Body.relocate_eq_stamp (b : Body) : b.relocate l = b.stamp (some l) := by
  rw [Relocation.body, Body.stamp, relocate_eq_stampExprs]

/-- A head that was moved has the place it was moved to at every node. -/
theorem Head.relocate_eq_stamp (h : Head) : h.relocate l = h.stamp (some l) := by
  rw [Head.relocate, Head.stamp, relocate_eq_stampTerms, relocate_eq_stampTerms, relocate_eq_stampKey,
    relocate_eq_stampKey]

end moved

/-! ## Stamps over stamps -/

section again

variable {p q : Option Location}

mutual

/-- The last stamp of a term counts. -/
@[simp] theorem Term.stamp_stamp : (t : Term) → (t.stamp p).stamp q = t.stamp q
  | ⟨v, _⟩ => by rw [Term.stamp, Term.stamp, Term.stamp, Value.stamp_stamp v]

/-- The last stamp of a value counts. -/
@[simp] theorem Value.stamp_stamp : (v : Value) → (v.stamp p).stamp q = v.stamp q
  | .null | .boolean _ | .number _ | .string _ | .var _ => rfl
  | .ref ts | .array ts | .set ts | .call ts => by simp only [Value.stamp, stampTerms_stampTerms ts]
  | .object ps => by simp only [Value.stamp, stampPairs_stampPairs ps]
  | .arrayComprehension t b | .setComprehension t b => by
    simp only [Value.stamp, Term.stamp_stamp t, stampExprs_stampExprs b]
  | .objectComprehension k v b => by
    simp only [Value.stamp, Term.stamp_stamp k, Term.stamp_stamp v, stampExprs_stampExprs b]

/-- The last stamp of terms counts. -/
@[simp] theorem stampTerms_stampTerms : (ts : List Term) → stampTerms q (stampTerms p ts) = stampTerms q ts
  | [] => rfl
  | t :: ts => by simp only [stampTerms, Term.stamp_stamp t, stampTerms_stampTerms ts]

/-- The last stamp of entries counts. -/
theorem stampPairs_stampPairs : (ps : List (Term × Term)) →
    stampPairs q (stampPairs p ps) = stampPairs q ps
  | [] => rfl
  | (k, v) :: ps => by
    simp only [stampPairs, Term.stamp_stamp k, Term.stamp_stamp v, stampPairs_stampPairs ps]

/-- The last stamp of expressions counts. -/
theorem stampExprs_stampExprs : (es : List Expr) → stampExprs q (stampExprs p es) = stampExprs q es
  | [] => rfl
  | e :: es => by simp only [stampExprs, Expr.stamp_stamp e, stampExprs_stampExprs es]

/-- The last stamp of an expression counts. -/
theorem Expr.stamp_stamp : (e : Expr) → (e.stamp p).stamp q = e.stamp q
  | ⟨_, _, _, t, ws, _⟩ => by simp only [Expr.stamp, ExprTerms.stamp_stamp t, stampWiths_stampWiths ws]

/-- The last stamp of what an expression consists of counts. -/
theorem ExprTerms.stamp_stamp : (t : ExprTerms) → (t.stamp p).stamp q = t.stamp q
  | .term t => by simp only [ExprTerms.stamp, Term.stamp_stamp t]
  | .call ts | .some ts _ => by simp only [ExprTerms.stamp, stampTerms_stampTerms ts]
  | .every k v d b _ => by
    simp only [ExprTerms.stamp, stampKey_stampKey k, Term.stamp_stamp v, Term.stamp_stamp d,
      stampExprs_stampExprs b]

/-- The last stamp of a key counts. -/
@[simp] theorem stampKey_stampKey : (k : Option Term) → stampKey q (stampKey p k) = stampKey q k
  | none => rfl
  | some k => congrArg some (Term.stamp_stamp k)

/-- The last stamp of replacements counts. -/
theorem stampWiths_stampWiths : (ws : List With) → stampWiths q (stampWiths p ws) = stampWiths q ws
  | [] => rfl
  | ⟨t, v, _⟩ :: ws => by
    simp only [stampWiths, Term.stamp_stamp t, Term.stamp_stamp v, stampWiths_stampWiths ws]

end

/-- The last stamp counts. -/
theorem Body.stamp_stamp (b : Body) : (b.stamp p).stamp q = b.stamp q := stampExprs_stampExprs b

/-- The last stamp of a head counts. -/
theorem Head.stamp_stamp (h : Head) : (h.stamp p).stamp q = h.stamp q := by
  simp only [Head.stamp, stampTerms_stampTerms, stampKey_stampKey]

end again

/-! ## Texts -/

section texts

variable {p : Option Location}

/-- Two variables or more are shown with commas between them, never as a membership. -/
theorem renderSymbols_cons_cons (t u : Term) (ts : List Term) :
    renderSymbols (t :: u :: ts) = joinWith ", " (t.render :: u.render :: renderTerms ts) := by
  rw [renderSymbols]

mutual

/-- Places are not written in the text of a term. -/
theorem Term.render_stamp : (t : Term) → (t.stamp p).render = t.render
  | ⟨v, _⟩ => by rw [Term.stamp, Term.render, Term.render, Value.render_stamp v]

/-- Places are not written in the text of a value. -/
theorem Value.render_stamp : (v : Value) → (v.stamp p).render = v.render
  | .null | .boolean _ | .number _ | .string _ | .var _ => rfl
  | .ref ts => by simp only [Value.stamp, Value.render, renderRef_stamp ts]
  | .array ts => by simp only [Value.stamp, Value.render, renderTerms_stamp ts]
  | .set [] => rfl
  | .set (t :: ts) => by
    have texts := renderTerms_stamp (t :: ts)
    simp only [stampTerms] at texts
    simp only [Value.stamp, stampTerms, Value.render, List.isEmpty_cons, texts]
  | .call ts => by simp only [Value.stamp, Value.render, renderCall_stamp ts]
  | .object ps => by simp only [Value.stamp, Value.render, renderPairs_stamp ps]
  | .arrayComprehension t b | .setComprehension t b => by
    simp only [Value.stamp, Value.render, Term.render_stamp t, renderBody_stamp b]
  | .objectComprehension k v b => by
    simp only [Value.stamp, Value.render, Term.render_stamp k, Term.render_stamp v, renderBody_stamp b]

/-- Places are not written in the texts of terms. -/
theorem renderTerms_stamp : (ts : List Term) → renderTerms (stampTerms p ts) = renderTerms ts
  | [] => rfl
  | t :: ts => by simp only [stampTerms, renderTerms, Term.render_stamp t, renderTerms_stamp ts]

/-- Places are not written in the texts of entries. -/
theorem renderPairs_stamp : (ps : List (Term × Term)) → renderPairs (stampPairs p ps) = renderPairs ps
  | [] => rfl
  | (k, v) :: ps => by
    simp only [stampPairs, renderPairs, Term.render_stamp k, Term.render_stamp v, renderPairs_stamp ps]

/-- Places are not written in the text of a path. -/
theorem renderRef_stamp : (ts : List Term) → renderRef (stampTerms p ts) = renderRef ts
  | [] => rfl
  | t :: ts => by simp only [stampTerms, renderRef, Term.render_stamp t, renderSegments_stamp ts]

/-- Places are not written in the text of segments. -/
theorem renderSegments_stamp : (ts : List Term) → renderSegments (stampTerms p ts) = renderSegments ts
  | [] => rfl
  | t :: ts => by
    have here := Term.render_stamp t
    have rest := renderSegments_stamp ts
    obtain ⟨v, m⟩ := t
    cases v <;> simp only [stampTerms, Term.stamp, Value.stamp, renderSegments, rest] at here ⊢ <;> rw [here]

/-- Places are not written in the text of a call. -/
theorem renderCall_stamp : (ts : List Term) → renderCall (stampTerms p ts) = renderCall ts
  | [] => rfl
  | t :: ts => by simp only [stampTerms, renderCall, Term.render_stamp t, renderTerms_stamp ts]

/-- Places are not written in the text of a query. -/
theorem renderBody_stamp : (b : List Expr) → renderBody (stampExprs p b) = renderBody b
  | [] => rfl
  | [e] => by simp only [stampExprs, renderBody, Expr.render_stamp e]
  | e :: f :: es => by
    have rest := renderBody_stamp (f :: es)
    simp only [stampExprs] at rest
    simp only [stampExprs, renderBody, Expr.render_stamp e, rest]

/-- Places are not written in the text of an expression. -/
theorem Expr.render_stamp : (e : Expr) → (e.stamp p).render = e.render
  | ⟨_, _, _, t, ws, _⟩ => by
    simp only [Expr.stamp, Expr.render, ExprTerms.render_stamp t, renderWiths_stamp ws]

/-- Places are not written in the text of what an expression consists of. -/
theorem ExprTerms.render_stamp : (t : ExprTerms) → (t.stamp p).render = t.render
  | .term t => by simp only [ExprTerms.stamp, ExprTerms.render, Term.render_stamp t]
  | .call ts => by simp only [ExprTerms.stamp, ExprTerms.render, renderCall_stamp ts]
  | .some ts _ => by simp only [ExprTerms.stamp, ExprTerms.render, renderSymbols_stamp ts]
  | .every k v d b _ => by
    simp only [ExprTerms.stamp, ExprTerms.render, renderKey_stamp k, Term.render_stamp v,
      Term.render_stamp d, renderBody_stamp b]

/-- Places are not written in the text of a declaration. -/
theorem renderSymbols_stamp : (ts : List Term) → renderSymbols (stampTerms p ts) = renderSymbols ts
  | [] => rfl
  | [⟨.call (op :: arg :: args), _⟩] => by
    simp only [stampTerms, Term.stamp, Value.stamp, renderSymbols, Term.render_stamp op,
      Term.render_stamp arg, renderTerms_stamp args]
  | [⟨.call [op], m⟩] => Term.render_stamp ⟨.call [op], m⟩
  | [⟨.call [], _⟩] | [⟨.null, _⟩] | [⟨.boolean _, _⟩] | [⟨.number _, _⟩] | [⟨.string _, _⟩]
  | [⟨.var _, _⟩] => rfl
  | [⟨.ref ts, m⟩] => Term.render_stamp ⟨.ref ts, m⟩
  | [⟨.array ts, m⟩] => Term.render_stamp ⟨.array ts, m⟩
  | [⟨.set ts, m⟩] => Term.render_stamp ⟨.set ts, m⟩
  | [⟨.object ps, m⟩] => Term.render_stamp ⟨.object ps, m⟩
  | [⟨.arrayComprehension t b, m⟩] => Term.render_stamp ⟨.arrayComprehension t b, m⟩
  | [⟨.setComprehension t b, m⟩] => Term.render_stamp ⟨.setComprehension t b, m⟩
  | [⟨.objectComprehension k v b, m⟩] => Term.render_stamp ⟨.objectComprehension k v b, m⟩
  | t :: u :: ts => by
    rw [stampTerms, stampTerms, renderSymbols_cons_cons, renderSymbols_cons_cons, Term.render_stamp t,
      Term.render_stamp u, renderTerms_stamp ts]

/-- Places are not written in the text of a key. -/
theorem renderKey_stamp : (k : Option Term) → renderKey (stampKey p k) = renderKey k
  | none => rfl
  | some k => by simp only [stampKey, renderKey, Term.render_stamp k]

/-- Places are not written in the text of replacements. -/
theorem renderWiths_stamp : (ws : List With) → renderWiths (stampWiths p ws) = renderWiths ws
  | [] => rfl
  | ⟨t, v, _⟩ :: ws => by
    simp only [stampWiths, renderWiths, With.render, Term.render_stamp t, Term.render_stamp v,
      renderWiths_stamp ws]

end

/-- Places are not written in the text of a head. -/
theorem Head.render_stamp (h : Head) : (h.stamp p).render = h.render := by
  have empty : (stampTerms p h.args).isEmpty = h.args.isEmpty := by cases h.args <;> rfl
  have key : ∀ k : Option Term, (stampKey p k).map Term.render = k.map Term.render := by
    rintro (_ | k)
    · rfl
    · exact congrArg some (Term.render_stamp k)
  unfold Head.render Head.stamp
  dsimp only
  rw [Ref.render, Ref.render, renderRef_stamp, renderTerms_stamp, empty]
  cases h.key <;> cases h.value <;> simp only [stampKey, Term.render_stamp]

end texts

/-! ## Sameness -/

section same

variable {p : Option Location}

mutual

/-- Places do not tell terms apart. -/
theorem Term.same_stamp : (t : Term) → (t.stamp p).same t = true
  | ⟨v, _⟩ => by rw [Term.stamp, Term.same, Value.same_stamp v]

/-- Places do not tell values apart. -/
theorem Value.same_stamp : (v : Value) → (v.stamp p).same v = true
  | .null => by rw [Value.stamp, Value.same]
  | .boolean _ | .number _ | .string _ | .var _ => by simp only [Value.stamp, Value.same, beq_self_eq_true]
  | .ref ts | .array ts | .set ts | .call ts => by simp only [Value.stamp, Value.same, sameTerms_stamp ts]
  | .object ps => by simp only [Value.stamp, Value.same, samePairs_stamp ps]
  | .arrayComprehension t b | .setComprehension t b => by
    simp only [Value.stamp, Value.same, Term.same_stamp t, sameBodies_stamp b, Bool.and_true]
  | .objectComprehension k v b => by
    simp only [Value.stamp, Value.same, Term.same_stamp k, Term.same_stamp v, sameBodies_stamp b,
      Bool.and_true]

/-- Places do not tell lists of terms apart. -/
theorem sameTerms_stamp : (ts : List Term) → sameTerms (stampTerms p ts) ts = true
  | [] => by rw [stampTerms, sameTerms]
  | t :: ts => by simp only [stampTerms, sameTerms, Term.same_stamp t, sameTerms_stamp ts, Bool.and_true]

/-- Places do not tell entries apart. -/
theorem samePairs_stamp : (ps : List (Term × Term)) → samePairs (stampPairs p ps) ps = true
  | [] => by rw [stampPairs, samePairs]
  | (k, v) :: ps => by
    simp only [stampPairs, samePairs, Term.same_stamp k, Term.same_stamp v, samePairs_stamp ps,
      Bool.and_true]

/-- Places do not tell queries apart. -/
theorem sameBodies_stamp : (b : List Expr) → sameBodies (stampExprs p b) b = true
  | [] => by rw [stampExprs, sameBodies]
  | e :: es => by simp only [stampExprs, sameBodies, Expr.same_stamp e, sameBodies_stamp es, Bool.and_true]

/-- Places do not tell expressions apart. -/
theorem Expr.same_stamp : (e : Expr) → (e.stamp p).same e = true
  | ⟨_, _, _, t, ws, _⟩ => by
    simp only [Expr.stamp, Expr.same, beq_self_eq_true, ExprTerms.same_stamp t, sameWiths_stamp ws,
      Bool.and_true]

/-- Places do not tell apart what expressions consist of. -/
theorem ExprTerms.same_stamp : (t : ExprTerms) → (t.stamp p).same t = true
  | .term t => by simp only [ExprTerms.stamp, ExprTerms.same, Term.same_stamp t]
  | .call ts | .some ts _ => by simp only [ExprTerms.stamp, ExprTerms.same, sameTerms_stamp ts]
  | .every k v d b _ => by
    simp only [ExprTerms.stamp, ExprTerms.same, sameKeys_stamp k, Term.same_stamp v, Term.same_stamp d,
      sameBodies_stamp b, Bool.and_true]

/-- Places do not tell keys apart. -/
theorem sameKeys_stamp : (k : Option Term) → sameKeys (stampKey p k) k = true
  | none => by rw [stampKey, sameKeys]
  | some k => by rw [stampKey, sameKeys, Term.same_stamp k]

/-- Places do not tell replacements apart. -/
theorem sameWiths_stamp : (ws : List With) → sameWiths (stampWiths p ws) ws = true
  | [] => by rw [stampWiths, sameWiths]
  | ⟨t, v, _⟩ :: ws => by
    simp only [stampWiths, sameWiths, With.same, Term.same_stamp t, Term.same_stamp v, sameWiths_stamp ws,
      Bool.and_true]

end

/-- Places do not tell heads apart. -/
theorem Head.same_stamp (h : Head) : (h.stamp p).same h = true := by
  have options : ∀ k : Option Term, sameOptions Term.same (stampKey p k) k = true := by
    rintro (_ | k)
    · rfl
    · exact Term.same_stamp k
  simp only [Head.same, Head.stamp, Ref.same, beq_self_eq_true, sameTerms_stamp, options, Bool.and_true]

end same

/-! ## What moving does -/

namespace Visit

/-- The places that a node has by itself: that of a term, and those of an expression, of its replacements and of
what it declares or quantifies. -/
def ownPlaces (n : Visit) : List (Option Location) := n.spans ++ n.term?.toList.map (·.location)

/-- A node that was moved has no place but the one it was moved to. -/
theorem ownPlaces_relocate (l : Location) (n : Visit) :
    ∀ place ∈ (n.relocate l).ownPlaces, place = some l := by
  cases n with
  | value | body => exact List.forall_mem_nil _
  | term t =>
      intro place hp
      rw [relocate, Relocation.term] at hp
      exact List.mem_singleton.1 hp
  | expr e =>
      intro place hp
      rw [relocate, Relocation.expr] at hp
      obtain ⟨i, g, n, t, ws, m⟩ := e
      rcases List.mem_cons.1 ((List.mem_append.1 hp).resolve_right (List.not_mem_nil)) with rfl | hp
      · rfl
      rcases List.mem_append.1 hp with declared | replaced
      · -- Only a declaration and a quantified query have a place besides that of the expression.
        cases t with
        | term | call => exact absurd declared List.not_mem_nil
        | some | every => exact List.mem_singleton.1 declared
      · obtain ⟨w, hw, rfl⟩ := List.mem_map.1 replaced
        obtain ⟨w, -, rfl⟩ := List.mem_map.1 hw
        rfl

end Visit

/-- Every node of a moved query, at whatever depth, stands where the query was moved to. -/
theorem Body.ownPlaces_relocate (b : Body) (l : Location) :
    ∀ place ∈ (b.relocate l).walk.flatMap Visit.ownPlaces, place = some l := by
  intro place hp
  obtain ⟨n, hn, hp⟩ := List.mem_flatMap.1 hp
  rw [Body.walk, walkBody_relocate] at hn
  obtain ⟨n, -, rfl⟩ := List.mem_map.1 hn
  exact n.ownPlaces_relocate l place hp

namespace Head

/-- The terms of a head. -/
def terms (h : Head) : List Term := h.reference ++ h.args ++ h.key.toList ++ h.value.toList

/-- The terms of a moved head are its terms, moved. -/
theorem terms_relocate (h : Head) (l : Location) : (h.relocate l).terms = h.terms.map (·.relocate l) := by
  simp only [terms, relocate, List.map_append, Option.toList_map]

/-- Every node of a moved head stands where the head was moved to. -/
theorem ownPlaces_relocate (h : Head) (l : Location) :
    ∀ place ∈ (walkTerms (h.relocate l).terms).flatMap Visit.ownPlaces, place = some l := by
  intro place hp
  obtain ⟨n, hn, hp⟩ := List.mem_flatMap.1 hp
  rw [terms_relocate, walkTerms_relocate] at hn
  obtain ⟨n, -, rfl⟩ := List.mem_map.1 hn
  exact n.ownPlaces_relocate l place hp

end Head

/-- To move a query or a head writes the new place at every node of it, however deep, and nothing else: with all
places erased it is what it was before, and it is the same query or head and has the same text. -/
theorem relocate_everywhere (b : Body) (h : Head) (l : Location) :
    ((∀ place ∈ (b.relocate l).walk.flatMap Visit.ownPlaces, place = some l) ∧
      b.relocate l = b.stamp (some l) ∧ (b.relocate l).stamp none = b.stamp none ∧
      (b.relocate l).same b = true ∧ (b.relocate l).render = b.render) ∧
    (∀ place ∈ (walkTerms (h.relocate l).terms).flatMap Visit.ownPlaces, place = some l) ∧
      h.relocate l = h.stamp (some l) ∧ (h.relocate l).stamp none = h.stamp none ∧
      (h.relocate l).location = some l ∧ (h.relocate l).name = h.name ∧
      (h.relocate l).assign = h.assign ∧ (h.relocate l).generatedValue = h.generatedValue ∧
      (h.relocate l).keywords = h.keywords ∧
      (h.relocate l).same h = true ∧ (h.relocate l).render = h.render := by
  refine ⟨⟨b.ownPlaces_relocate l, b.relocate_eq_stamp, ?_, ?_, ?_⟩, h.ownPlaces_relocate l,
    h.relocate_eq_stamp, ?_, rfl, rfl, rfl, rfl, rfl, ?_, ?_⟩
  · rw [b.relocate_eq_stamp, b.stamp_stamp]
  · rw [b.relocate_eq_stamp]
    exact sameBodies_stamp b
  · rw [b.relocate_eq_stamp]
    exact renderBody_stamp b
  · rw [h.relocate_eq_stamp, h.stamp_stamp]
  · rw [h.relocate_eq_stamp, h.same_stamp]
  · rw [h.relocate_eq_stamp, h.render_stamp]

/-- A term inside an array, and the key of a head. -/
theorem relocate_everywhere_deep :
    let b : Body := [Expr.ofTerm (.ofValue (.array [.ofValue .null]))]
    let h : Head := { Head.ofVar "p" none with key := some (.ofValue .null) }
    let l : Location := { row := 1, col := 2 }
    some l ∈ (b.relocate l).walk.flatMap Visit.ownPlaces ∧
      (∀ place ∈ (b.relocate l).walk.flatMap Visit.ownPlaces, place = some l) ∧
      some l ∈ (walkTerms (h.relocate l).terms).flatMap Visit.ownPlaces ∧
      ∀ place ∈ (walkTerms (h.relocate l).terms).flatMap Visit.ownPlaces, place = some l := by
  intro b h l
  have nested : some l ∈ (b.relocate l).walk.flatMap Visit.ownPlaces := by decide +kernel
  have key : some l ∈ (walkTerms (h.relocate l).terms).flatMap Visit.ownPlaces := by decide +kernel
  exact ⟨nested, (relocate_everywhere b h l).1.1, key, (relocate_everywhere b h l).2.1⟩

end RegoSyntax
