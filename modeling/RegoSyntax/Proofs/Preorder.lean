/-
# RegoSyntax.Proofs.Preorder — the order in which trees are gone through.

A term or an expression has an address in a query: the numbers of the children that lead to it, from the
outside in.  The children of a node are told here from its constructor alone, not by a traversal.  Addresses in
lexicographic order have a node before what is below it and what stands first before what stands next to it.

Both traversals come to the terms of a query in the order of their addresses, to each of them once, and an edit
that only reads gives the query back (`traversals_agree`).

`Preorder` says that a list holds the terms of a row of nodes in that order, by the constructors of the
tree.  It is shown of the walk once (`Body.preorder`), and that an edit comes to what the walk comes to is
shown apart from it (`Edit.along`).
-/
import RegoSyntax.Proofs.Places

namespace RegoSyntax

/-! ## Addresses -/

/-- A node that has an address. -/
inductive Part where
  | term (t : Term)
  | expr (e : Expr)

/-- The nodes right below a value. -/
def Value.children : Value → List Part
  | .null | .boolean _ | .number _ | .string _ | .var _ => []
  | .ref ts | .array ts | .set ts | .call ts => ts.map .term
  | .object ps => ps.flatMap fun p => [.term p.1, .term p.2]
  | .arrayComprehension t b | .setComprehension t b => .term t :: b.map .expr
  | .objectComprehension k v b => .term k :: .term v :: b.map .expr

/-- The nodes right below what an expression consists of. -/
def ExprTerms.children : ExprTerms → List Part
  | .term t => [.term t]
  | .call ts | .some ts _ => ts.map .term
  | .every k v d b _ => k.toList.map .term ++ .term v :: .term d :: b.map .expr

namespace Part

/-- The term that a node is. -/
def term? : Part → Option Term
  | .term t => some t
  | .expr _ => none

/-- The nodes right below a node; those of an expression end with its replacements. -/
def children : Part → List Part
  | .term t => t.value.children
  | .expr e => e.terms.children ++ e.withs.flatMap fun w => [.term w.target, .term w.value]

/-- What has an address below a node; the node itself has the empty one. -/
def at? (n : Part) : List Nat → Option Part
  | [] => some n
  | i :: a => n.children[i]?.bind fun c => c.at? a

end Part

/-- What has an address in a row of nodes. -/
def partAt (ns : List Part) : List Nat → Option Part
  | [] => none
  | i :: a => ns[i]?.bind fun n => n.at? a

/-- What has an address in a query. -/
def Body.partAt (b : Body) (a : List Nat) : Option Part := RegoSyntax.partAt (b.map .expr) a

section partAt

variable (n : Part) (ns : List Part) (a : List Nat)

/-- A row has nothing at the empty address. -/
@[simp] theorem partAt_nil : partAt ns [] = none := rfl

/-- An empty row has nothing at any address. -/
@[simp] theorem partAt_none : partAt [] a = none := by cases a <;> rfl

/-- Below a node is what is in the row of its children. -/
theorem Part.at?_of_ne_nil {a : List Nat} (h : a ≠ []) : n.at? a = RegoSyntax.partAt n.children a := by
  cases a with
  | nil => exact absurd rfl h
  | cons => rfl

end partAt

/-! ## Terms in the order of their addresses -/

/-- The terms in a row of nodes: each node before those below it, and those before the next in the row. -/
inductive Preorder : List Part → List Term → Prop where
  | nil : Preorder [] []
  | cons {n : Part} {ns : List Part} {inner rest : List Term}
      (below : Preorder n.children inner) (after : Preorder ns rest) :
      Preorder (n :: ns) (n.term?.toList ++ inner ++ rest)

/-- Where a node has an address, the address it has behind one more node. -/
def shift : List Nat → List Nat
  | [] => []
  | i :: a => (i + 1) :: a

/-- Behind one more node, addresses are shifted by one. -/
theorem partAt_shift (n : Part) (ns : List Part) (a : List Nat) :
    partAt (n :: ns) (shift a) = partAt ns a := by
  cases a <;> rfl

/-- To shift addresses keeps their order. -/
theorem shift_lt_shift {a b : List Nat} (h : a < b) : shift a < shift b := by
  cases b with
  | nil => exact absurd h (List.not_lt_nil a)
  | cons j b =>
      cases a with
      | nil => exact List.nil_lt_cons _ _
      | cons i a =>
          rw [shift, shift, List.cons_lt_cons_iff]
          exact (List.cons_lt_cons_iff.1 h).imp Nat.succ_lt_succ (And.imp_left (congrArg Nat.succ))

/-- What is in or below the first node comes before what is behind it. -/
theorem zero_cons_lt_shift {a b : List Nat} (h : b ≠ []) : 0 :: a < shift b := by
  cases b with
  | nil => exact absurd rfl h
  | cons j b => exact List.cons_lt_cons_iff.2 (.inl (Nat.succ_pos j))

namespace Preorder

/-- One row behind another has the terms of the first one first. -/
theorem append {ns ms : List Part} {ts us : List Term} (h : Preorder ns ts) (g : Preorder ms us) :
    Preorder (ns ++ ms) (ts ++ us) := by
  induction h with
  | nil => exact g
  | cons below after _ ih => simpa only [List.append_assoc, List.cons_append] using below.cons ih

/-- The addresses of the terms in a row of nodes, in their order. -/
structure Addresses (ns : List Part) (ts : List Term) (as : List (List Nat)) : Prop where
  increasing : as.Pairwise (· < ·)
  terms : as.map (partAt ns) = ts.map fun t => some (.term t)
  complete {a : List Nat} {t : Term} : partAt ns a = some (.term t) → a ∈ as

namespace Addresses

variable {n : Part} {ns : List Part} {ts inner rest : List Term} {as below after : List (List Nat)}

/-- A term in a row has an address that is not empty. -/
theorem ne_nil (h : Addresses ns ts as) {a : List Nat} (ha : a ∈ as) : a ≠ [] := by
  rintro rfl
  have found : partAt ns [] ∈ as.map (partAt ns) := List.mem_map_of_mem ha
  rw [h.terms, partAt_nil] at found
  obtain ⟨t, -, same⟩ := List.mem_map.1 found
  exact absurd same nofun

/-- The addresses are those at which there is a term. -/
theorem mem_iff (h : Addresses ns ts as) (a : List Nat) :
    a ∈ as ↔ ∃ t, partAt ns a = some (.term t) := by
  constructor
  · intro ha
    have found : partAt ns a ∈ as.map (partAt ns) := List.mem_map_of_mem ha
    rw [h.terms] at found
    obtain ⟨t, -, same⟩ := List.mem_map.1 found
    exact ⟨t, same.symm⟩
  · rintro ⟨t, ht⟩
    exact h.complete ht

/-- The address of a node that is a term, then those below it, then those behind it. -/
theorem cons (inside : Addresses n.children inner below) (behind : Addresses ns rest after) :
    Addresses (n :: ns) (n.term?.toList ++ inner ++ rest)
      (n.term?.toList.map (fun _ => [0]) ++ below.map (0 :: ·) ++ after.map shift) := by
  -- The addresses of the node and of what is below it start with zero; those behind it do not.
  have first : ∀ a ∈ n.term?.toList.map (fun _ => [0]) ++ below.map (0 :: ·), ∃ b, a = 0 :: b := by
    intro a ha
    rcases List.mem_append.1 ha with own | lower
    · obtain ⟨-, -, rfl⟩ := List.mem_map.1 own
      exact ⟨[], rfl⟩
    · obtain ⟨b, -, rfl⟩ := List.mem_map.1 lower
      exact ⟨b, rfl⟩
  constructor
  · refine List.pairwise_append.2 ⟨List.pairwise_append.2 ⟨?_, ?_, ?_⟩, ?_, ?_⟩
    · cases n.term? <;> simp
    · refine inside.increasing.map _ fun a b less => ?_
      exact List.cons_lt_cons_iff.2 (.inr ⟨rfl, less⟩)
    · intro a ha b hb
      obtain ⟨-, -, rfl⟩ := List.mem_map.1 ha
      obtain ⟨b, lower, rfl⟩ := List.mem_map.1 hb
      obtain ⟨j, b, rfl⟩ := List.exists_cons_of_ne_nil (inside.ne_nil lower)
      exact List.cons_lt_cons_iff.2 (.inr ⟨rfl, List.nil_lt_cons _ _⟩)
    · exact behind.increasing.map _ fun a b less => shift_lt_shift less
    · intro a ha b hb
      obtain ⟨a, rfl⟩ := first a ha
      obtain ⟨b, later, rfl⟩ := List.mem_map.1 hb
      exact zero_cons_lt_shift (behind.ne_nil later)
  · rw [List.map_append, List.map_append, List.map_append, List.map_append]
    congr 1
    · congr 1
      · cases n <;> rfl
      · rw [← inside.terms, List.map_map]
        refine List.map_congr_left fun a ha => ?_
        exact n.at?_of_ne_nil (inside.ne_nil ha)
    · rw [← behind.terms, List.map_map]
      exact List.map_congr_left fun a _ => partAt_shift n ns a
  · intro a t found
    rw [List.mem_append, List.mem_append]
    -- an address leads to the node, below it, or behind it
    match a, found with
    | [0], found =>
      refine .inl (.inl ?_)
      obtain rfl : n = .term t := Option.some.inj found
      exact List.mem_singleton.2 rfl
    | 0 :: i :: a, found => exact .inl (.inr (List.mem_map_of_mem (inside.complete found)))
    | (i + 1) :: a, found => exact .inr (List.mem_map.2 ⟨i :: a, behind.complete found, rfl⟩)

end Addresses

/-- Terms in preorder have addresses that increase. -/
theorem addresses {ns : List Part} {ts : List Term} (h : Preorder ns ts) : ∃ as, Addresses ns ts as := by
  induction h with
  | nil =>
      refine ⟨[], .nil, rfl, fun {a t} found => ?_⟩
      rw [partAt_none] at found
      exact absurd found nofun
  | cons _ _ inside behind =>
      obtain ⟨below, inside⟩ := inside
      obtain ⟨after, behind⟩ := behind
      exact ⟨_, inside.cons behind⟩

end Preorder

/-! ## Walks -/

/-- The terms among the nodes that a walk comes to. -/
def termsOf (ns : List Visit) : List Term := ns.filterMap Visit.term?

@[simp] theorem termsOf_nil : termsOf [] = [] := rfl

@[simp] theorem termsOf_append (ns ms : List Visit) : termsOf (ns ++ ms) = termsOf ns ++ termsOf ms :=
  List.filterMap_append

@[simp] theorem termsOf_term (t : Term) (ns : List Visit) : termsOf (.term t :: ns) = t :: termsOf ns := rfl
@[simp] theorem termsOf_value (v : Value) (ns : List Visit) : termsOf (.value v :: ns) = termsOf ns := rfl
@[simp] theorem termsOf_body (b : Body) (ns : List Visit) : termsOf (.body b :: ns) = termsOf ns := rfl
@[simp] theorem termsOf_expr (e : Expr) (ns : List Visit) : termsOf (.expr e :: ns) = termsOf ns := rfl

/-- The terms that a walk through a query comes to. -/
def Body.terms (b : Body) : List Term := termsOf b.walk

/-- The terms of a body are those of its expressions. -/
theorem termsOf_walkBody (es : List Expr) : termsOf (walkBody es) = termsOf (walkExprs es) := by
  cases es <;> simp [walkBody, walkExprs]

/-- The first term that a walk through a term comes to is the term itself. -/
theorem termsOf_walk (v : Value) (l : Option Location) :
    termsOf (Term.mk v l).walk = ⟨v, l⟩ :: termsOf v.walkParts := by
  simp [Term.walk]

namespace Preorder

/-- A term comes before what is below it, and that before what is behind it. -/
theorem term {v : Value} {l : Option Location} {ns : List Part} {rest : List Term}
    (below : Preorder v.children (termsOf v.walkParts)) (after : Preorder ns rest) :
    Preorder (.term ⟨v, l⟩ :: ns) (termsOf (Term.mk v l).walk ++ rest) := by
  rw [termsOf_walk]
  exact cons (n := .term ⟨v, l⟩) below after

end Preorder

mutual

/-- The walk through a value is in preorder. -/
theorem Value.preorder : (v : Value) → Preorder v.children (termsOf v.walkParts)
  | .null | .boolean _ | .number _ | .string _ | .var _ => .nil
  | .ref ts | .array ts | .set ts | .call ts => preorder_terms ts
  | .object ps => preorder_pairs ps
  | .arrayComprehension ⟨v, l⟩ b | .setComprehension ⟨v, l⟩ b => by
    rw [Value.walkParts, termsOf_append, termsOf_walkBody]
    exact (Value.preorder v).term (preorder_exprs b)
  | .objectComprehension ⟨v, l⟩ ⟨w, m⟩ b => by
    rw [Value.walkParts, termsOf_append, termsOf_append, termsOf_walkBody, List.append_assoc]
    exact (Value.preorder v).term ((Value.preorder w).term (preorder_exprs b))

/-- The walk through a list of terms is in preorder. -/
theorem preorder_terms : (ts : List Term) → Preorder (ts.map .term) (termsOf (walkTerms ts))
  | [] => .nil
  | ⟨v, l⟩ :: ts => by
    rw [walkTerms, termsOf_append]
    exact (Value.preorder v).term (preorder_terms ts)

/-- The walk through the entries of an object is in preorder, each key before its value. -/
theorem preorder_pairs : (ps : List (Term × Term)) →
    Preorder (ps.flatMap fun p => [.term p.1, .term p.2]) (termsOf (walkPairs ps))
  | [] => .nil
  | (⟨v, l⟩, ⟨w, m⟩) :: ps => by
    rw [walkPairs, termsOf_append, termsOf_append, List.append_assoc]
    exact (Value.preorder v).term ((Value.preorder w).term (preorder_pairs ps))

/-- The walk through expressions is in preorder. -/
theorem preorder_exprs : (es : List Expr) → Preorder (es.map .expr) (termsOf (walkExprs es))
  | [] => .nil
  | ⟨i, g, n, ts, ws, l⟩ :: es => by
    rw [walkExprs, Expr.walk, termsOf_append, List.cons_append, termsOf_expr, termsOf_append]
    exact .cons (n := .expr ⟨i, g, n, ts, ws, l⟩) ((ExprTerms.preorder ts).append (preorder_withs ws))
      (preorder_exprs es)

/-- The walk through what an expression consists of is in preorder. -/
theorem ExprTerms.preorder : (ts : ExprTerms) → Preorder ts.children (termsOf ts.walkParts)
  | .term ⟨v, l⟩ => by
    rw [ExprTerms.walkParts, ← List.append_nil (termsOf _)]
    exact (Value.preorder v).term .nil
  | .call ts | .some ts _ => preorder_terms ts
  | .every none ⟨v, l⟩ ⟨d, m⟩ b _ => by
    rw [ExprTerms.walkParts, walkKey, termsOf_append, termsOf_append, termsOf_append, termsOf_walkBody,
      List.append_assoc, List.append_assoc]
    exact (Value.preorder v).term ((Value.preorder d).term (preorder_exprs b))
  | .every (some ⟨k, o⟩) ⟨v, l⟩ ⟨d, m⟩ b _ => by
    rw [ExprTerms.walkParts, walkKey, termsOf_append, termsOf_append, termsOf_append, termsOf_walkBody,
      List.append_assoc, List.append_assoc]
    exact (Value.preorder k).term ((Value.preorder v).term ((Value.preorder d).term (preorder_exprs b)))

/-- The walk through replacements is in preorder, each target before its value. -/
theorem preorder_withs : (ws : List With) →
    Preorder (ws.flatMap fun w => [.term w.target, .term w.value]) (termsOf (walkWiths ws))
  | [] => .nil
  | ⟨⟨v, l⟩, ⟨w, m⟩, _⟩ :: ws => by
    rw [walkWiths, termsOf_append, termsOf_append, List.append_assoc]
    exact (Value.preorder v).term ((Value.preorder w).term (preorder_withs ws))

end

/-- A walk comes to the terms of a query in the order of their addresses. -/
theorem Body.preorder (b : Body) : Preorder (b.map .expr) b.terms := by
  rw [Body.terms, Body.walk, termsOf_walkBody]
  exact preorder_exprs b

/-! ## Edits -/

namespace Edit

variable {σ : Type}

/-- The edit that looks at terms and changes nothing. -/
def reading (enter : Term → σ → σ) : Edit σ where
  enter := enter
  place l := l
  rename _ name := name

/-- An edit that reads keeps places. -/
@[simp] theorem reading_place (enter : Term → σ → σ) (l : Option Location) :
    (reading enter).place l = l := rfl

/-- The state that an edit has after some nodes. -/
def along (e : Edit σ) (ns : List Visit) (s : σ) : σ := (termsOf ns).foldl (fun s t => e.enter t s) s

variable (e : Edit σ) (s : σ)

/-- Nodes one after the other are come to one after the other. -/
theorem along_append (ns ms : List Visit) : e.along (ns ++ ms) s = e.along ms (e.along ns s) := by
  rw [along, termsOf_append, List.foldl_append]
  rfl

/-- A term is come to before what is below it. -/
theorem along_walk (v : Value) (l : Option Location) :
    e.along (Term.mk v l).walk s = e.along v.walkParts (e.enter ⟨v, l⟩ s) := by
  rw [along, termsOf_walk]
  rfl

/-- A body is no term. -/
theorem along_walkBody (es : List Expr) : e.along (walkBody es) s = e.along (walkExprs es) s := by
  rw [along, termsOf_walkBody]
  rfl

/-- An expression is no term, and its replacements come last. -/
theorem along_walk_expr (i : Nat) (g n : Bool) (ts : ExprTerms) (ws : List With) (l : Option Location) :
    e.along (Expr.mk i g n ts ws l).walk s = e.along (walkWiths ws) (e.along ts.walkParts s) := by
  rw [Expr.walk, ← along_append]
  rfl

end Edit

section enters

variable {σ : Type} {e : Edit σ}

mutual

/-- An edit comes to the terms of a term as a walk does. -/
theorem Term.edit_snd : (t : Term) → (s : σ) → (t.edit e s).2 = e.along t.walk s
  | ⟨v, l⟩, s => by
    rw [e.along_walk]
    exact Value.edit_snd v _

/-- An edit comes to the terms of a value as a walk does. -/
theorem Value.edit_snd : (v : Value) → (s : σ) → (v.edit e s).2 = e.along v.walkParts s
  | .null, _ | .boolean _, _ | .number _, _ | .string _, _ | .var _, _ => rfl
  | .ref ts, s | .array ts, s | .set ts, s | .call ts, s => editTerms_snd ts s
  | .object ps, s => editPairs_snd ps s
  | .arrayComprehension t b, s | .setComprehension t b, s => by
    rw [Value.walkParts, e.along_append, e.along_walkBody, ← Term.edit_snd t, ← editBody_snd b]
    rfl
  | .objectComprehension k v b, s => by
    rw [Value.walkParts, e.along_append, e.along_append, e.along_walkBody, ← Term.edit_snd k, ← Term.edit_snd v,
      ← editBody_snd b]
    rfl

/-- An edit comes to a list of terms as a walk does. -/
theorem editTerms_snd : (ts : List Term) → (s : σ) → (editTerms e ts s).2 = e.along (walkTerms ts) s
  | [], _ => rfl
  | t :: ts, s => by
    rw [walkTerms, e.along_append, ← Term.edit_snd t, ← editTerms_snd ts]
    rfl

/-- An edit comes to the entries of an object as a walk does. -/
theorem editPairs_snd : (ps : List (Term × Term)) → (s : σ) →
    (editPairs e ps s).2 = e.along (walkPairs ps) s
  | [], _ => rfl
  | (k, v) :: ps, s => by
    rw [walkPairs, e.along_append, e.along_append, ← Term.edit_snd k, ← Term.edit_snd v, ← editPairs_snd ps]
    rfl

/-- An edit comes to the expressions of a body as a walk does. -/
theorem editBody_snd : (es : List Expr) → (s : σ) → (editBody e es s).2 = e.along (walkExprs es) s
  | [], _ => rfl
  | x :: xs, s => by
    rw [walkExprs, e.along_append, ← Expr.edit_snd x, ← editBody_snd xs]
    rfl

/-- An edit comes to the terms of an expression as a walk does. -/
theorem Expr.edit_snd : (x : Expr) → (s : σ) → (x.edit e s).2 = e.along x.walk s
  | ⟨i, g, n, ts, ws, l⟩, s => by
    rw [e.along_walk_expr, ← ExprTerms.edit_snd ts, ← editWiths_snd ws]
    rfl

/-- An edit comes to what an expression consists of as a walk does. -/
theorem ExprTerms.edit_snd : (ts : ExprTerms) → (s : σ) → (ts.edit e s).2 = e.along ts.walkParts s
  | .term t, s => Term.edit_snd t s
  | .call ts, s | .some ts _, s => editTerms_snd ts s
  | .every k v d b _, s => by
    rw [ExprTerms.walkParts, e.along_append, e.along_append, e.along_append, e.along_walkBody, ← editKey_snd k,
      ← Term.edit_snd v, ← Term.edit_snd d, ← editBody_snd b]
    rfl

/-- An edit comes to a key as a walk does. -/
theorem editKey_snd : (k : Option Term) → (s : σ) → (editKey e k s).2 = e.along (walkKey k) s
  | none, _ => rfl
  | some k, s => Term.edit_snd k s

/-- An edit comes to replacements as a walk does. -/
theorem editWiths_snd : (ws : List With) → (s : σ) → (editWiths e ws s).2 = e.along (walkWiths ws) s
  | [], _ => rfl
  | ⟨t, v, l⟩ :: ws, s => by
    rw [walkWiths, e.along_append, e.along_append, ← Term.edit_snd t, ← Term.edit_snd v, ← editWiths_snd ws]
    rfl

end

end enters

section reading

variable {σ : Type} {enter : Term → σ → σ}

mutual

/-- An edit that only reads gives a term back. -/
theorem Term.edit_reading : (t : Term) → (s : σ) → (t.edit (.reading enter) s).1 = t
  | ⟨v, l⟩, _ => congrArg (Term.mk · l) (Value.edit_reading v _)

/-- An edit that only reads gives a value back. -/
theorem Value.edit_reading : (v : Value) → (s : σ) → (v.edit (.reading enter) s).1 = v
  | .null, _ | .boolean _, _ | .number _, _ | .string _, _ | .var _, _ => rfl
  | .ref ts, s => congrArg Value.ref (editTerms_reading ts s)
  | .array ts, s => congrArg Value.array (editTerms_reading ts s)
  | .set ts, s => congrArg Value.set (editTerms_reading ts s)
  | .call ts, s => congrArg Value.call (editTerms_reading ts s)
  | .object ps, s => congrArg Value.object (editPairs_reading ps s)
  | .arrayComprehension t b, s =>
    congrArg₂ Value.arrayComprehension (Term.edit_reading t s) (editBody_reading b _)
  | .setComprehension t b, s =>
    congrArg₂ Value.setComprehension (Term.edit_reading t s) (editBody_reading b _)
  | .objectComprehension k v b, s => by
    simp only [Value.edit, Term.edit_reading k, Term.edit_reading v, editBody_reading b]

/-- An edit that only reads gives a list of terms back. -/
theorem editTerms_reading : (ts : List Term) → (s : σ) → (editTerms (.reading enter) ts s).1 = ts
  | [], _ => rfl
  | t :: ts, s => congrArg₂ List.cons (Term.edit_reading t s) (editTerms_reading ts _)

/-- An edit that only reads gives the entries of an object back. -/
theorem editPairs_reading : (ps : List (Term × Term)) → (s : σ) →
    (editPairs (.reading enter) ps s).1 = ps
  | [], _ => rfl
  | (k, v) :: ps, s => by
    simp only [editPairs, Term.edit_reading k, Term.edit_reading v, editPairs_reading ps]

/-- An edit that only reads gives a body back. -/
theorem editBody_reading : (es : List Expr) → (s : σ) → (editBody (.reading enter) es s).1 = es
  | [], _ => rfl
  | x :: xs, s => congrArg₂ List.cons (Expr.edit_reading x s) (editBody_reading xs _)

/-- An edit that only reads gives an expression back. -/
theorem Expr.edit_reading : (x : Expr) → (s : σ) → (x.edit (.reading enter) s).1 = x
  | ⟨i, g, n, ts, ws, l⟩, s =>
    congrArg₂ (Expr.mk i g n · · l) (ExprTerms.edit_reading ts s) (editWiths_reading ws _)

/-- An edit that only reads gives back what an expression consists of. -/
theorem ExprTerms.edit_reading : (ts : ExprTerms) → (s : σ) → (ts.edit (.reading enter) s).1 = ts
  | .term t, s => congrArg ExprTerms.term (Term.edit_reading t s)
  | .call ts, s => congrArg ExprTerms.call (editTerms_reading ts s)
  | .some ts l, s => congrArg (ExprTerms.some · l) (editTerms_reading ts s)
  | .every k v d b l, s => by
    simp only [ExprTerms.edit, editKey_reading k, Term.edit_reading v, Term.edit_reading d,
      editBody_reading b, Edit.reading_place]

/-- An edit that only reads gives a key back. -/
theorem editKey_reading : (k : Option Term) → (s : σ) → (editKey (.reading enter) k s).1 = k
  | none, _ => rfl
  | some k, s => congrArg some (Term.edit_reading k s)

/-- An edit that only reads gives replacements back. -/
theorem editWiths_reading : (ws : List With) → (s : σ) → (editWiths (.reading enter) ws s).1 = ws
  | [], _ => rfl
  | ⟨t, v, l⟩ :: ws, s => by
    simp only [editWiths, Term.edit_reading t, Term.edit_reading v, editWiths_reading ws, Edit.reading_place]

end

end reading

/-- Edits and walks come to the same terms of a query in the same order: that of the addresses which terms have
in the query, so to each term once, and to a term before what is below it.  An edit that only reads gives the
query back. -/
theorem traversals_agree (b : Body) :
    (∀ {σ : Type} (e : Edit σ) (s : σ),
      (editBody e b s).2 = b.terms.foldl (fun s t => e.enter t s) s) ∧
    (∀ {σ : Type} (enter : Term → σ → σ) (s : σ), (editBody (.reading enter) b s).1 = b) ∧
    editBody (.reading fun t seen => seen ++ [t]) b [] = (b, b.terms) ∧
    ∃ addresses : List (List Nat), addresses.Pairwise (· < ·) ∧
      addresses.map b.partAt = b.terms.map (fun t => some (.term t)) ∧
      ∀ a, a ∈ addresses ↔ ∃ t, b.partAt a = some (.term t) := by
  have sequence : ∀ {σ : Type} (e : Edit σ) (s : σ),
      (editBody e b s).2 = b.terms.foldl (fun s t => e.enter t s) s := by
    intro σ e s
    rw [editBody_snd, Body.terms, Body.walk, termsOf_walkBody]
    rfl
  refine ⟨sequence, fun enter s => editBody_reading b s, Prod.ext (editBody_reading b []) ?_, ?_⟩
  · rw [sequence]
    have listed : b.terms.foldl (fun seen t => seen ++ [t]) [] = [] ++ (b.terms.map fun t => [t]).flatten :=
      List.foldl_append_eq_append
    rwa [List.nil_append, ← List.flatMap_def, List.flatMap_singleton'] at listed
  · obtain ⟨addresses, h⟩ := b.preorder.addresses
    exact ⟨addresses, h.increasing, h.terms, h.mem_iff⟩

end RegoSyntax
