/-
# RegoSyntax.Proofs.Groundness — which variables keep a value from being ground.

A variable of a value has an address there, as every node below it has.  On the way to it the address may go
into the head of a reference, and it may go into a comprehension.  A value is ground when on the way to each of
its variables the head of a reference comes first (`isGround_iff`).

So the variables of a ground value stand in the heads of references, and a value is ground whose variables all
stand in heads outside of its comprehensions (`isGround_heads`).  A head counts with all that is in it: `x` does
not keep `f(x).y` from being ground, though it is no head itself (`ground_argument`).
-/
import RegoSyntax.Proofs.Preorder
import RegoSyntax.Tree.Ground

namespace RegoSyntax

/-! ## Where variables stand

An address is a list of indexes.  What is said of a node is said of the node at an address, and what is
below the head of a reference is told by the indexes on the way. -/

namespace Part

/-- Whether a node is a variable. -/
def IsVar : Part → Prop
  | .term ⟨.var _, _⟩ => True
  | _ => False

/-- Whether a node is a reference. -/
def IsRef : Part → Prop
  | .term ⟨.ref _, _⟩ => True
  | _ => False

/-- Whether a node is a comprehension. -/
def IsComprehension : Part → Prop
  | .term ⟨.arrayComprehension .., _⟩ | .term ⟨.objectComprehension .., _⟩
  | .term ⟨.setComprehension .., _⟩ => True
  | _ => False

/-- A variable has this address below a node. -/
def VarAt (n : Part) (a : List Nat) : Prop := ∃ m, n.at? a = some m ∧ m.IsVar

/-- A reference has this address below a node. -/
def RefAt (n : Part) (a : List Nat) : Prop := ∃ m, n.at? a = some m ∧ m.IsRef

/-- A comprehension has this address below a node. -/
def ComprehensionAt (n : Part) (a : List Nat) : Prop := ∃ m, n.at? a = some m ∧ m.IsComprehension

/-- The address is that of the head of a reference. -/
def IsHead (n : Part) (a : List Nat) : Prop := ∃ path, a = path ++ [0] ∧ n.RefAt path

/-- The address is that of the head of a reference, or goes into one. -/
def InHead (n : Part) (a : List Nat) : Prop := ∃ path rest, a = path ++ 0 :: rest ∧ n.RefAt path

/-- The address goes into the head of a reference that is in no comprehension. -/
def InOuterHead (n : Part) (a : List Nat) : Prop :=
  ∃ path rest, a = path ++ 0 :: rest ∧ n.RefAt path ∧ ∀ b, b <+: path → ¬n.ComprehensionAt b

end Part

/-- A value as a node of its own. -/
def Value.root (v : Value) : Part := .term (.ofValue v)

namespace Part

variable {n : Part} {i : Nat} {a : List Nat}

/-- No node is a reference and a comprehension. -/
theorem IsRef.plain (ref : n.IsRef) : ¬n.IsComprehension := by
  intro comprehension
  match n, ref, comprehension with
  | .term ⟨.ref _, _⟩, _, no => exact no

/-- An outer head is a head. -/
theorem InOuterHead.inHead (h : n.InOuterHead a) : n.InHead a := by
  obtain ⟨path, rest, split, ref, -⟩ := h
  exact ⟨path, rest, split, ref⟩

theorem at?_cons : n.at? (i :: a) = n.children[i]?.bind fun c => c.at? a := rfl

/-- The address of a node itself is empty. -/
theorem varAt_nil : n.VarAt [] ↔ n.IsVar := by
  simp [VarAt, at?]

/-- An address goes to a child and on from there. -/
theorem varAt_cons : n.VarAt (i :: a) ↔ ∃ c, n.children[i]? = some c ∧ c.VarAt a := by
  simp only [VarAt, at?_cons, Option.bind_eq_some_iff]
  constructor
  · rintro ⟨m, ⟨c, child, below⟩, var⟩
    exact ⟨c, child, m, below, var⟩
  · rintro ⟨c, child, m, below, var⟩
    exact ⟨m, ⟨c, child, below⟩, var⟩

theorem not_inOuterHead_nil : ¬n.InOuterHead [] := by
  rintro ⟨path, rest, split, -⟩
  exact absurd split.symm (List.append_ne_nil_of_right_ne_nil path (List.cons_ne_nil 0 rest))

/-- An address goes into the head of the reference it starts at, or into one further down. -/
theorem inOuterHead_cons : n.InOuterHead (i :: a) ↔
    (n.IsRef ∧ i = 0) ∨ (¬n.IsComprehension ∧ ∃ c, n.children[i]? = some c ∧ c.InOuterHead a) := by
  constructor
  · rintro ⟨path, rest, split, ⟨m, found, ref⟩, outside⟩
    cases path with
    | nil =>
        obtain ⟨rfl, -⟩ := List.cons.inj split
        obtain rfl : n = m := Option.some.inj found
        exact .inl ⟨ref, rfl⟩
    | cons j path =>
        obtain ⟨rfl, rfl⟩ := List.cons.inj split
        rw [at?_cons, Option.bind_eq_some_iff] at found
        obtain ⟨c, child, found⟩ := found
        refine .inr ⟨fun comprehension => ?_, c, child, path, rest, rfl, ⟨m, found, ref⟩, fun b hb => ?_⟩
        · exact outside [] List.nil_prefix ⟨n, rfl, comprehension⟩
        · rintro ⟨k, below, comprehension⟩
          refine outside (i :: b) ((List.prefix_cons_inj i).2 hb) ⟨k, ?_, comprehension⟩
          rw [at?_cons, child]
          exact below
  -- a head further down is one below the child that the address goes through
  · rintro (⟨ref, rfl⟩ | ⟨plain, c, child, path, rest, rfl, ⟨m, found, ref⟩, outside⟩)
    · refine ⟨[], a, rfl, ⟨n, rfl, ref⟩, fun b hb => ?_⟩
      obtain rfl := List.prefix_nil.1 hb
      rintro ⟨k, same, comprehension⟩
      obtain rfl : n = k := Option.some.inj same
      exact ref.plain comprehension
    · refine ⟨i :: path, rest, rfl, ⟨m, ?_, ref⟩, fun b hb => ?_⟩
      · rw [at?_cons, child]
        exact found
      -- no comprehension on the way: neither the node itself nor one below the child
      · rintro ⟨k, below, comprehension⟩
        cases b with
        | nil =>
            obtain rfl : n = k := Option.some.inj below
            exact plain comprehension
        | cons j b =>
            obtain ⟨rfl, inner⟩ := List.cons_prefix_cons.1 hb
            rw [at?_cons, child] at below
            exact outside b inner ⟨k, below, comprehension⟩

/-! ## Nodes without variables in the way

Ground is told node by node: a node is ground if its children are, save that a head does not count and a
comprehension counts with all it holds. -/

/-- On the way to each variable below a node the head of a reference comes first. -/
def Ground (n : Part) : Prop := ∀ a, n.VarAt a → n.InOuterHead a

theorem ground_iff : n.Ground ↔ ¬n.IsVar ∧ ∀ i a c, n.children[i]? = some c → c.VarAt a →
    (n.IsRef ∧ i = 0) ∨ (¬n.IsComprehension ∧ c.InOuterHead a) := by
  constructor
  · intro ground
    refine ⟨fun var => not_inOuterHead_nil (ground [] (varAt_nil.2 var)), fun i a c child var => ?_⟩
    refine (inOuterHead_cons.1 (ground (i :: a) (varAt_cons.2 ⟨c, child, var⟩))).imp_right ?_
    rintro ⟨plain, d, same, head⟩
    obtain rfl : c = d := Option.some.inj (child.symm.trans same)
    exact ⟨plain, head⟩
  · rintro ⟨constant, below⟩ a var
    cases a with
    | nil => exact absurd (varAt_nil.1 var) constant
    | cons i a =>
        obtain ⟨c, child, var⟩ := varAt_cons.1 var
        exact inOuterHead_cons.2 ((below i a c child var).imp_right fun h => ⟨h.1, c, child, h.2⟩)

/-- A node that is a collection or a call is ground when its parts are. -/
theorem ground_iff_children (constant : ¬n.IsVar) (other : ¬n.IsRef) (plain : ¬n.IsComprehension) :
    n.Ground ↔ ∀ c ∈ n.children, c.Ground := by
  rw [ground_iff]
  constructor
  · rintro ⟨-, below⟩ c hc a var
    obtain ⟨i, child⟩ := List.mem_iff_getElem?.1 hc
    exact ((below i a c child var).resolve_left fun h => other h.1).2
  · intro parts
    exact ⟨constant, fun i a c child var => .inr ⟨plain, parts c (List.mem_of_getElem? child) a var⟩⟩

/-- A reference is ground when its segments are. -/
theorem ground_ref (head : Term) (segments : List Term) (l : Option Location) :
    (Part.term ⟨.ref (head :: segments), l⟩).Ground ↔ ∀ t ∈ segments, (Part.term t).Ground := by
  rw [ground_iff]
  constructor
  · rintro ⟨-, below⟩ t ht a var
    obtain ⟨i, child⟩ := List.mem_iff_getElem?.1 (List.mem_map_of_mem (f := Part.term) ht)
    rcases below (i + 1) a (.term t) child var with ⟨-, first⟩ | ⟨-, inside⟩
    · exact absurd first (Nat.succ_ne_zero i)
    · exact inside
  · intro parts
    refine ⟨id, fun i a c child var => ?_⟩
    cases i with
    | zero => exact .inl ⟨trivial, rfl⟩
    | succ i =>
        obtain ⟨t, ht, rfl⟩ := List.mem_map.1 (List.mem_of_getElem? (l := segments.map Part.term) child)
        exact .inr ⟨id, parts t ht a var⟩

/-- A comprehension is ground when there are no variables in it. -/
theorem ground_comprehension (comprehension : n.IsComprehension) : n.Ground ↔ ∀ a, ¬n.VarAt a := by
  constructor
  · intro ground a var
    cases a with
    | nil => exact not_inOuterHead_nil (ground [] var)
    | cons i a =>
        rcases inOuterHead_cons.1 (ground (i :: a) var) with ⟨ref, -⟩ | ⟨plain, -⟩
        · exact ref.plain comprehension
        · exact plain comprehension
  · intro none a var
    exact absurd var (none a)

end Part

/-! ## Variables on a walk

In a comprehension the program looks for variables by a walk.  A walk has the terms that stand at some
address, so it finds a variable if and only if one has an address. -/

/-- Whether a variable is among terms. -/
def anyVar (ts : List Term) : Bool := ts.any (·.value.isVar)

section walks

/-- The nodes of a walk have the variables that its terms are. -/
def Tells (ns : List Visit) : Prop := ns.any Visit.isVar = anyVar (termsOf ns)

theorem Tells.append {ns ms : List Visit} (h : Tells ns) (g : Tells ms) : Tells (ns ++ ms) := by
  unfold Tells anyVar at *
  rw [List.any_append, termsOf_append, List.any_append, h, g]

mutual

theorem Term.tells : (t : Term) → Tells t.walk
  | ⟨v, l⟩ => by
    show (v.isVar || v.walkParts.any Visit.isVar) = (v.isVar || anyVar (termsOf v.walkParts))
    rw [Value.tells v]

theorem Value.tells : (v : Value) → Tells v.walkParts
  | .null | .boolean _ | .number _ | .string _ | .var _ => rfl
  | .ref ts | .array ts | .set ts | .call ts => tells_terms ts
  | .object ps => tells_pairs ps
  | .arrayComprehension t b | .setComprehension t b => (Term.tells t).append (tells_body b)
  | .objectComprehension k v b => ((Term.tells k).append (Term.tells v)).append (tells_body b)

theorem tells_terms : (ts : List Term) → Tells (walkTerms ts)
  | [] => rfl
  | t :: ts => (Term.tells t).append (tells_terms ts)

theorem tells_pairs : (ps : List (Term × Term)) → Tells (walkPairs ps)
  | [] => rfl
  | (k, v) :: ps => ((Term.tells k).append (Term.tells v)).append (tells_pairs ps)

theorem tells_body : (es : List Expr) → Tells (walkBody es)
  | [] => rfl
  | e :: es => (Expr.tells e).append (tells_exprs es)

theorem tells_exprs : (es : List Expr) → Tells (walkExprs es)
  | [] => rfl
  | e :: es => (Expr.tells e).append (tells_exprs es)

theorem Expr.tells : (e : Expr) → Tells e.walk
  | ⟨_, _, _, ts, ws, _⟩ => (ExprTerms.tells ts).append (tells_withs ws)

theorem ExprTerms.tells : (ts : ExprTerms) → Tells ts.walkParts
  | .term t => Term.tells t
  | .call ts | .some ts _ => tells_terms ts
  | .every k v d b _ =>
    (((tells_key k).append (Term.tells v)).append (Term.tells d)).append (tells_body b)

theorem tells_key : (k : Option Term) → Tells (walkKey k)
  | none => rfl
  | some k => Term.tells k

theorem tells_withs : (ws : List With) → Tells (walkWiths ws)
  | [] => rfl
  | ⟨t, v, _⟩ :: ws => ((Term.tells t).append (Term.tells v)).append (tells_withs ws)

end

end walks

namespace Preorder

/-- The terms in a row of nodes are those that have an address there. -/
theorem mem_iff {ns : List Part} {ts : List Term} (h : Preorder ns ts) (t : Term) :
    t ∈ ts ↔ ∃ a, partAt ns a = some (.term t) := by
  obtain ⟨as, addresses⟩ := h.addresses
  constructor
  · intro ht
    have found : some (Part.term t) ∈ ts.map fun t => some (Part.term t) := List.mem_map_of_mem ht
    rw [← addresses.terms] at found
    obtain ⟨a, -, ha⟩ := List.mem_map.1 found
    exact ⟨a, ha⟩
  · rintro ⟨a, ha⟩
    have found : partAt ns a ∈ as.map (partAt ns) := List.mem_map_of_mem (addresses.complete ha)
    rw [addresses.terms, ha] at found
    obtain ⟨u, hu, same⟩ := List.mem_map.1 found
    obtain rfl : u = t := by injection same with same; injection same
    exact hu

end Preorder

theorem Part.isVar_iff (n : Part) : n.IsVar ↔ ∃ t, n = .term t ∧ t.value.isVar = true := by
  constructor
  · intro var
    match n, var with
    | .term ⟨.var name, l⟩, _ => exact ⟨⟨.var name, l⟩, rfl, rfl⟩
  · rintro ⟨⟨v, l⟩, rfl, var⟩
    cases v with
    | var => trivial
    | _ => exact absurd var Bool.false_ne_true

/-- A variable occurs in a value when one has an address there. -/
theorem Value.mentionsVar_iff (v : Value) (l : Option Location) :
    v.mentionsVar = true ↔ ∃ a, (Part.term ⟨v, l⟩).VarAt a := by
  have walked : v.mentionsVar = (v.isVar || anyVar (termsOf v.walkParts)) :=
    congrArg (v.isVar || ·) (Value.tells v)
  rw [walked, Bool.or_eq_true, anyVar, List.any_eq_true]
  constructor
  · rintro (var | ⟨t, ht, var⟩)
    · exact ⟨[], Part.varAt_nil.2 ((Part.isVar_iff _).2 ⟨_, rfl, var⟩)⟩
    · obtain ⟨a, ha⟩ := (v.preorder.mem_iff t).1 ht
      cases a with
      | nil => exact absurd ha nofun
      | cons i a => exact ⟨i :: a, .term t, ha, (Part.isVar_iff _).2 ⟨t, rfl, var⟩⟩
  · rintro ⟨a, m, found, shown⟩
    obtain ⟨t, rfl, var⟩ := (Part.isVar_iff m).1 shown
    cases a with
    | nil =>
        obtain rfl : (⟨v, l⟩ : Term) = t := by injection found with found; injection found
        exact .inl var
    | cons i a => exact .inr ⟨t, (v.preorder.mem_iff t).2 ⟨i :: a, found⟩, var⟩

/-! ## Ground values

The recursion of the program follows the children of a value, and so does the notion. -/

theorem ground_of_mentions {v : Value} {l : Option Location}
    (comprehension : (Part.term ⟨v, l⟩).IsComprehension) :
    (!v.mentionsVar) = true ↔ (Part.term ⟨v, l⟩).Ground := by
  rw [Part.ground_comprehension comprehension, Bool.not_eq_true', ← Bool.not_eq_true, v.mentionsVar_iff l,
    not_exists]

mutual

/-- A value is ground when on the way to each of its variables the head of a reference comes first. -/
theorem Value.isGround_iff : (v : Value) → (l : Option Location) →
    (v.isGround = true ↔ (Part.term ⟨v, l⟩).Ground)
  | .null, l | .boolean _, l | .number _, l | .string _, l => by
    rw [Part.ground_iff_children id id id]
    exact ⟨fun _ c hc => absurd hc List.not_mem_nil, fun _ => rfl⟩
  | .var name, l => by
    rw [Part.ground_iff]
    exact ⟨fun h => absurd h Bool.false_ne_true, fun h => absurd trivial h.1⟩
  | .ref [], l => by
    rw [Part.ground_iff]
    exact ⟨fun _ => ⟨id, fun i a c child => absurd child nofun⟩, fun _ => rfl⟩
  | .ref (t :: ts), l => by
    rw [Part.ground_ref, ← List.forall_mem_map]
    exact areGround_iff ts
  | .array ts, l | .set ts, l | .call ts, l => by
    rw [Part.ground_iff_children id id id]
    exact areGround_iff ts
  | .object ps, l => by
    rw [Part.ground_iff_children id id id]
    exact arePairsGround_iff ps
  | .arrayComprehension .., l | .objectComprehension .., l | .setComprehension .., l =>
    ground_of_mentions trivial

theorem areGround_iff : (ts : List Term) → (areGround ts = true ↔ ∀ c ∈ ts.map Part.term, c.Ground)
  | [] => ⟨fun _ c hc => absurd hc List.not_mem_nil, fun _ => rfl⟩
  | ⟨v, l⟩ :: ts => by
    rw [areGround, Bool.and_eq_true, Term.isGround, Value.isGround_iff v l, areGround_iff ts, List.map_cons,
      List.forall_mem_cons]

theorem arePairsGround_iff : (ps : List (Term × Term)) → (arePairsGround ps = true ↔
    ∀ c ∈ ps.flatMap fun p => [Part.term p.1, Part.term p.2], c.Ground)
  | [] => ⟨fun _ c hc => absurd hc List.not_mem_nil, fun _ => rfl⟩
  | (⟨v, l⟩, ⟨w, m⟩) :: ps => by
    rw [arePairsGround, Bool.and_eq_true, Bool.and_eq_true, Term.isGround, Term.isGround,
      Value.isGround_iff v l, Value.isGround_iff w m, arePairsGround_iff ps, List.flatMap_cons,
      List.forall_mem_append, List.forall_mem_cons, List.forall_mem_singleton]

end

/-- All variables of a ground value stand in the heads of references; and a value is ground whose variables all
stand in heads that are in no comprehension. -/
theorem isGround_heads (v : Value) :
    (v.isGround = true → ∀ a, v.root.VarAt a → v.root.InHead a) ∧
      ((∀ a, v.root.VarAt a → v.root.InOuterHead a) → v.isGround = true) := by
  have exact_heads := v.isGround_iff none
  constructor
  · intro ground a var
    exact (exact_heads.1 ground a var).inHead
  · intro heads
    exact exact_heads.2 heads

/-- The argument of a call at the head of a reference, which is no head itself, does not keep the reference from
being ground: `f(x).y`. -/
theorem ground_argument :
    let x : Term := .ofValue (.var "x")
    let f : Term := .ofValue (.ref [.ofValue (.var "f")])
    let v : Value := .ref [.ofValue (.call [f, x]), .ofValue (.string "y")]
    ¬(v.isGround = true ↔ ∀ a, v.root.VarAt a → v.root.IsHead a) := by
  intro x f v same
  have headed := same.1 rfl [0, 1] ⟨.term x, rfl, trivial⟩
  obtain ⟨path, split, -⟩ := headed
  have last : [0, 1].getLast? = some 0 := by rw [split, List.getLast?_append]; rfl
  exact absurd last (by decide)

end RegoSyntax
