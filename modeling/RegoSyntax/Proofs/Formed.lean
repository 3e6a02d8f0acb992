/-
# RegoSyntax.Proofs.Formed — trees as a parser makes them.

The types of trees admit more than a parser makes: empty paths, calls of numbers, queries numbered at
random.  `Visit.Formed` says of one node what is so in every tree that was read without an error, and a
tree is formed when all nodes of its walk are.  It looks at a node and at what stands directly below it, so
that a tree is formed by the shape of its root and the formedness of its parts.

A term is more restricted where it stands for a value than as the head of a reference or the operator of a
call: a variable that is the root of all documents is a reference there.  Which words may be variables on
their own depends on the words that are reserved, and is a parameter: `names`.
-/
import RegoSyntax.Parse.Grammar

namespace RegoSyntax

/-! ## Spellings -/

/-- A text that is one word. -/
def Lexeme.IsWord (s : List Char) : Prop :=
  ∃ c t, s = c :: t ∧ isLetter c = true ∧ ∀ x ∈ t, isWordChar x = true

/-- A name of a variable: that of a wildcard, or a word that is no wildcard. -/
def Named (name : String) : Prop :=
  isWildcardName name = true ∨ (Lexeme.IsWord name.toList ∧ name ≠ Parse.wildcard)

instance (s : List Char) : Decidable (Lexeme.IsWord s) :=
  match s with
  | [] => .isFalse fun ⟨_, _, filled, _⟩ => by cases filled
  | c :: t => decidable_of_iff (Lexeme.isLetter c = true ∧ t.all Lexeme.isWordChar = true)
    ⟨fun h => ⟨c, t, rfl, h.1, List.all_eq_true.1 h.2⟩, fun ⟨_, _, cons, h⟩ => by
      obtain ⟨rfl, rfl⟩ := List.cons.inj cons
      exact ⟨h.1, List.all_eq_true.2 h.2⟩⟩

instance (name : String) : Decidable (Named name) := inferInstanceAs (Decidable (_ ∨ _))

/-- A spelling of a number: a literal without faults, behind a sign and a point perhaps. -/
def Spelled (spelling : String) : Prop :=
  ∃ (negative pointed : Bool) (literal : String) (behind : List Char),
    spelling = (if negative then "-" else "") ++ (if pointed then "." else "") ++ literal ∧
    Lexeme.next (literal.toList ++ behind) = ⟨.number, literal.toList.length, []⟩ ∧
    (pointed = false → Numeral.hasLeadingZero literal.toList = false) ∧
    ∃ n, Numeral.ofText? spelling = some n ∧ n.inBounds = true

/-! ## The word a term starts with -/

mutual

/-- The word that the text of a term starts with, if it starts with one: that of a variable, or of the
empty set, which is written as a call. -/
def Term.lead : Term → Option String
  | ⟨v, _⟩ => v.lead

/-- The word that the text of a value starts with. -/
def Value.lead : Value → Option String
  | .var name => some name
  | .set [] => some Parse.setConstructor
  | .ref ts | .call ts => leadOf ts
  | _ => none

/-- The word that the text of the first of several terms starts with. -/
def leadOf : List Term → Option String
  | [] => none
  | t :: _ => t.lead

end

theorem Term.lead_eq (t : Term) : t.lead = t.value.lead := by
  cases t
  rfl

/-! ## Nodes -/

section nodes

variable (names : String → Prop)

/-- A word that may be a variable, or the name of a wildcard. -/
def Free (name : String) : Prop := isWildcardName name = true ∨ names name

/-- A value where it is neither the head of a reference nor the operator of a call. -/
def Value.Stands : Value → Prop
  | .var name =>
    Parse.isRoot (.var name) = false ∧ (Free names name ∨ name = Token.containsKw.name)
  | .ref path => 2 ≤ path.length ∨ ∃ t, path = [t] ∧ Parse.isRoot t.value = true
  | _ => True

/-- The terms of a call: its operator is a path, and the call is not one that makes the empty set. -/
def Applies (terms : List Term) : Prop :=
  ∃ op path args, terms = op :: args ∧ op.value = .ref path ∧
    (∀ t ∈ args, t.value.Stands names) ∧ (args = [] → Parse.isSetConstructor op = false)

/-- A value by itself, whatever is in its parts. -/
def Value.Formed : Value → Prop
  | .null | .boolean _ | .string _ => True
  | .number spelling => Spelled spelling
  | .var name => Named name
  | .ref path =>
    ∃ head segments, path = head :: segments ∧ Parse.canHeadRef head.value = true ∧
      ∀ t ∈ segments, t.value.Stands names
  | .array ts | .set ts => ∀ t ∈ ts, t.value.Stands names
  | .object ps => ∀ p ∈ ps, p.1.value.Stands names ∧ p.2.value.Stands names
  | .call ts => Applies names ts
  | .arrayComprehension t _ | .setComprehension t _ => t.value.Stands names
  | .objectComprehension k v _ => k.value.Stands names ∧ v.value.Stands names

/-- The operator of a membership with `n` operands. -/
def Term.IsMember (op : Term) (n : Nat) : Prop :=
  ∃ l₁ l₂, op.value = .ref [⟨.var Parse.memberRoot, l₁⟩, ⟨.string (Parse.memberSegment n), l₂⟩]

/-- A declaration of variables. -/
def DeclaresNames (symbols : List Term) : Prop :=
  symbols ≠ [] ∧ ∀ t ∈ symbols, ∃ name, t.value = .var name ∧ Free names name

/-- A declaration by a membership, of values or of keys and values. -/
def DeclaresMembers (symbols : List Term) : Prop :=
  ∃ t op args, symbols = [t] ∧ t.value = .call (op :: args) ∧ op.IsMember args.length ∧
    (args.length = 2 ∨ args.length = 3)

/-- What an expression consists of, by itself. -/
def ExprTerms.Formed : ExprTerms → Prop
  | .term t => t.value.Stands names ∧ t.value.call? = none
  | .call ts => Applies names ts
  | .some symbols _ => DeclaresNames names symbols ∨ DeclaresMembers symbols
  | .every k v d _ _ =>
    (∀ t ∈ k, t.value.isVar = true ∧ t.value.Stands names) ∧
      v.value.isVar = true ∧ v.value.Stands names ∧ d.value.Stands names

/-- A term or a call: what can be negated. -/
def ExprTerms.isPlain : ExprTerms → Bool
  | .term _ | .call _ => true
  | .some .. | .every .. => false

/-- A replacement by itself: what is replaced is a path or a variable, and starts with a word. -/
structure With.Formed (w : With) : Prop where
  target : w.target.value.isVar = true ∨ w.target.value.ref?.isSome = true
  lead : ∃ name, w.target.lead = some name ∧ Free names name
  targetStands : w.target.value.Stands names
  valueStands : w.value.value.Stands names

/-- An expression by itself. -/
structure Expr.Formed (e : Expr) : Prop where
  terms : e.terms.Formed names
  sign : e.negated = true → e.terms.isPlain = true
  withs : ∀ w ∈ e.withs, w.Formed names
  bare : ∀ symbols l, e.terms = .some symbols l → (∀ t ∈ symbols, t.value.isVar = true) → e.withs = []

/-- Expressions numbered by their positions. -/
def Body.Numbered (b : Body) : Prop := ∀ i (h : i < b.length), b[i].index = i

/-- A node by itself, whatever is in its parts. -/
def Visit.Formed : Visit → Prop
  | .term _ => True
  | .value v => v.Formed names
  | .body b => b ≠ [] ∧ Body.Numbered b
  | .expr e => e.Formed names

/-! ## Trees -/

/-- A term with all nodes formed. -/
def Term.Formed (t : Term) : Prop := ∀ n ∈ t.walk, n.Formed names

/-- A term that stands for a value, with all nodes formed. -/
def Term.Whole (t : Term) : Prop := t.value.Stands names ∧ t.Formed names

/-- What a literal consists of, with all nodes formed. -/
def ExprTerms.Whole (t : ExprTerms) : Prop :=
  t.Formed names ∧ ∀ n ∈ t.walkParts, n.Formed names

/-- A literal with all nodes formed. -/
def Expr.Whole (e : Expr) : Prop := ∀ n ∈ e.walk, n.Formed names

/-- A replacement with all nodes formed. -/
def With.Whole (w : With) : Prop :=
  w.Formed names ∧ w.target.Formed names ∧ w.value.Formed names

/-- Literals of a query that has perhaps not been read to its end. -/
def Body.Sequence (b : Body) : Prop := Body.Numbered b ∧ ∀ e ∈ b, e.Whole names

/-- A query with all nodes formed. -/
def Body.Whole (b : Body) : Prop := ∀ n ∈ b.walk, n.Formed names

end nodes

/-! ## Walks -/

section walks

variable {n : Visit}

theorem mem_walkTerms {ts : List Term} : n ∈ walkTerms ts ↔ ∃ t ∈ ts, n ∈ t.walk := by
  induction ts with
  | nil => simp [walkTerms]
  | cons t ts ih => simp [walkTerms, ih]

theorem mem_walkPairs {ps : List (Term × Term)} :
    n ∈ walkPairs ps ↔ ∃ p ∈ ps, n ∈ p.1.walk ∨ n ∈ p.2.walk := by
  induction ps with
  | nil => simp [walkPairs]
  | cons p ps ih =>
      obtain ⟨k, v⟩ := p
      simp [walkPairs, ih, or_assoc]

theorem mem_walkExprs {es : List Expr} : n ∈ walkExprs es ↔ ∃ e ∈ es, n ∈ e.walk := by
  induction es with
  | nil => simp [walkExprs]
  | cons e es ih => simp [walkExprs, ih]

theorem mem_walkWiths {ws : List With} :
    n ∈ walkWiths ws ↔ ∃ w ∈ ws, n ∈ w.target.walk ∨ n ∈ w.value.walk := by
  induction ws with
  | nil => simp [walkWiths]
  | cons w ws ih =>
      obtain ⟨t, v, l⟩ := w
      simp [walkWiths, ih, or_assoc]

theorem walkBody_eq (b : Body) : walkBody b = .body b :: walkExprs b := by
  cases b <;> rfl

theorem mem_walkKey {k : Option Term} : n ∈ walkKey k ↔ ∃ t ∈ k, n ∈ t.walk := by
  cases k <;> simp [walkKey]

theorem walk_eq (t : Term) : t.walk = .term t :: .value t.value :: t.value.walkParts := by
  cases t
  rfl

theorem expr_walk_eq (e : Expr) : e.walk = .expr e :: (e.terms.walkParts ++ walkWiths e.withs) := by
  cases e
  rfl

end walks

/-! ## Trees by their parts -/

section parts

variable {names : String → Prop}

theorem Term.formed_iff {t : Term} :
    t.Formed names ↔ t.value.Formed names ∧ ∀ n ∈ t.value.walkParts, n.Formed names := by
  simp [Term.Formed, walk_eq, Visit.Formed]

theorem forall_walkTerms {ts : List Term} :
    (∀ n ∈ walkTerms ts, n.Formed names) ↔ ∀ t ∈ ts, t.Formed names := by
  simp only [mem_walkTerms, Term.Formed]
  grind

theorem Expr.whole_iff {e : Expr} :
    e.Whole names ↔ e.Formed names ∧ (∀ n ∈ e.terms.walkParts, n.Formed names) ∧
      ∀ w ∈ e.withs, w.target.Formed names ∧ w.value.Formed names := by
  simp only [Expr.Whole, expr_walk_eq, List.mem_cons, List.mem_append, mem_walkWiths, Term.Formed]
  constructor
  · intro whole
    exact ⟨whole _ (.inl rfl), fun n hn => whole n (.inr (.inl hn)), fun w hw =>
      ⟨fun n hn => whole n (.inr (.inr ⟨w, hw, .inl hn⟩)),
        fun n hn => whole n (.inr (.inr ⟨w, hw, .inr hn⟩))⟩⟩
  · rintro ⟨self, terms, withs⟩ n (rfl | hn | ⟨w, hw, hn | hn⟩)
    · exact self
    · exact terms n hn
    · exact (withs w hw).1 n hn
    · exact (withs w hw).2 n hn

theorem Body.whole_iff {b : Body} : b.Whole names ↔ b ≠ [] ∧ b.Sequence names := by
  simp only [Body.Whole, Body.walk, walkBody_eq, List.mem_cons, mem_walkExprs, Body.Sequence,
    Expr.Whole]
  constructor
  · intro whole
    have self : Visit.Formed names (.body b) := whole _ (.inl rfl)
    exact ⟨self.1, self.2, fun e he n hn => whole n (.inr ⟨e, he, hn⟩)⟩
  · rintro ⟨filled, numbered, exprs⟩ n (rfl | ⟨e, he, hn⟩)
    · exact ⟨filled, numbered⟩
    · exact exprs e he n hn

/-! ### Queries -/

theorem Body.sequence_nil : Body.Sequence names [] :=
  ⟨fun i h => absurd h (Nat.not_lt_zero i), fun _ h => absurd h List.not_mem_nil⟩

/-- The position of an expression and where it stands do not count. -/
theorem Expr.Whole.moved {e : Expr} (h : e.Whole names) (index : Nat) (generated : Bool)
    (location : Option Location) :
    Expr.Whole names { e with index, generated, location } := by
  obtain ⟨self, terms, withs⟩ := Expr.whole_iff.1 h
  exact Expr.whole_iff.2 ⟨⟨self.terms, self.sign, self.withs, self.bare⟩, terms, withs⟩

theorem Body.Sequence.push {b : Body} {e : Expr} (h : b.Sequence names) (he : e.Whole names) :
    (b.push e).Sequence names := by
  constructor
  · intro i hi
    rw [Body.push, List.length_append, List.length_singleton] at hi
    simp only [Body.push, List.getElem_append]
    split
    · next before => exact h.1 i before
    · simp only [List.getElem_singleton]
      omega
  · intro x hx
    rcases List.mem_append.1 hx with hx | hx
    · exact h.2 x hx
    · rw [List.mem_singleton.1 hx]
      exact he.moved _ _ _

theorem Body.push_ne_nil (b : Body) (e : Expr) : b.push e ≠ [] :=
  List.append_ne_nil_of_right_ne_nil b (List.cons_ne_nil _ _)

/-- A query of one literal. -/
theorem Body.whole_single {e : Expr} (he : e.Whole names) : (Body.push [] e).Whole names :=
  Body.whole_iff.2 ⟨Body.push_ne_nil [] e, Body.sequence_nil.push he⟩

/-! ### Values -/

theorem Term.Formed.placed {t : Term} (h : t.Formed names) (l : Option Location) :
    Term.Formed names { t with location := l } :=
  Term.formed_iff.2 (Term.formed_iff (t := t).1 h)

theorem Term.Whole.placed {t : Term} (h : t.Whole names) (l : Option Location) :
    Term.Whole names { t with location := l } := ⟨h.1, h.2.placed l⟩

theorem formed_array {ts : List Term} {l : Option Location} (h : ∀ t ∈ ts, t.Whole names) :
    Term.Formed names ⟨.array ts, l⟩ :=
  Term.formed_iff.2 ⟨fun t ht => (h t ht).1, forall_walkTerms.2 fun t ht => (h t ht).2⟩

theorem formed_set {ts : List Term} {l : Option Location} (h : ∀ t ∈ ts, t.Whole names) :
    Term.Formed names ⟨.set ts, l⟩ :=
  Term.formed_iff.2 ⟨fun t ht => (h t ht).1, forall_walkTerms.2 fun t ht => (h t ht).2⟩

theorem formed_object {ps : List (Term × Term)} {l : Option Location}
    (h : ∀ p ∈ ps, p.1.Whole names ∧ p.2.Whole names) : Term.Formed names ⟨.object ps, l⟩ := by
  refine Term.formed_iff.2 ⟨fun p hp => ⟨(h p hp).1.1, (h p hp).2.1⟩, fun n hn => ?_⟩
  obtain ⟨p, hp, hn | hn⟩ := mem_walkPairs.1 hn
  · exact (h p hp).1.2 n hn
  · exact (h p hp).2.2 n hn

theorem formed_ref {head : Term} {segments : List Term} {l : Option Location}
    (heads : Parse.canHeadRef head.value = true) (formed : head.Formed names)
    (h : ∀ t ∈ segments, t.Whole names) : Term.Formed names ⟨.ref (head :: segments), l⟩ := by
  refine Term.formed_iff.2 ⟨⟨head, segments, rfl, heads, fun t ht => (h t ht).1⟩, ?_⟩
  refine forall_walkTerms.2 fun t ht => ?_
  rcases List.mem_cons.1 ht with rfl | ht
  · exact formed
  · exact (h t ht).2

theorem formed_call {op : Term} {path args : List Term} {l : Option Location}
    (operator : op.value = .ref path) (formed : op.Formed names)
    (h : ∀ t ∈ args, t.Whole names) (some : args = [] → Parse.isSetConstructor op = false) :
    Term.Formed names ⟨.call (op :: args), l⟩ := by
  refine Term.formed_iff.2 ⟨⟨op, path, args, rfl, operator, fun t ht => (h t ht).1, some⟩, ?_⟩
  refine forall_walkTerms.2 fun t ht => ?_
  rcases List.mem_cons.1 ht with rfl | ht
  · exact formed
  · exact (h t ht).2

theorem formed_arrayComprehension {t : Term} {b : Body} {l : Option Location}
    (element : t.Whole names) (body : b.Whole names) :
    Term.Formed names ⟨.arrayComprehension t b, l⟩ :=
  Term.formed_iff.2 ⟨element.1, List.forall_mem_append.2 ⟨element.2, body⟩⟩

theorem formed_setComprehension {t : Term} {b : Body} {l : Option Location}
    (element : t.Whole names) (body : b.Whole names) :
    Term.Formed names ⟨.setComprehension t b, l⟩ :=
  Term.formed_iff.2 ⟨element.1, List.forall_mem_append.2 ⟨element.2, body⟩⟩

theorem formed_objectComprehension {k v : Term} {b : Body} {l : Option Location}
    (key : k.Whole names) (value : v.Whole names) (body : b.Whole names) :
    Term.Formed names ⟨.objectComprehension k v b, l⟩ :=
  Term.formed_iff.2 ⟨⟨key.1, value.1⟩,
    List.forall_mem_append.2 ⟨List.forall_mem_append.2 ⟨key.2, value.2⟩, body⟩⟩

end parts

end RegoSyntax
