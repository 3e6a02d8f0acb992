/-
# RegoSyntax.Proofs.Operators — operations and memberships are read formed.

An operator enters a tree as a path of one name, and the operator of a membership as a path of two; both
are names that a source can spell, so that an operation is a call like any other.

The statements say that the result of a rule is whole if the operands that it was handed are
(`Term.Whole`); the operands that it reads itself are whole by the productions below.  As operations are
calls, their operator must not be the one that makes an empty set: `Operates` says that it is a path, and
a path with an operand is never taken for that.
-/
import RegoSyntax.Proofs.Keeping

namespace RegoSyntax

open Parse

/-! ## Names of operators -/

/-- The operators of a tier have names that a source can spell. -/
theorem named_operator (tier : Tier) : ∀ kind ∈ tier.operators, Named kind.name := by
  cases tier <;> decide +kernel

/-- So have the two signs between the terms of an expression. -/
theorem named_assignment : Named Token.assign.name ∧ Named Token.unify.name := by decide +kernel

/-- A path of one name. -/
theorem formed_name {names : String → Prop} {name : String} (named : Named name)
    (l m : Option Location) : Term.Formed names ⟨.ref [⟨.var name, l⟩], m⟩ :=
  formed_ref rfl (Term.formed_iff.2 ⟨named, List.forall_mem_nil _⟩)
    fun _ h => absurd h List.not_mem_nil

/-- The path of an operator of membership. -/
theorem formed_member {names : String → Prop} (s : String) (l m n : Option Location) :
    Term.Formed names ⟨.ref [⟨.var memberRoot, l⟩, ⟨.string s, m⟩], n⟩ := by
  have root : Named memberRoot := by decide +kernel
  refine formed_ref rfl (Term.formed_iff.2 ⟨root, List.forall_mem_nil _⟩) fun t ht => ?_
  rw [List.mem_singleton.1 ht]
  exact ⟨trivial, Term.formed_iff.2 ⟨trivial, List.forall_mem_nil _⟩⟩

namespace Course

/-- The operator of a call, which is never one that makes a set. -/
def Operates (k : Course) (op : Term) : Prop := op.Formed k.names ∧ ∃ path, op.value = .ref path

namespace Keeps

variable {k : Course} {g : Grammar} {r u : Reading}

open Reads

/-- An operator that has been read operates. -/
theorem operator (fine : k.Fine u) {kinds : List Token} (named : ∀ kind ∈ kinds, Named kind.name) :
    k.Reads u (Parse.operator kinds) u fun op _ => k.Operates op := by
  unfold Parse.operator
  rw [token_iff]
  split
  · next listed =>
      rw [location_iff]
      refine .bind (.refl fine) (.scan fine) fun _ _ l _ _ => .pure l fun _ => ?_
      exact ⟨formed_name (named _ (List.contains_iff_mem.1 listed)) _ _, _, rfl⟩
  · exact .fail (.refl fine)

/-- So does the operator of a membership. -/
theorem memberOperator (fine : k.Fine u) (n : Nat) :
    k.Reads u (Parse.memberOperator n) u fun op _ => k.Operates op := by
  unfold Parse.memberOperator
  rw [token_iff]
  split
  · rw [location_iff]
    refine .bind (.refl fine) (.scan fine) fun _ _ l _ _ => .pure l fun _ => ?_
    exact ⟨formed_member _ _ _ _, _, rfl⟩
  · exact .fail (.refl fine)

/-- The call of an operator is whole as its operands are. -/
theorem operatorCall (fine : k.Fine u) (op left : Term) (others : List Term) (start : Nat) :
    k.Reads u (Parse.operatorCall op left others start) u fun t _ =>
      k.Operates op → left.Whole k.names → (∀ t ∈ others, t.Whole k.names) → t.Whole k.names := by
  unfold Parse.operatorCall
  rw [lastStop_iff]
  refine placed_self (.pure (.refl fine) fun _ operates first rest => ?_)
  obtain ⟨formed, path, operates⟩ := operates
  refine ⟨trivial, formed_call operates formed (fun t ht => ?_) fun none => by cases none⟩
  rcases List.mem_cons.1 ht with rfl | ht
  · exact first
  · exact rest t ht

/-! ## The tiers below membership -/

/-- An operand is whole, as an operation of the next tier or as a term. -/
theorem operand (h : k.Keeps g) (fine : k.Fine u) (tier : Tier) (start : Nat) :
    k.Reads u (Parse.operand g tier start) u fun t _ => t.Whole k.names := by
  unfold Parse.operand
  split
  · exact (h (.operation _ none start) u fine).weaken fun t _ _ _ given =>
      given fun _ none => by cases none
  · refine (h .term u fine).weaken fun t _ _ _ given => ?_
    obtain ⟨c, stands⟩ := fine.stands
    exact (given trivial c stands).whole

/-- An operation with one more operand is whole as its left operand is. -/
theorem applied (h : k.Keeps g) (fine : k.Fine u) (tier : Tier) (left : Term) (start : Nat) :
    k.Reads u (Parse.applied g tier left start) u fun t _ =>
      left.Whole k.names → t.Whole k.names := by
  refine .bind (.refl fine) (operator fine (named_operator tier)) fun op t₁ l₁ _ operates => ?_
  rw [offset_iff]
  refine .bind l₁ (operand h l₁.fine tier _) fun right t₂ l₂ after whole => ?_
  refine .tail l₂ (operatorCall l₂.fine op left [right] start) fun t t₃ later clean given first => ?_
  have clean₂ := later.clean clean
  exact given (operates (after.clean clean₂)) first
    fun t ht => List.mem_singleton.1 ht ▸ whole clean₂

/-- The left operand of an operation is one that has been read, or is read now. -/
theorem leftOperand {x : Parse Term} {f : Term → Parse Term} {P : Term → Reading → Prop}
    (fine : k.Fine u) (left : Option Term) (h : k.Reads u x u fun t _ => t.Whole k.names)
    (rest : ∀ first t, k.Later u t →
      (t.failures.size ≤ u.failures.size → (∀ t ∈ left, t.Whole k.names) → first.Whole k.names) →
        k.Reads u (f first) t P) :
    k.Reads u (match left with
      | some t => pure t >>= f
      | none => x >>= f) u P := by
  cases left with
  | none => exact .bind (.refl fine) h fun t t₁ l₁ _ whole => rest t t₁ l₁ fun clean _ => whole clean
  | some t => exact rest t u (.refl fine) fun _ whole => whole t rfl

/-- An operation is whole as the operand that it was handed. -/
theorem operation (h : k.Keeps g) (fine : k.Fine u) (tier : Tier) (left : Option Term)
    (start : Nat) :
    k.Reads u (Parse.operation g tier left start) u fun t _ =>
      (∀ t ∈ left, t.Whole k.names) → t.Whole k.names := by
  refine .nested (.refl fine) ?_
  refine leftOperand fine left (operand h fine tier start) fun first t₁ l₁ whole => ?_
  refine .bind l₁ (.attempt (applied h l₁.fine tier first start)) fun c t₂ l₂ after given => ?_
  split
  · next c =>
      have called (clean : t₂.failures.size ≤ u.failures.size)
          (lefts : ∀ t ∈ left, t.Whole k.names) : c.Whole k.names :=
        given clean c rfl (whole (after.clean clean) lefts)
      rw [token_iff]
      split
      · refine .tail l₂ (h (.operation tier (some c) start) t₂ l₂.fine)
          fun t t₃ later clean given lefts => given fun x hx => ?_
        exact Option.some.inj hx ▸ called (later.clean clean) lefts
      · exact .pure l₂ called
  · exact .pure l₂ fun clean lefts => whole (after.clean clean) lefts

/-! ## Membership -/

/-- The operands of a membership are whole. -/
theorem memberOperand (h : k.Keeps g) (fine : k.Fine u) (start : Nat) :
    k.Reads u (Parse.memberOperand g start) u fun t _ => t.Whole k.names :=
  (h (.operation .relation none start) u fine).weaken fun _ _ _ _ given =>
    given fun _ none => by cases none

/-- A keyed membership is whole as its key is. -/
theorem keyedMember (h : k.Keeps g) (fine : k.Fine u) (key : Term) (start : Nat) :
    k.Reads u (Parse.keyedMember g key start) u fun t _ =>
      key.Whole k.names → t.Whole k.names := by
  refine .bind (.refl fine) (.scan fine) fun _ t₁ l₁ _ _ => ?_
  refine .bind l₁ (memberOperand h l₁.fine start) fun value t₂ l₂ _ valued => ?_
  refine .bind l₂ (memberOperator l₂.fine 3) fun op t₃ l₃ second operates => ?_
  rw [offset_iff]
  refine .bind l₃ (memberOperand h l₃.fine _) fun domain t₄ l₄ third ranges => ?_
  refine .tail l₄ (operatorCall l₄.fine op key [value, domain] start)
    fun t t₅ later clean given first => ?_
  have clean₄ := later.clean clean
  have clean₃ := third.clean clean₄
  refine given (operates clean₃) first fun x hx => ?_
  rcases List.mem_cons.1 hx with rfl | hx
  · exact valued (second.clean clean₃)
  · exact List.mem_singleton.1 hx ▸ ranges clean₄

/-- A membership is whole as its value is. -/
theorem member (h : k.Keeps g) (fine : k.Fine u) (value : Term) (start : Nat) :
    k.Reads u (Parse.member g value start) u fun t _ =>
      value.Whole k.names → t.Whole k.names := by
  refine .bind (.refl fine) (memberOperator fine 2) fun op t₁ l₁ _ operates => ?_
  rw [offset_iff]
  refine .bind l₁ (memberOperand h l₁.fine _) fun domain t₂ l₂ after ranges => ?_
  refine .tail l₂ (operatorCall l₂.fine op value [domain] start)
    fun t t₃ later clean given first => ?_
  have clean₂ := later.clean clean
  exact given (operates (after.clean clean₂)) first
    fun t ht => List.mem_singleton.1 ht ▸ ranges clean₂

/-- A keyed membership, if there is one, is whole as its key is. -/
theorem keyedMember? (h : k.Keeps g) (fine : k.Fine u) (keyed : Bool) (key : Term) (start : Nat) :
    k.Reads u (Parse.keyedMember? g keyed key start) u fun c _ =>
      ∀ t ∈ c, key.Whole k.names → t.Whole k.names := by
  unfold Parse.keyedMember?
  rw [token_iff]
  split
  · rw [save_iff]
    refine .bind (.refl fine) (.attempt (keyedMember h fine key start)) fun c t₁ l₁ _ given => ?_
    split
    · exact .pure l₁ fun clean t ht => Option.some.inj ht ▸ given clean _ rfl
    · refine .restore fine l₁ fun t back => .pure (back.later fine) fun _ _ none => by cases none
  · exact .pure (.refl fine) fun _ _ none => by cases none

/-- Memberships one after the other are whole as the first one is. -/
theorem memberChain (h : k.Keeps g) (fine : k.Fine u) (keyed : Bool) (c : Term) (start : Nat) :
    k.Reads u (Parse.memberChain g keyed c start) u fun t _ =>
      c.Whole k.names → t.Whole k.names := by
  unfold Parse.memberChain
  rw [token_iff]
  split
  · exact (h (.membership keyed (some c) start) u fine).weaken fun _ _ _ _ given whole =>
      given fun t ht => Option.some.inj ht ▸ whole
  · exact .pure (.refl fine) fun _ whole => whole

/-- A membership is whole as the operand that it was handed. -/
theorem membership (h : k.Keeps g) (fine : k.Fine u) (keyed : Bool) (left : Option Term)
    (start : Nat) :
    k.Reads u (Parse.membership g keyed left start) u fun t _ =>
      (∀ t ∈ left, t.Whole k.names) → t.Whole k.names := by
  refine .nested (.refl fine) ?_
  refine leftOperand fine left (memberOperand h fine start) fun first t₁ l₁ whole => ?_
  refine .bind l₁ (keyedMember? h l₁.fine keyed first start) fun c t₂ l₂ after given => ?_
  -- with a key, or without one, or with no membership at all
  split
  · next c =>
      exact .tail l₂ (memberChain h l₂.fine keyed c start) fun _ _ later clean chained lefts =>
        have clean₂ := later.clean clean
        chained (given clean₂ c rfl (whole (after.clean clean₂) lefts))
  · refine .bind l₂ (.startsRefWithKeyword l₂.fine) fun _ t₃ l₃ second _ => ?_
    refine .bind l₃ (.attempt (member h l₃.fine first start)) fun c t₄ l₄ third given => ?_
    have still (clean : t₄.failures.size ≤ u.failures.size) :
        t₁.failures.size ≤ u.failures.size := after.clean (second.clean (third.clean clean))
    split
    · next c =>
        exact .tail l₄ (memberChain h l₄.fine keyed c start) fun _ _ later clean chained lefts =>
          have clean₄ := later.clean clean
          chained (given clean₄ c rfl (whole (still clean₄) lefts))
    · exact .pure l₄ fun clean lefts => whole (still clean) lefts

/-- A compound term is whole. -/
theorem compound (h : k.Keeps g) (fine : k.Fine u) (keyed : Bool) :
    k.Reads u (Parse.compound g keyed) u fun t _ => t.Whole k.names := by
  refine .nested (.refl fine) ?_
  rw [offset_iff]
  exact (h (.membership keyed none _) u fine).weaken fun _ _ _ _ given =>
    given fun _ none => by cases none

end Keeps

end Course

end RegoSyntax
