/-
# RegoSyntax.Proofs.Printing.Operands — printed terms where operators may follow.

Operators are printed as calls, so a printed term has none behind it: each tier reads its operand and
finds no operator, and so does membership.  Where a membership is printed with its word, in declarations
and in quantified queries, its operands are read that way, and the word between them is found.
-/
import RegoSyntax.Proofs.Printing.Atoms

namespace RegoSyntax

open Parse Lexeme
open Page (Given)

/-- The tokens that may follow an operand. -/
def operandTokens : List Token := .inKw :: Rests.tokens

/-- How many tiers are below a tier, with itself. -/
def Tier.height : Tier → Nat
  | .product => 1
  | .sum => 2
  | .intersection => 3
  | .union => 4
  | .relation => 5

/-- What may stand behind a printed term is an operator of no tier. -/
theorem Tier.operators_absent (tier : Tier) :
    ∀ kind ∈ operandTokens, tier.operators.contains kind = false := by
  cases tier <;> decide

namespace Page

variable {p : Page} {g : Grammar} {n : Nat} {r s : List Char} {u : Reading} {t : Term}

/-- A token of a list of words that are never variables is what the text shows. -/
theorem Sees.token_mem {kinds : List Token} (h : p.Sees s u) (listed : shown s ∈ kinds)
    (other : Token.containsKw ∉ kinds) : u.look.token ∈ kinds := by
  rw [h.token_eq rfl fun word => other (word ▸ listed)]
  exact listed

/-- A term starts with one of its tokens. -/
theorem Sees.token_opening (h : p.Sees s u) (listed : shown s ∈ openingTokens) :
    u.look.token ∈ openingTokens := by
  rcases h.token with same | ⟨-, ident⟩
  · exact same ▸ listed
  · rw [ident]
    decide

/-- Behind a term with operators there is no word of a membership. -/
theorem Sees.not_in (h : p.Sees s u) (token : shown s ∈ Rests.tokens) : u.look.token ≠ .inKw := by
  intro same
  have listed := h.token_mem token (by decide)
  rw [same] at listed
  exact absurd listed (by decide)

/-! ## Tiers

There are five tiers and an operand is read through all of them; none of them finds an operator. -/

/-- No operator of a tier follows. -/
theorem runs_applied {tier : Tier} {left : Term} {start : Nat}
    (absent : tier.operators.contains u.look.token = false) :
    p.Runs (applied g tier left start) u fun a v => a = none ∧ v = u := by
  unfold applied
  refine runs_bind (P := fun a v => a = none ∧ v = u) ?_ (fun _ h => ⟨rfl, h.2⟩) (fun _ _ h => nomatch h.1)
  unfold operator
  rw [token_iff, absent]
  exact runs_fail ⟨rfl, rfl⟩

/-- An operand with no operator behind it is all there is. -/
theorem runs_operation {tier : Tier} {start : Nat} {P : Term → Prop}
    (token : shown (past r) ∈ operandTokens)
    (h : p.Runs (operand g tier start) u (Given fun t v => P t ∧ p.Here (past r) v)) :
    p.Runs (operation g tier none start) u (Given fun t v => P t ∧ p.Here (past r) v) := by
  unfold operation
  refine runs_nested ?_
  refine gives_bind h fun t v ⟨holds, here⟩ => ?_
  refine gives_bind (P := fun a w => a = none ∧ w = v) ?_ ?_
  · have absent := tier.operators_absent _ (here.token_mem token (by decide))
    refine runs_attempt ((runs_applied absent).imp ?_)
    rintro _ w ⟨rfl, same⟩
    exact ⟨none, rfl, rfl, same⟩
  · rintro _ w ⟨rfl, rfl⟩
    exact gives_pure ⟨holds, here⟩

/-- A term is read as an operation of any tier. -/
theorem runs_tier (echoes : t.Echoes p) (closes : Closes r) (token : shown (past r) ∈ operandTokens)
    (here : p.Here (t.text ++ r) u) (start : Nat) (tier : Tier) (n : Nat)
    (deep : Deep n (t.text ++ r) (tier.height + 1)) :
    p.Runs (grammar n (.operation tier none start)) u
      (Given fun t' v => t.same t' = true ∧ p.Here (past r) v) := by
  -- each tier enters the next tighter one, and the tightest one a primary term
  have step (tier : Tier) (n : Nat) (deep : Deep n (t.text ++ r) (tier.height + 1))
      (below : ∀ m, Deep m (t.text ++ r) tier.height → p.Runs (operand (grammar m) tier start) u
        (Given fun t' v => t.same t' = true ∧ p.Here (past r) v)) :
      p.Runs (grammar n (.operation tier none start)) u
        (Given fun t' v => t.same t' = true ∧ p.Here (past r) v) := by
    obtain ⟨m, rfl, within⟩ := deep.enter
    exact runs_operation token (below m within)
  have product (n : Nat) (deep : Deep n (t.text ++ r) 2) :=
    step .product n deep fun m within => echoes m r u closes here within
  have sum (n : Nat) (deep : Deep n (t.text ++ r) 3) := step .sum n deep fun m within => product m within
  have intersection (n : Nat) (deep : Deep n (t.text ++ r) 4) :=
    step .intersection n deep fun m within => sum m within
  have union (n : Nat) (deep : Deep n (t.text ++ r) 5) :=
    step .union n deep fun m within => intersection m within
  cases tier with
  | product => exact product n deep
  | sum => exact sum n deep
  | intersection => exact intersection n deep
  | union => exact union n deep
  | relation => exact step .relation n deep fun m within => union m within

/-- A term is read as an operand of membership. -/
theorem runs_memberOperand (echoes : t.Echoes p) (closes : Closes r)
    (token : shown (past r) ∈ operandTokens) (here : p.Here (t.text ++ r) u) (start : Nat)
    (deep : Deep n (t.text ++ r) 6) :
    p.Runs (memberOperand (grammar n) start) u
      (Given fun t' v => t.same t' = true ∧ p.Here (past r) v) :=
  runs_tier echoes closes token here start .relation n deep

/-! ## Membership

Membership is tried with a key and without one.  The key is given up again where the word does not follow,
and a comma may stand there for another reason. -/

/-- No membership follows. -/
theorem runs_memberOperator (m : Nat) (other : u.look.token ≠ .inKw) :
    p.Runs (memberOperator m) u fun a v => a = none ∧ v = u := by
  unfold memberOperator
  rw [token_iff, beq_eq_false_iff_ne.2 other]
  exact runs_fail ⟨rfl, rfl⟩

/-- No membership of a key follows. -/
theorem runs_unkeyed {keyed : Bool} {key : Term} {start : Nat}
    (other : keyed = true → u.look.token ≠ .comma) :
    p.Runs (keyedMember? g keyed key start) u (Given fun a v => a = none ∧ v = u) := by
  have absent : (keyed && u.look.token == .comma) = false := by
    cases keyed
    · rfl
    · simpa using other rfl
  unfold keyedMember?
  rw [token_iff, absent]
  exact gives_pure ⟨rfl, rfl⟩

/-- A membership of a key follows. -/
theorem runs_keyed {key : Term} {start : Nat} {Q : Term → Reading → Prop}
    (comma : u.look.token = .comma) (read : p.Runs (keyedMember g key start) u (Given Q)) :
    p.Runs (keyedMember? g true key start) u (Given fun c v => ∃ t, c = some t ∧ Q t v) := by
  have present : (true && u.look.token == .comma) = true := by
    rw [comma]
    rfl
  unfold keyedMember?
  rw [token_iff, present, if_pos rfl, save_iff]
  refine gives_bind (runs_attempt (read.imp fun _ _ h => ⟨_, rfl, h⟩)) ?_
  rintro _ w ⟨c, rfl, h⟩
  exact gives_pure ⟨c, rfl, h⟩

/-- What a membership consists of where its left operand is all there is. -/
theorem runs_membership_single {keyed : Bool} {start : Nat} {P : Term → Prop} {R S : Reading → Prop}
    (left : p.Runs (memberOperand g start) u (Given fun t v => P t ∧ R v))
    (unkeyed : ∀ t v, R v → p.Runs (keyedMember? g keyed t start) v (Given fun a w => a = none ∧ S w))
    (sees : ∀ v, S v → p.Sees s v) (token : shown s ∈ Rests.tokens)
    (alone : (shown s).isKeyword ∨ (shown s).isFutureKeyword → ∃ s', behind s = ' ' :: s') :
    p.Runs (membership g keyed none start) u (Given fun t v => P t ∧ S v) := by
  unfold membership
  refine runs_nested ?_
  refine gives_bind left fun t v ⟨holds, there⟩ => ?_
  refine gives_bind (unkeyed t v there) ?_
  rintro _ w ⟨rfl, kept⟩
  -- -- no keyed form was found; what stands here is no membership operator either
  have seen := sees w kept
  refine gives_bind (seen.startsRefWithKeyword fun word => ?_) ?_
  · obtain ⟨s', blank⟩ := alone word
    rw [blank]
    exact ⟨⟨rfl, nofun⟩, rfl⟩
  rintro _ w ⟨rfl, rfl⟩
  have other := seen.not_in token
  refine gives_bind (P := fun a x => a = none ∧ x = w) (runs_attempt ?_) ?_
  · unfold member
    exact runs_bind (runs_memberOperator 2 other) (fun _ h => ⟨none, rfl, rfl, h.2⟩)
      fun _ _ h => nomatch h.1
  · rintro _ w ⟨rfl, rfl⟩
    exact gives_pure ⟨holds, kept⟩

/-- A term with nothing behind it is read as a term with operators. -/
theorem runs_compound {keyed : Bool} (echoes : t.Echoes p) (rests : Rests r)
    (comma : keyed = true → shown (past r) ≠ .comma) (here : p.Here (t.text ++ r) u)
    (deep : Deep n (t.text ++ r) 8) :
    p.Runs (grammar n (.compound keyed)) u
      (Given fun t' v => t.same t' = true ∧ p.Here (past r) v) := by
  obtain ⟨m, rfl, within⟩ := deep.enter
  refine runs_nested ?_
  rw [offset_iff]
  obtain ⟨l, rfl, below⟩ := within.enter
  have token := rests.token
  have operand : shown (past r) ∈ operandTokens := List.mem_cons_of_mem _ token
  refine runs_membership_single (S := fun v => p.Here (past r) v)
    (runs_memberOperand echoes rests.closes operand here _ below) (fun t' v there => ?_)
    (fun _ there => there.toSees) token rests.alone
  refine (runs_unkeyed fun key => ?_).imp_given ?_
  · exact fun same => comma key ((there.token_eq rfl fun word =>
      absurd (word ▸ token) (by decide)).symm.trans same)
  · rintro _ _ ⟨rfl, rfl⟩
    exact ⟨rfl, there⟩

/-! ## Memberships with their word

Where the word follows, the operand before it is the value of a membership, and the operand behind it the
domain. -/

/-- The word of a membership, and what stands behind it. -/
def inText (s : List Char) : List Char := 'i' :: 'n' :: ' ' :: s

/-- What follows the word of a membership. -/
theorem inText_append (s r : List Char) : inText s ++ r = inText (s ++ r) := rfl

/-- The word of a membership is seen, with a blank behind it. -/
theorem shown_inText (s : List Char) : shown (inText s) = .inKw ∧ behind (inText s) = ' ' :: s ∧
    Legal (inText s) :=
  shown_keyword (w := "in") (by decide +kernel) (by decide +kernel) s

/-- The word of a membership closes the term before it. -/
theorem closes_inText (s : List Char) : Closes (' ' :: inText s) := .blank (shown_inText s).2.2

/-- The word of a membership is found. -/
theorem runs_memberOperator_in (m : Nat) (here : p.Here (inText s) u) (legal : Legal s) :
    p.Runs (memberOperator m) u (Given fun op v => op.IsMember m ∧ p.Here s v) := by
  obtain ⟨token, left, -⟩ := shown_inText s
  have last : p.Last (' ' :: s) u := here.before left
  unfold memberOperator
  rw [token_iff, here.token_eq token nofun, beq_self_eq_true, if_pos rfl, location_iff]
  exact gives_bind (last.scan legal) fun _ v there => gives_pure ⟨⟨_, _, rfl⟩, there⟩

/-- Nothing is a member of a membership that has been read. -/
theorem runs_memberChain {keyed : Bool} {c : Term} {start : Nat} {Q : Term → Reading → Prop}
    (rests : Rests r) (here : p.Here (past r) u) (holds : Q c u) :
    p.Runs (memberChain g keyed c start) u (Given Q) := by
  have other := here.not_in rests.token
  unfold memberChain
  rw [token_iff, beq_eq_false_iff_ne.2 other]
  exact gives_pure holds

/-- An operator is called with its operands. -/
theorem runs_operatorCall {op left : Term} {others : List Term} {start : Nat}
    {Q : Term → Reading → Prop} (holds : ∀ l, Q ⟨.call (op :: left :: others), l⟩ u) :
    p.Runs (operatorCall op left others start) u (Given Q) := by
  unfold operatorCall
  rw [lastStop_iff]
  exact gives_placed holds

section memberships

variable {a k d : Term} {start : Nat}

/-- A membership of a value that has been read. -/
theorem runs_member (domain : d.Back p) (rests : Rests r) (here : p.Here (inText (d.text ++ r)) u)
    (deep : Deep n (d.text ++ r) 6) :
    p.Runs (member (grammar n) a start) u (Given fun t v =>
      (∃ op d', t.value = .call [op, a, d'] ∧ op.IsMember 2 ∧ d.same d' = true) ∧
        p.Here (past r) v) := by
  unfold member
  refine gives_bind (runs_memberOperator_in 2 here (domain.plain.first rests.closes).1) ?_
  rintro op v ⟨isMember, there⟩
  rw [offset_iff]
  refine gives_bind (runs_memberOperand domain.echoes rests.closes
    (List.mem_cons_of_mem _ rests.token) there _ deep) fun d' w ⟨same, there⟩ => ?_
  exact runs_operatorCall fun l => ⟨⟨op, d', rfl, isMember, same⟩, there⟩

/-- A membership of a value. -/
theorem runs_compound_in (value : a.Back p) (domain : d.Back p) (rests : Rests r)
    (here : p.Here (a.text ++ ' ' :: inText (d.text ++ r)) u)
    (deep : Deep n (a.text ++ ' ' :: inText (d.text ++ r)) 8) :
    p.Runs (grammar n (.compound true)) u (Given fun t v =>
      (∃ op a' d', t.value = .call [op, a', d'] ∧ op.IsMember 2 ∧ a.same a' = true ∧ d.same d' = true) ∧
        p.Here (past r) v) := by
  have closes := closes_inText (d.text ++ r)
  obtain ⟨token, left, -⟩ := shown_inText (d.text ++ r)
  -- -- two levels of the grammar are entered: the term, and the membership inside it
  obtain ⟨m, rfl, within⟩ := deep.enter
  refine runs_nested ?_
  rw [offset_iff]
  obtain ⟨l, rfl, below⟩ := within.enter
  refine runs_nested ?_
  refine gives_bind (runs_memberOperand value.echoes closes (token ▸ .head _) here _ below) ?_
  rintro a' v ⟨same, there⟩
  have there : p.Here (inText (d.text ++ r)) v := there
  refine gives_bind (runs_unkeyed fun _ => by rw [there.token_eq token nofun]; nofun) ?_
  rintro _ w ⟨rfl, rfl⟩
  refine gives_bind (there.toSees.startsRefWithKeyword fun _ => ?_) ?_
  · rw [left]
    exact ⟨⟨rfl, nofun⟩, rfl⟩
  rintro _ w ⟨rfl, rfl⟩
  have shorter : (d.text ++ r).length < (a.text ++ ' ' :: inText (d.text ++ r)).length := by
    simp only [inText, List.length_append, List.length_cons]
    omega
  refine gives_bind (runs_attempt ((runs_member domain rests there
    (below.shorter shorter (by decide))).imp fun _ _ h => ⟨_, rfl, h⟩)) ?_
  rintro _ x ⟨c, rfl, ⟨op, d', call, isMember, domain⟩, ended⟩
  exact runs_memberChain rests ended ⟨⟨op, a', d', call, isMember, same, domain⟩, ended⟩

/-- A membership of a key and a value. -/
theorem runs_compound_keyed (key : k.Back p) (value : a.Back p) (domain : d.Back p) (rests : Rests r)
    (here : p.Here (k.text ++ ',' :: ' ' :: (a.text ++ ' ' :: inText (d.text ++ r))) u)
    (deep : Deep n (k.text ++ ',' :: ' ' :: (a.text ++ ' ' :: inText (d.text ++ r))) 8) :
    p.Runs (grammar n (.compound true)) u (Given fun t v =>
      (∃ op k' a' d', t.value = .call [op, k', a', d'] ∧ op.IsMember 3 ∧ k.same k' = true ∧
        a.same a' = true ∧ d.same d' = true) ∧ p.Here (past r) v) := by
  have closes := closes_inText (d.text ++ r)
  obtain ⟨token, left, -⟩ := shown_inText (d.text ++ r)
  obtain ⟨m, rfl, within⟩ := deep.enter
  refine runs_nested ?_
  rw [offset_iff]
  obtain ⟨l, rfl, below⟩ := within.enter
  refine runs_nested ?_
  refine gives_bind (runs_memberOperand key.echoes (.mark (c := ',') (.head _))
    (List.contains_iff_mem.1 rfl) here _ below) ?_
  rintro k' v ⟨sameKey, there⟩
  have comma : p.Here (',' :: ' ' :: (a.text ++ ' ' :: inText (d.text ++ r))) v := there
  -- the key is read; from the comma on a value, the word `in` and a domain remain
  have read : p.Runs (keyedMember (grammar l) k' u.look.offset) v (Given fun t v =>
      (∃ op a' d', t.value = .call [op, k', a', d'] ∧ op.IsMember 3 ∧ a.same a' = true ∧
        d.same d' = true) ∧ p.Here (past r) v) := by
    unfold keyedMember
    -- the comma is passed, and the value is shorter than the whole, so the depth is enough
    refine gives_bind ((comma.before rfl).scan (value.plain.first closes).1) fun _ w there => ?_
    have shorter : (a.text ++ ' ' :: inText (d.text ++ r)).length <
        (k.text ++ ',' :: ' ' :: (a.text ++ ' ' :: inText (d.text ++ r))).length := by
      simp only [List.length_append, List.length_cons]
      omega
    have enough := below.shorter shorter (show 6 ≤ _ by decide)
    refine gives_bind (runs_memberOperand value.echoes closes (token ▸ .head _) there _ enough) ?_
    rintro a' x ⟨same, there⟩
    refine gives_bind (runs_memberOperator_in 3 there (domain.plain.first rests.closes).1) ?_
    rintro op y ⟨isMember, there⟩
    rw [offset_iff]
    have shorter : (d.text ++ r).length < (a.text ++ ' ' :: inText (d.text ++ r)).length := by
      simp only [inText, List.length_append, List.length_cons]
      omega
    refine gives_bind (runs_memberOperand domain.echoes rests.closes
      (List.mem_cons_of_mem _ rests.token) there _ (enough.shorter shorter (by decide))) ?_
    rintro d' z ⟨sameDomain, there⟩
    exact runs_operatorCall fun l => ⟨⟨op, a', d', rfl, isMember, same, sameDomain⟩, there⟩
  -- what is read behind the comma is put together with the key
  refine gives_bind (runs_keyed (comma.token_eq rfl nofun) read) ?_
  rintro _ w ⟨c, rfl, ⟨op, a', d', call, isMember, same, sameDomain⟩, ended⟩
  exact runs_memberChain rests ended
    ⟨⟨op, k', a', d', call, isMember, sameKey, same, sameDomain⟩, ended⟩

/-- Of terms that are listed only the first is read.  The second one is read for a membership and given
up again, so it is remembered. -/
theorem runs_compound_listed (first : k.Back p) (second : a.Back p) (rests : Rests r)
    (here : p.Here (k.text ++ ',' :: ' ' :: (a.text ++ r)) u)
    (deep : Deep n (k.text ++ ',' :: ' ' :: (a.text ++ r)) 8) :
    p.Runs (grammar n (.compound true)) u (Given fun t v =>
      k.same t = true ∧ p.Sees (',' :: ' ' :: (a.text ++ r)) v ∧ p.Clear (past r) v.memo) := by
  -- -- what looks like a key and a value is read, found to have no `in` behind it, and given back
  obtain ⟨m, rfl, within⟩ := deep.enter
  refine runs_nested ?_
  rw [offset_iff]
  obtain ⟨l, rfl, below⟩ := within.enter
  refine runs_membership_single
    (S := fun v => p.Sees (',' :: ' ' :: (a.text ++ r)) v ∧ p.Clear (past r) v.memo)
    (runs_memberOperand first.echoes (.mark (c := ',') (.head _)) (List.contains_iff_mem.1 rfl)
      here _ below) (fun key v there => ?_) (fun v h => h.1) (List.contains_iff_mem.1 rfl)
    (by rintro (word | word) <;> cases word)
  have comma : p.Here (',' :: ' ' :: (a.text ++ r)) v := there
  have shorter : (a.text ++ r).length < (k.text ++ ',' :: ' ' :: (a.text ++ r)).length := by
    simp only [List.length_append, List.length_cons]
    omega
  -- -- the attempt reads the second term, then meets no operator
  have fails : p.Runs (keyedMember (grammar l) key u.look.offset) v fun c w =>
      c = none ∧ p.Clear (past r) w.memo := by
    unfold keyedMember
    refine gives_bind ((comma.before rfl).scan (second.plain.first rests.closes).1) fun _ w there => ?_
    refine gives_bind (runs_memberOperand second.echoes rests.closes
      (List.mem_cons_of_mem _ rests.token) there _ (below.shorter shorter (by decide))) ?_
    rintro _ x ⟨-, ended⟩
    have other := ended.not_in rests.token
    refine runs_bind (runs_memberOperator 3 other) ?_ fun _ _ h => nomatch h.1
    rintro _ ⟨-, rfl⟩
    exact ⟨rfl, ended.memo⟩
  have present : (true && v.look.token == .comma) = true := by
    rw [comma.token_eq rfl nofun]
    rfl
  unfold keyedMember?
  rw [token_iff, present, if_pos rfl, save_iff]
  refine gives_bind (P := fun c w => c = none ∧ p.Clear (past r) w.memo)
    (runs_attempt (fails.imp fun _ _ h => ⟨_, rfl, h⟩)) ?_
  rintro _ w ⟨rfl, clear⟩
  rw [restore_iff]
  exact gives_pure ⟨rfl, comma.restore w, clear⟩

end memberships

end Page

end RegoSyntax
