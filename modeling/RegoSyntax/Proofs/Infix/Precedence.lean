/-
# RegoSyntax.Proofs.Infix.Precedence — formulas are read back.

The text of a formula is a source of the formula: parentheses that tell nothing are not needed, operators
of one tier associate to the left, and tighter ones bind first.

A tier reads an operand and then goes on as long as its operators follow, with what has been read so far as
the left operand.  So what is said of a formula at its own tier is said with what comes behind it left open:
`Formula.Climbs` reduces reading it to going on behind it, and so a chain of operators is read by induction
on the left operand.  At a looser tier, and in parentheses, a formula is an operand, and is read as a whole.
-/
import RegoSyntax.Proofs.Infix.Formulas

namespace RegoSyntax

open Parse Lexeme
open Page (Given)

/-! ## Going on behind an operand

Every tier reads an operand and then goes on: it looks for an operator, and where it finds none it ends
there.  What stands behind a formula in parentheses, or in a source, is no operator that is tighter than
the formula allows (`Bounds`). -/

namespace Parse

/-- What a tier does behind a left operand. -/
def goOn (g : Grammar) (tier : Tier) (left : Term) (start : Nat) : Parse Term := do
  match ← attempt (applied g tier left start) with
  | some c =>
    if tier.operators.contains (← token) then g (.operation tier (some c) start) else return c
  | none => return left

theorem operation_none (g : Grammar) (tier : Tier) (start : Nat) :
    operation g tier none start = nested (operand g tier start >>= fun left => goOn g tier left start) :=
  rfl

theorem operation_some (g : Grammar) (tier : Tier) (left : Term) (start : Nat) :
    operation g tier (some left) start = nested (goOn g tier left start) := rfl

/-- What membership does behind a left operand. -/
def memberGoOn (g : Grammar) (left : Term) (start : Nat) : Parse Term := do
  match ← keyedMember? g true left start with
  | some c => memberChain g true c start
  | none =>
    let _ ← startsRefWithKeyword
    match ← attempt (member g left start) with
    | some c => memberChain g true c start
    | none => return left

theorem membership_none (g : Grammar) (start : Nat) :
    membership g true none start = nested (memberOperand g start >>= fun left => memberGoOn g left start) :=
  rfl

theorem membership_some (g : Grammar) (left : Term) (start : Nat) :
    membership g true (some left) start = nested (memberGoOn g left start) := rfl

end Parse

/-- What stands behind a formula where nothing looser than a height may: an operator that is not tighter,
with a legal token behind it, a parenthesis, or the end. -/
inductive Bounds (h : Nat) : List Char → Prop where
  | operator {op : Infix} {s : List Char} : h ≤ op.height → Legal s → Bounds h (' ' :: (op.word.toList ++ ' ' :: s))
  | paren {s : List Char} : Bounds h (')' :: s)
  | atEnd : Bounds h []

namespace Bounds

variable {h k : Nat} {r : List Char}

/-- Behind an operand of a membership stands its word. -/
theorem ofMember (legal : Legal r) : Bounds 6 (' ' :: Page.inText r) :=
  @operator 6 .member r (Nat.le_refl 6) legal

/-- What may stand behind a looser formula may stand behind a tighter one. -/
theorem mono (bounds : Bounds h r) (le : k ≤ h) : Bounds k r := by
  cases bounds with
  | operator height legal => exact .operator (le.trans height) legal
  | paren => exact .paren
  | atEnd => exact .atEnd

/-- What bounds a formula closes every term in it. -/
theorem closes (bounds : Bounds h r) : Closes r := by
  cases bounds with
  | operator => exact .blank (Infix.shown_word _ _).2.2
  | paren => exact .mark (by decide)
  | atEnd => exact .atEnd

/-- The token behind a formula. -/
theorem token (bounds : Bounds h r) :
    (∃ op : Infix, h ≤ op.height ∧ shown (past r) = op.token ∧ ∃ s, behind (past r) = ' ' :: s) ∨
      shown (past r) ∈ [Token.rparen, .eof] := by
  cases bounds with
  | @operator op s height => exact .inl ⟨op, height, (op.shown_word s).1, s, (op.shown_word s).2.1⟩
  | paren => exact .inr (List.contains_iff_mem.1 rfl)
  | atEnd => exact .inr (List.contains_iff_mem.1 rfl)

/-- No operator of a tighter tier follows. -/
theorem absent (bounds : Bounds h r) {tier : Tier} (lt : tier.height < h) :
    tier.operators.contains (shown (past r)) = false := by
  rcases bounds.token with ⟨op, height, same, -⟩ | ended
  · rw [same, op.operators_contains, decide_eq_false_iff_not]
    intro listed
    rw [Infix.height_eq listed] at height
    omega
  · have none : ∀ kind ∈ [Token.rparen, .eof], tier.operators.contains kind = false := by
      cases tier <;> decide
    exact none _ ended

theorem other (bounds : Bounds h r) {kind : Token} (apart : ∀ op : Infix, op.token ≠ kind)
    (open' : kind ∉ [Token.rparen, .eof]) : shown (past r) ≠ kind := by
  intro same
  rcases bounds.token with ⟨op, -, token, -⟩ | ended
  · exact apart op (token.symm.trans same)
  · exact open' (same ▸ ended)

end Bounds

namespace Page

variable {p : Page} {u v : Reading} {r : List Char} {h : Nat}

/-- The token behind a formula is what the text shows. -/
theorem Here.token_bounds (here : p.Here (past r) u) (bounds : Bounds h r) :
    u.look.token = shown (past r) :=
  here.token_eq rfl (bounds.other (fun op => by cases op <;> decide) (by decide))

/-- A parser that comes to a known result comes to it whatever else is said of it. -/
theorem Runs.known {α : Type} {x : Parse α} {Q : Option α → Reading → Prop} {b : Option α}
    (said : p.Runs x u Q) (known : p.Runs x u fun a w => a = b ∧ w = v) : Q b v := by
  have result := known ⟨0, fun _ => true⟩ 0 [] rfl
  have holds := said ⟨0, fun _ => true⟩ 0 [] rfl
  rwa [result.1, result.2] at holds

/-- Where no operator of a tier follows, there is nothing to go on with. -/
theorem runs_goOn_absent {g : Grammar} {tier : Tier} {left : Term} {start : Nat}
    (absent : tier.operators.contains u.look.token = false) :
    p.Runs (goOn g tier left start) u fun a w => a = some left ∧ w = u := by
  unfold goOn
  refine gives_bind (P := fun a w => a = none ∧ w = u) ?_ ?_
  · refine runs_attempt ((runs_applied absent).imp ?_)
    rintro _ w ⟨rfl, same⟩
    exact ⟨none, rfl, rfl, same⟩
  · rintro _ w ⟨rfl, rfl⟩
    exact runs_pure ⟨rfl, rfl⟩

/-- An operator of a tier is found. -/
theorem runs_operator {op : Infix} {tier : Tier} {s : List Char} (tiered : op.tier? = some tier)
    (here : p.Here (op.word.toList ++ ' ' :: s) u) (legal : Legal s) :
    p.Runs (operator tier.operators) u
      (Given fun t v => op.callee.same t = true ∧ p.Here s v) := by
  obtain ⟨token, left, -⟩ := op.shown_word s
  have last : p.Last (' ' :: s) u :=
    left ▸ here.last (List.append_ne_nil_of_left_ne_nil op.word_ne_nil _)
  have current : u.look.token = op.token := here.token_eq token (by cases op <;> decide)
  unfold operator
  rw [token_iff, current, op.operators_contains, tiered]
  simp only [decide_true, if_true]
  rw [location_iff]
  exact gives_bind (last.scan legal) fun _ v there => gives_pure ⟨op.same_callee tiered _ _, there⟩

end Page

namespace Formula

variable {p : Page} {f left right : Formula} {op : Infix} {tier : Tier} {k : Nat}

/-! ## Reading formulas

A formula is read in two ways.  A tier of its own height reads it as operands and operators (`Climbs`),
and a tighter tier reads it as a single operand, in parentheses if it has to (`ReadsAt`).  The two are
shown from one another, up and down the tiers. -/

variable (p f)

/-- A production reads a formula where nothing looser than a height may stand. -/
def Reads (production : Production Term) (h : Nat) : Prop :=
  ∀ n r u, Bounds (h + 1) r → p.Here (f.within h ++ r) u → Deep n (f.within h ++ r) (h + 1) →
    p.Runs (grammar n production) u (Given fun t v => f.term.same t = true ∧ p.Here (past r) v)

/-- To read a formula at a tier is to go on behind it. -/
def Climbs (tier : Tier) : Prop :=
  ∀ n r u start Q, Bounds tier.height r → p.Here (f.within tier.height ++ r) u →
    Deep n (f.within tier.height ++ r) (tier.height + 1) →
    (∀ m t v, f.term.same t = true → p.Here (past r) v → Deep m (past r) 0 →
      p.Runs (goOn (grammar m) tier t start) v Q) →
    p.Runs (grammar n (.operation tier none start)) u Q

/-- To read a formula as a membership is to go on behind it. -/
def ClimbsIn : Prop :=
  ∀ n r u start Q, Bounds 6 r → p.Here (f.text ++ r) u → Deep n (f.text ++ r) 7 →
    (∀ m t v, f.term.same t = true → p.Here (past r) v → Deep m (past r) 0 →
      p.Runs (memberGoOn (grammar m) t start) v Q) →
    p.Runs (grammar n (.membership true none start)) u Q

/-- A formula is read wherever nothing looser than a height may stand, up to that of the loosest tier. -/
def ReadsAt (h : Nat) : Prop :=
  (h = 0 → f.Reads p .term 0) ∧
    ∀ tier : Tier, tier.height = h → ∀ start, f.Reads p (.operation tier none start) h

variable {p f}

/-- A formula at a tier is read where no operator of the tier follows. -/
theorem Climbs.reads (climbs : f.Climbs p tier) : f.ReadsAt p tier.height := by
  refine ⟨fun none => absurd none (by cases tier <;> decide), fun tier' same start => ?_⟩
  obtain rfl := Tier.height_injective same
  intro n r u bounds here deep
  refine climbs n r u start _ (bounds.mono (Nat.le_succ _)) here deep fun m t v same there _ => ?_
  have absent := bounds.absent (Nat.lt_succ_self tier'.height)
  rw [← there.token_bounds bounds] at absent
  refine (Page.runs_goOn_absent absent).imp ?_
  rintro _ w ⟨rfl, rfl⟩
  exact ⟨t, rfl, same, there⟩

/-- A formula that is read one height below a tier is an operand of the tier. -/
theorem ReadsAt.runs_operand {h n start : Nat} {r : List Char} {u : Reading} (reads : f.ReadsAt p h)
    (height : tier.height = h + 1) (bounds : Bounds (h + 1) r) (here : p.Here (f.within h ++ r) u)
    (deep : Deep n (f.within h ++ r) (h + 1)) :
    p.Runs (operand (grammar n) tier start) u
      (Given fun t v => f.term.same t = true ∧ p.Here (past r) v) := by
  unfold operand
  split
  · next tighter found =>
      have below := Tier.height_of_tighter found
      exact reads.2 tighter (by omega) start n r u bounds here deep
  · next none =>
      obtain rfl : h = 0 := by
        have tightest := Tier.height_of_tightest none
        omega
      exact reads.1 rfl n r u bounds here deep

/-- The text of a formula pays for what stands behind it. -/
theorem deep_past {n rank h : Nat} {f : Formula} {r : List Char} (deep : Deep n (f.within h ++ r) rank) :
    Deep n (past r) chainLength := by
  refine deep.shorter ?_ (Nat.le_refl _)
  have filled : 0 < (f.within h).length := by
    unfold within
    split
    · exact Nat.succ_pos _
    · exact List.length_pos_of_ne_nil f.text_ne_nil
  have le := length_past r
  rw [List.length_append]
  omega

/-- At a tier that is not its own, a formula is an operand. -/
theorem ReadsAt.climbs {h : Nat} (reads : f.ReadsAt p h) (height : tier.height = h + 1)
    (apart : f.height ≠ h + 1) : f.Climbs p tier := by
  intro n r u start Q bounds here deep rest
  rw [height] at bounds here deep
  rw [within_succ apart] at here deep
  obtain ⟨m, rfl, below⟩ := deep.enter
  show p.Runs (operation (grammar m) tier none start) u Q
  rw [operation_none]
  refine Page.runs_nested (Page.gives_bind (reads.runs_operand height bounds here below) ?_)
  rintro t v ⟨same, there⟩
  exact rest m t v same there ((deep_past below).mono (Nat.zero_le _))

/-- A tier reads an operator and its right operand, and goes on with the call. -/
theorem Climbs.apply (tiered : op.tier? = some tier) {h : Nat} (height : tier.height = h + 1)
    (climbs : left.Climbs p tier) (reads : right.ReadsAt p h) :
    (Formula.apply op left right).Climbs p tier := by
  have own := Infix.height_eq tiered
  intro n r u start Q bounds here deep rest
  rw [within_of_le (show (Formula.apply op left right).height ≤ tier.height from own.le),
    text_apply_append, own] at here deep
  have below : tier.height - 1 = h := by omega
  rw [below] at here deep
  have legal : Legal (right.within h ++ r) := (first_within (right.first bounds.closes)).1
  refine climbs n _ u start Q (.operator own.ge legal) here deep fun m t v same there within => ?_
  have there : p.Here (op.word.toList ++ ' ' :: (right.within h ++ r)) v := there
  have within : Deep m (op.word.toList ++ ' ' :: (right.within h ++ r)) 0 := within
  -- the operator has been paid for, and what is left is enough for the operand
  have paid : Deep m (right.within h ++ r) chainLength := within.shorter (by
    simp only [List.length_append, List.length_cons]
    omega) (Nat.le_refl _)
  -- the call that is made of the operator is the formula, with its operands in place
  have made : p.Runs (applied (grammar m) tier t start) v (Given fun c w =>
      (Formula.apply op left right).term.same c = true ∧ p.Here (past r) w) := by
    unfold applied
    refine Page.gives_bind (Page.runs_operator tiered there legal) ?_
    rintro o w ⟨sameOp, there⟩
    rw [Page.offset_iff]
    have enough : h + 1 ≤ chainLength := by
      have le := tier.height_le
      unfold chainLength
      omega
    refine Page.gives_bind (reads.runs_operand height (height ▸ bounds) there (paid.mono enough)) ?_
    rintro d x ⟨sameRight, there⟩
    refine Page.runs_operatorCall fun l => ⟨?_, there⟩
    rw [term, Term.same_eq]
    simp [Term.ofValue, Value.same, sameTerms, sameOp, same, sameRight]
  have after : Deep m (past r) chainLength := deep_past paid
  obtain ⟨l, rfl, entered⟩ := after.enter
  unfold goOn
  refine Page.gives_bind (Page.runs_attempt (made.imp fun _ _ given => ⟨_, rfl, given⟩)) ?_
  rintro _ w ⟨c, rfl, sameCall, there⟩
  dsimp only
  rw [Page.token_iff]
  -- where another operator follows, the tier goes on with the call; else this was all of it
  split
  · show p.Runs (operation (grammar l) tier (some c) start) w Q
    rw [operation_some]
    exact Page.runs_nested (rest l c w sameCall there (entered.mono (Nat.zero_le _)))
  · next absent =>
      have ended := rest (l + 1) c w sameCall there (after.mono (Nat.zero_le _))
      exact Page.runs_pure (ended.known (Page.runs_goOn_absent (Bool.eq_false_iff.2 absent)))

/-! ## Membership

Membership is the loosest tier, and has a production of its own with a key that is tried for.  Behind a
formula there is no comma, so there never is a key. -/

end Formula

namespace Page

variable {p : Page} {u : Reading} {r : List Char}

theorem text_iff {α : Type} {start stop : Nat} {f : String → Parse α} {Q : Option α → Reading → Prop} :
    p.Runs (Parse.text start stop >>= f) u Q ↔ p.Runs (f (u.look.text start stop)) u Q := Iff.rfl

/-- What stands behind a formula starts no reference. -/
theorem runs_startsRef_bounds {h : Nat} (bounds : Bounds h r) (here : p.Here (past r) u) :
    p.Runs Parse.startsRefWithKeyword u (Given fun b v => b = false ∧ v = u) := by
  refine here.toSees.startsRefWithKeyword fun word => ?_
  rcases bounds.token with ⟨-, -, -, s, blank⟩ | ended
  · rw [blank]
    exact ⟨⟨rfl, nofun⟩, rfl⟩
  · have plain : ∀ kind ∈ [Token.rparen, .eof], ¬ (kind.isKeyword = true ∨ kind.isFutureKeyword = true) := by
      decide
    exact absurd word (plain _ ended)

/-- Behind a formula there is no key of a membership. -/
theorem runs_unkeyed_bounds {g : Grammar} {key : Term} {start h : Nat} (bounds : Bounds h r)
    (here : p.Here (past r) u) :
    p.Runs (keyedMember? g true key start) u (Given fun a v => a = none ∧ v = u) := by
  refine runs_unkeyed fun _ => ?_
  rw [here.token_bounds bounds]
  exact bounds.other (fun op => by cases op <;> decide) (by decide)

/-- Where no membership follows, there is nothing to go on with. -/
theorem runs_memberGoOn_absent {g : Grammar} {left : Term} {start h : Nat} (bounds : Bounds h r)
    (here : p.Here (past r) u) (absent : u.look.token ≠ .inKw) :
    p.Runs (memberGoOn g left start) u fun a w => a = some left ∧ w = u := by
  unfold memberGoOn
  refine gives_bind (runs_unkeyed_bounds bounds here) ?_
  rintro _ _ ⟨rfl, rfl⟩
  refine gives_bind (runs_startsRef_bounds bounds here) ?_
  rintro _ w ⟨-, rfl⟩
  refine gives_bind (P := fun a x => a = none ∧ x = w) (runs_attempt ?_) ?_
  · unfold member
    exact runs_bind (runs_memberOperator 2 absent) (fun _ holds => ⟨none, rfl, rfl, holds.2⟩)
      fun _ _ holds => nomatch holds.1
  · rintro _ _ ⟨rfl, rfl⟩
    exact runs_pure ⟨rfl, rfl⟩

end Page

namespace Formula

variable {p : Page} {f left right : Formula}

/-- A formula that is no membership is an operand of one. -/
theorem ReadsAt.climbsIn (reads : f.ReadsAt p 5) (apart : f.height ≠ 6) : f.ClimbsIn p := by
  have le := f.height_le_six
  have text : f.within 5 = f.text := within_of_le (by omega)
  intro n r u start Q bounds here deep rest
  rw [← text] at here deep
  obtain ⟨m, rfl, below⟩ := deep.enter
  show p.Runs (membership (grammar m) true none start) u Q
  rw [membership_none]
  refine Page.runs_nested (Page.gives_bind (reads.2 .relation rfl start m r u bounds here below) ?_)
  rintro t v ⟨same, there⟩
  exact rest m t v same there ((deep_past below).mono (Nat.zero_le _))

/-- Membership reads its word and its right operand, and goes on with the call. -/
theorem ClimbsIn.apply (climbs : left.ClimbsIn p) (reads : right.ReadsAt p 5) :
    (Formula.apply .member left right).ClimbsIn p := by
  intro n r u start Q bounds here deep rest
  rw [text_apply_append, within_of_le (show left.height ≤ Infix.member.height from left.height_le_six)]
    at here deep
  have legal : Legal (right.within 5 ++ r) := (first_within (right.first bounds.closes)).1
  have behind : Bounds 6 (' ' :: Page.inText (right.within 5 ++ r)) :=
    .ofMember legal
  refine climbs n _ u start Q behind here deep ?_
  intro m t v same there within
  have there : p.Here (Page.inText (right.within 5 ++ r)) v := there
  have within : Deep m (Page.inText (right.within 5 ++ r)) 0 := within
  have paid : Deep m (right.within 5 ++ r) chainLength := within.shorter (by
    simp only [Page.inText, List.length_cons]
    omega) (Nat.le_refl _)
  -- the call that is made of the word is the formula, with its operands in place
  have made : p.Runs (member (grammar m) t start) v (Given fun c w =>
      (Formula.apply .member left right).term.same c = true ∧ p.Here (past r) w) := by
    unfold member
    refine Page.gives_bind (Page.runs_memberOperator_in 2 there legal) ?_
    rintro o w ⟨isMember, there⟩
    rw [Page.offset_iff]
    refine Page.gives_bind (reads.2 .relation rfl _ m r w bounds there (paid.mono (by decide))) ?_
    rintro d x ⟨sameRight, there⟩
    refine Page.runs_operatorCall fun l => ⟨?_, there⟩
    rw [term, Term.same_eq]
    simp [Term.ofValue, Value.same, sameTerms, Infix.same_member_callee isMember, same, sameRight]
  have after : Deep m (past r) chainLength := deep_past paid
  obtain ⟨l, rfl, entered⟩ := after.enter
  unfold memberGoOn
  -- no comma follows, so no key is meant
  refine Page.gives_bind (Page.runs_unkeyed_bounds behind there) ?_
  rintro _ _ ⟨rfl, rfl⟩
  refine Page.gives_bind (Page.runs_startsRef_bounds behind there) ?_
  rintro _ _ ⟨-, rfl⟩
  refine Page.gives_bind (Page.runs_attempt (made.imp fun _ _ given => ⟨_, rfl, given⟩)) ?_
  rintro _ w ⟨c, rfl, sameCall, there⟩
  dsimp only
  unfold memberChain
  rw [Page.token_iff]
  -- where the word follows again, the membership goes on; else this was all of it
  split
  · show p.Runs (membership (grammar l) true (some c) start) w Q
    rw [membership_some]
    exact Page.runs_nested (rest l c w sameCall there (entered.mono (Nat.zero_le _)))
  · next absent =>
      have other : w.look.token ≠ .inKw := fun same => absent (beq_iff_eq.2 same)
      have ended := rest (l + 1) c w sameCall there (after.mono (Nat.zero_le _))
      exact Page.runs_pure (ended.known (Page.runs_memberGoOn_absent bounds there other))

/-- A formula is read as a term with operators. -/
theorem ClimbsIn.compound (climbs : f.ClimbsIn p) {n : Nat} {r : List Char} {u : Reading}
    (bounds : Bounds 7 r) (here : p.Here (f.text ++ r) u) (deep : Deep n (f.text ++ r) 8) :
    p.Runs (grammar n (.compound true)) u
      (Given fun t v => f.term.same t = true ∧ p.Here (past r) v) := by
  obtain ⟨m, rfl, below⟩ := deep.enter
  refine Page.runs_nested ?_
  rw [Page.offset_iff]
  refine climbs m r u _ _ (bounds.mono (by decide)) here below fun l t v same there _ => ?_
  have absent : v.look.token ≠ .inKw := by
    rw [there.token_bounds bounds]
    intro same
    rcases bounds.token with ⟨op, height, -⟩ | ended
    · have le := op.height_le_six
      omega
    · rw [same] at ended
      exact absurd ended (by decide)
  refine (Page.runs_memberGoOn_absent bounds there absent).imp ?_
  rintro _ w ⟨rfl, rfl⟩
  exact ⟨t, rfl, same, there⟩

/-- The term of a formula is no root of a document. -/
theorem isRoot_of_same {t : Term} (same : f.term.same t = true) : isRoot t.value = false := by
  rw [Term.same_eq] at same
  rw [Parse.isRoot_of_same same]
  cases f with
  | name x => exact x.not_root
  | _ => rfl

/-- A formula in parentheses is a primary term. -/
theorem ClimbsIn.inParens (climbs : f.ClimbsIn p) (loose : 0 < f.height) : f.ReadsAt p 0 := by
  refine ⟨fun _ n r u bounds here deep => ?_, fun tier same => absurd same (by cases tier <;> decide)⟩
  have text (s : List Char) : RegoSyntax.inParens f.text ++ s = '(' :: (f.text ++ ')' :: s) := by
    simp [RegoSyntax.inParens]
  rw [within_of_lt loose, text] at here deep
  -- the text behind is shorter than the whole, so the term takes tokens
  have shorter : String.utf8Len (past r) < String.utf8Len ('(' :: (f.text ++ ')' :: r)) := by
    have le := Page.utf8Len_past r
    rw [String.utf8Len_cons, String.utf8Len_append, String.utf8Len_cons]
    have pos := Char.utf8Size_pos '('
    omega
  refine Page.runs_term here shorter deep fun m within => ?_
  have legal : Legal (f.text ++ ')' :: r) := (f.first (.mark (by decide))).1
  have paid : Deep m (f.text ++ ')' :: r) 8 := within.shorter (Nat.lt_succ_self _) (by decide)
  -- between the parentheses the whole formula is read, from the loosest tier on
  have read : p.Runs (parenthesized (grammar m)) u (Given fun t v => f.term.same t = true ∧ p.Last r v) := by
    unfold parenthesized
    rw [Page.offset_iff]
    have last : p.Last (f.text ++ ')' :: r) u := here.before rfl
    refine Page.gives_bind (last.scan ((Page.past_of_legal legal).symm ▸ legal)) fun _ v there => ?_
    rw [Page.past_of_legal legal] at there
    refine Page.gives_bind (climbs.compound .paren there paid) ?_
    rintro t w ⟨same, there⟩
    have there : p.Here (')' :: r) w := there
    rw [Page.token_iff, there.token_eq (show _ = Token.rparen from rfl) nofun, beq_self_eq_true, if_pos rfl,
      Page.look_iff, Page.text_iff]
    refine Page.gives_pure ⟨?_, there.before rfl⟩
    rwa [Term.same_eq] at same ⊢
  have start : p.Runs (head (grammar m)) u (Given fun t v => f.term.same t = true ∧ p.Last r v) := by
    unfold head
    rw [Page.token_iff, here.token_eq rfl nofun]
    exact read
  unfold primary
  refine Page.gives_bind start fun t v holds => ?_
  obtain ⟨same, last⟩ := holds
  refine (Page.runs_finish_closes last bounds.closes t).imp_given fun t' w holds => ?_
  obtain ⟨value, there⟩ := holds
  rw [isRoot_of_same same, if_neg Bool.false_ne_true] at value
  rw [Term.same_eq] at same ⊢
  exact ⟨value ▸ same, there⟩

/-! ## All formulas

The induction is on the formula.  At an operator it climbs through the left operand and reads the right
one from the tier below; at an operand it is the primary term that was assumed to be read. -/

/-- A single operand is a primary term. -/
theorem ReadsAt.of_echoes {t : Term} (echoes : t.Echoes p) (text : f.text = t.text) (term : f.term = t)
    (single : f.height = 0) : f.ReadsAt p 0 := by
  refine ⟨fun _ n r u bounds here deep => ?_, fun tier same => absurd same (by cases tier <;> decide)⟩
  rw [within_of_le single.le, text] at here deep
  rw [term]
  exact echoes n r u bounds.closes here deep

/-- A formula that is read at a height is read at all heights above that are not its own. -/
theorem ReadsAt.up {h k : Nat} (reads : f.ReadsAt p h) (le : h ≤ k) (most : k ≤ 5)
    (apart : ∀ i, h < i → i ≤ k → f.height ≠ i) : f.ReadsAt p k := by
  induction k, le using Nat.le_induction with
  | base => exact reads
  | succ k le ih =>
      have below := ih (by omega) fun i lt le => apart i lt (by omega)
      obtain ⟨tier, height⟩ := Tier.exists_height (Nat.succ_pos k) most
      have reads := (below.climbs height (apart (k + 1) (by omega) (Nat.le_refl _))).reads
      rwa [height] at reads

/-- What is said of a formula: it is read at each height, and gone on behind at each tier and as a
membership. -/
structure IsRead (p : Page) (f : Formula) : Prop where
  readsAt : ∀ h ≤ 5, f.ReadsAt p h
  climbs : ∀ tier, f.Climbs p tier
  climbsIn : f.ClimbsIn p

/-- It is enough to read a formula as a primary term, and to go on behind it where it is read without
parentheses. -/
theorem IsRead.of_own (single : f.ReadsAt p 0) (own : ∀ tier, tier.height = f.height → f.Climbs p tier)
    (member : f.ClimbsIn p) : f.IsRead p := by
  have readsAt : ∀ h ≤ 5, f.ReadsAt p h := by
    intro h le
    by_cases above : 0 < f.height ∧ f.height ≤ h
    · obtain ⟨tier, height⟩ := Tier.exists_height above.1 (above.2.trans le)
      refine (own tier height).reads.up (height ▸ above.2) le fun i lt _ => ?_
      omega
    · refine single.up (Nat.zero_le h) le fun i lt le => ?_
      omega
  refine ⟨readsAt, fun tier => ?_, member⟩
  by_cases same : tier.height = f.height
  · exact own tier same
  · obtain ⟨h, height⟩ : ∃ h, tier.height = h + 1 := ⟨tier.height - 1, by cases tier <;> rfl⟩
    have le := tier.height_le
    exact (readsAt h (by omega)).climbs height (by omega)

/-- All formulas are read. -/
theorem isRead (p : Page) (f : Formula) : f.IsRead p := by
  -- what is read as a primary term is read at all tiers
  have operand {f : Formula} (single : f.ReadsAt p 0) (none : f.height = 0) : f.IsRead p := by
    refine .of_own single (fun tier same => ?_) ?_
    · exact absurd (same.trans none) (by cases tier <;> decide)
    · exact ReadsAt.climbsIn (single.up (Nat.zero_le 5) (Nat.le_refl 5) fun i lt _ => by omega) (by omega)
  induction f with
  | number z =>
      refine operand (.of_echoes ?_ (text_number z.spelling).symm rfl rfl) rfl
      refine Term.Begins.echoes (fun r closes => begins_number z.spelled closes) rfl ?_
      rw [text_number]
      exact (number z).text_ne_nil
  | name x =>
      refine operand (.of_echoes ?_ (text_var x.text).symm rfl rfl) rfl
      refine Term.Begins.echoes (fun r closes => begins_variable x.speakable closes.apart) x.not_root ?_
      rw [text_var]
      exact (name x).text_ne_nil
  | apply op left right ihl ihr =>
      rcases tiered : op.tier? with _ | tier
      -- a membership is the loosest formula, so it is an operand in parentheses only
      · obtain rfl := Infix.eq_member tiered
        have member := ihl.climbsIn.apply (ihr.readsAt 5 (Nat.le_refl 5))
        refine .of_own (member.inParens (Nat.succ_pos 5)) (fun tier same => ?_) member
        have six : (Formula.apply .member left right).height = 6 := rfl
        have le := tier.height_le
        omega
      · have own := Infix.height_eq tiered
        have height : (Formula.apply op left right).height = tier.height := own
        obtain ⟨h, above⟩ : ∃ h, tier.height = h + 1 := ⟨tier.height - 1, by cases tier <;> rfl⟩
        have le := tier.height_le
        have climbs := (ihl.climbs tier).apply tiered above (ihr.readsAt h (by omega))
        -- an operation is a membership without the word
        have member : (Formula.apply op left right).ClimbsIn p := by
          refine ReadsAt.climbsIn (climbs.reads.up le (Nat.le_refl 5) fun i lt _ => ?_) ?_ <;> omega
        refine .of_own (member.inParens (by omega)) (fun tier' same => ?_) member
        obtain rfl := Tier.height_injective (same.trans height)
        exact climbs

/-! ## Sources

Around the formula there is a literal, a query and a source, with nothing else in them. -/

/-- A formula is a term, or a call that an expression consists of. -/
theorem terms_of (f : Formula) : f.terms.Of f.term := by
  cases f with
  | apply => exact .call
  | _ => exact .term rfl

/-- A formula is no word of a quantified query. -/
theorem not_everyVar {e : Expr} (same : f.terms.same e.terms = true) : isEveryVar e = false := by
  have other : f.term.value.isVarNamed everyWord = false := by
    cases f with
    | name x =>
        refine Bool.eq_false_iff.2 fun named => ?_
        have same : x.text = everyWord := by simpa [term, Term.ofValue, Value.isVarNamed, Value.varName?] using named
        exact absurd x.free (by rw [same]; decide +kernel)
    | _ => rfl
  obtain ⟨i, g, negated, terms', ws, l⟩ := e
  rcases terms' with t' | _ | _ | _
  · cases f with
    | apply => simp [terms, ExprTerms.same] at same
    | number z =>
        rw [terms_number, ExprTerms.same, Term.same_eq] at same
        exact (Value.isVarNamed_of_same same everyWord).trans other
    | name x =>
        rw [terms_name, ExprTerms.same, Term.same_eq] at same
        exact (Value.isVarNamed_of_same same everyWord).trans other
  all_goals rfl

/-- The text of a formula is a literal. -/
theorem runs_literal {n : Nat} {u : Reading} (here : p.Here f.text u) (deep : Deep n f.text 9) :
    p.Runs (grammar n .literal) u (Given fun e v => f.expr.same e = true ∧ p.Here (past []) v) := by
  have first := (f.first .atEnd).2
  rw [List.append_nil] at first
  have current : u.look.token ∈ openings := by
    rw [here.token_eq rfl fun contains => absurd (contains ▸ first) (by decide)]
    exact first
  refine Page.runs_literal (fun m within => ?_) deep
  unfold unplacedLiteral
  -- no formula starts with a keyword
  have plain : ∀ kind ∈ openings, ¬ (kind.isKeyword = true ∨ kind.isFutureKeyword = true) := by decide
  refine Page.gives_bind (here.toSees.startsRefWithKeyword fun word => absurd word (plain _ first)) ?_
  rintro _ v ⟨rfl, rfl⟩
  rw [if_neg Bool.false_ne_true]
  -- in particular it is not negated
  have noSign : p.Runs negation v (Given fun b w => b = false ∧ w = v) := by
    have other : (v.look.token != .notKw) = true := by
      refine bne_iff_ne.2 fun same => ?_
      rw [same] at current
      exact absurd current (by decide)
    unfold negation
    rw [Page.token_iff, other]
    exact Page.gives_pure ⟨rfl, rfl⟩
  refine Page.gives_bind noSign ?_
  rintro _ w ⟨rfl, rfl⟩
  have text : f.text ++ [] = f.text := List.append_nil _
  have expression : p.Runs (expression (grammar m)) w (Given fun e x =>
      (e.withs = [] ∧ f.terms.same e.terms = true) ∧ p.Here (past (withsText [] ++ [])) x) := by
    rw [withsText_nil, List.nil_append]
    refine Page.runs_expression f.terms_of .atEnd ?_
    exact (f.isRead p).climbsIn.compound .atEnd (text.symm ▸ here) (text.symm ▸ within)
  have paid : Deep m (past (withsText [] ++ [])) 1 := by
    rw [withsText_nil]
    exact within.shorter (List.length_pos_of_ne_nil f.text_ne_nil) (by decide)
  -- nothing follows that could be a replacement, and no word of the future was missed
  have literal : p.Runs (plainLiteral (grammar m) false) w (Given fun e x =>
      (e.negated = false ∧ f.terms.same e.terms = true ∧ sameWiths [] e.withs = true) ∧
        p.Here (past []) x) :=
    Page.runs_replacedExpression (List.forall_mem_nil _) .atEnd (fun e => not_everyVar) expression paid
  rw [Page.token_iff]
  split
  · next same =>
      rw [same] at current
      exact absurd current (by decide)
  · next same =>
      rw [same] at current
      exact absurd current (by decide)
  · refine literal.imp_given ?_
    rintro e x ⟨⟨sign, terms, withs⟩, ended⟩
    exact ⟨Expr.same_of sign terms withs, ended⟩

/-- The text of a formula is a query. -/
theorem runs_literals {n : Nat} {u : Reading} (here : p.Here f.text u) (deep : Deep n f.text 10) :
    p.Runs (grammar n (.literals true .eof [])) u
      (Given fun b v => (∃ e, b = [e] ∧ f.expr.same e = true) ∧ p.Here [] v) := by
  obtain ⟨m, rfl, within⟩ := deep.enter
  show p.Runs (literals (grammar m) true .eof []) u _
  unfold literals
  refine Page.gives_bind (runs_literal here within) ?_
  rintro e v ⟨same, ended⟩
  have ended : p.Here [] v := ended
  rw [Page.token_iff, ended.token_eq (show _ = Token.eof from rfl) nofun]
  exact Page.gives_pure ⟨⟨_, rfl, Expr.same_index same 0⟩, ended⟩

end Formula

/-- A formula is what its text is a source of, however deep it is: operators of one tier associate to the
left, tighter ones bind first, and no more parentheses are needed than its text has. -/
theorem parse_formula (f : Formula) :
    (parseSyntax f.render "" Fragment.unbounded).errors = [] ∧
      ∃ e, (parseSyntax f.render "" Fragment.unbounded).statements = [.body [e]] ∧
        f.expr.same e = true := by
  have h := Fragment.task_current f.render
  have source : (Fragment.task f.render).source.toList = f.text := String.toList_ofList
  have first := f.first .atEnd
  rw [List.append_nil] at first
  have legal : Legal (Fragment.task f.render).source.toList := source ▸ first.1
  have here : h.page.Here f.text (Fragment.task f.render).start.toReading := source ▸ h.start_here legal
  -- no clause starts like a formula
  have other : ∀ kind ∈ [Token.packageKw, .importKw, .eof],
      (Fragment.task f.render).start.look.token ≠ kind := by
    intro kind listed same
    have unlisted : ∀ kind ∈ [Token.packageKw, .importKw, .eof], kind ∉ Formula.openings := by decide
    refine unlisted kind listed (same ▸ ?_)
    have current := here.token_eq rfl fun contains => absurd (contains ▸ first.2) (by decide)
    exact current ▸ first.2
  have deep : Deep (depthFor (Fragment.task f.render).source.utf8ByteSize) f.text 10 :=
    source ▸ (Fragment.task f.render).deep
  obtain ⟨b, statements, ⟨e, rfl, same⟩, clean⟩ := h.run_query legal other (Formula.runs_literals here deep)
  rw [Fragment.parseSyntax_unbounded]
  refine ⟨?_, e, statements, same⟩
  rw [Parsed.ofRun, clean]
  rfl

end RegoSyntax
