/-
# RegoSyntax.Proofs.Renaming.Composition — one renaming of wildcards after another.

Two trees that are alike to a third one are alike to each other: wildcards stand for each other if they stand
for the same wildcard of the third tree.  If both renamings are one to one, so is the one they make up.

A wildcard of the third tree may be drawn more than once, but it stands for one wildcard on each side;
that is what makes `Joined` one to one (`OneToOne.joined`).  The rest of the module follows the syntax:
one clause for each kind of node.
-/
import RegoSyntax.Proofs.Placement
import RegoSyntax.Proofs.Renaming.Pairing

namespace RegoSyntax

/-- Wildcards of two sides that stand for the same one of a third side. -/
def Joined (N M : Nat → Nat → Prop) (l r : Nat) : Prop := ∃ k, N l k ∧ M r k

variable {N M : Nat → Nat → Prop}

/-- Two renamings that are one to one are joined to one that is. -/
theorem OneToOne.joined (one : OneToOne N) (one' : OneToOne M) : OneToOne (Joined N M) := by
  rintro l r l' r' ⟨k, left, right⟩ ⟨k', left', right'⟩
  exact (one l k l' k' left left').trans (one' r k r' k' right right').symm

/-! ## Names -/

/-- A name that is alike to the same name on both sides is plain on both, or a wildcard on both. -/
theorem AlikeName.join {a b c : String} (first : AlikeName N a c) (second : AlikeName M b c) :
    AlikeName (Joined N M) a b := by
  cases first with
  | plain plain =>
      cases second with
      | plain => exact .plain plain
      | wildcard => cases (isWildcardName_wildcardName _).symm.trans plain
  | @wildcard l k left =>
      generalize same : Parse.wildcardName k = c at second
      cases second with
      | plain plain =>
          subst same
          cases (isWildcardName_wildcardName _).symm.trans plain
      | wildcard right =>
          obtain rfl := wildcardName_inj same
          exact .wildcard ⟨k, left, right⟩

/-- The same where a name may be missing. -/
theorem AlikeName.join_option {a b c : Option String} : Option.Rel (AlikeName N) a c →
    Option.Rel (AlikeName M) b c → Option.Rel (AlikeName (Joined N M)) a b
  | .some first, .some second => .some (first.join second)
  | .none, .none => .none

/-! ## Trees -/

mutual

/-- Terms that are alike to the same term are alike. -/
theorem Term.Alike.join : ∀ {t u v : Term}, Term.Alike N t v → Term.Alike M u v →
    Term.Alike (Joined N M) t u
  | _, _, _, .mk v, .mk w => .mk (v.join w)

/-- Values that are alike to the same value are alike. -/
theorem Value.Alike.join : ∀ {v w x : Value}, Value.Alike N v x → Value.Alike M w x →
    Value.Alike (Joined N M) v w
  | _, _, _, .null, .null => .null
  | _, _, _, .boolean b, .boolean _ => .boolean b
  | _, _, _, .number s, .number _ => .number s
  | _, _, _, .string s, .string _ => .string s
  | _, _, _, .var n, .var m => .var (n.join m)
  | _, _, _, .ref ts, .ref us => .ref (ts.join us)
  | _, _, _, .array ts, .array us => .array (ts.join us)
  | _, _, _, .object ps, .object qs => .object (ps.join qs)
  | _, _, _, .set ts, .set us => .set (ts.join us)
  | _, _, _, .call ts, .call us => .call (ts.join us)
  | _, _, _, .arrayComprehension t b, .arrayComprehension u c => .arrayComprehension (t.join u) (b.join c)
  | _, _, _, .objectComprehension k v b, .objectComprehension l w c =>
      .objectComprehension (k.join l) (v.join w) (b.join c)
  | _, _, _, .setComprehension t b, .setComprehension u c => .setComprehension (t.join u) (b.join c)

/-- The terms of two lists are alike one by one. -/
theorem AlikeTerms.join : ∀ {ts us vs : List Term}, AlikeTerms N ts vs → AlikeTerms M us vs →
    AlikeTerms (Joined N M) ts us
  | _, _, _, .nil, .nil => .nil
  | _, _, _, .cons t ts, .cons u us => .cons (t.join u) (ts.join us)

/-- The entries of two objects are alike one by one. -/
theorem AlikePairs.join : ∀ {ps qs rs : List (Term × Term)}, AlikePairs N ps rs → AlikePairs M qs rs →
    AlikePairs (Joined N M) ps qs
  | _, _, _, .nil, .nil => .nil
  | _, _, _, .cons k v ps, .cons l w qs => .cons (k.join l) (v.join w) (ps.join qs)

/-- The literals of two bodies are alike one by one. -/
theorem AlikeBodies.join : ∀ {b c d : List Expr}, AlikeBodies N b d → AlikeBodies M c d →
    AlikeBodies (Joined N M) b c
  | _, _, _, .nil, .nil => .nil
  | _, _, _, .cons e es, .cons f fs => .cons (e.join f) (es.join fs)

/-- Literals that are alike to the same literal are alike. -/
theorem Expr.Alike.join : ∀ {e f g : Expr}, Expr.Alike N e g → Expr.Alike M f g →
    Expr.Alike (Joined N M) e f
  | _, _, _, .mk ts ws, .mk us xs => .mk (ts.join us) (ws.join xs)

/-- What literals say is alike, kind by kind. -/
theorem ExprTerms.Alike.join : ∀ {t u v : ExprTerms}, ExprTerms.Alike N t v → ExprTerms.Alike M u v →
    ExprTerms.Alike (Joined N M) t u
  | _, _, _, .term t, .term u => .term (t.join u)
  | _, _, _, .call ts, .call us => .call (ts.join us)
  | _, _, _, .some l ts, .some _ us => .some l (ts.join us)
  | _, _, _, .every l k v d b, .every _ k' v' d' b' =>
      .every l (k.join k') (v.join v') (d.join d') (b.join b')

/-- The keys of two quantified queries are alike, if there are any. -/
theorem AlikeKeys.join : ∀ {j k l : Option Term}, AlikeKeys N j l → AlikeKeys M k l →
    AlikeKeys (Joined N M) j k
  | _, _, _, .none, .none => .none
  | _, _, _, .some t, .some u => .some (t.join u)

/-- The replacements of two literals are alike one by one. -/
theorem AlikeWiths.join : ∀ {ws xs ys : List With}, AlikeWiths N ws ys → AlikeWiths M xs ys →
    AlikeWiths (Joined N M) ws xs
  | _, _, _, .nil, .nil => .nil
  | _, _, _, .cons t v ws, .cons u w xs => .cons (t.join u) (v.join w) (ws.join xs)

end

/-! ## Rules and statements -/

/-- Heads that are alike to the same head are alike part by part. -/
theorem Head.Alike.join {h k l : Head} (first : h.Alike N l) (second : k.Alike M l) :
    h.Alike (Joined N M) k where
  name := AlikeName.join_option first.name second.name
  reference := first.reference.join second.reference
  args := first.args.join second.args
  key := first.key.join second.key
  value := first.value.join second.value
  assign := first.assign.trans second.assign.symm
  generatedValue := first.generatedValue.trans second.generatedValue.symm
  keywords := first.keywords.trans second.keywords.symm
  location := first.location.trans second.location.symm

/-- Rules that are alike to the same rule are alike down to their last alternative. -/
theorem Rule.Alike.join : ∀ {r s t : Rule}, r.Alike N t → s.Alike M t → r.Alike (Joined N M) s
  | _, _, _, .last h b, .last k c => .last (h.join k) (b.join c)
  | _, _, _, .orElse h b r, .orElse k c s => .orElse (h.join k) (b.join c) (r.join s)

/-- Statements that are alike to the same statement are alike. -/
theorem Statement.Alike.join {a b c : Statement} : a.Alike N c → b.Alike M c → a.Alike (Joined N M) b
  | .package n p, .package m q => .package (n.join m) (p.join q)
  | .importClause l t n, .importClause _ u m =>
      .importClause l (t.join u) (AlikeName.join_option n m)
  | .rule r, .rule s => .rule (r.join s)
  | .body b, .body c => .body (b.join c)
  | .annotations a, .annotations _ => .annotations a

/-- Statements that are alike one by one to the same ones. -/
theorem Statement.Alike.join_all {as bs cs : List Statement} (first : List.Forall₂ (Statement.Alike N) as cs)
    (second : List.Forall₂ (Statement.Alike M) bs cs) : List.Forall₂ (Statement.Alike (Joined N M)) as bs := by
  induction first generalizing bs with
  | nil =>
      cases second
      exact .nil
  | cons head _ ih =>
      obtain _ | ⟨head', rest'⟩ := second
      exact .cons (head.join head') (ih rest')

end RegoSyntax
