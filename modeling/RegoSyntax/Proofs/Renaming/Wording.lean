/-
# RegoSyntax.Proofs.Renaming.Wording — the texts of alike trees.

The text of a tree shows the names of its wildcards, so the texts of alike trees are only alike:
equal but for such names.  A text with the name of a wildcard in it has the mark of wildcards in it.
Hence alike texts are compared alike with any text of the language, since those have no mark.

`AlikeText` is closed under putting texts together, so the text of a tree is handled one constructor at a
time, as the printer puts it together.  A printer that branches on a text, as the one of declarations does
on the name of an operator, branches alike by `beq_unmarked`.

What is reported is made from such texts too.  Hence the last section: the messages of alike notes and of
alike problems are alike, and one is empty if and only if the other is.
-/
import Mathlib.Data.List.Forall2
import RegoSyntax.Proofs.Renaming.Agreement

namespace RegoSyntax

section

variable {N : Nat → Nat → Prop}

/-! ## Marks

A wildcard that the parser names has a mark in its name that no text of the language has, so alike texts
that differ have it both. -/

/-- Alike names differ in marked names only. -/
theorem AlikeName.eq_or_marked {a b : String} (alike : AlikeName N a b) :
    a = b ∨ (wildcardMark ∈ a.toList ∧ wildcardMark ∈ b.toList) := by
  cases alike with
  | plain _ => exact .inl rfl
  | wildcard _ =>
      have marked (n : Nat) : wildcardMark ∈ (Parse.wildcardName n).toList := by
        rw [Parse.wildcardName, String.toList_append]
        exact List.mem_append_left _ (by decide)
      exact .inr ⟨marked _, marked _⟩

/-- Alike texts differ in marked texts only. -/
theorem AlikeText.eq_or_marked {a b : String} (alike : AlikeText N a b) :
    a = b ∨ (wildcardMark ∈ a.toList ∧ wildcardMark ∈ b.toList) := by
  induction alike with
  | same s => exact .inl rfl
  | name n => exact n.eq_or_marked
  | append _ _ first second =>
      simp only [String.toList_append, List.mem_append]
      rcases first with rfl | ⟨left, right⟩
      · rcases second with rfl | ⟨left, right⟩
        · exact .inl rfl
        · exact .inr ⟨.inr left, .inr right⟩
      · exact .inr ⟨.inl left, .inl right⟩

/-- Alike texts are compared alike with a text without a mark. -/
theorem AlikeText.beq_unmarked {a b : String} (alike : AlikeText N a b) {s : String}
    (unmarked : wildcardMark ∉ s.toList) : (a == s) = (b == s) := by
  rcases alike.eq_or_marked with rfl | ⟨left, right⟩
  · rfl
  · have differs {c : String} (marked : wildcardMark ∈ c.toList) : (c == s) = false := by
      rw [beq_eq_false_iff_ne]
      rintro rfl
      exact unmarked marked
    rw [differs left, differs right]

/-- Whether a text is that of a membership operator is the same on both sides. -/
theorem AlikeText.memberArity? {a b : String} (alike : AlikeText N a b) :
    Parse.memberArity? a = Parse.memberArity? b := by
  unfold Parse.memberArity?
  rw [alike.beq_unmarked (s := memberName) (by decide),
    alike.beq_unmarked (s := memberWithKeyName) (by decide)]

/-- Alike texts are both in a list of texts without a mark, or both are not. -/
theorem AlikeText.contains {a b : String} (alike : AlikeText N a b) {l : List String}
    (unmarked : ∀ s ∈ l, wildcardMark ∉ s.toList) : l.contains a = l.contains b := by
  induction l with
  | nil => rfl
  | cons s l ih =>
      rw [List.contains_cons, List.contains_cons, ih fun x hx => unmarked x (.tail _ hx),
        alike.beq_unmarked (unmarked s (.head _))]

/-! ## Texts of lists

Lists are printed with separators between the texts of their entries, and alike lists have as many
entries. -/

/-- Texts that are alike one by one. -/
abbrev AlikeTexts (N : Nat → Nat → Prop) : List String → List String → Prop :=
  List.Forall₂ (AlikeText N)

/-- A text between two others. -/
theorem AlikeText.append' {a b : String} (alike : AlikeText N a b) (c d : String) :
    AlikeText N (c ++ a ++ d) (c ++ b ++ d) :=
  .append (.append (.same c) alike) (.same d)

/-- Texts with a separator between them. -/
theorem AlikeTexts.joinWith {a b : List String} (sep : String) (alike : AlikeTexts N a b) :
    AlikeText N (joinWith sep a) (joinWith sep b) := by
  induction alike with
  | nil => exact .same _
  | cons first rest ih =>
      cases rest with
      | nil => exact first
      | cons _ _ => exact .append (.append first (.same sep)) ih

/-- All texts but the last one. -/
theorem AlikeTexts.dropLast {a b : List String} (alike : AlikeTexts N a b) :
    AlikeTexts N a.dropLast b.dropLast := by
  induction alike with
  | nil => exact .nil
  | cons first rest ih =>
      cases rest with
      | nil => exact .nil
      | cons _ _ => exact .cons first ih

/-- The last text, or none. -/
theorem AlikeTexts.getLast {a b : List String} (alike : AlikeTexts N a b) :
    AlikeText N (a.getLast?.getD "") (b.getLast?.getD "") := by
  induction alike with
  | nil => exact .same _
  | cons first rest ih =>
      cases rest with
      | nil => exact first
      | cons _ _ =>
          rw [List.getLast?_cons_cons, List.getLast?_cons_cons]
          exact ih

/-! ## Texts of trees

By recursion on both trees at once.  The printer looks at the constructors, and at the text of an operator
where it prints a membership. -/

mutual

/-- The text of a term is that of its value. -/
theorem Term.Alike.render : ∀ {t u : Term}, t.Alike N u → AlikeText N t.render u.render
  | _, _, .mk v => by
      -- a term is printed as its value
      simp only [Term.render]
      exact v.render

theorem Value.Alike.render : ∀ {v w : Value}, v.Alike N w → AlikeText N v.render w.render
  | _, _, .null | _, _, .boolean _ | _, _, .number _ | _, _, .string _ => .same _
  | _, _, .var n => by
      simp only [Value.render]
      exact .name n
  | _, _, .ref ts => by
      simp only [Value.render]
      exact ts.renderRef
  | _, _, .array ts => by
      simp only [Value.render]
      exact (ts.renderTerms.joinWith _).append' _ _
  | _, _, .object ps => by
      simp only [Value.render]
      exact (ps.renderPairs.joinWith _).append' _ _
  | _, _, .set ts => by
      simp only [Value.render]
      -- the empty set has a text of its own
      rw [ts.isEmpty]
      split
      · exact .same _
      · exact (ts.renderTerms.joinWith _).append' _ _
  | _, _, .call ts => by
      simp only [Value.render]
      exact ts.renderCall
  | _, _, .arrayComprehension t b | _, _, .setComprehension t b => by
      simp only [Value.render]
      exact .append (.append (t.render.append' _ _) b.renderBody) (.same _)
  | _, _, .objectComprehension k v b => by
      simp only [Value.render]
      exact .append (.append (.append (.append (k.render.append' _ _) v.render) (.same _))
        b.renderBody) (.same _)

theorem AlikeTerms.renderTerms :
    ∀ {ts us : List Term}, AlikeTerms N ts us → AlikeTexts N (renderTerms ts) (renderTerms us)
  | _, _, .nil => by
      simp only [RegoSyntax.renderTerms]
      exact .nil
  | _, _, .cons t rest => by
      simp only [RegoSyntax.renderTerms]
      exact .cons t.render rest.renderTerms

theorem AlikePairs.renderPairs :
    ∀ {ps qs : List (Term × Term)}, AlikePairs N ps qs →
      AlikeTexts N (renderPairs ps) (renderPairs qs)
  | _, _, .nil => by
      simp only [RegoSyntax.renderPairs]
      exact .nil
  | _, _, .cons k v rest => by
      simp only [RegoSyntax.renderPairs]
      exact .cons (.append (.append k.render (.same _)) v.render) rest.renderPairs

theorem AlikeTerms.renderRef :
    ∀ {ts us : List Term}, AlikeTerms N ts us → AlikeText N (renderRef ts) (renderRef us)
  | _, _, .nil => .same _
  | _, _, .cons t rest => by
      simp only [RegoSyntax.renderRef]
      exact .append t.render rest.renderSegments

theorem AlikeTerms.renderSegments :
    ∀ {ts us : List Term}, AlikeTerms N ts us →
      AlikeText N (renderSegments ts) (renderSegments us)
  | _, _, .nil => .same _
  | _, _, .cons (.mk v) rest => by
      have behind := rest.renderSegments
      have text := v.render
      cases v with
      | string s =>
          simp only [RegoSyntax.renderSegments]
          exact .append (.same _) behind
      | _ =>
          simp only [RegoSyntax.renderSegments, Term.render]
          exact .append (text.append' _ _) behind

theorem AlikeTerms.renderCall :
    ∀ {ts us : List Term}, AlikeTerms N ts us → AlikeText N (renderCall ts) (renderCall us)
  | _, _, .nil => .same _
  | _, _, .cons op args => by
      simp only [RegoSyntax.renderCall]
      exact .append (.append (.append op.render (.same _)) (args.renderTerms.joinWith _)) (.same _)

theorem AlikeBodies.renderBody :
    ∀ {b c : List Expr}, AlikeBodies N b c → AlikeText N (renderBody b) (renderBody c)
  | _, _, .nil => .same _
  | _, _, .cons e .nil => by
      simp only [RegoSyntax.renderBody]
      exact e.render
  | _, _, .cons e (.cons f rest) => by
      simp only [RegoSyntax.renderBody]
      exact .append (.append e.render (.same _)) (AlikeBodies.cons f rest).renderBody

theorem Expr.Alike.render : ∀ {e f : Expr}, e.Alike N f → AlikeText N e.render f.render
  | _, _, .mk terms withs => by
      simp only [Expr.render]
      exact .append (.append (.same _) terms.render) withs.renderWiths

theorem ExprTerms.Alike.render :
    ∀ {t u : ExprTerms}, t.Alike N u → AlikeText N t.render u.render
  | _, _, .term t => by
      simp only [ExprTerms.render]
      exact t.render
  | _, _, .call ts => by
      simp only [ExprTerms.render]
      exact ts.renderCall
  | _, _, .some _ ts => by
      simp only [ExprTerms.render]
      exact .append (.same _) ts.renderSymbols
  | _, _, .every _ k v d b => by
      simp only [ExprTerms.render]
      exact .append (.append (.append (.append (.append (.append (.append (.same _) k.renderKey)
        v.render) (.same _)) d.render) (.same _)) b.renderBody) (.same _)

/-- Names that are declared are listed; a membership is printed with its operator in the middle, and any
other call as one. -/
theorem AlikeTerms.renderSymbols :
    ∀ {ts us : List Term}, AlikeTerms N ts us →
      AlikeText N (renderSymbols ts) (renderSymbols us)
  | _, _, .nil => .same _
  -- -- a single term prints as itself, unless it is a call of a membership operator
  | _, _, .cons (.mk v) .nil => by
      have text := v.render
      cases v with
      | call ts =>
          cases ts with
          | nil =>
              simp only [RegoSyntax.renderSymbols, Term.render]
              exact text
          | cons op rest =>
              cases rest with
              | nil =>
                  simp only [RegoSyntax.renderSymbols, Term.render]
                  exact text
              | cons arg args =>
                  have name := op.render
                  have texts : AlikeTexts N _ _ := .cons arg.render args.renderTerms
                  simp only [RegoSyntax.renderSymbols]
                  -- -- those names bear no generated mark, so both sides take one branch
                  rw [name.beq_unmarked (s := memberName) (by decide),
                    name.beq_unmarked (s := memberWithKeyName) (by decide)]
                  split
                  · exact .append (.append (texts.dropLast.joinWith _) (.same _)) texts.getLast
                  · exact .append (.append (.append name (.same _)) (texts.joinWith _)) (.same _)
      | _ =>
          simp only [RegoSyntax.renderSymbols, Term.render]
          exact text
  -- -- two terms or more are joined, whatever they are
  | _, _, .cons t (.cons u rest) => by
      have texts := (AlikeTerms.cons t (.cons u rest)).renderTerms
      rw [RegoSyntax.renderSymbols, RegoSyntax.renderSymbols, ← RegoSyntax.renderTerms, ← RegoSyntax.renderTerms,
        ← RegoSyntax.renderTerms, ← RegoSyntax.renderTerms]
      exact texts.joinWith _

theorem AlikeKeys.renderKey :
    ∀ {j k : Option Term}, AlikeKeys N j k → AlikeText N (renderKey j) (renderKey k)
  | _, _, .none => .same _
  | _, _, .some t => by
      simp only [RegoSyntax.renderKey]
      exact .append t.render (.same _)

theorem AlikeWiths.renderWiths :
    ∀ {ws xs : List With}, AlikeWiths N ws xs → AlikeText N (renderWiths ws) (renderWiths xs)
  | _, _, .nil => .same _
  | _, _, .cons t v rest => by
      simp only [RegoSyntax.renderWiths, With.render]
      exact .append (.append (.same _) (.append (.append (.append (.same _) t.render) (.same _))
        v.render)) rest.renderWiths

end

/-- The texts of alike paths are alike. -/
theorem AlikeTerms.render {p q : Ref} (alike : AlikeTerms N p q) :
    AlikeText N (Ref.render p) (Ref.render q) := alike.renderRef

/-! ## Memberships

Whether a call is a membership is told by the text of its operator, which holds no mark. -/

/-- The name of an operator is the text of the first term. -/
theorem AlikeTerms.operatorName {ts us : List Term} (alike : AlikeTerms N ts us) :
    AlikeText N (Parse.operatorName ts) (Parse.operatorName us) := by
  cases alike with
  | nil => exact .same _
  | cons op _ => exact op.render

/-- Terms of a quantified query that are alike, or the same complaint. -/
inductive AlikeQuantified (N : Nat → Nat → Prop) :
    Except Note (Option Term × Term × Term) → Except Note (Option Term × Term × Term) → Prop where
  | error (note : Note) : AlikeQuantified N (.error note) (.error note)
  | ok {j k : Option Term} {v w d e : Term} : AlikeKeys N j k → v.Alike N w → d.Alike N e →
      AlikeQuantified N (.ok (j, v, d)) (.ok (k, w, e))

/-- The parts of a quantified query are found at the same places. -/
theorem AlikeTerms.quantifiedTerms {ts us : List Term} (terms : AlikeTerms N ts us) :
    AlikeQuantified N (Parse.quantifiedTerms ts) (Parse.quantifiedTerms us) := by
  unfold Parse.quantifiedTerms
  rw [terms.operatorName.memberArity?]
  generalize Parse.memberArity? (Parse.operatorName us) = arity
  split
  · obtain _ | ⟨-, _ | ⟨value, _ | ⟨domain, _ | _⟩⟩⟩ := terms
    simp only [value.value.isVar]
    split
    · exact .ok .none value domain
    · exact .error _
  · obtain _ | ⟨-, _ | ⟨key, _ | ⟨value, _ | ⟨domain, _ | _⟩⟩⟩⟩ := terms
    simp only [key.value.isVar, value.value.isVar]
    split
    · exact .error _
    · split
      · exact .error _
      · exact .ok (.some key) value domain
  · next three four =>
      -- the terms on the other side are as many
      split
      · next n _ _ _ _ same =>
          obtain _ | ⟨-, _ | ⟨-, _ | ⟨-, _ | _⟩⟩⟩ := terms
          exact (three _ _ _ rfl (Option.some.inj same)).elim
      · next n _ _ _ _ _ same =>
          obtain _ | ⟨-, _ | ⟨-, _ | ⟨-, _ | ⟨-, _ | _⟩⟩⟩⟩ := terms
          exact (four _ _ _ _ rfl (Option.some.inj same)).elim
      · exact .error _
      · next same => cases same
  · exact .error _

/-- Alike terms are made quantified queries of alike parts, or are refused with the same note. -/
theorem Term.Alike.quantified {t u : Term} (alike : t.Alike N u) :
    AlikeQuantified N (Parse.quantified t) (Parse.quantified u) := by
  obtain @⟨v, w, l, value⟩ := alike
  cases value with
  | call terms => exact terms.quantifiedTerms
  | _ => exact .error _

/-! ## Messages

A message is put together from fixed texts and names, each of which is alike. -/

/-- An example in a note. -/
theorem AlikeText.example' {a b : String} (alike : AlikeText N a b) :
    AlikeText N (Note.example' a) (Note.example' b) :=
  alike.append' _ _

/-- Notes quote names, and are alike up to them. -/
theorem Note.Alike.message {m n : Note} (alike : m.Alike N n) : AlikeText N m.message n.message := by
  cases alike with
  | same => exact .same _
  | invalidHead t =>
      unfold Note.message
      exact .append (.append (.same _) t) (.same _)
  | containsOnFunction t | ruleKey t | ruleValue t | assignedRuleValue t | functionValue t
  | partialRuleValue t =>
      unfold Note.message
      exact .append (.same _) (AlikeText.append (.append t (.same _)) (.same _)).example'
  | defaultRuleValue t =>
      unfold Note.message
      exact .append (.same _) (AlikeText.append (.append (.same _) t) (.same _)).example'

/-- Alike texts are both empty, or neither is. -/
theorem AlikeText.isEmpty {a b : String} (alike : AlikeText N a b) : a.isEmpty = b.isEmpty := by
  rcases alike.eq_or_marked with rfl | ⟨left, right⟩
  · rfl
  · have filled {c : String} (marked : wildcardMark ∈ c.toList) : c.isEmpty = false := by
      rw [Bool.eq_false_iff]
      intro empty
      rw [String.isEmpty_iff] at empty
      subst empty
      exact absurd marked List.not_mem_nil
    rw [filled left, filled right]

/-- So are problems; all but four kinds of them quote no name. -/
theorem Problem.Alike.message {p q : Problem} (alike : p.Alike N q) :
    AlikeText N p.message q.message := by
  cases alike with
  | same => exact .same _
  | @unexpectedToken kind m n note =>
      show AlikeText N (_ ++ (if m.message.isEmpty then "" else ": " ++ m.message))
        (_ ++ (if n.message.isEmpty then "" else ": " ++ n.message))
      rw [note.message.isEmpty]
      refine .append (.same _) ?_
      split
      · exact .same _
      · exact .append (.same _) note.message
  | importRoot t =>
      unfold Problem.message
      exact .append (.same _) t
  | importEndsInKeyword t =>
      unfold Problem.message
      exact .append (.same _) t
  | regoImportPath t =>
      unfold Problem.message
      exact t.append' _ _

end

end RegoSyntax
