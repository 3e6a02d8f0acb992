/-
# RegoSyntax.Proofs.Literals — queries are read formed.

A literal is put together from parts: what it consists of, its sign and its replacements.  Each part is as
it should be by itself, and a sign stands only where a term or a call follows.

`Course.Reads` gives the result of a parser under the condition that no error was reported on the way, so
each rule has to follow back from its end whether its parts were read without one (`clean`).  Under that
condition a literal is `Whole`: itself and all nodes below are formed, and its names are names of the
source that no keyword is.

The names of declared variables, and the names that paths of replacements lead with, are told by the
tokens that they were read from (`names_of_passes`); for all other parts it is enough that the terms below
are whole.
-/
import RegoSyntax.Proofs.Operators
import RegoSyntax.Proofs.Primaries
import RegoSyntax.Proofs.Rendering

namespace RegoSyntax

open Parse

/-! ## Literals by their parts

A literal is whole if each node of its parts is formed and the numbers of its literals are in order. -/

section parts

variable {names : String → Prop}

/-- A literal of whole parts is whole. -/
theorem Expr.whole_of_parts {e : Expr} (terms : e.terms.Whole names)
    (sign : e.negated = true → e.terms.isPlain = true) (withs : ∀ w ∈ e.withs, w.Whole names)
    (bare : ∀ symbols l, e.terms = .some symbols l → (∀ t ∈ symbols, t.value.isVar = true) →
      e.withs = []) : e.Whole names :=
  Expr.whole_iff.2 ⟨⟨terms.1, sign, fun w hw => (withs w hw).1, bare⟩, terms.2,
    fun w hw => (withs w hw).2⟩

/-- The terms of a call with all nodes formed. -/
theorem whole_call {op : Term} {path args : List Term} (operates : op.value = .ref path)
    (formed : op.Formed names) (h : ∀ t ∈ args, t.Whole names)
    (some : args = [] → isSetConstructor op = false) :
    ExprTerms.Whole names (.call (op :: args)) := by
  refine ⟨⟨op, path, args, rfl, operates, fun t ht => (h t ht).1, some⟩, ?_⟩
  refine forall_walkTerms.2 fun t ht => ?_
  rcases List.mem_cons.1 ht with rfl | ht
  · exact formed
  · exact (h t ht).2

/-- A term that is no call, as an expression. -/
theorem whole_term {t : Term} (whole : t.Whole names) (other : ∀ ts, t.value ≠ .call ts) :
    ExprTerms.Whole names (.term t) := by
  refine ⟨⟨whole.1, ?_⟩, whole.2⟩
  rcases h : t.value with _ | _ | _ | _ | _ | _ | _ | _ | _ | ts | _ | _ | _ <;> first
    | rfl
    | exact absurd h (other ts)

/-- The terms of a call, as an expression. -/
theorem whole_call_of_term {t : Term} {ts : List Term} (whole : t.Whole names)
    (call : t.value = .call ts) : ExprTerms.Whole names (.call ts) := by
  obtain ⟨own, below⟩ := Term.formed_iff.1 whole.2
  rw [call] at own below
  exact ⟨own, below⟩

end parts

namespace Course

variable {k : Course} {g : Grammar} {r u w : Reading}

namespace Keeps

open Reads

/-! ## Expressions

An expression is a term, and a call is taken apart so that its operator is no node of its own. -/

/-- An expression is a term, a call, or two terms behind one another with a sign between. -/
theorem expression (h : k.Keeps g) (fine : k.Fine u) :
    k.Reads u (Parse.expression g) u fun e _ =>
      ∃ terms, e = .ofTerms terms ∧ terms.Whole k.names ∧ terms.isPlain = true := by
  unfold Parse.expression
  refine .bind (.refl fine) (h (.compound true) u fine) fun left t₁ l₁ _ given => ?_
  rw [token_iff]
  split
  · next assigns =>
      -- the signs have operators of their own, and these are formed
      have named : Named t₁.look.token.name := by
        rcases Bool.or_eq_true _ _ ▸ assigns with assign | unify
        · rw [beq_iff_eq.1 assign]
          exact named_assignment.1
        · rw [beq_iff_eq.1 unify]
          exact named_assignment.2
      rw [location_iff]
      refine .bind l₁ (.scan l₁.fine) fun _ t₂ l₂ first _ => ?_
      refine .bind l₂ (h (.compound true) t₂ l₂.fine) fun right t₃ l₃ second givenThen => ?_
      refine .pure l₃ fun clean => ⟨_, rfl, whole_call rfl (formed_name named _ _) ?_ ?_, rfl⟩
      · intro t ht
        rcases List.mem_cons.1 ht with rfl | ht
        · exact given (first.clean (second.clean clean)) trivial
        · exact List.mem_singleton.1 ht ▸ givenThen clean trivial
      · exact fun none => by cases none
  · split
    -- => a call stands as a call, not as a term that is one
    · next ts call =>
        exact .pure l₁ fun clean => ⟨_, rfl, whole_call_of_term (given clean trivial) call, rfl⟩
    · next other =>
        exact .pure l₁ fun clean => ⟨_, rfl, whole_term (given clean trivial) other, rfl⟩

/-! ## Replacements

A target has to lead with a word that is no keyword.  That is known of the token it was read from, and not
of the tree. -/

/-- What is replaced is a variable or a path, or was reported. -/
theorem checkTarget (fine : k.Fine u) (target : Term) :
    k.Reads u (Parse.checkTarget target) u fun _ _ =>
      target.value.isVar = true ∨ target.value.ref?.isSome = true := by
  unfold Parse.checkTarget
  split
  · next ref => exact .pure (.refl fine) fun _ => .inr (by rw [ref]; rfl)
  · next var => exact .pure (.refl fine) fun _ => .inl (by rw [var]; rfl)
  · exact (unexpected fine).weaken fun _ _ _ _ false => false.elim

/-- A replacement keeps its target and has a whole value. -/
theorem replacedBy (h : k.Keeps g) (fine : k.Fine u) (place : Location) (target : Term) :
    k.Reads u (Parse.replacedBy g place target) u fun w _ =>
      w.target = target ∧ w.value.Whole k.names := by
  unfold Parse.replacedBy
  rw [token_iff]
  dsimp only
  split
  · exact .unexpected_fail (.refl fine) fun _ l => .fail l
  · refine .bind (.refl fine) (.scan fine) fun _ t₁ l₁ _ _ => ?_
    refine .bind l₁ (h (.compound true) t₁ l₁.fine) fun value t₂ l₂ _ given => ?_
    rw [upToLastStop_iff]
    exact .pure l₂ fun clean => ⟨rfl, given clean trivial⟩

/-- A token that has just been reached, and is an identifier, is a word that is not reserved. -/
theorem names_of_passes {b : Bool} {c d : Cursor} {l : Look} (pass : k.Passes b c d l)
    (ident : l.token = .ident) : d.lexeme.kind = .ident ∧ k.names d.word := by
  obtain ⟨kind, unreserved⟩ := get?_of_shown (pass.exact ▸ ident) pass.stands.at'.known
  exact ⟨kind, k.free pass.stands.table unreserved⟩

/-- What is replaced starts with a word. -/
theorem lead_of_target {c : Cursor} {t : Term} (at' : k.TermAt c t) (kind : c.lexeme.kind = .ident)
    (names : k.names c.word) (target : t.value.isVar = true ∨ t.value.ref?.isSome = true) :
    ∃ name, t.lead = some name ∧ Free k.names name := by
  rcases at'.leads kind with ⟨name, lead, own | wild⟩ | null | ⟨b, boolean⟩
  · exact ⟨name, lead, .inr (own ▸ names)⟩
  · exact ⟨name, lead, .inl wild⟩
  · rw [null] at target
    rcases target with other | other <;> cases other
  · rw [boolean] at target
    rcases target with other | other <;> cases other

/-- A replacement starts with a word that was passed, and its target leads with that word. -/
theorem replacement (h : k.Keeps g) (fine : k.Fine u) :
    k.Reads u (Parse.replacement g) u fun w _ => w.Whole k.names := by
  unfold Parse.replacement
  rw [location_iff]
  refine .bind (.refl fine) (.scan fine) fun _ t₁ l₁ _ passes => ?_
  rw [token_iff]
  dsimp only
  split
  · exact .unexpected_fail l₁ fun _ l => .fail l
  · next ident =>
      have ident : t₁.look.token = .ident := by simpa using ident
      refine .bind l₁ (h .term t₁ l₁.fine) fun target t₂ l₂ first read => ?_
      refine .bind l₂ (checkTarget l₂.fine target) fun _ t₃ l₃ second checked => ?_
      refine .tail l₃ (replacedBy h l₃.fine _ target) fun w t₄ later clean replaced => ?_
      have clean₃ := later.clean clean
      have clean₂ := second.clean clean₃
      -- where the word `with` stands there is a token, and behind it the one that the target starts with
      obtain ⟨c, stands⟩ := fine.stands
      obtain ⟨d, pass⟩ := passes (first.clean clean₂) c stands
      obtain ⟨kind, names⟩ := names_of_passes pass ident
      have at' := read clean₂ trivial d pass.stands
      obtain ⟨same, value⟩ := replaced
      have checked := checked clean₃
      refine ⟨⟨?_, ?_, ?_, value.1⟩, ?_, value.2⟩ <;> rw [same]
      · exact checked
      · exact lead_of_target at' kind names checked
      · exact at'.whole.1
      · exact at'.whole.2

/-- Replacements are whole, each of them. -/
theorem replacements (h : k.Keeps g) (fine : k.Fine u) (read : List With) :
    k.Reads u (Parse.replacements g read) u fun ws _ =>
      (∀ w ∈ read, w.Whole k.names) → ∀ w ∈ ws, w.Whole k.names := by
  refine .bind (.refl fine) (replacement h fine) fun w t₁ l₁ _ whole => ?_
  have all (clean : t₁.failures.size ≤ u.failures.size) (before : ∀ w ∈ read, w.Whole k.names) :
      ∀ x ∈ read ++ [w], x.Whole k.names := fun x hx => by
    rcases List.mem_append.1 hx with hx | hx
    · exact before x hx
    · exact List.mem_singleton.1 hx ▸ whole clean
  rw [token_iff]
  split
  · exact .tail l₁ (h (.replacements (read ++ [w])) t₁ l₁.fine) fun _ _ later clean given before =>
      given (all (later.clean clean) before)
  · exact .pure l₁ all

/-- A literal that had no replacements yet. -/
theorem replaced (h : k.Keeps g) (fine : k.Fine u) (e : Expr) :
    k.Reads u (Parse.replaced g e) u fun e' _ => e.withs = [] →
      ∃ ws, e' = { e with withs := ws } ∧ ∀ w ∈ ws, w.Whole k.names := by
  unfold Parse.replaced
  rw [token_iff]
  split
  · refine .bind (.refl fine) (h (.replacements []) u fine) fun ws t₁ l₁ _ given => ?_
    exact .pure l₁ fun clean _ => ⟨ws, rfl, given clean fun _ none => absurd none List.not_mem_nil⟩
  · refine .pure (.refl fine) fun _ none => ⟨[], ?_, fun _ none => absurd none List.not_mem_nil⟩
    obtain ⟨_, _, _, _, _, _⟩ := e
    cases none
    rfl

/-! ## Declarations

Behind `some` stand either variables, each of which is a word, or a membership, whose operator has the
arguments it takes. -/

/-- A declaration by a membership. -/
theorem whole_membership {names : String → Prop} {t : Term} {ts : List Term} {n : Nat}
    (whole : t.Whole names) (call : t.value = .call ts) (arity : memberArity? (operatorName ts) = some n)
    (length : ts.length = n) (l : Option Location) : ExprTerms.Whole names (.some [t] l) := by
  obtain ⟨own, below⟩ := Term.formed_iff.1 whole.2
  rw [call] at own below
  obtain ⟨op, path, args, rfl, operates, -⟩ := own
  have formed : op.Formed names := forall_walkTerms.1 below op List.mem_cons_self
  refine ⟨.inr ⟨t, op, args, rfl, call, ?_⟩, forall_walkTerms.2 fun x hx => ?_⟩
  · rw [List.length_cons] at length
    rcases isMember_of_arity operates formed arity with ⟨three, member⟩ | ⟨four, member⟩
    · obtain two : args.length = 2 := by omega
      exact ⟨two ▸ member, .inl two⟩
    · obtain three : args.length = 3 := by omega
      exact ⟨three ▸ member, .inr three⟩
  · exact List.mem_singleton.1 hx ▸ whole.2

/-- A membership behind `some` is whole if the term is, and if it has as many arguments as its operator
takes. -/
theorem declaredMembership (h : k.Keeps g) (fine : k.Fine u) (place : Location) {t : Term}
    {ts : List Term} (call : t.value = .call ts) :
    k.Reads u (Parse.declaredMembership g place t ts) u fun e _ =>
      t.Whole k.names → e.Whole k.names := by
  unfold Parse.declaredMembership
  split
  · exact .unexpected_fail (.refl fine) fun _ l => .fail l
  · next n arity =>
      split
      · next length =>
          refine (replaced h fine _).weaken fun e _ _ _ given whole => ?_
          obtain ⟨ws, rfl, withs⟩ := given rfl
          refine Expr.whole_of_parts ?_ (fun negated => by cases negated) withs fun symbols l same => ?_
          · exact whole_membership whole call arity (beq_iff_eq.1 length) _
          · intro vars
            obtain ⟨rfl, -⟩ := ExprTerms.some.inj same
            have var := vars t List.mem_cons_self
            -- a membership is no list of variables, so no replacements are ruled out
            rw [call] at var
            cases var
      · exact .unexpected_fail (.refl fine) fun _ l => .fail l

/-- What is declared are variables, each named by its token. -/
theorem symbols (h : k.Keeps g) (fine : k.Fine u) (read : List Term) :
    k.Reads u (Parse.symbols g read) u fun ts _ =>
      (∀ t ∈ read, t.Declared k.names) → ts ≠ [] ∧ ∀ t ∈ ts, t.Declared k.names := by
  refine .bind (.refl fine) (.scan fine) fun _ t₁ l₁ _ passes => ?_
  rw [token_iff]
  dsimp only
  split
  · exact .unexpected_fail l₁ fun _ l => .fail l
  · next ident =>
      have ident : t₁.look.token = .ident := by simpa using ident
      refine .bind l₁ (variableHere l₁.fine (.inl ident)) fun t t₂ l₂ first read' => ?_
      refine .bind l₂ (.scan l₂.fine) fun _ t₃ l₃ second _ => ?_
      have all (clean : t₃.failures.size ≤ u.failures.size)
          (before : ∀ t ∈ read, t.Declared k.names) : ∀ x ∈ read ++ [t], x.Declared k.names := by
        intro x hx
        rcases List.mem_append.1 hx with hx | hx
        · exact before x hx
        obtain rfl := List.mem_singleton.1 hx
        -- the variable is named by the token that it was read from
        have clean₂ := second.clean clean
        obtain ⟨c, stands⟩ := fine.stands
        obtain ⟨d, pass⟩ := passes (first.clean clean₂) c stands
        obtain ⟨-, names⟩ := names_of_passes pass ident
        obtain ⟨name, place, rfl, named, spelled⟩ := ((read' clean₂).2 d pass.stands).name
        refine ⟨⟨name, rfl, ?_⟩, Term.formed_iff.2 ⟨named, List.forall_mem_nil _⟩⟩
        exact spelled.imp id fun (own : name = d.word ∧ _) => own.1 ▸ names
      rw [token_iff]
      split
      · exact .tail l₃ (h (.symbols (read ++ [t])) t₃ l₃.fine) fun _ _ later clean given before =>
          given (all (later.clean clean) before)
      · exact .pure l₃ fun clean before =>
          ⟨List.append_ne_nil_of_right_ne_nil _ (List.cons_ne_nil _ _), all clean before⟩

/-- A reading for advice leaves what was read before as it was. -/
theorem suggestIn (h : k.Keeps g) (fine : k.Fine u) :
    k.Reads u (Parse.suggestIn g u.save) u fun _ _ => True := by
  unfold Parse.suggestIn
  rw [env_iff]
  split
  · refine .bind (.refl fine) (.scan fine) fun _ t₁ l₁ first _ => ?_
    refine .bind l₁ (.withFutureKeywords (P := fun _ => True) l₁.fine fun v there => ?_)
      fun t t₂ l₂ _ _ => ?_
    · exact (Reads.attempt (h (.compound true) v there)).weaken fun _ _ _ _ _ => trivial
    · refine .restore fine l₂ fun t' back => ?_
      split
      · exact .tail (back.later fine) (.hint back.fine) fun _ _ _ _ _ => trivial
      · exact .pure (back.later fine) fun _ => trivial
  · exact .pure (.refl fine) fun _ => trivial

/-- Variables are read from the word of the declaration on. -/
theorem declaredSymbols (h : k.Keeps g) (there : k.Fine w) (here : k.Later w u) (place : Location) :
    k.Reads w (Parse.declaredSymbols g place w.save) u fun e _ => e.Whole k.names := by
  refine .restore there here fun t back => ?_
  have since := back.later there
  refine .bind since (back.save ▸ suggestIn h back.fine) fun _ t₁ l₁ _ _ => ?_
  refine .bind l₁ (h (.symbols []) t₁ l₁.fine) fun ts t₂ l₂ _ given => .pure l₂ fun clean => ?_
  obtain ⟨filled, declared⟩ := given clean fun _ none => absurd none List.not_mem_nil
  exact Expr.whole_of_parts ⟨.inl ⟨filled, fun t ht => (declared t ht).1⟩,
    forall_walkTerms.2 fun t ht => (declared t ht).2⟩ (fun negated => by cases negated)
    (fun _ none => absurd none List.not_mem_nil) fun _ _ _ _ => rfl

/-- A declaration is whole in both of its forms. -/
theorem declaration (h : k.Keeps g) (fine : k.Fine u) :
    k.Reads u (Parse.declaration g) u fun e _ => e.Whole k.names := by
  unfold Parse.declaration
  rw [location_iff, save_iff]
  refine .bind (.refl fine) (.scan fine) fun _ t₁ l₁ _ _ => ?_
  refine .bind l₁ (.attempt (h (.compound true) t₁ l₁.fine)) fun a t₂ l₂ _ given => ?_
  split
  · next t =>
      split
      · next ts call =>
          refine .tail l₂ (declaredMembership h l₂.fine _ call) fun e _ later clean whole => ?_
          exact whole (given (later.clean clean) t rfl trivial)
      · exact declaredSymbols h fine l₂ _
  · exact declaredSymbols h fine l₂ _

/-! ## Quantified queries

A quantified query has the variables of a membership, which are words too, and a query of its own. -/

/-- What a quantified query is made of, out of a membership. -/
theorem whole_of_quantified {names : String → Prop} {t value domain : Term} {key : Option Term}
    (whole : t.Whole names) (made : quantified t = .ok (key, value, domain)) :
    (∀ k ∈ key, k.value.isVar = true ∧ k.Whole names) ∧
      (value.value.isVar = true ∧ value.Whole names) ∧ domain.Whole names := by
  unfold quantified at made
  split at made
  · next ts call =>
      obtain ⟨own, below⟩ := Term.formed_iff.1 whole.2
      rw [call] at own below
      obtain ⟨op, path, args, rfl, -, stand, -⟩ := own
      -- the arguments of the membership are whole, and one of them each is the key, the value and the domain
      have parts : ∀ x ∈ args, x.Whole names := fun x hx =>
        ⟨stand x hx, forall_walkTerms.1 below x (List.mem_cons_of_mem _ hx)⟩
      unfold quantifiedTerms at made
      split at made
      · next v d same =>
          obtain ⟨-, rfl⟩ := List.cons.inj same
          split at made
          · next var =>
              cases made
              exact ⟨fun _ none => absurd none (by simp), ⟨var, parts _ (by simp)⟩, parts _ (by simp)⟩
          · cases made
      · next k v d same =>
          obtain ⟨-, rfl⟩ := List.cons.inj same
          split at made
          · cases made
          · next keyVar =>
              split at made
              · cases made
              · next var =>
                  cases made
                  refine ⟨fun x hx => ?_, ⟨by simpa using var, parts _ (by simp)⟩, parts _ (by simp)⟩
                  obtain rfl := Option.some.inj hx
                  exact ⟨by simpa using keyVar, parts _ (by simp)⟩
      · cases made
      · cases made
  · cases made

/-- A quantified query is whole by its variables, its domain and its body. -/
theorem quantifiedQuery (h : k.Keeps g) (fine : k.Fine u) (place : Location) (key : Option Term)
    (value domain : Term) :
    k.Reads u (Parse.quantifiedQuery g place key value domain) u fun e _ =>
      (∀ t ∈ key, t.value.isVar = true ∧ t.Whole k.names) →
        (value.value.isVar = true ∧ value.Whole k.names) → domain.Whole k.names →
          e.Whole k.names := by
  unfold Parse.quantifiedQuery
  rw [token_iff]
  dsimp only
  split
  · exact .unexpected_fail (.refl fine) fun _ l => .fail l
  · refine .bind (.refl fine) (.scan fine) fun _ t₁ l₁ _ _ => ?_
    refine .bind l₁ (h (.body .rbrace) t₁ l₁.fine) fun b t₂ l₂ _ given => ?_
    refine .bind l₂ (.scan l₂.fine) fun _ t₃ l₃ closed _ => ?_
    refine .tail l₃ (replaced h l₃.fine _) fun e t₄ later clean made keyed valued ranges => ?_
    have body : b.Whole k.names := given (closed.clean (later.clean clean)) trivial
    obtain ⟨ws, rfl, withs⟩ := made rfl
    refine Expr.whole_of_parts ⟨⟨fun t ht => ?_, valued.1, valued.2.1, ranges.1⟩, fun n hn => ?_⟩
      (fun negated => by cases negated) withs fun _ _ other => by cases other
    · exact ⟨(keyed t ht).1, (keyed t ht).2.1⟩
    · simp only [Expr.placed, Expr.ofTerms, ExprTerms.walkParts, List.mem_append] at hn
      -- the nodes are those of the key, the value, the domain and the body
      rcases hn with ((hn | hn) | hn) | hn
      · obtain ⟨t, ht, hn⟩ := mem_walkKey.1 hn
        exact (keyed t ht).2.2 n hn
      · exact valued.2.2 n hn
      · exact ranges.2 n hn
      · exact body n hn

/-- The variables of a quantified query come out of a membership. -/
theorem quantifier (h : k.Keeps g) (fine : k.Fine u) :
    k.Reads u (Parse.quantifier g) u fun e _ => e.Whole k.names := by
  unfold Parse.quantifier
  rw [location_iff]
  refine .bind (.refl fine) (.scan fine) fun _ t₁ l₁ _ _ => ?_
  refine .bind l₁ (h (.compound true) t₁ l₁.fine) fun t t₂ l₂ _ given => ?_
  split
  · exact .unexpected_fail l₂ fun _ l => .fail l
  · next key value domain made =>
      refine .tail l₂ (quantifiedQuery h l₂.fine _ key value domain)
        fun e _ later clean whole => ?_
      obtain ⟨keyed, valued, ranges⟩ :=
        whole_of_quantified (given (later.clean clean) trivial) made
      exact whole keyed valued ranges

/-! ## Literals

A literal is tried in its four forms, and each form is whole for its own reason. -/

/-- A reading for advice leaves what was read before as it was. -/
theorem suggestEvery (h : k.Keeps g) (there : k.Fine w) (here : k.Later w u) (e : Expr) :
    k.Reads u (Parse.suggestEvery g w.save e) u fun _ _ => True := by
  unfold Parse.suggestEvery
  rw [env_iff]
  split
  · refine .bind (.refl here.fine) (.probe (P := fun _ _ => True) there here fun t back => ?_)
      fun q t₁ l₁ _ _ => ?_
    · exact (Reads.withFutureKeywords (P := fun _ => True) back.fine fun v fine =>
        (quantifier h fine).weaken fun _ _ _ _ _ => trivial)
    · split
      · exact .tail l₁ (.hint l₁.fine) fun _ _ _ _ _ => trivial
      · exact .pure l₁ fun _ => trivial
  · exact .pure (.refl here.fine) fun _ => trivial

/-- A plain literal may have a sign, as it is a term or a call. -/
theorem plainLiteral (h : k.Keeps g) (fine : k.Fine u) (negated : Bool) :
    k.Reads u (Parse.plainLiteral g negated) u fun e _ => e.Whole k.names := by
  unfold Parse.plainLiteral
  rw [save_iff]
  refine .bind (.refl fine) (expression h fine) fun e t₁ l₁ _ read => ?_
  refine .bind l₁ (replaced h l₁.fine _) fun e' t₂ l₂ second made => ?_
  refine .bind l₂ (suggestEvery h fine l₂ e') fun _ t₃ l₃ third _ => .pure l₃ fun clean => ?_
  have clean₂ := third.clean clean
  obtain ⟨terms, rfl, whole, plain⟩ := read (second.clean clean₂)
  obtain ⟨ws, rfl, withs⟩ := made clean₂ rfl
  refine Expr.whole_of_parts whole (fun _ => plain) withs fun _ _ same => ?_
  obtain rfl : terms = _ := same
  cases plain

/-- The word of a negation has no node of its own. -/
theorem negation (fine : k.Fine u) : k.Reads u Parse.negation u fun _ _ => True := by
  unfold Parse.negation
  rw [token_iff]
  split
  · exact .pure (.refl fine) fun _ => trivial
  · rw [peekBlank_iff]
    split
    · exact .pure (.refl fine) fun _ => trivial
    · exact .bind (.refl fine) (.scan fine) fun _ _ l _ _ => .pure l fun _ => trivial

/-- A literal is whole in whichever form it is read. -/
theorem unplacedLiteral (h : k.Keeps g) (fine : k.Fine u) :
    k.Reads u (Parse.unplacedLiteral g) u fun e _ => e.Whole k.names := by
  unfold Parse.unplacedLiteral
  refine .bind (.refl fine) (.startsRefWithKeyword fine) fun keyword t₁ l₁ _ _ => ?_
  split
  · exact .tail l₁ (plainLiteral h l₁.fine false) fun _ _ _ _ whole => whole
  · refine .bind l₁ (negation l₁.fine) fun negated t₂ l₂ _ _ => ?_
    rw [token_iff]
    split
    · split
      · exact .unexpected_fail l₂ fun _ l => .fail l
      · exact .tail l₂ (declaration h l₂.fine) fun _ _ _ _ whole => whole
    · split
      · exact .unexpected_fail l₂ fun _ l => .fail l
      · exact .tail l₂ (quantifier h l₂.fine) fun _ _ _ _ whole => whole
    · exact .tail l₂ (plainLiteral h l₂.fine negated) fun _ _ _ _ whole => whole

/-- The place of a literal has no say in whether it is whole. -/
theorem literal (h : k.Keeps g) (fine : k.Fine u) :
    k.Reads u (Parse.literal g) u fun e _ => e.Whole k.names := by
  unfold Parse.literal
  rw [location_iff]
  refine .bind (.refl fine) (unplacedLiteral h fine) fun e t₁ l₁ _ whole => ?_
  rw [upToLastStop_iff]
  exact .pure l₁ fun clean => (whole clean).moved _ _ _

/-! ## Queries

The literals of a query are numbered in the order in which they are read. -/

/-- The literals of a query are whole, and stand in the order of their numbers. -/
theorem literals (h : k.Keeps g) (fine : k.Fine u) (oneLine : Bool) (stop : Token) (read : Body) :
    k.Reads u (Parse.literals g oneLine stop read) u fun b _ =>
      Body.Sequence k.names read → b.Whole k.names := by
  unfold Parse.literals
  refine .bind (.refl fine) (h .literal u fine) fun e t₁ l₁ _ given => ?_
  -- with the literal that was read, the query is a sequence up to here
  have pushed (clean : t₁.failures.size ≤ u.failures.size) (before : Body.Sequence k.names read) :
      Body.Sequence k.names (Body.push read e) := before.push (given clean trivial)
  have onward {t : Reading} (l : k.Later u t) (after : k.Later t₁ t) :
      k.Reads u (g (.literals oneLine stop (Body.push read e))) t fun b _ =>
        Body.Sequence k.names read → b.Whole k.names :=
    .tail l (h _ t l.fine) fun _ _ later clean given before =>
      given (pushed (after.clean (later.clean clean)) before)
  rw [token_iff]
  dsimp only
  split
  · exact .bind l₁ (.scan l₁.fine) fun _ t₂ l₂ after _ => onward l₂ after
  · split
    · exact .pure l₁ fun clean before =>
        Body.whole_iff.2 ⟨Body.push_ne_nil read e, pushed clean before⟩
    · rw [look_iff]
      split
      · exact onward l₁ (.refl l₁.fine)
      · rw [noFailures_iff]
        split
        · exact .unexpected_fail l₁ fun _ l => .fail l
        · exact .fail l₁

/-- A query has one literal at least. -/
theorem query (h : k.Keeps g) (fine : k.Fine u) (oneLine : Bool) (stop : Token) :
    k.Reads u (Parse.query g oneLine stop) u fun b _ => b.Whole k.names := by
  unfold Parse.query
  rw [token_iff]
  split
  · exact .reportHere_fail (.refl fine) fun _ l => .fail l
  · exact (h (.literals oneLine stop []) u fine).weaken fun _ _ _ _ given =>
      given Body.sequence_nil

/-- A query in braces is whole as a query. -/
theorem body (h : k.Keeps g) (fine : k.Fine u) (stop : Token) :
    k.Reads u (Parse.body g stop) u fun b _ => b.Whole k.names :=
  .nested (.refl fine) (query h fine false stop)

end Keeps

end Course

end RegoSyntax
