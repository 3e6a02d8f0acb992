/-
# RegoSyntax.Proofs.Printing.Echoes — every printed term and every printed expression is read back.

The induction is on the size of a tree, and is over three statements at once: a term that stands for a value
is read back, the parser comes from a head to what it goes on with, and an expression is read back.  What
is asked of the parts of a tree is what is known of smaller trees, so each kind of node is looked at by
itself.

The size of a tree is that of its constructors, so that a part is smaller than the tree whatever kind of
node it is a part of; an induction over the constructors alone would have to go through lists, pairs and
options.
-/
import RegoSyntax.Proofs.Printing.Declarations

namespace RegoSyntax

open Parse Lexeme

/-- A variable of a declaration is read back. -/
theorem Term.Printed.symbol {p : Page} {t : Term} {name : String} (h : t.Printed)
    (value : t.value = .var name) (free : Free Unreserved name) : t.Symbol p := by
  obtain ⟨v, l⟩ := t
  obtain rfl : v = .var name := value
  have free : Unreserved name := by
    have printable := (Term.printed_iff.1 h).2.1
    rcases free with wild | free
    · simp [Value.isPrintable, wild] at printable
    · exact free
  have speakable := speakable_var h (.inl free)
  have begins (r : List Char) (closes : Closes r) : Term.Begins p ⟨.var name, l⟩ r :=
    begins_variable speakable closes.apart
  have filled : Term.text ⟨.var name, l⟩ ≠ [] :=
    (Term.opening _ h fun _ same => Value.var.inj same ▸ speakable).filled h
  refine ⟨⟨name, rfl, speakable.word, speakable.named, free⟩, ?_⟩
  -- the guess at a declared variable is the variable itself
  rcases root : isRoot (.var name) with _ | _
  · have plain : Term.Plain ⟨.var name, l⟩ := ⟨h, root, .inl (.inr free)⟩
    exact ⟨_, ⟨plain, Term.Begins.echoes begins root filled⟩, rfl, rfl⟩
  · -- the root of a document is a path on its own
    have printable : Value.isPrintable (.ref [⟨.var name, l⟩]) = true := by
      show (some name).all isSpeakable = true
      rw [Option.all_some, isSpeakable_iff]
      exact .inl free
    have printed : Term.Printed ⟨.ref [⟨.var name, l⟩], none⟩ :=
      Term.printed_iff.2 ⟨⟨_, [], rfl, rfl, List.forall_mem_nil _⟩, printable,
        forall_printed.2 (List.forall_mem_singleton.2 h)⟩
    refine ⟨⟨.ref [⟨.var name, l⟩], none⟩, ⟨⟨printed, .inr ⟨_, rfl, root⟩⟩, ?_⟩, ?_, rfl⟩
    · exact Term.Begins.root begins root filled
    · rw [text_ref, renderSegments, String.toList_empty, List.append_nil]

/-- The variables of a declaration. -/
theorem Expr.back_of_names {p : Page} {e : Expr} {symbols : List Term} {l : Option Location}
    (terms : e.terms = .some symbols l)
    (sign : e.negated = false) (bare : e.withs = []) (names : DeclaresNames Unreserved symbols)
    (printed : ∀ t ∈ symbols, t.Printed) : e.Back p := by
  obtain ⟨filled, names⟩ := names
  obtain ⟨t, ts, rfl⟩ := List.exists_cons_of_ne_nil filled
  refine Expr.back_of_symbols terms sign bare fun u hu => ?_
  obtain ⟨name, value, free⟩ := names u hu
  exact (printed u hu).symbol value free

/-- All trees below a size are read back. -/
structure Below (p : Page) (n : Nat) : Prop where
  terms : ∀ t : Term, sizeOf t < n → t.Plain → t.Back p
  heads : ∀ t : Term, sizeOf t < n → t.Heads → t.Leads p
  exprs : ∀ e : Expr, sizeOf e < n → e.Printed → e.Back p

namespace Below

variable {p : Page} {n : Nat} (below : Below p n)
include below

/-- A path is followed to its end. -/
theorem leading {head : Term} {segments : List Term} (heads : head.Heads)
    (plain : ∀ t ∈ segments, t.Plain) (size : sizeOf (head :: segments) < n) :
    Leading p head segments := by
  have parts : ∀ t ∈ head :: segments, sizeOf t < n := fun t ht =>
    (List.sizeOf_lt_of_mem ht).trans size
  exact ⟨below.heads head (parts head List.mem_cons_self) heads, heads.heads,
    fun t ht => below.terms t (parts t (List.mem_cons_of_mem _ ht)) (plain t ht)⟩

/-- A call is read back. -/
theorem called {op : Term} {args : List Term} {l : Option Location} (operates : op.Operates)
    (plain : ∀ t ∈ args, t.Plain) (other : args = [] → isSetConstructor op = false)
    (size : sizeOf (op :: args) < n) : Term.Called p ⟨.call (op :: args), l⟩ := by
  obtain ⟨head, segments, path, heads, segmentsPlain, result⟩ := operates.path
  have inPath : sizeOf (head :: segments) < n := by
    obtain ⟨v, l⟩ := op
    obtain rfl : v = .ref (head :: segments) := path
    simp only [List.cons.sizeOf_spec, Term.mk.sizeOf_spec, Value.ref.sizeOf_spec] at size ⊢
    omega
  refine (below.leading heads segmentsPlain inPath).called path result (fun t ht => ?_) other
  exact below.terms t ((List.sizeOf_lt_of_mem (List.mem_cons_of_mem _ ht)).trans size) (plain t ht)

/-- What stands between brackets begins a term. -/
theorem begins {v : Value} {l : Option Location} (plain : Term.Printed ⟨v, l⟩) (size : sizeOf v < n + 1)
    (collection : canHeadRef v = true) (other : Term.isResult ⟨v, l⟩ = false) (noVar : v.isVar = false)
    (r : List Char) : Term.Begins p ⟨v, l⟩ r := by
  cases v with
  | array ts =>
      -- the parts of a composite value are smaller than it, so the induction reaches them
      refine begins_array fun t ht => ?_
      have := List.sizeOf_lt_of_mem ht
      simp only [Value.array.sizeOf_spec] at size
      exact below.terms t (by omega) (printed_array plain t ht)
  | set ts =>
      refine begins_set (fun t ht => ?_) ?_
      · have := List.sizeOf_lt_of_mem ht
        simp only [Value.set.sizeOf_spec] at size
        exact below.terms t (by omega) (printed_set plain t ht)
      -- the empty set is written as a call, and is not one of the results
      · rintro rfl
        cases other
  | object qs =>
      refine begins_object fun q hq => ?_
      have := List.sizeOf_lt_of_mem hq
      obtain ⟨k, v⟩ := q
      obtain ⟨key, value⟩ := printed_object plain _ hq
      simp only [Value.object.sizeOf_spec, Prod.mk.sizeOf_spec] at size this
      exact ⟨below.terms k (by omega) key, below.terms v (by omega) value⟩
  | arrayComprehension t b =>
      obtain ⟨element, filled, exprs⟩ := printed_arrayComprehension plain
      simp only [Value.arrayComprehension.sizeOf_spec] at size
      refine begins_arrayComprehension filled (fun e he => ?_) (below.terms t (by omega) element)
      have := List.sizeOf_lt_of_mem he
      exact below.exprs e (by omega) (exprs e he)
  | setComprehension t b =>
      obtain ⟨element, filled, exprs⟩ := printed_setComprehension plain
      simp only [Value.setComprehension.sizeOf_spec] at size
      refine begins_setComprehension filled (fun e he => ?_) (below.terms t (by omega) element)
      have := List.sizeOf_lt_of_mem he
      exact below.exprs e (by omega) (exprs e he)
  | objectComprehension k v b =>
      obtain ⟨⟨key, value⟩, filled, exprs⟩ := printed_objectComprehension plain
      simp only [Value.objectComprehension.sizeOf_spec] at size
      refine begins_objectComprehension filled (fun e he => ?_) (below.terms k (by omega) key)
        (below.terms v (by omega) value)
      have := List.sizeOf_lt_of_mem he
      exact below.exprs e (by omega) (exprs e he)
  | var _ => cases noVar
  | call _ => cases other
  | _ => cases collection

/-- A head leads on. -/
theorem leads {t : Term} (size : sizeOf t < n + 1) (h : t.Heads) : t.Leads p := by
  obtain ⟨v, l⟩ := t
  simp only [Term.mk.sizeOf_spec] at size
  -- a result has been made by a call, and any other head begins a term
  rcases made : Term.isResult ⟨v, l⟩ with _ | _
  · cases v with
    | var name => exact (h.speakable name rfl).leads l
    | _ =>
        intro r opens _
        have filled := h.opening.filled h.printed
        exact (below.begins h.printed (by omega) h.heads made rfl r).continues opens filled
  · cases v with
    | set ts =>
        cases ts with
        | nil => exact called_set.leads rfl
        | cons => cases made
    | call terms =>
        obtain ⟨op, args, rfl, operates, plain, other⟩ := printed_call h.printed
        simp only [Value.call.sizeOf_spec] at size
        exact (below.called operates plain other (by omega)).leads rfl
    | _ => cases made

/-- A term that stands for a value is read back. -/
theorem echoes {t : Term} (size : sizeOf t < n + 1) (h : t.Plain) : t.Echoes p := by
  obtain ⟨v, l⟩ := t
  have filled := h.opening.filled h.1
  simp only [Term.mk.sizeOf_spec] at size
  cases v with
  | null => exact Term.Begins.echoes (fun r closes => begins_constant (.inl rfl) closes.apart) rfl filled
  | boolean b =>
      exact Term.Begins.echoes (fun r closes => begins_constant (.inr ⟨b, rfl⟩) closes.apart) rfl filled
  | number spelling =>
      have spelled : Spelled spelling := (Term.printed_iff.1 h.1).1
      exact Term.Begins.echoes (fun r closes => begins_number spelled closes) rfl filled
  | string s => exact Term.Begins.echoes (fun r closes => begins_string s) rfl filled
  | var name =>
      have speakable := h.speakable
      exact Term.Begins.echoes (fun r closes => begins_variable speakable closes.apart) h.2.1 filled
  | ref path =>
      -- a path of one segment is a bare root variable; a longer one is led back by its head
      obtain ⟨head, segments, rfl, heads, plain⟩ := printed_ref h.1
      simp only [Value.ref.sizeOf_spec] at size
      cases segments with
      | nil =>
          obtain ⟨w, m⟩ := head
          have root : isRoot w = true := by
            rcases h.2 with long | ⟨t, only, root⟩
            · exact absurd long (Nat.not_succ_le_self 1)
            · obtain ⟨rfl, -⟩ := List.cons.inj only
              exact root
          obtain ⟨name, rfl⟩ : ∃ name, w = .var name := by
            cases w <;> first | exact ⟨_, rfl⟩ | cases root
          have speakable := heads.speakable name rfl
          exact Term.Begins.root (fun r closes => begins_variable speakable closes.apart) root
            (heads.opening.filled heads.printed)
      | cons t ts => exact (below.leading heads plain (by omega)).echoes
  | call terms =>
      obtain ⟨op, args, rfl, operates, plain, other⟩ := printed_call h.1
      simp only [Value.call.sizeOf_spec] at size
      exact (below.called operates plain other (by omega)).echoes
  | set ts =>
      -- the empty set is written `set()` and is read as a call, the others between braces
      cases ts with
      | nil => exact called_set.echoes
      | cons t ts =>
          exact Term.Begins.echoes (fun r _ => below.begins h.1 (by omega) rfl rfl rfl r) rfl filled
  | _ => exact Term.Begins.echoes (fun r _ => below.begins h.1 (by omega) rfl rfl rfl r) rfl filled

/-- A replacement is read back. -/
theorem replaces {w : With} (size : sizeOf w < n) (formed : w.Formed Unreserved) (target : w.target.Printed)
    (value : w.value.Printed) : w.Back p := by
  obtain ⟨t, v, l⟩ := w
  simp only [With.mk.sizeOf_spec] at size
  have plain : t.Plain := ⟨target, formed.targetStands⟩
  refine ⟨below.terms t (by omega) plain, below.terms v (by omega) ⟨value, formed.valueStands⟩,
    formed.target, ?_⟩
  obtain ⟨name, lead, free⟩ := formed.lead
  obtain ⟨speakable, s, text, behind⟩ := plain.opening.lead lead
  refine ⟨name, s, speakable.word, ?_, text, behind⟩
  rcases free with wild | free
  · rw [speakable.tame] at wild
    cases wild
  · exact free

/-- The membership of a declaration. -/
theorem declares_members {e : Expr} {symbols : List Term} {l : Option Location} (size : sizeOf symbols < n)
    (terms : e.terms = .some symbols l) (sign : e.negated = false) (withs : ∀ w ∈ e.withs, w.Back p)
    (members : DeclaresMembers symbols) (printed : ∀ t ∈ symbols, t.Printed) : e.Back p := by
  obtain ⟨⟨v, m⟩, op, args, rfl, call, member, length⟩ := members
  obtain rfl : v = .call (op :: args) := call
  obtain ⟨_, _, cons, -, plain, -⟩ := printed_call (printed _ List.mem_cons_self)
  obtain ⟨rfl, rfl⟩ := List.cons.inj cons
  have back : ∀ t ∈ args, t.Back p := fun t ht => by
    have := List.sizeOf_lt_of_mem ht
    simp only [List.cons.sizeOf_spec, Term.mk.sizeOf_spec, Value.call.sizeOf_spec] at size
    exact below.terms t (by omega) (plain t ht)
  rcases length with two | three
  · obtain ⟨a, d, rfl⟩ := List.length_eq_two.1 two
    exact Expr.back_of_member sign withs (back a (by simp)) (back d (by simp)) terms member
  · obtain ⟨k, a, d, rfl⟩ := List.length_eq_three.1 three
    exact Expr.back_of_keyed sign withs (back a (by simp)) (back d (by simp)) terms member (back k (by simp))

/-- A quantified query. -/
theorem quantifies {e : Expr} {k : Option Term} {v d : Term} {b : List Expr} {l : Option Location}
    (size : sizeOf (ExprTerms.every k v d b l) < n) (terms : e.terms = .every k v d b l)
    (sign : e.negated = false) (withs : ∀ w ∈ e.withs, w.Back p)
    (formed : ExprTerms.Formed Unreserved (.every k v d b l))
    (printed : ExprTerms.Printed (.every k v d b l)) : e.Back p := by
  obtain ⟨keys, isVar, valueStands, domainStands⟩ := formed
  obtain ⟨before, body⟩ := List.forall_mem_append.1 printed
  obtain ⟨before, domain⟩ := List.forall_mem_append.1 before
  obtain ⟨key, value⟩ := List.forall_mem_append.1 before
  obtain ⟨filled, exprs⟩ := printed_body body
  -- the query has a first expression
  obtain ⟨f, fs, rfl⟩ := List.exists_cons_of_ne_nil filled
  simp only [ExprTerms.every.sizeOf_spec] at size
  have back : ∀ e ∈ f :: fs, e.Back p := fun e he => by
    have := List.sizeOf_lt_of_mem he
    exact below.exprs e (by omega) (exprs e he)
  have first := back f List.mem_cons_self
  have others : ∀ e ∈ fs, e.Back p := fun e he => back e (List.mem_cons_of_mem _ he)
  have value := below.terms v (by omega) ⟨value, valueStands⟩
  have domain := below.terms d (by omega) ⟨domain, domainStands⟩
  -- with a key there is one more variable to read
  cases k with
  | none => exact Expr.back_of_every sign withs value isVar domain first others terms
  | some k =>
      obtain ⟨keyVar, keyStands⟩ := keys k rfl
      simp only [Option.some.sizeOf_spec] at size
      have key := below.terms k (by omega) ⟨key, keyStands⟩
      exact Expr.back_of_every_keyed sign withs value isVar domain first others terms key keyVar

/-- An expression is read back. -/
theorem expr {e : Expr} (size : sizeOf e < n + 1) (h : e.Printed) : e.Back p := by
  obtain ⟨formed, printable, parts, targets⟩ := Expr.printed_iff.1 h
  have withs : ∀ w ∈ e.withs, w.Back p := fun w hw => by
    have := List.sizeOf_lt_of_mem hw
    have inside : sizeOf e.withs < sizeOf e := by
      cases e
      simp only [Expr.mk.sizeOf_spec]
      omega
    exact below.replaces (by omega) (formed.withs w hw) (targets w hw).1 (targets w hw).2
  have size : sizeOf e.terms < n := by
    cases e
    simp only [Expr.mk.sizeOf_spec] at size ⊢
    omega
  -- a sign stands in front of terms and calls only
  have sign (other : e.terms.isPlain = false) : e.negated = false :=
    Bool.eq_false_iff.2 fun negated => by rw [formed.sign negated] at other; cases other
  have self := formed.terms
  -- a term, a call, a declaration, or a quantified query
  rcases terms : e.terms with t | ts | ⟨symbols, l⟩ | ⟨k, v, d, b, l⟩ <;>
    rw [terms] at parts size self sign
  · simp only [ExprTerms.term.sizeOf_spec] at size
    have back := below.terms t (by omega) ⟨parts, self.1⟩
    exact Expr.back_of_term (terms ▸ .term self.2) back withs
  · have printable : ts.head?.all (!·.callsResult) = true := by
      rwa [Visit.isPrintable, Expr.operator?, terms] at printable
    obtain ⟨op, args, rfl, operates, plain, other⟩ := printed_applies self printable (forall_printed.1 parts)
    simp only [ExprTerms.call.sizeOf_spec] at size
    have called := below.called (l := none) operates plain other (by omega)
    have printed : Term.Printed ⟨.call (op :: args), none⟩ := Term.printed_iff.2 ⟨self, printable, parts⟩
    exact Expr.back_of_term (terms ▸ .call) ⟨⟨printed, trivial⟩, called.echoes⟩ withs
  · simp only [ExprTerms.some.sizeOf_spec] at size
    have printed := forall_printed.1 parts
    rcases self with names | members
    · have bare := formed.bare symbols l terms fun t ht => by
        obtain ⟨name, value, -⟩ := names.2 t ht
        rw [value]
        rfl
      exact Expr.back_of_names terms (sign rfl) bare names printed
    · exact below.declares_members (by omega) terms (sign rfl) withs members printed
  · exact below.quantifies size terms (sign rfl) withs self parts

end Below

/-- All trees are read back. -/
theorem below (p : Page) (n : Nat) : Below p n := by
  induction n with
  | zero => exact ⟨fun _ h => absurd h (Nat.not_lt_zero _), fun _ h => absurd h (Nat.not_lt_zero _),
      fun _ h => absurd h (Nat.not_lt_zero _)⟩
  | succ n ih =>
      exact ⟨fun _ size plain => ⟨plain, ih.echoes size plain⟩, fun _ size heads => ih.leads size heads,
        fun _ size printed => ih.expr size printed⟩

/-- A printed expression is read back. -/
theorem Expr.Printed.back {e : Expr} (h : e.Printed) (p : Page) : e.Back p :=
  (below p (sizeOf e + 1)).exprs e (Nat.lt_succ_self _) h

end RegoSyntax
