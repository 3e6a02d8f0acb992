/-
# RegoSyntax.Proofs.Keeping — what productions give.

`Production.Given` is what a production relies on in what has been read before, and `Production.Gives` is
what its result is like.  A grammar keeps to this (`Course.Keeps`) when all its productions do.  Every rule
is shown to keep to it where the productions below it do; references and calls are the first.

What a production gives is told by the cursor that it starts at, because a term that stands alone is a
variable there and the head of a path elsewhere: `Course.Heads` says which of the two a term may become,
and `Heads.alone` that it becomes the first where nothing is adjoined.
-/
import RegoSyntax.Proofs.Courses
import RegoSyntax.Proofs.RuleForms

namespace RegoSyntax

open Parse

/-! ## What productions give

For each production there is what it relies on and what it gives.  The grammar is shown to keep to them
once, and proofs about one production use them for the ones below it. -/

/-- A path that has been read up to here: a head that may be one, and segments. -/
def Ref.Begun (names : String → Prop) (path : Ref) : Prop :=
  ∃ head segments, path = head :: segments ∧ canHeadRef head.value = true ∧ head.Formed names ∧
    ∀ t ∈ segments, t.Whole names

/-- A token that a term goes on with. -/
def Token.isOpening (kind : Token) : Bool := kind == .lparen || kind == .dot || kind == .lbrack

/-- A variable that is declared. -/
def Term.Declared (names : String → Prop) (t : Term) : Prop :=
  (∃ name, t.value = .var name ∧ Free names name) ∧ t.Formed names

namespace Production

variable (k : Course)

/-- What a production relies on. -/
def Given : {α : Type} → Production α → Reading → Prop
  | _, .reference head _, u => head.Formed k.names ∧ u.look.token.isOpening = true
  | _, .segments _ _ path, u =>
    path.Begun k.names ∧ (2 ≤ path.length ∨ u.look.token.isOpening = true)
  | _, .membership _ left _, _ => ∀ t ∈ left, t.Whole k.names
  | _, .operation _ left _, _ => ∀ t ∈ left, t.Whole k.names
  | _, .literals _ _ read, _ => Body.Sequence k.names read
  | _, .replacements read, _ => ∀ w ∈ read, w.Whole k.names
  | _, .symbols read, _ => ∀ t ∈ read, t.Declared k.names
  | _, .alternative head, _ => head.Whole k.names ∧ head.key = none
  | _, .siblings first _, _ => first.Sound k.names
  | _, _, _ => True

/-- What a production gives. -/
def Gives : {α : Type} → Production α → Reading → α → Prop
  | _, .term, u, t => ∀ c, k.Stands c u.look → k.TermAt c t
  | _, .reference head _, _, t =>
    canHeadRef head.value = true ∧ t.Whole k.names ∧ t.lead = head.lead
  | _, .segments _ _ path, _, t => t.Whole k.names ∧ t.lead = leadOf path
  | _, .elements stop read, u, ts => ∃ more, ts = read ++ more ∧ (∀ t ∈ more, t.Whole k.names) ∧
    (u.look.token ≠ stop → more ≠ [])
  | _, .pairs _ read, _, ps => ∃ more, ps = read ++ more ∧
    ∀ p ∈ more, p.1.Whole k.names ∧ p.2.Whole k.names
  | _, .compound _, _, t => t.Whole k.names
  | _, .membership .., _, t => t.Whole k.names
  | _, .operation .., _, t => t.Whole k.names
  | _, .body _, _, b => b.Whole k.names
  | _, .literals .., _, b => b.Whole k.names
  | _, .literal, _, e => e.Whole k.names
  | _, .replacements _, _, ws => ∀ w ∈ ws, w.Whole k.names
  | _, .symbols _, _, ts => ts ≠ [] ∧ ∀ t ∈ ts, t.Declared k.names
  | _, .alternative head, _, r =>
    ∀ link ∈ r.links, link.Sound k.names ∧ link.Alternates head
  | _, .siblings first read, _, rs => ∃ more, rs = read ++ more ∧
    (more ≠ [] → first.elseRule = none) ∧
    ∀ r ∈ more, r.Good k.names ∧ r.elseRule = none ∧ r.isFurther = true

end Production

/-! ## Terms by their parts

A path is led by its first name through any number of calls and references. -/

/-- The operator of a call that makes the empty set is the word for it. -/
theorem lead_of_setConstructor {op : Term} (constructs : isSetConstructor op = true) :
    op.lead = some setConstructor := by
  obtain ⟨v, l⟩ := op
  unfold isSetConstructor at constructs
  split at constructs
  · next head operates =>
      obtain rfl : v = .ref [head] := operates
      obtain ⟨w, m⟩ := head
      have named : w.varName? = some setConstructor := by
        simpa [Value.isVarNamed] using constructs
      cases w with
      | var name => exact congrArg some (Option.some.inj named)
      | _ => cases named
  · cases constructs

namespace Ref.Begun

variable {names : String → Prop} {path : Ref}

/-- One more segment makes a longer path. -/
theorem push (h : Ref.Begun names path) {t : Term} (whole : t.Whole names) :
    Ref.Begun names (path ++ [t]) := by
  obtain ⟨head, segments, rfl, heads, formed, rest⟩ := h
  refine ⟨head, segments ++ [t], rfl, heads, formed, fun u hu => ?_⟩
  rcases List.mem_append.1 hu with hu | hu
  · exact rest u hu
  · exact List.mem_singleton.1 hu ▸ whole

/-- A further segment does not change what a path starts with. -/
theorem leadOf_push (h : Ref.Begun names path) (t : Term) : leadOf (path ++ [t]) = leadOf path := by
  obtain ⟨head, segments, rfl, -⟩ := h
  rfl

/-- With one more segment a path has two at least. -/
theorem two_le_push (h : Ref.Begun names path) (t : Term) : 2 ≤ (path ++ [t]).length := by
  obtain ⟨head, segments, rfl, -⟩ := h
  simp

/-- A path that has been read up to here is formed as it stands. -/
theorem formed (h : Ref.Begun names path) (l : Option Location) :
    Term.Formed names ⟨.ref path, l⟩ := by
  obtain ⟨head, segments, rfl, heads, formed, rest⟩ := h
  exact formed_ref heads formed rest

end Ref.Begun

namespace Course

/-- Every production gives what it is to give, where it has what it relies on. -/
def Keeps (k : Course) (g : Grammar) : Prop :=
  ∀ ⦃α : Type⦄ (p : Production α) (u : Reading), k.Fine u →
    k.Reads u (g p) u fun a _ => p.Given k u → p.Gives k u a

/-- What a term can go on from: it stands for a value, or is a variable that makes a reference in any
case. -/
structure Heads (k : Course) (c : Cursor) (head : Term) : Prop where
  formed : head.Formed k.names
  stands : head.value.Stands k.names ∨
    ∃ name, head.value = .var name ∧ (isRoot head.value = true ∨ Adjoined c)

/-- Roots of documents can be heads of references. -/
theorem canHeadRef_of_isRoot {v : Value} (root : isRoot v = true) : canHeadRef v = true := by
  cases v with
  | var name => rfl
  | _ => cases root

/-- A head that nothing follows. -/
theorem Heads.alone {k : Course} {c : Cursor} {head : Term} (h : k.Heads c head)
    (ends : ¬ Adjoined c) {t : Term}
    (alone : t = if isRoot head.value = true then ⟨.ref [head], head.location⟩ else head) :
    t.Whole k.names ∧
      (t.value = head.value ∨ (canHeadRef head.value = true ∧ t.lead = head.lead)) := by
  subst alone
  split
  · next root =>
      have heads := canHeadRef_of_isRoot root
      exact ⟨⟨.inr ⟨head, rfl, root⟩, formed_ref heads h.formed fun _ h => absurd h List.not_mem_nil⟩,
        .inr ⟨heads, rfl⟩⟩
  · next other =>
      refine ⟨⟨?_, h.formed⟩, .inl rfl⟩
      rcases h.stands with stands | ⟨name, -, root | adjoined⟩
      · exact stands
      · exact absurd root other
      · exact absurd adjoined ends

namespace Keeps

variable {k : Course} {g : Grammar} {r u : Reading}

open Reads

/-! ## References and calls

What a head goes on with is told by the token behind it; a head that goes on is checked to be one. -/

/-- Arguments behind a path make a call that is whole. -/
theorem call (h : k.Keeps g) (fine : k.Fine u) (operator : Term) (start : Nat) :
    k.Reads u (Parse.call g operator start) u fun t _ =>
      operator.Formed k.names → (∃ path, operator.value = .ref path) →
        t.Whole k.names ∧ t.lead = operator.lead := by
  refine .nested (.refl fine) (.bind (.refl fine) (.scan fine) fun _ t₁ l₁ _ _ => ?_)
  rw [token_iff]
  split
  · rw [look_iff]
    refine .bind l₁ (.scanBlank l₁.fine) fun _ t₂ l₂ _ _ => placed_self (.pure l₂ ?_)
    rintro - formed ⟨path, operates⟩
    split
    · next constructs =>
        exact ⟨⟨trivial, formed_set fun _ h => absurd h List.not_mem_nil⟩,
          (lead_of_setConstructor constructs).symm⟩
    · next plain =>
        exact ⟨⟨trivial, formed_call operates formed (fun _ h => absurd h List.not_mem_nil)
          fun _ => Bool.eq_false_iff.2 plain⟩, rfl⟩
  · next filled =>
      refine .bind l₁ (h _ t₁ l₁.fine) fun ts t₂ l₂ _ given => ?_
      rw [look_iff]
      refine .bind l₂ (.scanBlank l₂.fine) fun _ t₃ l₃ after _ => placed_self (.pure l₃ ?_)
      rintro clean formed ⟨path, operates⟩
      obtain ⟨args, rfl, whole, some⟩ := given (after.clean clean) trivial
      -- the arguments are not empty, since the list does not start with its end
      have other : t₁.look.token ≠ .rparen := fun same => filled (beq_iff_eq.2 same)
      exact ⟨⟨trivial, formed_call operates formed whole fun none => absurd none (some other)⟩, rfl⟩

/-- A head with something behind it makes a reference or a call. -/
theorem reference (h : k.Keeps g) (fine : k.Fine u) (head : Term) (start : Nat) :
    k.Reads u (Parse.reference g head start) u fun t _ =>
      head.Formed k.names → u.look.token.isOpening = true →
        canHeadRef head.value = true ∧ t.Whole k.names ∧ t.lead = head.lead := by
  refine .nested (.refl fine) ?_
  dsimp only
  split
  · refine .bind (.refl fine) (.report fine) fun _ t l _ false => ?_
    exact .tail l (h _ t l.fine) fun _ _ later clean _ _ => (false (later.clean clean)).elim
  · next heads =>
      refine (h (.segments head.place start [head]) u fine).weaken fun t _ _ _ given formed opening => ?_
      have heads : canHeadRef head.value = true := by simpa using heads
      have begun : Ref.Begun k.names [head] :=
        ⟨head, [], rfl, heads, formed, fun _ h => absurd h List.not_mem_nil⟩
      exact ⟨heads, given ⟨begun, .inr opening⟩⟩

/-- A name behind a point is a string. -/
theorem namedSegment (fine : k.Fine u) :
    k.Reads u Parse.namedSegment u fun t _ => t.Whole k.names := by
  refine .bind (.refl fine) (.scanBlank fine) fun _ t₁ l₁ _ _ => ?_
  rw [token_iff, isRefKeyword_iff]
  split
  · rw [look_iff]
    refine .bind l₁ (.scanBlank l₁.fine) fun _ t₂ l₂ _ _ => .pure l₂ fun _ => ?_
    exact ⟨trivial, Term.formed_iff.2 ⟨trivial, List.forall_mem_nil _⟩⟩
  · exact .unexpected_fail l₁ fun _ l => .fail l

/-- A term between brackets is whole. -/
theorem bracketSegment (h : k.Keeps g) (fine : k.Fine u) :
    k.Reads u (Parse.bracketSegment g) u fun t _ => t.Whole k.names := by
  refine .bind (.refl fine) (.scan fine) fun _ t₁ l₁ _ _ => ?_
  refine .bind l₁ (h _ t₁ l₁.fine) fun t t₂ l₂ _ given => ?_
  rw [token_iff]
  split
  · refine .bind l₂ (.scanBlank l₂.fine) fun _ t₃ l₃ after _ => .pure l₃ fun clean => ?_
    exact given (after.clean clean) trivial
  · exact .unexpected_fail l₂ fun _ l => .fail l

/-- A path goes on behind a segment. -/
theorem segmentsBehind (h : k.Keeps g) {t : Reading} (later : k.Later u t) (place : Location)
    (start : Nat) (path : Ref) {segment : Term}
    (whole : t.failures.size ≤ u.failures.size → segment.Whole k.names) :
    k.Reads u (g (.segments place start (path ++ [segment]))) t fun a _ =>
      path.Begun k.names → a.Whole k.names ∧ a.lead = leadOf path := by
  refine .tail later (h _ t later.fine) fun a v after clean given begun => ?_
  have whole := whole (after.clean clean)
  rw [← begun.leadOf_push segment]
  exact given ⟨begun.push whole, .inl (begun.two_le_push segment)⟩

/-- A path that ends. -/
theorem endReference (fine : k.Fine u) (place : Location) (start : Nat) (path : Ref) :
    k.Reads u (Parse.endReference place start path) u fun t _ =>
      path.Begun k.names → 2 ≤ path.length → t.Whole k.names ∧ t.lead = leadOf path := by
  unfold Parse.endReference
  rw [lastStop_iff]
  exact placed_self (.pure (.refl fine) fun _ begun long =>
    ⟨⟨.inl long, begun.formed _⟩, rfl⟩)

/-- Segments make a path, or end in a call that may be a head again. -/
theorem segments (h : k.Keeps g) (fine : k.Fine u) (place : Location) (start : Nat) (path : Ref) :
    k.Reads u (Parse.segments g place start path) u fun t _ =>
      path.Begun k.names ∧ (2 ≤ path.length ∨ u.look.token.isOpening = true) →
        t.Whole k.names ∧ t.lead = leadOf path := by
  unfold Parse.segments
  rw [token_iff]
  split
  · refine .bind (.refl fine) (namedSegment fine) fun t t₁ l₁ _ whole => ?_
    exact (segmentsBehind h l₁ place start path whole).weaken fun _ _ _ _ given begun => given begun.1
  · refine .bind (.refl fine) (bracketSegment h fine) fun t t₁ l₁ _ whole => ?_
    exact (segmentsBehind h l₁ place start path whole).weaken fun _ _ _ _ given begun => given begun.1
  · rw [offset_iff, placed_iff]
    refine .bind (.refl fine) (call h fine _ start) fun c t₁ l₁ _ called => ?_
    have called (clean : t₁.failures.size ≤ u.failures.size) (begun : path.Begun k.names) :
        c.Whole k.names ∧ c.lead = leadOf path := called clean (begun.formed _) ⟨path, rfl⟩
    -- behind the call a reference goes on, whose head is the call
    have onward (opens : t₁.look.token.isOpening = true) :
        k.Reads u (g (.reference c start)) t₁ fun t _ =>
          path.Begun k.names ∧ (2 ≤ path.length ∨ u.look.token.isOpening = true) →
            t.Whole k.names ∧ t.lead = leadOf path := by
      refine .tail l₁ (h _ t₁ l₁.fine) fun a v after clean given begun => ?_
      obtain ⟨whole, lead⟩ := called (after.clean clean) begun.1
      obtain ⟨-, result, leads⟩ := given ⟨whole.2, opens⟩
      exact ⟨result, leads.trans lead⟩
    rw [token_iff]
    split
    · exact .bind l₁ (.scan l₁.fine) fun _ t₂ l₂ after _ => .pure l₂ fun clean begun =>
        called (after.clean clean) begun.1
    · next opening => exact onward (by rw [opening]; rfl)
    · next opening => exact onward (by rw [opening]; rfl)
    · exact .pure l₁ fun clean begun => called clean begun.1
  · next blank =>
      refine .bind (.refl fine) (endReference fine place start path) fun t t₁ l₁ _ ended => ?_
      refine .bind l₁ (.scan l₁.fine) fun _ t₂ l₂ after _ => .pure l₂ fun clean => ?_
      -- a blank opens nothing, so the path is long enough by itself
      rintro ⟨begun, long | opening⟩
      · exact ended (after.clean clean) begun long
      · rw [blank] at opening
        cases opening
  · next dot lbrack lparen _ =>
      refine (endReference fine place start path).weaken fun t _ _ _ ended => ?_
      -- the tokens that open something have been dealt with
      rintro ⟨begun, long | opening⟩
      · exact ended begun long
      · rcases Bool.or_eq_true _ _ ▸ opening with either | bracket
        · rcases Bool.or_eq_true _ _ ▸ either with paren | point
          · exact (lparen (beq_iff_eq.1 paren)).elim
          · exact (dot (beq_iff_eq.1 point)).elim
        · exact (lbrack (beq_iff_eq.1 bracket)).elim

/-- A token that opens nothing does not follow where a reference goes on. -/
theorem not_adjoined {c d : Cursor} {m : Look} {b : Bool} (pass : k.Passes b c d m)
    (dot : m.token ≠ .dot) (lbrack : m.token ≠ .lbrack) : ¬ Adjoined c := by
  intro adjoined
  have filled : c.rest ≠ [] := by
    intro atEnd
    have ended : c.skip.lexeme.kind = .eof := by rw [Cursor.skip_of_end atEnd, Cursor.lexeme, atEnd]; rfl
    rcases adjoined with kind | kind <;> rw [kind] at ended <;> cases ended
  have major : c.skip.Significant := by
    rcases adjoined with kind | kind <;> exact ⟨by rw [kind]; decide, by rw [kind]; decide⟩
  obtain rfl := pass.near filled major
  rcases adjoined with kind | kind
  · exact dot ((pass.stands.at'.shows.plain_iff rfl).2 kind)
  · exact lbrack ((pass.stands.at'.shows.plain_iff rfl).2 kind)

/-- A term with nothing behind it is itself, and otherwise a head. -/
theorem finish (h : k.Keeps g) (fine : k.Fine u) (head : Term) (b : Bool) :
    k.Reads u (Parse.finish g head b) u fun t _ => ∀ c, k.Stands c u.look →
      k.Heads c head → t.Whole k.names ∧
        (t.value = head.value ∨ (canHeadRef head.value = true ∧ t.lead = head.lead)) := by
  unfold Parse.finish
  rw [offset_iff]
  refine .bind (.refl fine) (.advance b fine) fun _ t₁ l₁ _ passes => ?_
  -- behind the term a reference goes on, whose head is the term
  have onward (opens : t₁.look.token.isOpening = true) :
      k.Reads u (g (.reference head u.look.offset)) t₁ fun t _ => ∀ c, k.Stands c u.look →
        k.Heads c head → t.Whole k.names ∧
          (t.value = head.value ∨ (canHeadRef head.value = true ∧ t.lead = head.lead)) := by
    refine .tail l₁ (h _ t₁ l₁.fine) fun a v _ _ given c _ heads => ?_
    obtain ⟨refs, whole, lead⟩ := given ⟨heads.formed, opens⟩
    exact ⟨whole, .inr ⟨refs, lead⟩⟩
  rw [token_iff]
  split
  · next opening => exact onward (by rw [opening]; rfl)
  · next opening => exact onward (by rw [opening]; rfl)
  · next opening => exact onward (by rw [opening]; rfl)
  · next lparen dot lbrack =>
      -- with nothing adjoined the term stands alone
      have alone (clean : t₁.failures.size ≤ u.failures.size) (c : Cursor)
          (stands : k.Stands c u.look) (heads : k.Heads c head) {t : Term}
          (same : t = if isRoot head.value = true then ⟨.ref [head], head.location⟩ else head) :
          t.Whole k.names ∧
            (t.value = head.value ∨ (canHeadRef head.value = true ∧ t.lead = head.lead)) := by
        obtain ⟨d, pass⟩ := passes clean c stands
        exact heads.alone (not_adjoined pass dot lbrack) same
      dsimp only
      split
      · exact .bind l₁ (.scan l₁.fine) fun _ t₂ l₂ after _ => .pure l₂
          fun clean c stands heads => alone (after.clean clean) c stands heads rfl
      · exact .pure l₁ fun clean c stands heads => alone clean c stands heads rfl

end Keeps

end Course

end RegoSyntax
