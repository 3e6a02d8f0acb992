/-
# RegoSyntax.Proofs.Definitions — rules are read in good shape.

A head goes through three forms.  What is read first is bare: a path, perhaps with arguments.  With what is
written behind it, it is a draft, whose path may still turn out to end in a key; and it is in shape when what
follows it has decided that.  Alternatives and further bodies take the head over as it is then.

What the rules of one clause have to do with one another is `Rule.Clause`: the first one may have an
alternative or further bodies behind it, and not both, and those made from further bodies are told by the
brace that their texts start with.  So a part of the proof is about texts: the text of a rule starts with
the token that it starts with, which is a word for the first rule and a brace for the others
(`Course.Plain`, `head_text_of_brace`).

The forms of heads are structures (`Head.Bare`, `Head.Draft`, `Head.Stead`), each of which follows from
the one before with what the parser has read in between.
-/
import Mathlib.Data.List.Forall2
import RegoSyntax.Proofs.Literals

namespace RegoSyntax

open Parse

/-- A brace is read from a brace. -/
theorem Lexeme.brace_of_kind {s : List Char} (h : (next s).kind = .lbrace) : s.head? = some '{' := by
  cases s with
  | nil => cases h
  | cons c s =>
      -- no other character starts a token of this kind
      revert h
      unfold next
      dsimp only
      split
      · exact nofun
      split
      · exact nofun
      split
      · exact nofun
      · unfold punctuation
        split <;> first
          | exact fun _ => rfl
          | exact fun h => Token.noConfusion h
          | exact fun h => Token.noConfusion ((raw_kind s).symm.trans h)
          | (rcases either_kind _ _ _ s with k | k <;> rw [k] <;> exact nofun)
          | (split <;> exact fun h => Token.noConfusion h)

/-! ## Forms of heads

The three forms of a head are told by what is known of its parts, from the first to the last: `Bare`,
`Draft` and `Stead`.  With them go the facts about names and about the texts of places. -/

section forms

variable {names : String → Prop}

/-- A head with nothing but a path, arguments and perhaps a value. -/
structure Head.Bare (names : String → Prop) (h : Head) : Prop where
  whole : h.Whole names
  key : h.key = none
  keywords : h.keywords = []
  generated : h.generatedValue = false

/-- A head that was read up to its body.  Its path may turn out to end in a key, so it may lack both a key
and a value. -/
structure Head.Draft (names : String → Prop) (h : Head) : Prop where
  whole : h.Whole names
  argsOrKey : h.args = [] ∨ h.key = none
  parts : h.value.isSome = true ∨ h.key.isSome = true ∨ (h.reference.length = 2 ∧ h.args = [])
  contains : usesContains h = true → h.key.isSome = true ∧ h.value = none
  plain : usesContains h = false → h.key = none
  generated : h.generatedValue = true → ∃ l, h.value = some ⟨.boolean true, l⟩

/-- A head for an alternative to a rule with another one. -/
structure Head.Stead (names : String → Prop) (h own : Head) : Prop where
  whole : own.Whole names
  reference : own.reference = h.reference
  arity : own.args.length = h.args.length
  key : own.key = none
  value : own.value.isSome = true
  plain : usesContains own = false
  generated : own.generatedValue = true → ∃ l, own.value = some ⟨.boolean true, l⟩

/-- The head of a path with arguments. -/
theorem Head.bare_ofRef {path args : List Term} {l : Option Location}
    (formed : Term.Formed names ⟨.ref path, l⟩) (h : ∀ t ∈ args, t.Whole names) :
    Head.Bare names { Head.ofRef path with args } := by
  obtain ⟨⟨head, segments, rfl, -, stand⟩, below⟩ := Term.formed_iff.1 formed
  have below := forall_walkTerms.1 below
  refine ⟨⟨⟨head, segments, rfl, below head List.mem_cons_self, fun t ht => ?_⟩, h, nofun, nofun⟩,
    rfl, rfl, rfl⟩
  exact ⟨stand t ht, below t (List.mem_cons_of_mem _ ht)⟩

/-- A bare head with a value that is whole is bare. -/
theorem Head.Bare.withValue {h h' : Head} (bare : h.Bare names) {v : Term} (whole : v.Whole names)
    (same : h' = { h with assign := h'.assign, value := some v }) : h'.Bare names := by
  rw [same]
  exact ⟨⟨bare.whole.reference, bare.whole.args, bare.whole.key, fun t ht =>
    Option.some.inj ht ▸ whole⟩, bare.key, bare.keywords, bare.generated⟩

/-- A head gets a value where it needs one. -/
theorem Head.Bare.valued {h : Head} (bare : h.Bare names) (place : Location) :
    (Parse.valued h place).Draft names := by
  have plain : usesContains h = false := by rw [usesContains, bare.keywords]; rfl
  unfold Parse.valued
  split
  · refine ⟨⟨bare.whole.reference, bare.whole.args, bare.whole.key, fun t ht => ?_⟩, .inr bare.key,
      .inl rfl, fun uses => ?_, fun _ => bare.key, fun _ => ⟨_, rfl⟩⟩
    · exact Option.some.inj ht ▸ whole_trueTerm place
    · exact absurd (plain.symm.trans uses) Bool.false_ne_true
  · next needless =>
      refine ⟨bare.whole, .inr bare.key, ?_, fun uses => ?_, fun _ => bare.key, fun made => ?_⟩
      · rcases value : h.value with _ | v
        · exact .inr (.inr (by simpa [bare.key, value] using needless))
        · exact .inl rfl
      · exact absurd (plain.symm.trans uses) Bool.false_ne_true
      · rw [bare.generated] at made
        cases made

/-- The rules of one clause: those behind the first one were made for further bodies. -/
def Rule.Clause (names : String → Prop) (rs : List Rule) : Prop :=
  ∃ first more, rs = first :: more ∧ first.Good names ∧ first.isFurther = false ∧
    (more ≠ [] → first.elseRule = none) ∧
    ∀ r ∈ more, r.Good names ∧ r.elseRule = none ∧ r.isFurther = true

/-- A draft that has a value or a key is in shape. -/
theorem Head.Draft.shaped {h : Head} (draft : h.Draft names)
    (parts : h.value.isSome = true ∨ h.key.isSome = true) : h.Shaped :=
  ⟨draft.argsOrKey, parts, draft.contains, draft.generated⟩

/-- What may stand behind a rule with a head. -/
def Follows (names : String → Prop) (h : Head) (next : Option Rule) : Prop :=
  ∀ r ∈ next, ∀ link ∈ r.links, link.Sound names ∧ link.Alternates h

/-- The head of an alternative is in shape: it has a value, and no key. -/
theorem Head.Stead.shaped {h own : Head} (stead : Head.Stead names h own) : own.Shaped where
  argsOrKey := .inr stead.key
  valueOrKey := .inl stead.value
  contains uses := absurd (stead.plain.symm.trans uses) Bool.false_ne_true
  generated := stead.generated

/-- The word of its body does not matter to the head of an alternative. -/
theorem Head.Stead.withIf {h own : Head} (stead : Head.Stead names h own) :
    Head.Stead names h { own with keywords := [.ifKw] } :=
  ⟨⟨stead.whole.reference, stead.whole.args, stead.whole.key, stead.whole.value⟩, stead.reference,
    stead.arity, stead.key, stead.value, rfl, stead.generated⟩

/-- The alternatives that start with one rule. -/
theorem Head.Stead.links {h : Head} {r : Rule} (stead : Head.Stead names h r.head)
    (plain : r.isDefault = false) (body : r.body.Whole names)
    (generated : r.generatedBody = true → r.body.IsTrue) (next : Follows names h r.elseRule) :
    ∀ link ∈ r.links, link.Sound names ∧ link.Alternates h := by
  intro link hl
  rw [Rule.links, Rule.alternatives_eq] at hl
  rcases List.mem_cons.1 hl with rfl | hl
  · exact ⟨⟨stead.shaped, stead.whole, body, generated⟩,
      ⟨plain, stead.reference, stead.arity, stead.key, stead.value⟩⟩
  · rcases after : r.elseRule with _ | r'
    · rw [after] at hl
      cases hl
    · rw [after] at hl next
      exact next r' rfl link hl

/-- A rule that was made for a further body behind another one. -/
theorem Rule.Sound.further {first : Rule} (sound : first.Sound names) {args : List Term}
    (length : args.length = first.head.args.length)
    (whole : (∀ t ∈ first.head.args, t.Whole names) → ∀ t ∈ args, t.Whole names) {b : Body}
    (body : b.Whole names) (l : Location) :
    Rule.Good names { Rule.new (Head.relocate { first.head with args } l) b with location := some l } := by
  have shaped : Head.Shaped { first.head with args } :=
    ⟨sound.shaped.argsOrKey.imp (fun none => List.length_eq_zero_iff.1 (length.trans (by rw [none]; rfl)))
      id, sound.shaped.valueOrKey, sound.shaped.contains, sound.shaped.generated⟩
  have whole : Head.Whole names { first.head with args } :=
    ⟨sound.head.reference, whole sound.head.args, sound.head.key, sound.head.value⟩
  refine ⟨fun link hl => ?_, nofun, fun other => absurd rfl other, nofun⟩
  obtain rfl := List.mem_singleton.1 hl
  exact ⟨shaped.relocate, whole.relocate, body, nofun⟩

/-- The word of its body does not matter to a head that is in shape. -/
theorem Head.Shaped.withIf {h : Head} (shaped : h.Shaped) :
    Head.Shaped { h with keywords := h.keywords ++ [.ifKw] } :=
  ⟨shaped.argsOrKey, shaped.valueOrKey, fun uses => shaped.contains (by
    simpa [usesContains] using uses), shaped.generated⟩

/-- A wildcard is not the root of a document. -/
theorem isRoot_of_wildcard {name : String} (wild : isWildcardName name = true) :
    isRoot (.var name) = false := by
  refine Bool.eq_false_iff.2 fun root => ?_
  have named : name = dataRoot ∨ name = inputRoot := by
    simpa [isRoot, Value.isVarNamed, Value.varName?] using root
  rcases named with rfl | rfl
  · exact absurd wild (by decide)
  · exact absurd wild (by decide)

/-- A wildcard stands for a value. -/
theorem whole_wildcard {name : String} (wild : isWildcardName name = true) (l : Option Location) :
    Term.Whole names ⟨.var name, l⟩ :=
  ⟨⟨isRoot_of_wildcard wild, .inl (.inl wild)⟩,
    Term.formed_iff.2 ⟨.inl wild, List.forall_mem_nil _⟩⟩

end forms

namespace Course

variable {k : Course} {g : Grammar} {r t u v w : Reading}

/-- A place whose text starts with no brace, wherever it ends. -/
def Plain (k : Course) (u : Reading) (place : Location) : Prop :=
  ∀ t, k.Later u t → (t.look.text place.offset t.look.lastStop).toList.head? ≠ some '{'

/-- A place whose text starts with no brace is one later on. -/
theorem Plain.later {place : Location} (h : k.Plain u place) (later : k.Later u v) : k.Plain v place :=
  fun t since => h t (later.trans since)

/-- The text from a word on starts with no brace. -/
theorem plain_of_word {c : Cursor} (stands : k.Stands c u.look) (word : c.lexeme.kind = .ident) :
    k.Plain u u.look.location := by
  intro t later
  obtain ⟨d, there⟩ := later.fine.stands
  change (t.look.text u.look.offset t.look.lastStop).toList.head? ≠ some '{'
  rw [stands.at'.offset, there.at'.head_text stands.at'.starts]
  split
  · obtain ⟨x, s, cons, letter⟩ := Lexeme.letter_of_ident word
    rw [cons]
    intro brace
    obtain rfl := Option.some.inj brace
    exact absurd letter (by decide)
  · exact nofun

/-- The text from a brace on starts with the brace. -/
theorem head_text_of_brace {c : Cursor} (stands : k.Stands c u.look) (brace : u.look.token = .lbrace)
    (later : k.Later u t) (lt : u.look.offset < t.look.offset) :
    (t.look.text u.look.offset t.look.lastStop).toList.head? = some '{' := by
  have kind : c.lexeme.kind = .lbrace := (stands.at'.shows.plain_iff rfl).1 brace
  obtain ⟨d, there⟩ := later.fine.stands
  have major : c.Significant := ⟨by rw [kind]; decide, by rw [kind]; decide⟩
  rw [stands.at'.offset, there.at'.offset] at lt
  rw [stands.at'.offset, there.at'.head_text stands.at'.starts,
    if_pos (there.at'.lt_lastStop stands.at'.starts major lt)]
  exact Lexeme.brace_of_kind kind

namespace Reads

/-- What is read for every element of a list. -/
theorem mapM {α β : Type} {f : α → Parse β} {R : α → β → Prop} (as : List α) (fine : k.Fine u)
    (h : ∀ a v, k.Fine v → k.Reads v (f a) v fun b _ => R a b) :
    k.Reads u (as.mapM f) u fun bs _ => List.Forall₂ R as bs := by
  induction as generalizing u with
  | nil => exact .pure (.refl fine) fun _ => .nil
  | cons a as ih =>
      rw [List.mapM_cons]
      refine .bind (.refl fine) (h a u fine) fun b t₁ l₁ _ first => ?_
      refine .bind l₁ (ih l₁.fine) fun bs t₂ l₂ after rest => .pure l₂ fun clean => ?_
      exact .cons (first (after.clean clean)) (rest clean)

end Reads

namespace Keeps

open Reads

/-! ## Arguments

A head that is repeated has its wildcards drawn afresh.  Nothing else of its arguments changes. -/

/-- Arguments that are renewed are as good as they were. -/
theorem renewed (fine : k.Fine u) (h : Head) (stands : Nat) :
    k.Reads u (Parse.renewed h stands) u fun h' _ => ∃ args, h' = { h with args } ∧
      args.length = h.args.length ∧ ((∀ t ∈ h.args, t.Whole k.names) → ∀ t ∈ args, t.Whole k.names) := by
  unfold Parse.renewed
  refine .bind (.refl fine) (.mapM (R := fun t t' => t.Whole k.names → t'.Whole k.names) h.args fine
    fun t v fine => ?_) fun args t₁ l₁ _ whole => .pure l₁ fun clean => ?_
  · split
    · split
      · refine .bind (.refl fine) (.freshWildcard fine) fun name t₁ l₁ _ drawn => .pure l₁ ?_
        exact fun clean _ => whole_wildcard (drawn clean).1 _
      · exact .pure (.refl fine) fun _ whole => whole
    · exact .pure (.refl fine) fun _ whole => whole
  · refine ⟨args, rfl, (whole clean).length_eq.symm, fun before t ht => ?_⟩
    obtain ⟨i, hi, rfl⟩ := List.mem_iff_getElem.1 ht
    have same := (whole clean).length_eq
    exact (List.forall₂_iff_get.1 (whole clean)).2 i (same ▸ hi) hi (before _ (List.getElem_mem _))

/-! ## Heads

A head is read in parts, each of which may report an error; with no error reported it is what its form
says. -/

/-- A term with its value known. -/
theorem headOf (fine : k.Fine u) (t : Term) :
    k.Reads u (Parse.headOf t) u fun h _ => t.Whole k.names → h.Bare k.names ∧ h.value = none := by
  unfold Parse.headOf
  split
  · next name var =>
      refine .pure (.refl fine) fun _ whole => ?_
      -- a variable is a path of one segment
      have formed : Term.Formed k.names ⟨.ref [⟨.var name, t.location⟩], none⟩ := by
        refine formed_ref rfl (Term.formed_iff.2 ⟨?_, List.forall_mem_nil _⟩) (List.forall_mem_nil _)
        exact var ▸ (Term.formed_iff.1 whole.2).1
      obtain ⟨⟨reference, args, key, value⟩, noKey, keywords, generated⟩ :=
        Head.bare_ofRef formed (List.forall_mem_nil _)
      exact ⟨⟨⟨reference, args, key, value⟩, noKey, keywords, generated⟩, rfl⟩
  · next path ref =>
      refine .pure (.refl fine) fun _ whole => ?_
      have formed : Term.Formed k.names ⟨.ref path, none⟩ :=
        Term.formed_iff.2 (ref ▸ (Term.formed_iff (t := t)).1 whole.2)
      exact ⟨Head.bare_ofRef formed (List.forall_mem_nil _), rfl⟩
  · next op args call =>
      -- a whole call has a reference as its operator, and its arguments are whole
      have parts (whole : t.Whole k.names) : op.Formed k.names ∧ (∃ path, op.value = .ref path) ∧
          ∀ x ∈ args, x.Whole k.names := by
        obtain ⟨own, below⟩ := Term.formed_iff.1 whole.2
        rw [call] at own below
        obtain ⟨op', path, args', same, operates, stand, -⟩ := own
        obtain ⟨rfl, rfl⟩ := List.cons.inj same
        have below := forall_walkTerms.1 below
        exact ⟨below op List.mem_cons_self, ⟨path, operates⟩, fun x hx =>
          ⟨stand x hx, below x (List.mem_cons_of_mem _ hx)⟩⟩
      split
      · next name var =>
          refine .pure (.refl fine) fun _ whole => ?_
          obtain ⟨-, ⟨path, ref⟩, -⟩ := parts whole
          rw [var] at ref
          cases ref
      · next path ref =>
          split
          · refine .pure (.refl fine) fun _ whole => ?_
            obtain ⟨formed, -, args⟩ := parts whole
            have formed : Term.Formed k.names ⟨.ref path, none⟩ :=
              Term.formed_iff.2 (ref ▸ (Term.formed_iff (t := op)).1 formed)
            exact ⟨Head.bare_ofRef formed args, rfl⟩
          · exact .unexpected_fail (.refl fine) fun _ l => .fail l
      · exact .fail (.refl fine)
  · exact .fail (.refl fine)

/-- The part of a head behind its sign is whole, or its absence was reported. -/
theorem headPart (h : k.Keeps g) (fine : k.Fine u) (note : Note) :
    k.Reads u (Parse.headPart g note) u fun a _ => ∃ t, a = some t ∧ t.Whole k.names := by
  unfold Parse.headPart
  refine .bind (.refl fine) (.scan fine) fun _ t₁ l₁ _ _ => ?_
  refine .bind l₁ (.attempt (h (.compound true) t₁ l₁.fine)) fun a t₂ l₂ _ given => ?_
  dsimp only
  cases a with
  | none => exact .bind l₂ (unexpected l₂.fine) fun _ _ l _ false => .pure l fun clean =>
      (false clean).elim
  | some t => exact .pure l₂ fun clean => ⟨t, rfl, given clean t rfl trivial⟩

/-- The parts behind the path and the arguments of a head. -/
theorem headRest (h : k.Keeps g) (fine : k.Fine u) (isDefault : Bool) (place : Location) (own : Head) :
    k.Reads u (Parse.headRest g isDefault place own) u fun h' _ =>
      own.Bare k.names → own.value = none → h'.Draft k.names := by
  unfold Parse.headRest
  rw [token_iff]
  dsimp only
  split
  -- a key behind arguments is an error, so where there is none there are no arguments
  · have keyed {t : Reading} (later : k.Later u t) (noArgs : t.failures.size ≤ u.failures.size →
        own.args = []) : k.Reads u (do
          return { own with
            key := ← Parse.headPart g (.ruleKey (Ref.render own.reference))
            keywords := [.containsKw] }) t fun h' _ =>
          own.Bare k.names → own.value = none → h'.Draft k.names := by
      refine .bind later (headPart h later.fine _) fun a t₁ l₁ after read => .pure l₁ ?_
      rintro clean bare none
      obtain ⟨key, rfl, whole⟩ := read clean
      refine ⟨⟨bare.whole.reference, bare.whole.args, fun t ht => Option.some.inj ht ▸ whole,
        bare.whole.value⟩, .inl (noArgs (after.clean clean)), .inr (.inl rfl), fun _ => ⟨rfl, none⟩,
        fun plain => ?_, fun made => ?_⟩
      · cases plain
      · exact absurd (bare.generated.symm.trans made) Bool.false_ne_true
    split
    · exact .bind (.refl fine) (unexpected fine) fun _ t l _ false =>
        keyed l fun clean => (false clean).elim
    · next none => exact keyed (.refl fine) fun _ => by simpa using none
  · refine .bind (.refl fine) (headPart h fine _) fun a t₁ l₁ _ read => .pure l₁ ?_
    rintro clean bare -
    obtain ⟨v, rfl, whole⟩ := read clean
    exact (bare.withValue whole rfl).valued place
  · refine .bind (.refl fine) (headPart h fine _) fun a t₁ l₁ _ read => .pure l₁ ?_
    rintro clean bare -
    obtain ⟨v, rfl, whole⟩ := read clean
    exact (bare.withValue whole rfl).valued place
  · exact .pure (.refl fine) fun _ bare _ => bare.valued place

/-- A head is a draft when its last part has been read. -/
theorem ruleHead (h : k.Keeps g) (fine : k.Fine u) (isDefault : Bool) (ident : u.look.token = .ident) :
    k.Reads u (Parse.ruleHead g isDefault) u fun own _ => own.Draft k.names ∧
      (k.Plain u u.look.location → ∀ l ∈ own.location, l.text.toList.head? ≠ some '{') := by
  unfold Parse.ruleHead
  rw [location_iff]
  refine .bind (.refl fine) (variableHere fine (.inl ident)) fun name t₁ l₁ _ named => ?_
  refine .bind l₁ (.attempt (finish h l₁.fine name true)) fun a t₂ l₂ second finished => ?_
  split
  · exact .unexpected_fail l₂ fun _ l => .fail l
  · next t =>
      refine .bind l₂ (headOf l₂.fine t) fun bare t₃ l₃ third head => ?_
      refine .bind l₃ (headRest h l₃.fine isDefault _ bare) fun own t₄ l₄ fourth rest => ?_
      rw [upToLastStop_iff]
      refine .pure l₄ fun clean => ⟨?_, fun plain l here => Option.some.inj here ▸ plain t₄ l₄⟩
      -- -- the premises run backwards: no failure at the end means none after any step before
      have clean₃ := fourth.clean clean
      have clean₂ := third.clean clean₃
      obtain ⟨look, at'⟩ := named (second.clean clean₂)
      obtain ⟨c, stands⟩ := l₁.fine.stands
      have heads := (headRead_variable look (.inl ident) at').heads c stands
      obtain ⟨bare, value⟩ := head clean₃ (finished clean₂ t rfl c stands heads).1
      obtain ⟨whole, argsOrKey, parts, contains, plain, generated⟩ := rest clean bare value
      exact ⟨⟨whole.reference, whole.args, whole.key, whole.value⟩, argsOrKey, parts, contains, plain,
        generated⟩

/-- With what follows it a head is in shape, and stands where it stood. -/
theorem resolved (fine : k.Fine u) (own : Head) (place : Location) (hasIf : Bool) :
    k.Reads u (Parse.resolved own place hasIf) u fun h' _ => own.Draft k.names →
      h'.Shaped ∧ h'.Whole k.names ∧ h'.location = own.location := by
  -- a head that is left alone has a value or a key already
  have kept (parts : own.Draft k.names → own.value.isSome = true ∨ own.key.isSome = true) :
      k.Reads u (Pure.pure own) u fun h' _ => own.Draft k.names →
        h'.Shaped ∧ h'.Whole k.names ∧ h'.location = own.location :=
    .pure (.refl fine) fun _ draft => ⟨draft.shaped (parts draft), draft.whole, rfl⟩
  -- it has, unless its path has two segments and there are no arguments
  have written (draft : own.Draft k.names) (other : own.reference.length ≠ 2 ∨ own.args ≠ []) :
      own.value.isSome = true ∨ own.key.isSome = true := by
    rcases draft.parts with value | key | ⟨two, none⟩
    · exact .inl value
    · exact .inr key
    · exact (other.elim (fun h => h two) fun h => h none).elim
  unfold Parse.resolved
  split
  · next base key reference =>
      split
      · next uses => exact kept fun draft => .inr (draft.contains uses).1
      · next old =>
          have old : usesContains own = false := by simpa using old
          split
          · split
            · refine .pure (.refl fine) fun _ draft => ⟨⟨.inr (draft.plain old), .inl rfl, ?_,
                fun _ => ⟨_, rfl⟩⟩, ⟨draft.whole.reference, draft.whole.args, draft.whole.key, ?_⟩, rfl⟩
              · exact fun uses => absurd (old.symm.trans uses) Bool.false_ne_true
              · exact fun t ht => Option.some.inj ht ▸ whole_trueTerm place
            · next some =>
                refine .bind (.refl fine) (.ofOption (P := fun _ _ => True) (.refl fine)
                  fun _ _ _ => trivial) fun name t₁ l₁ _ _ => .pure l₁ fun _ draft => ?_
                have value : own.value.isSome = true := by simpa [Option.isSome_iff_ne_none] using some
                exact ⟨⟨draft.argsOrKey, .inl value, draft.contains, draft.generated⟩,
                  ⟨draft.whole.reference, draft.whole.args, draft.whole.key, draft.whole.value⟩, rfl⟩
          · split
            · next none =>
                refine .bind (.refl fine) (.ofOption (P := fun _ _ => True) (.refl fine)
                  fun _ _ _ => trivial) fun name t₁ l₁ _ _ => .pure l₁ fun _ draft => ?_
                obtain ⟨head, segments, same, formed, whole⟩ := draft.whole.reference
                obtain ⟨rfl, rfl⟩ := List.cons.inj (reference.symm.trans same)
                refine ⟨⟨.inl (List.isEmpty_iff.1 none), .inr rfl, ?_, draft.generated⟩,
                  ⟨?_, draft.whole.args, ?_, draft.whole.value⟩, rfl⟩
                · exact fun uses => absurd (old.symm.trans uses) Bool.false_ne_true
                · dsimp only
                  split
                  · exact ⟨base, [], rfl, formed, List.forall_mem_nil _⟩
                  · exact ⟨base, [key], reference, formed, whole⟩
                · exact fun t ht => Option.some.inj ht ▸ whole key (List.mem_singleton_self _)
            · next some => exact kept fun draft => written draft (.inr fun none => some (by rw [none]; rfl))
  · next other =>
      exact kept fun draft => written draft (.inl fun two => by
        obtain ⟨base, key, reference⟩ := List.length_eq_two.1 two
        exact other base key reference)

/-! ## Default rules

A default rule has no body, and its value is checked instead. -/

/-- Where no error was reported there were no problems. -/
theorem rejectFor (fine : k.Fine u) (place : Location) (problems : List Problem) :
    k.Reads u (Parse.rejectFor place problems) u fun _ _ => problems = [] := by
  have reported (rest : List Problem) {v : Reading} (fine : k.Fine v) :
      k.Reads v (rest.forM (Parse.report place)) v fun _ _ => True := by
    induction rest generalizing v with
    | nil => exact .pure (.refl fine) fun _ => trivial
    | cons problem rest ih =>
        exact .bind (.refl fine) (.report fine) fun _ t l _ _ =>
          .tail l (ih l.fine) fun _ _ _ _ _ => trivial
  unfold Parse.rejectFor
  refine .bind (.refl fine) (reported problems fine) fun _ t₁ l₁ _ _ => ?_
  split
  · next none => exact .pure l₁ fun _ => List.isEmpty_iff.1 none
  · exact .fail l₁

/-- A default rule is a clause of its own. -/
theorem defaultRule (fine : k.Fine u) (own : Head) (place : Location) :
    k.Reads u (Parse.defaultRule own place) u fun r _ =>
      k.Plain u place → own.Draft k.names → Rule.Clause k.names [r] := by
  unfold Parse.defaultRule
  rw [upToLastStop_iff]
  -- behind the check of the value, which is there and constant
  have rest {t : Reading} (later : k.Later u t) (value : t.failures.size ≤ u.failures.size →
      ∃ v, own.value = some v ∧ v.evaluatedKinds = []) :
      k.Reads u (do
        Parse.rejectFor { place with text := u.look.text place.offset u.look.lastStop }
          (argumentProblems [] own.args)
        return { Rule.new own (trueBody { place with
            text := u.look.text place.offset u.look.lastStop }) with
          isDefault := true, generatedBody := true
          location := some { place with
            text := u.look.text place.offset u.look.lastStop } }) t fun r _ =>
        k.Plain u place → own.Draft k.names → Rule.Clause k.names [r] := by
    refine .bind later (rejectFor later.fine _ _) fun _ t₁ l₁ after args => .pure l₁ ?_
    intro clean plain draft
    obtain ⟨v, some, constant⟩ := value (after.clean clean)
    refine ⟨_, [], rfl, ⟨fun link hl => ?_, nofun, fun other => absurd rfl other,
      fun _ => ⟨rfl, rfl, ⟨v, some, constant⟩, args clean⟩⟩, ?_, fun other => absurd rfl other, nofun⟩
    · obtain rfl := List.mem_singleton.1 hl
      exact ⟨draft.shaped (.inl (by rw [some]; rfl)), draft.whole, whole_trueBody _,
        fun _ => isTrue_trueBody _⟩
    · exact beq_eq_false_iff_ne.2 (plain u (.refl fine))
  -- a missing value is a problem as well as one that is not constant
  split
  · refine .bind (.refl fine) (rejectFor fine _ _) fun _ t₁ l₁ _ false => rest l₁ fun clean => ?_
    cases false clean
  · next v some =>
      refine .bind (.refl fine) (rejectFor fine _ _) fun _ t₁ l₁ _ none => rest l₁ fun clean => ?_
      exact ⟨v, some, List.map_eq_nil_iff.1 (none clean)⟩

/-! ## Bodies

A body is a literal behind `if`, or a query in braces.  Where the literal cannot be read the parser goes
back and reads braces. -/

/-- A body in braces is whole, and the parser has moved. -/
theorem bracedBody (h : k.Keeps g) (fine : k.Fine u) :
    k.Reads u (Parse.bracedBody g) u fun b t => b.Whole k.names ∧
      (u.look.token = .lbrace → u.look.offset < t.look.offset) := by
  unfold Parse.bracedBody
  refine .bind (.refl fine) (.scan fine) fun _ t₁ l₁ _ passes => ?_
  refine .bind l₁ (h (.body .rbrace) t₁ l₁.fine) fun b t₂ l₂ second given => ?_
  refine .bind l₂ (.scan l₂.fine) fun _ t₃ l₃ third _ => .pure l₃ fun clean => ?_
  have clean₂ := third.clean clean
  refine ⟨given clean₂ trivial, fun brace => ?_⟩
  obtain ⟨c, stands⟩ := fine.stands
  obtain ⟨d, pass⟩ := passes (second.clean clean₂) c stands
  have kind : c.lexeme.kind = .lbrace := (stands.at'.shows.plain_iff rfl).1 brace
  have filled : c.rest ≠ [] := fun none => by
    cases (Lexeme.next_kind_eof.2 none).symm.trans kind
  calc u.look.offset = c.offset := stands.at'.offset
    _ < c.skip.offset := Cursor.offset_lt_skip filled
    _ ≤ d.offset := pass.ahead
    _ = t₁.look.offset := pass.stands.at'.offset.symm
    _ ≤ t₃.look.offset := (second.trans third).ahead

/-- A body behind `if` is whole, as a literal or as a query in braces. -/
theorem ifBody (h : k.Keeps g) (fine : k.Fine u) :
    k.Reads u (Parse.ifBody g) u fun b _ => b.Whole k.names := by
  unfold Parse.ifBody
  refine .bind (.refl fine) (.scan fine) fun _ t₁ l₁ _ _ => ?_
  rw [save_iff]
  refine .bind l₁ (.attempt (h .literal t₁ l₁.fine)) fun a t₂ l₂ since given => ?_
  split
  · next e some =>
      obtain ⟨some, -⟩ := Option.filter_eq_some_iff.1 some
      exact .pure l₂ fun clean => Body.whole_single (given clean e some trivial)
  · refine .restore l₁.fine since fun t back => ?_
    exact .tail (l₁.trans (back.later l₁.fine)) (bracedBody h back.fine) fun _ _ _ _ whole => whole.1

/-! ## Alternatives

An alternative takes the head of the rule before it over, with its own arguments, value and body, and goes
on with the next alternative. -/

/-- The head of an alternative is the head of its rule with other arguments and another place. -/
theorem alternativeHead (fine : k.Fine u) (head : Head) (place : Location) :
    k.Reads u (Parse.alternativeHead head place) u fun own _ => ∃ args,
      own = { head with generatedValue := false, keywords := [], args, location := some place } ∧
        args.length = head.args.length ∧
        ((∀ t ∈ head.args, t.Whole k.names) → ∀ t ∈ args, t.Whole k.names) := by
  unfold Parse.alternativeHead
  refine .bind (.refl fine) (renewed fine _ _) fun own t₁ l₁ _ made => .pure l₁ fun clean => ?_
  obtain ⟨args, rfl, length, whole⟩ := made clean
  exact ⟨args, rfl, length, whole⟩

/-- The head of an alternative gets a value, which is `true` where it is generated. -/
theorem alternativeValue (h : k.Keeps g) (fine : k.Fine u) (own : Head) (place : Location) :
    k.Reads u (Parse.alternativeValue g own place) u fun own' _ => ∃ assign made v l,
      own' = { own with assign, generatedValue := made, value := some v, location := l } ∧
        v.Whole k.names ∧ (made = own.generatedValue ∨ ∃ l, v = ⟨.boolean true, l⟩) := by
  -- without a value of its own an alternative holds the value true
  have standing : k.Reads u (Pure.pure
      { own with generatedValue := true, value := some (trueTerm place) }) u fun own' _ =>
        ∃ assign made v l,
          own' = { own with assign, generatedValue := made, value := some v, location := l } ∧
            v.Whole k.names ∧ (made = own.generatedValue ∨ ∃ l, v = ⟨.boolean true, l⟩) :=
    .pure (.refl fine) fun _ =>
      ⟨_, _, trueTerm place, _, rfl, whole_trueTerm place, .inr ⟨some place, rfl⟩⟩
  have written : k.Reads u (do
      let assign := (← token) == .assign
      scan
      let v ← g (.compound true)
      return { own with assign, value := some v, location := some (← upToLastStop place) }) u
        fun own' _ => ∃ assign made v l,
          own' = { own with assign, generatedValue := made, value := some v, location := l } ∧
            v.Whole k.names ∧ (made = own.generatedValue ∨ ∃ l, v = ⟨.boolean true, l⟩) := by
    rw [token_iff]
    refine .bind (.refl fine) (.scan fine) fun _ t₁ l₁ _ _ => ?_
    refine .bind l₁ (h (.compound true) t₁ l₁.fine) fun v t₂ l₂ _ given => ?_
    rw [upToLastStop_iff]
    exact .pure l₂ fun clean => ⟨_, _, v, _, rfl, given clean trivial, .inl rfl⟩
  unfold Parse.alternativeValue
  rw [token_iff]
  split
  · exact standing
  · exact standing
  · exact written
  · exact written
  · exact .unexpected_fail (.refl fine) fun _ l => .fail l

/-- The body of an alternative is whole. -/
theorem alternativeIfBody (h : k.Keeps g) (fine : k.Fine u) :
    k.Reads u (Parse.alternativeIfBody g) u fun b _ => b.1.Whole k.names := by
  unfold Parse.alternativeIfBody
  refine .bind (.refl fine) (.scan fine) fun _ t₁ l₁ _ _ => ?_
  rw [token_iff]
  split
  · exact .bind l₁ (bracedBody h l₁.fine) fun b t₂ l₂ _ whole => .pure l₂ fun clean => (whole clean).1
  · exact .unexpected_fail l₁ fun _ l => .fail l
  · exact .bind l₁ (h .literal t₁ l₁.fine) fun e t₂ l₂ _ given => .pure l₂ fun clean =>
      Body.whole_single (given clean trivial)

/-- What follows an alternative follows the rule that it belongs to. -/
theorem furtherAlternative (h : k.Keeps g) (fine : k.Fine u) (head : Head) :
    k.Reads u (Parse.furtherAlternative g head) u fun next _ =>
      head.Whole k.names → head.key = none → Follows k.names head next := by
  unfold Parse.furtherAlternative
  rw [token_iff]
  split
  · refine .bind (.refl fine) (h (.alternative head) u fine) fun r t₁ l₁ _ given => .pure l₁ ?_
    intro clean whole key r' same
    exact Option.some.inj same ▸ given clean ⟨whole, key⟩
  · exact .pure (.refl fine) fun _ _ _ => nofun

/-- Every link of an alternative is sound, and an alternative to the head. -/
theorem alternative (h : k.Keeps g) (fine : k.Fine u) (head : Head) :
    k.Reads u (Parse.alternative g head) u fun r _ => head.Whole k.names ∧ head.key = none →
      ∀ link ∈ r.links, link.Sound k.names ∧ link.Alternates head := by
  unfold Parse.alternative
  rw [location_iff]
  refine .bind (.refl fine) (alternativeHead fine head _) fun own t₁ l₁ _ renewed => ?_
  refine .bind l₁ (.scan l₁.fine) fun _ t₂ l₂ second _ => ?_
  refine .bind l₂ (alternativeValue h l₂.fine own _) fun own' t₃ l₃ third valued => ?_
  -- where all was read without an error, the head is that of the rule but for its value
  have stead (clean : t₃.failures.size ≤ u.failures.size) (whole : head.Whole k.names)
      (key : head.key = none) : Head.Stead k.names head own' := by
    have clean₂ := third.clean clean
    obtain ⟨args, rfl, length, argsWhole⟩ := renewed (second.clean clean₂)
    obtain ⟨assign, made, v, l, rfl, valueWhole, constant⟩ := valued clean
    refine ⟨⟨whole.reference, argsWhole whole.args, whole.key, fun t ht =>
      Option.some.inj ht ▸ valueWhole⟩, rfl, length, key, rfl, rfl, fun generated => ?_⟩
    rcases constant with same | ⟨l, rfl⟩
    · cases same.symm.trans generated
    · exact ⟨l, rfl⟩
  -- the alternative has a body behind `if`, a body in braces, or none
  rw [token_iff]
  split
  · refine .bind l₃ (alternativeIfBody h l₃.fine) fun b t₄ l₄ fourth body => ?_
    obtain ⟨b, moved⟩ := b
    refine .bind l₄ (furtherAlternative h l₄.fine head) fun next t₅ l₅ fifth follows => ?_
    rw [upToLastStop_iff]
    refine .pure l₅ fun clean ⟨whole, key⟩ => ?_
    have clean₄ := fifth.clean clean
    refine (stead (fourth.clean clean₄) whole key).withIf.links rfl ?_ nofun (follows clean whole key)
    show Body.Whole k.names (if moved = true then b.relocate _ else b)
    split
    · exact (body clean₄).relocate
    · exact body clean₄
  · refine .bind l₃ (bracedBody h l₃.fine) fun b t₄ l₄ fourth body => ?_
    refine .bind l₄ (furtherAlternative h l₄.fine head) fun next t₅ l₅ fifth follows => ?_
    rw [upToLastStop_iff]
    refine .pure l₅ fun clean ⟨whole, key⟩ => ?_
    have clean₄ := fifth.clean clean
    exact (stead (fourth.clean clean₄) whole key).links rfl (body clean₄).1 nofun
      (follows clean whole key)
  · rw [upToLastStop_iff]
    refine .pure l₃ fun clean ⟨whole, key⟩ => ?_
    exact (stead clean whole key).links rfl (whole_trueBody _).relocate
      (fun _ => (isTrue_trueBody _).relocate) nofun

/-- Only a rule without a key, and with a ground path if it has more than one segment, has an alternative.
-/
theorem alternative? (h : k.Keeps g) (fine : k.Fine u) (head : Head) :
    k.Reads u (Parse.alternative? g head) u fun next _ => head.Whole k.names →
      Follows k.names head next ∧ (next ≠ none →
        head.key = none ∧ (head.reference.length = 1 ∨ Ref.isGround head.reference = true)) := by
  -- -- two branches ask for no alternative, and owe nothing about the head
  have nothing {t : Reading} (later : k.Later u t) :
      k.Reads u (Pure.pure none) t fun next _ => head.Whole k.names →
        Follows k.names head next ∧ (next ≠ none →
          head.key = none ∧ (head.reference.length = 1 ∨ Ref.isGround head.reference = true)) :=
    .pure later fun _ _ => ⟨nofun, fun other => absurd rfl other⟩
  unfold Parse.alternative?
  rw [token_iff]
  dsimp only
  split
  · exact nothing (.refl fine)
  · refine .bind (.refl fine) (.startsRefWithKeyword fine) fun b t₁ l₁ _ _ => ?_
    split
    · exact nothing l₁
    · split
      · exact .reportHere_fail l₁ fun _ l => .fail l
      · next ground =>
          split
          · exact .reportHere_fail l₁ fun _ l => .fail l
          · next single =>
              refine .bind l₁ (h (.alternative head) t₁ l₁.fine) fun r t₂ l₂ _ given => .pure l₂ ?_
              intro clean whole
              have key : head.key = none := by simpa using single
              refine ⟨fun r' same => Option.some.inj same ▸ given clean ⟨whole, key⟩,
                fun _ => ⟨key, ?_⟩⟩
              -- -- the reference has a second segment or none, and only then was it asked to be ground
              obtain ⟨first, segments, reference, -⟩ := whole.reference
              rcases segments with _ | ⟨second, segments⟩
              · exact .inl (by rw [reference]; rfl)
              · exact .inr (by simpa [reference] using ground)

/-! ## Rules

The head, the first body and all that follows make one clause, whose rules stand one behind the other. -/

/-- Further bodies make rules that are good, have no alternatives, and start with a brace. -/
theorem siblings (h : k.Keeps g) (fine : k.Fine u) (first : Rule) (read : List Rule) :
    k.Reads u (Parse.siblings g first read) u fun rs _ => first.Sound k.names →
      ∃ more, rs = read ++ more ∧ (more ≠ [] → first.elseRule = none) ∧
        ∀ r ∈ more, r.Good k.names ∧ r.elseRule = none ∧ r.isFurther = true := by
  unfold Parse.siblings
  rw [token_iff]
  dsimp only
  split
  · exact .pure (.refl fine) fun _ _ => ⟨[], (List.append_nil read).symm,
      fun other => absurd rfl other, List.forall_mem_nil _⟩
  · next brace =>
      have brace : u.look.token = .lbrace := by simpa using brace
      split
      · exact .reportHere_fail (.refl fine) fun _ l => .fail l
      · next single =>
          have single : first.elseRule = none := by simpa using single
          rw [location_iff]
          refine .bind (.refl fine) (bracedBody h fine) fun b t₁ l₁ _ body => ?_
          rw [upToLastStop_iff]
          refine .bind l₁ (renewed l₁.fine _ _) fun own t₂ l₂ second made => ?_
          refine .tail l₂ (h _ t₂ l₂.fine) fun rs t₃ later clean given sound => ?_
          have clean₂ := later.clean clean
          obtain ⟨args, rfl, length, whole⟩ := made clean₂
          obtain ⟨body, ahead⟩ := body (second.clean clean₂)
          obtain ⟨more, rfl, -, rest⟩ := given (sound : first.Sound k.names)
          refine ⟨_ :: more, by rw [List.append_assoc, List.singleton_append], fun _ => single,
            fun r hr => ?_⟩
          rcases List.mem_cons.1 hr with rfl | hr
          -- the further body makes a rule with the head of the first one, and its text starts with the brace
          · refine ⟨sound.further length whole body _, rfl, beq_iff_eq.2 ?_⟩
            obtain ⟨c, stands⟩ := fine.stands
            exact head_text_of_brace stands brace l₁ (ahead brace)
          · exact rest r hr

/-- The rules of a head and its first body are a clause. -/
theorem rulesFrom (h : k.Keeps g) (fine : k.Fine u) (head : Head) (b : Body) (place : Location) :
    k.Reads u (Parse.rulesFrom g head b place) u fun rs _ =>
      k.Plain u place → head.Shaped → head.Whole k.names → b.Whole k.names → Rule.Clause k.names rs := by
  unfold Parse.rulesFrom
  refine .bind (.refl fine) (alternative? h fine head) fun next t₁ l₁ _ read => ?_
  rw [upToLastStop_iff]
  refine .tail l₁ (h _ t₁ l₁.fine) fun rs t₂ later clean given plain shaped whole body => ?_
  obtain ⟨follows, shared⟩ := read (later.clean clean) whole
  -- the first rule is sound whatever follows, and what follows is sound by itself
  have sound : Rule.Sound k.names { Rule.new head b with
      elseRule := next
      location := some { place with text := t₁.look.text place.offset t₁.look.lastStop } } :=
    ⟨shaped, whole, body, nofun⟩
  obtain ⟨more, rfl, single, rest⟩ := given sound
  refine ⟨_, more, rfl, ⟨fun link hl => ?_, fun link hl => ?_, shared, nofun⟩,
    beq_eq_false_iff_ne.2 (plain t₁ l₁), single, rest⟩
  · rw [Rule.links, Rule.alternatives_eq] at hl
    rcases List.mem_cons.1 hl with rfl | hl
    · exact sound
    · cases next with
      | none => cases hl
      | some r => exact (follows r rfl link hl).1
  · rw [Rule.alternatives_eq] at hl
    cases next with
    | none => cases hl
    | some r => exact (follows r rfl link hl).2

/-- The rules of a head are a clause, in each of the three forms. -/
theorem definedRules (h : k.Keeps g) (fine : k.Fine u) (head : Head) (place : Location) :
    k.Reads u (Parse.definedRules g head place) u fun rs _ => k.Plain u place →
      head.Draft k.names → (∀ l ∈ head.location, l.text.toList.head? ≠ some '{') → Rule.Clause k.names rs := by
  unfold Parse.definedRules
  rw [token_iff]
  refine .bind (.refl fine) (resolved fine head place _) fun own t₁ l₁ _ settled => ?_
  split
  · refine .bind l₁ (ifBody h l₁.fine) fun b t₂ l₂ second body => ?_
    refine .tail l₂ (rulesFrom h l₂.fine _ b place) fun rs t₃ later clean given plain draft _ => ?_
    have clean₂ := later.clean clean
    obtain ⟨shaped, whole, -⟩ := settled (second.clean clean₂) draft
    exact given (plain.later l₂) shaped.withIf ⟨whole.reference, whole.args, whole.key, whole.value⟩ (body clean₂)
  · refine .bind l₁ (bracedBody h l₁.fine) fun b t₂ l₂ second body => ?_
    refine .tail l₂ (rulesFrom h l₂.fine _ b place) fun rs t₃ later clean given plain draft _ => ?_
    have clean₂ := later.clean clean
    obtain ⟨shaped, whole, -⟩ := settled (second.clean clean₂) draft
    exact given (plain.later l₂) shaped whole (body clean₂).1
  · split
    · refine .pure l₁ fun clean _ draft unbraced => ?_
      obtain ⟨shaped, whole, place⟩ := settled clean draft
      refine ⟨_, [], rfl, ⟨fun link hl => ?_, nofun, fun other => absurd rfl other, nofun⟩, ?_,
        fun other => absurd rfl other, nofun⟩
      · obtain rfl := List.mem_singleton.1 hl
        exact ⟨shaped, whole, whole_trueBody _, fun _ => isTrue_trueBody _⟩
      -- the rule stands where its head does, and no brace is there
      · show own.location.any _ = false
        rw [place]
        rcases located : head.location with _ | l
        · rfl
        · exact beq_eq_false_iff_ne.2 (unbraced l located)
    · exact .fail l₁

/-- Rules are a clause: the text of the first one starts with a word. -/
theorem rules (h : k.Keeps g) (fine : k.Fine u) :
    k.Reads u (Parse.rules g) u fun rs _ => Rule.Clause k.names rs := by
  unfold Parse.rules
  rw [location_iff]
  refine .bind (.refl fine) (.startsRefWithKeyword fine) fun b t₁ l₁ _ first => ?_
  rw [token_iff]
  -- the clause starts with a word, which is read as it was before or as an identifier
  have plain (clean : t₁.failures.size ≤ u.failures.size)
      (word : t₁.look.token = .ident ∨ t₁.look.token = .defaultKw) :
      k.Plain t₁ u.look.location ∧ k.Plain t₁ t₁.look.location := by
    obtain ⟨c, stands⟩ := l₁.fine.stands
    have kind : c.lexeme.kind = .ident :=
      stands.at'.kind_of_word (word.imp id fun keyword => .inl (by rw [keyword]; rfl))
    have same : t₁.look.location = u.look.location := by
      rcases first clean with ⟨-, rfl⟩ | ⟨-, rfl⟩ <;> rfl
    exact ⟨same ▸ plain_of_word stands kind, plain_of_word stands kind⟩
  dsimp only
  split
  · next isDefault =>
      have keyword : t₁.look.token = .defaultKw := beq_iff_eq.1 isDefault
      refine .bind l₁ (.scan l₁.fine) fun _ t₂ l₂ second _ => ?_
      refine .bind l₂ (.startsRefWithKeyword l₂.fine) fun b t₃ l₃ third _ => ?_
      rw [token_iff]
      split
      · exact .fail l₃
      · next ident =>
          refine .bind l₃ (ruleHead h l₃.fine _ (by simpa using ident)) fun own t₄ l₄ fourth head => ?_
          refine .bind l₄ (defaultRule l₄.fine own _) fun r t₅ l₅ fifth read => .pure l₅ fun clean => ?_
          have clean₄ := fifth.clean clean
          have clean₁ := second.clean (third.clean (fourth.clean clean₄))
          have since := ((second.trans third).trans fourth)
          exact read clean ((plain clean₁ (.inr keyword)).1.later since) (head clean₄).1
  · next defined =>
      rw [token_iff]
      split
      · exact .fail l₁
      · next ident =>
          have ident : t₁.look.token = .ident := by simpa using ident
          refine .bind l₁ (ruleHead h l₁.fine _ ident) fun own t₂ l₂ second head => ?_
          refine .tail l₂ (definedRules h l₂.fine own _) fun rs t₃ later clean given => ?_
          have clean₂ := later.clean clean
          obtain ⟨place, text⟩ := plain (second.clean clean₂) (.inl ident)
          obtain ⟨draft, unbraced⟩ := head clean₂
          exact given (place.later second) draft (unbraced text)

end Keeps

end Course

end RegoSyntax
