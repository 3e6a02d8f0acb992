/-
# RegoSyntax.Proofs.Renaming.Terms — references, calls and primary terms in step.

`Twins.Follows` says of two ways to read the grammar that each production is read in step, from what has
been read alike.  Whatever is put together from them is read in step again.  One rule of the grammar after
the other: this module has those of references and calls, of collections and of primary terms.

In step means that both parsers see the same tokens at the same offsets and have alike trees, and that the
wildcards that they have drawn correspond (`Pairing`).  The correspondence grows as names are drawn;
`mono` carries what was read before to the larger one, and each case below that reads several parts uses
it for the earlier ones.

A place to return to is saved on both sides together, and what is known of it (`Saved`) is kept as well as
names are drawn behind it.
-/
import RegoSyntax.Proofs.Renaming.Turns

namespace RegoSyntax

open Parse

namespace Twins

/-- Two ways to read the grammar are in step. -/
structure Follows (τ : Twins) (g g' : Grammar) : Prop where
  term {F : Floor} {N : Pairing} : τ.InStep F N (g .term) (g' .term) fun M => Term.Alike M.pairs
  reference {F : Floor} {N : Pairing} {t u : Term} (start : Nat) : t.Alike N.pairs u →
    τ.InStep F N (g (.reference t start)) (g' (.reference u start)) fun M => Term.Alike M.pairs
  segments {F : Floor} {N : Pairing} {p q : Ref} (place : Location) (start : Nat) :
    AlikeTerms N.pairs p q →
    τ.InStep F N (g (.segments place start p)) (g' (.segments place start q)) fun M =>
      Term.Alike M.pairs
  elements {F : Floor} {N : Pairing} {ts us : List Term} (stop : Token) : AlikeTerms N.pairs ts us →
    τ.InStep F N (g (.elements stop ts)) (g' (.elements stop us)) fun M => AlikeTerms M.pairs
  pairs {F : Floor} {N : Pairing} {ps qs : List (Term × Term)} (stop : Token) :
    AlikePairs N.pairs ps qs →
    τ.InStep F N (g (.pairs stop ps)) (g' (.pairs stop qs)) fun M => AlikePairs M.pairs
  compound {F : Floor} {N : Pairing} (keyed : Bool) :
    τ.InStep F N (g (.compound keyed)) (g' (.compound keyed)) fun M => Term.Alike M.pairs
  membership {F : Floor} {N : Pairing} {t u : Option Term} (keyed : Bool) (start : Nat) :
    AlikeKeys N.pairs t u →
    τ.InStep F N (g (.membership keyed t start)) (g' (.membership keyed u start)) fun M =>
      Term.Alike M.pairs
  operation {F : Floor} {N : Pairing} {t u : Option Term} (tier : Tier) (start : Nat) :
    AlikeKeys N.pairs t u →
    τ.InStep F N (g (.operation tier t start)) (g' (.operation tier u start)) fun M =>
      Term.Alike M.pairs
  body {F : Floor} {N : Pairing} (stop : Token) :
    τ.InStep F N (g (.body stop)) (g' (.body stop)) fun M => AlikeBodies M.pairs
  literals {F : Floor} {N : Pairing} {b c : Body} (oneLine : Bool) (stop : Token) :
    AlikeBodies N.pairs b c →
    τ.InStep F N (g (.literals oneLine stop b)) (g' (.literals oneLine stop c)) fun M =>
      AlikeBodies M.pairs
  literal {F : Floor} {N : Pairing} : τ.InStep F N (g .literal) (g' .literal) fun M => Expr.Alike M.pairs
  replacements {F : Floor} {N : Pairing} {ws xs : List With} : AlikeWiths N.pairs ws xs →
    τ.InStep F N (g (.replacements ws)) (g' (.replacements xs)) fun M => AlikeWiths M.pairs
  symbols {F : Floor} {N : Pairing} {ts us : List Term} : AlikeTerms N.pairs ts us →
    τ.InStep F N (g (.symbols ts)) (g' (.symbols us)) fun M => AlikeTerms M.pairs
  alternative {F : Floor} {N : Pairing} {h k : Head} : h.Alike N.pairs k →
    τ.InStep F N (g (.alternative h)) (g' (.alternative k)) fun M => Rule.Alike M.pairs
  siblings {F : Floor} {N : Pairing} {r s : Rule} {rs ss : List Rule} : r.Alike N.pairs s →
    List.Forall₂ (Rule.Alike N.pairs) rs ss →
    τ.InStep F N (g (.siblings r rs)) (g' (.siblings s ss)) fun M =>
      List.Forall₂ (Rule.Alike M.pairs)

namespace InStep

variable {τ : Twins} {F : Floor} {N : Pairing} {g g' : Grammar} {t u : Term} {p q : Ref}
  {ts us : List Term}

/-! ## Calls

A call keeps the order of its arguments, so they are alike one by one. -/

/-- A call is its operator with the arguments, if there are any. -/
theorem call (h : τ.Follows g g') (alike : t.Alike N.pairs u) (start : Nat) :
    τ.InStep F N (Parse.call g t start) (Parse.call g' u start) fun M => Term.Alike M.pairs := by
  refine nested ?_
  rw [alike.place, alike.isSetConstructor]
  refine scan (token fun kind => ?_)
  split
  · refine look fun _ _ => scanBlank (placed ?_)
    split
    · exact .mk (.set .nil)
    · exact .mk (.call (.one alike))
  · refine bind (h.elements .rparen (.one alike)) fun M ts us _ alike => ?_
    exact look fun _ _ => scanBlank (placed (.mk (.call alike)))

/-! ## References

A path is read as it goes on, and each part of it is the same kind of thing on both sides. -/

/-- A reference goes on from its head as a path of one term. -/
theorem reference (h : τ.Follows g g') (alike : t.Alike N.pairs u) (start : Nat) :
    τ.InStep F N (Parse.reference g t start) (Parse.reference g' u start) fun M =>
      Term.Alike M.pairs := by
  refine nested ?_
  have rest := h.segments (F := F) u.place start (.one alike)
  rw [alike.place, alike.value.canHeadRef, alike.value.kind]
  split
  · exact report (.same _) rest
  · exact rest

/-- A segment behind a point. -/
theorem namedSegment : τ.InStep F N Parse.namedSegment Parse.namedSegment fun M =>
    Term.Alike M.pairs := by
  refine scanBlank (token fun kind => isRefKeyword fun word => ?_)
  split
  · exact look fun _ _ => scanBlank (pure (.mk (.string _)))
  · exact reject (.same _)

/-- A segment between brackets. -/
theorem bracketSegment (h : τ.Follows g g') :
    τ.InStep F N (Parse.bracketSegment g) (Parse.bracketSegment g') fun M =>
      Term.Alike M.pairs := by
  refine scan (bind (h.compound true) fun M t u _ alike => token fun kind => ?_)
  split
  · exact scanBlank (pure alike)
  · exact reject (.same _)

/-- A path that ends is a reference with its text. -/
theorem endReference (alike : AlikeTerms N.pairs p q) (place : Location) (start : Nat) :
    τ.InStep F N (Parse.endReference place start p) (Parse.endReference place start q) fun M =>
      Term.Alike M.pairs :=
  lastStop fun _ => placed (.mk (.ref alike))

/-- A path goes on with a segment or a call, or ends. -/
theorem segments (h : τ.Follows g g') (alike : AlikeTerms N.pairs p q) (place : Location)
    (start : Nat) :
    τ.InStep F N (Parse.segments g place start p) (Parse.segments g' place start q) fun M =>
      Term.Alike M.pairs := by
  -- behind a segment the reference goes on
  have goOn (M : Pairing) (t u : Term) (le : N ≤ M) (segment : t.Alike M.pairs u) :
      τ.InStep F M (g (.segments place start (p ++ [t]))) (g' (.segments place start (q ++ [u])))
        fun M => Term.Alike M.pairs :=
    h.segments place start ((alike.mono le.more).append (.one segment))
  refine token fun kind => ?_
  split
  · exact bind namedSegment goOn
  · exact bind (bracketSegment h) goOn
  · refine offset fun _ => bind (placed (.mk (.ref alike))) fun L op op' _ operator => ?_
    refine bind (call h operator start) fun M c c' _ call => token fun kind => ?_
    split
    · exact scan (pure call)
    · exact h.reference start call
    · exact h.reference start call
    · exact pure call
  · exact bind (endReference alike place start) fun M t u _ alike => scan (pure alike)
  · exact endReference alike place start

/-- Behind a term a reference may go on. -/
theorem finish (h : τ.Follows g g') (alike : t.Alike N.pairs u) (skipBlanks : Bool) :
    τ.InStep F N (Parse.finish g t skipBlanks) (Parse.finish g' u skipBlanks) fun M =>
      Term.Alike M.pairs := by
  refine offset fun start => advance (token fun kind => ?_)
  have done : Term.Alike N.pairs (if isRoot t.value then ⟨.ref [t], t.location⟩ else t)
      (if isRoot u.value then ⟨.ref [u], u.location⟩ else u) := by
    rw [alike.value.isRoot, alike.location]
    split
    · exact .mk (.ref (.one alike))
    · exact alike
  split
  · exact h.reference start alike
  · exact h.reference start alike
  · exact h.reference start alike
  · dsimp only
    split
    · exact scan (pure done)
    · exact pure done

/-! ## Collections

A first element is tried.  On either side the rest is told by the token behind it, which is the same. -/

/-- A value between brackets. -/
theorem bracketed {x x' : Parse Value} (inside : τ.InStep F N x x' fun M => Value.Alike M.pairs) :
    τ.InStep F N (Parse.bracketed x) (Parse.bracketed x') fun M => Term.Alike M.pairs :=
  nested (location fun _ => bind inside fun _ _ _ _ alike => look fun _ _ => placed (.mk alike))

/-- A comma in front of all elements is passed, and rules out a comprehension. -/
theorem leadingComma {α β : Type} {Q : Pairing → α → β → Prop} {f : Bool → Parse α}
    {f' : Bool → Parse β} (rest : ∀ plain, τ.InStep F N (f plain) (f' plain) Q) :
    τ.InStep F N (Parse.leadingComma >>= f) (Parse.leadingComma >>= f') Q := by
  unfold Parse.leadingComma
  simp only [bind_assoc]
  refine token fun kind => ?_
  split
  · simp only [bind_assoc]
    exact scan (rest true)
  · exact rest false

/-- Elements are read up to the token that closes the list. -/
theorem elements (h : τ.Follows g g') (alike : AlikeTerms N.pairs ts us) (stop : Token) :
    τ.InStep F N (Parse.elements g stop ts) (Parse.elements g' stop us) fun M =>
      AlikeTerms M.pairs := by
  refine token fun kind => ?_
  split
  · exact pure alike
  · refine bind (h.compound false) fun M t u le last => token fun kind => ?_
    have read := (alike.mono le.more).append (.one last)
    split
    · exact pure read
    · split
      · exact scan (h.elements stop read)
      · exact reject (.same _)

/-- Pairs are read up to the token that closes the list. -/
theorem pairs (h : τ.Follows g g') {ps qs : List (Term × Term)} (alike : AlikePairs N.pairs ps qs)
    (stop : Token) :
    τ.InStep F N (Parse.pairs g stop ps) (Parse.pairs g' stop qs) fun M => AlikePairs M.pairs := by
  refine token fun kind => ?_
  split
  · exact pure alike
  · refine bind (h.compound false) fun L k l first key => token fun kind => ?_
    split
    · exact reject (.same _)
    · refine scan (bind (h.compound false) fun M v w second value => token fun kind => ?_)
      -- the pairs so far, under the names that the new one has drawn
      have read := (alike.mono (first.trans second).more).append
        (.cons (key.mono second.more) value .nil)
      split
      · exact pure read
      · split
        · exact scan (h.pairs stop read)
        · exact reject (.same _)

/-! ### Arrays -/

variable {s s' : Snapshot}

/-- The elements of an array, from its first one. -/
theorem arrayFrom (h : τ.Follows g g') (saved : τ.Saved F N s s') :
    τ.InStep F N (Parse.arrayFrom g s) (Parse.arrayFrom g' s') fun M => Value.Alike M.pairs :=
  restore saved (bind (h.elements .rbrack .nil) fun _ _ _ _ alike => pure (.array alike))

/-- A comprehension is preferred to a list, unless its query stops at a comma. -/
theorem comprehension {v v' : Body → Value} {x x' : Parse Value} (h : τ.Follows g g') (stop : Token)
    (gives : ∀ M b c, N ≤ M → AlikeBodies M.pairs b c → (v b).Alike M.pairs (v' c))
    (list : ∀ M, N ≤ M → τ.InStep F M x x' fun M => Value.Alike M.pairs) :
    τ.InStep F N
      (Parse.scan >>= fun _ => do
        match ← Parse.attempt (g (.body stop)) with
        | some b => return v b
        | none => if (← Parse.token) == .comma then x else Parse.fail)
      (Parse.scan >>= fun _ => do
        match ← Parse.attempt (g' (.body stop)) with
        | some b => return v' b
        | none => if (← Parse.token) == .comma then x' else Parse.fail)
      fun M => Value.Alike M.pairs := by
  refine scan (trying (h.body stop) (fun M b c le alike => pure (gives M b c le alike)) fun M le => ?_)
  exact token fun kind => ite (list M le) fail

/-- An array is empty, a list, or a comprehension. -/
theorem arrayElements (h : τ.Follows g g') :
    τ.InStep F N (Parse.arrayElements g) (Parse.arrayElements g') fun M => Value.Alike M.pairs := by
  refine scan (token fun kind => ?_)
  split
  · exact pure (.array .nil)
  · refine leadingComma fun plain => save fun G s s' saved => ?_
    refine bind h.term fun L t u le head => token fun kind => ?_
    have saved := saved.mono le
    split
    · exact pure (.array (.one head))
    · exact scan (bind (h.elements .rbrack (.one head)) fun _ _ _ _ alike => pure (.array alike))
    · split
      · exact arrayFrom h saved
      · exact comprehension h .rbrack (fun M b c le body => .arrayComprehension (head.mono le.more) body)
          fun M le => arrayFrom h (saved.mono le)
    · exact arrayFrom h saved

/-- An array is what stands between its brackets. -/
theorem array (h : τ.Follows g g') :
    τ.InStep F N (Parse.array g) (Parse.array g') fun M => Term.Alike M.pairs :=
  bracketed (arrayElements h)

/-! ### Sets -/

/-- The elements of a set, from its first one. -/
theorem setFrom (h : τ.Follows g g') (saved : τ.Saved F N s s') :
    τ.InStep F N (Parse.setFrom g s) (Parse.setFrom g' s') fun M => Value.Alike M.pairs :=
  restore saved (bind (h.elements .rbrace .nil) fun _ _ _ _ alike => pure (.set alike))

/-- A set, or a comprehension of one, by what follows its first element. -/
theorem set (h : τ.Follows g g') (saved : τ.Saved F N s s') (head : t.Alike N.pairs u) (plain : Bool) :
    τ.InStep F N (Parse.set g s t plain) (Parse.set g' s' u plain) fun M => Value.Alike M.pairs := by
  refine nested (token fun kind => ?_)
  split
  · exact pure (.set (.one head))
  · exact scan (bind (h.elements .rbrace (.one head)) fun _ _ _ _ alike => pure (.set alike))
  · split
    · exact setFrom h saved
    · exact comprehension h .rbrace (fun M b c le body => .setComprehension (head.mono le.more) body)
        fun M le => setFrom h (saved.mono le)
  · exact fail

/-! ### Objects -/

/-- An object, or a comprehension of one, by what follows its first entry. -/
theorem objectRest (h : τ.Follows g g') {k l v w : Term} (key : k.Alike N.pairs l)
    (value : v.Alike N.pairs w) (plain : Bool) :
    τ.InStep F N (Parse.objectRest g k v plain) (Parse.objectRest g' l w plain) fun M =>
      Value.Alike M.pairs := by
  refine nested (token fun kind => ?_)
  split
  · exact pure (.object (.cons key value .nil))
  · split
    · exact reject (.same _)
    · refine scan (bind (h.body .rbrace) fun M b c le body => pure ?_)
      exact .objectComprehension (key.mono le.more) (value.mono le.more) body
  · refine scan (bind (h.pairs .rbrace (.cons key value .nil)) fun _ _ _ _ alike => ?_)
    exact pure (.object alike)
  · exact fail

/-- An object that does not end is reported alike. -/
theorem unterminatedObject :
    τ.InStep F N Parse.unterminatedObject Parse.unterminatedObject fun M => Value.Alike M.pairs :=
  reject (.same _)

/-- The pairs of an object, from the value of its first entry. -/
theorem objectFrom (h : τ.Follows g g') (saved : τ.Saved F N s s') (key : t.Alike N.pairs u) :
    τ.InStep F N (Parse.objectFrom g s t) (Parse.objectFrom g' s' u) fun M =>
      Value.Alike M.pairs := by
  refine restore saved (bind (h.compound false) fun M v w le value => token fun kind => ?_)
  split
  · exact objectRest h (key.mono le.more) value true
  · exact objectRest h (key.mono le.more) value true
  · exact unterminatedObject

/-- An object is tried with its first entry, and read again from there where a comprehension was not
meant. -/
theorem object (h : τ.Follows g g') (key : t.Alike N.pairs u) (plain : Bool) :
    τ.InStep F N (Parse.object g t plain) (Parse.object g' u plain) fun M =>
      Value.Alike M.pairs := by
  refine nested (scan (save fun G s s' saved => bind h.term fun M v w le value => ?_))
  have key := key.mono le.more
  have saved := saved.mono le
  split
  · exact objectFrom h saved key
  · refine token fun kind => ?_
    have entry := objectRest (F := G) h key value false
    split
    · exact trying entry (fun _ _ _ _ alike => pure alike) fun M le =>
        restore (saved.mono le) unterminatedObject
    · exact trying entry (fun _ _ _ _ alike => pure alike) fun M le =>
        restore (saved.mono le) unterminatedObject
    · exact trying entry (fun _ _ _ _ alike => pure alike) fun M le =>
        objectFrom h (saved.mono le) (key.mono le.more)
    · exact objectFrom h saved key

/-- What stands in braces is empty, a set, or an object. -/
theorem bracedElements (h : τ.Follows g g') :
    τ.InStep F N (Parse.bracedElements g) (Parse.bracedElements g') fun M => Value.Alike M.pairs := by
  refine scan (token fun kind => ?_)
  split
  · exact pure (.object .nil)
  · refine leadingComma fun plain => save fun G s s' saved => ?_
    refine bind h.term fun L t u le head => token fun kind => ?_
    have saved := saved.mono le
    split
    · exact set h saved head plain
    · split
      · exact object h head plain
      · refine restore saved (bind (h.compound false) fun M t u le head => token fun kind => ?_)
        split
        · exact set h (saved.mono le) head true
        · exact set h (saved.mono le) head true
        · exact object h head plain
        · exact reject (.same _)

/-- A set or an object is what stands between its braces. -/
theorem braced (h : τ.Follows g g') :
    τ.InStep F N (Parse.braced g) (Parse.braced g') fun M => Term.Alike M.pairs :=
  bracketed (bracedElements h)

/-! ## Scalars

A scalar is the text of its tokens, so it is the same on both sides. -/

/-- A sign in front of a number is passed where one of the tokens behind it may follow. -/
theorem signMark {α β : Type} {Q : Pairing → α → β → Prop} {mark : Token} {following : List Token}
    {f : Bool → Parse α} {f' : Bool → Parse β}
    (rest : ∀ marked, τ.InStep F N (f marked) (f' marked) Q) :
    τ.InStep F N (Parse.signMark mark following >>= f) (Parse.signMark mark following >>= f') Q := by
  unfold Parse.signMark
  simp only [bind_assoc]
  refine token fun kind => ?_
  split
  · simp only [bind_assoc]
    refine scan (token fun kind => ?_)
    split
    · exact rest true
    · simp only [bind_assoc]
      exact unexpected (.same _) fail
  · exact rest false

/-- A number is the text of its tokens, which are the same. -/
theorem number : τ.InStep F N Parse.number Parse.number fun M => Term.Alike M.pairs := by
  refine location fun place => signMark fun negative => signMark fun pointed => look fun l hints => ?_
  rw [Look.literal_hints l hints]
  dsimp only
  split
  · exact unexpected (.same _) fail
  · split
    · exact reject (.same _)
    · split
      · exact pure (.mk (.number _))
      · exact rejectHere (.same _)

/-- A text is that of its token, which is the same. -/
theorem string : τ.InStep F N Parse.string Parse.string fun M => Term.Alike M.pairs := by
  refine look fun l hints => ?_
  rw [Look.literal_hints l hints]
  dsimp only
  split
  · cases rawText? l.literal.toList with
    | none => exact fail
    | some text => exact here (.string _)
  · split
    · exact here (.string _)
    · split
      · exact here (.string _)
      · exact rejectHere (.same _)

/-! ## Primary terms

A term is read, or recalled from an entry that is alike; both are told by what the two sides have met. -/

/-- A term in parentheses keeps its value and gets a longer text. -/
theorem parenthesized (h : τ.Follows g g') :
    τ.InStep F N (Parse.parenthesized g) (Parse.parenthesized g') fun M => Term.Alike M.pairs := by
  refine offset fun start => scan (bind (h.compound true) fun M t u _ alike => token fun kind => ?_)
  split
  · refine look fun _ _ => text fun covered => pure ?_
    rw [alike.location]
    exact .mk alike.value
  · exact rejectHere (.same _)

/-- A head is told by its token. -/
theorem head (h : τ.Follows g g') :
    τ.InStep F N (Parse.head g) (Parse.head g') fun M => Term.Alike M.pairs := by
  refine token_at fun s s' meets => ?_
  split
  · exact here .null _ _ meets
  · exact here (.boolean true) _ _ meets
  · exact here (.boolean false) _ _ meets
  · exact number _ _ meets
  · exact number _ _ meets
  · exact number _ _ meets
  · exact string _ _ meets
  -- exact variableHere meets (.inl word) => a wildcard draws a name on either side, and the two names
  -- correspond from here on
  · next word => exact variableHere meets (.inl word)
  · next word => exact variableHere meets (.inr (.inr (word ▸ rfl)))
  · exact array h _ _ meets
  · exact braced h _ _ meets
  · exact parenthesized h _ _ meets
  · exact reject (.same _) _ _ meets

/-- A term is read and remembered on both sides. -/
theorem freshTerm (h : τ.Follows g g') :
    τ.InStep F N (Parse.freshTerm g) (Parse.freshTerm g') fun M => Term.Alike M.pairs := by
  refine save fun G p p' saved => ?_
  refine trying (bind (head h) fun L t u _ alike => finish h alike false) (fun M t u le alike => ?_)
    fun M le => ?_
  · exact remember (saved.mono le) (.some alike) (pure alike)
  · exact remember (saved.mono le) .none fail

/-- A term that is remembered on one side is remembered on the other. -/
theorem term (h : τ.Follows g g') :
    τ.InStep F N (Parse.term g) (Parse.term g') fun M => Term.Alike M.pairs := by
  refine nested (remembered fun e e' alike => ?_)
  cases alike with
  | some alike => exact replay alike
  | none => exact freshTerm h

end InStep

end Twins

end RegoSyntax
