/-
# RegoSyntax.Proofs.Collections — arrays, sets, objects and comprehensions are read formed.

Where the first element was read and then given up, what was read is of no account: the elements are read
again from the start, and are formed then.

A value between brackets is not placed before its end has been read.  So the rules for what stands inside
say `Placeable`: the value would be whole at any place, which is what `bracketed` needs to give it one.
The lists come with what they add to the elements read before (`more`), so that a list is whole if the
elements handed to it are.
-/
import RegoSyntax.Proofs.Keeping

namespace RegoSyntax

open Parse

namespace Course

/-- A value that can be placed anywhere. -/
def Placeable (k : Course) (v : Value) : Prop := ∀ l, Term.Whole k.names ⟨v, l⟩

namespace Keeps

variable {k : Course} {g : Grammar} {r u w : Reading}

open Reads

/-- A value that can be placed anywhere is placed at its bracket. -/
theorem bracketed {x : Parse Value} (fine : k.Fine u)
    (h : k.Reads u x u fun v _ => k.Placeable v) :
    k.Reads u (Parse.bracketed x) u fun t _ => t.Whole k.names ∧ t.lead = t.value.lead := by
  refine .nested (.refl fine) ?_
  rw [location_iff]
  refine .bind (.refl fine) h fun v t₁ l₁ _ placeable => ?_
  rw [look_iff]
  exact placed_self (.pure l₁ fun clean => ⟨placeable clean _, rfl⟩)

/-- A comma in front of all elements says nothing of them. -/
theorem leadingComma (fine : k.Fine u) :
    k.Reads u Parse.leadingComma u fun _ _ => True := by
  unfold Parse.leadingComma
  rw [token_iff]
  split
  · exact .bind (.refl fine) (.scan fine) fun _ _ l _ _ => .pure l fun _ => trivial
  · exact .pure (.refl fine) fun _ => trivial

/-! ## Lists

A list is whole if what was read before it is, and each element that is added. -/

/-- The elements that are added to a list are whole, and there is one at least where the list does not end
at once. -/
theorem elements (h : k.Keeps g) (fine : k.Fine u) (stop : Token) (read : List Term) :
    k.Reads u (Parse.elements g stop read) u fun ts _ =>
      ∃ more, ts = read ++ more ∧ (∀ t ∈ more, t.Whole k.names) ∧
        (u.look.token ≠ stop → more ≠ []) := by
  unfold Parse.elements
  rw [token_iff]
  split
  · next ends =>
      exact .pure (.refl fine) fun _ => ⟨[], (List.append_nil read).symm,
        fun _ h => absurd h List.not_mem_nil, fun other => absurd (beq_iff_eq.1 ends) other⟩
  · refine .bind (.refl fine) (h _ u fine) fun t t₁ l₁ _ given => ?_
    rw [token_iff]
    split
    · refine .pure l₁ fun clean => ⟨[t], rfl, fun x hx => ?_, fun _ => List.cons_ne_nil _ _⟩
      exact List.mem_singleton.1 hx ▸ given clean trivial
    · split
      · refine .bind l₁ (.scan l₁.fine) fun _ t₂ l₂ after _ => ?_
        -- the rest of the list is read behind the comma, and the element goes before it
        refine .tail l₂ (h _ t₂ l₂.fine) fun ts t₃ later clean givenThen => ?_
        obtain ⟨more, rfl, whole, -⟩ := givenThen trivial
        refine ⟨t :: more, by rw [List.append_assoc, List.singleton_append], fun x hx => ?_,
          fun _ => List.cons_ne_nil _ _⟩
        rcases List.mem_cons.1 hx with rfl | hx
        · exact given (after.clean (later.clean clean)) trivial
        · exact whole x hx
      · exact .unexpected_fail l₁ fun _ l => .fail l

/-- The entries that are added to an object are whole. -/
theorem pairs (h : k.Keeps g) (fine : k.Fine u) (stop : Token) (read : List (Term × Term)) :
    k.Reads u (Parse.pairs g stop read) u fun ps _ =>
      ∃ more, ps = read ++ more ∧ ∀ p ∈ more, p.1.Whole k.names ∧ p.2.Whole k.names := by
  unfold Parse.pairs
  rw [token_iff]
  split
  · exact .pure (.refl fine) fun _ => ⟨[], (List.append_nil read).symm,
      fun _ h => absurd h List.not_mem_nil⟩
  · refine .bind (.refl fine) (h _ u fine) fun key t₁ l₁ _ keyed => ?_
    rw [token_iff]
    dsimp only
    split
    · exact .unexpected_fail l₁ fun _ l => .fail l
    · refine .bind l₁ (.scan l₁.fine) fun _ t₂ l₂ first _ => ?_
      refine .bind l₂ (h _ t₂ l₂.fine) fun value t₃ l₃ second valued => ?_
      -- -- the key was read two steps ago: no failure now means none then
      have pair (clean : t₃.failures.size ≤ u.failures.size) :
          key.Whole k.names ∧ value.Whole k.names :=
        ⟨keyed (first.clean (second.clean clean)) trivial, valued clean trivial⟩
      rw [token_iff]
      split
      · refine .pure l₃ fun clean => ⟨[(key, value)], rfl, fun p hp => ?_⟩
        exact List.mem_singleton.1 hp ▸ pair clean
      · split
        -- -- the pairs behind this one come from the grammar below, which is given as `h`
        · refine .bind l₃ (.scan l₃.fine) fun _ t₄ l₄ third _ => ?_
          refine .tail l₄ (h _ t₄ l₄.fine) fun ps t₅ later clean givenThen => ?_
          obtain ⟨more, rfl, whole⟩ := givenThen trivial
          refine ⟨(key, value) :: more, by rw [List.append_assoc, List.singleton_append],
            fun p hp => ?_⟩
          rcases List.mem_cons.1 hp with rfl | hp
          · exact pair (third.clean (later.clean clean))
          · exact whole p hp
        · exact .unexpected_fail l₃ fun _ l => .fail l

/-! ## Arrays

An array is read from its first element on, or as a comprehension; both times the elements are whole. -/

/-- An array that is read from its first element on is placeable. -/
theorem arrayFrom (h : k.Keeps g) (there : k.Fine w) (before : k.Later r w) (here : k.Later w u) :
    k.Reads r (Parse.arrayFrom g w.save) u fun v _ => k.Placeable v := by
  refine .restore there here fun t back => ?_
  have since := before.trans (back.later there)
  refine .bind since (h _ t back.fine) fun ts t₁ l₁ _ given => .pure l₁ fun clean l => ?_
  obtain ⟨more, rfl, whole, -⟩ := given clean trivial
  exact ⟨trivial, formed_array whole⟩

/-- The elements behind a first one and a comma. -/
theorem elementsBehind (h : k.Keeps g) (later : k.Later r u) (stop : Token) (head : Term) :
    k.Reads r (g (.elements stop [head])) u fun ts _ =>
      head.Whole k.names → ∀ t ∈ ts, t.Whole k.names := by
  refine .tail later (h _ u later.fine) fun ts t _ _ given first => ?_
  obtain ⟨more, rfl, whole, -⟩ := given trivial
  intro x hx
  rcases List.mem_cons.1 hx with rfl | hx
  · exact first
  · exact whole x hx

/-- What stands between brackets is placeable, as a list or as a comprehension. -/
theorem arrayElements (h : k.Keeps g) (fine : k.Fine u) :
    k.Reads u (Parse.arrayElements g) u fun v _ => k.Placeable v := by
  refine .bind (.refl fine) (.scan fine) fun _ t₁ l₁ _ _ => ?_
  rw [token_iff]
  split
  · exact .pure l₁ fun _ l => ⟨trivial, formed_array fun _ h => absurd h List.not_mem_nil⟩
  · refine .bind l₁ (leadingComma l₁.fine) fun plain t₂ l₂ _ _ => ?_
    rw [save_iff]
    refine .bind l₂ (h .term t₂ l₂.fine) fun head t₃ l₃ since first => ?_
    have first (clean : t₃.failures.size ≤ u.failures.size) : head.Whole k.names := by
      obtain ⟨c, stands⟩ := l₂.fine.stands
      exact (first clean trivial c stands).whole
    -- what the first element does not settle is read again from there, with operators
    have again {t : Reading} (later : k.Later t₂ t) :
        k.Reads u (Parse.arrayFrom g t₂.save) t fun v _ => k.Placeable v :=
      arrayFrom h l₂.fine l₂ later
    rw [token_iff]
    split
    · refine .pure l₃ fun clean l => ⟨trivial, formed_array fun t ht => ?_⟩
      exact List.mem_singleton.1 ht ▸ first clean
    · refine .bind l₃ (.scan l₃.fine) fun _ t₄ l₄ after _ => ?_
      refine .bind l₄ (elementsBehind h (.refl l₄.fine) .rbrack head) fun ts t₅ l₅ afterThen given => ?_
      refine .pure l₅ fun clean l => ⟨trivial, formed_array ?_⟩
      exact given clean (first (after.clean (afterThen.clean clean)))
    · split
      · exact again since
      · refine .bind l₃ (.scan l₃.fine) fun _ t₄ l₄ after _ => ?_
        refine .bind l₄ (.attempt (h (.body .rbrack) t₄ l₄.fine)) fun b t₅ l₅ afterThen given => ?_
        split
        · next b =>
            refine .pure l₅ fun clean l => ⟨trivial, formed_arrayComprehension ?_ ?_⟩
            · exact first (after.clean (afterThen.clean clean))
            · exact given clean b rfl trivial
        · rw [token_iff]
          split
          · exact again ((since.trans after).trans afterThen)
          · exact .fail l₅
    · exact again since

/-- An array is whole, and has the lead of its value. -/
theorem array (h : k.Keeps g) (fine : k.Fine u) :
    k.Reads u (Parse.array g) u fun t _ => t.Whole k.names ∧ t.lead = t.value.lead :=
  bracketed fine (arrayElements h fine)

/-- What is read first behind an opening bracket. -/
theorem wholeTerm (h : k.Keeps g) (fine : k.Fine u) :
    k.Reads u (g .term) u fun t _ => t.Whole k.names :=
  (h .term u fine).weaken fun t _ _ _ given => by
    obtain ⟨c, stands⟩ := fine.stands
    exact (given trivial c stands).whole

/-! ## Sets

A set is read again from its first element where it is no comprehension.  What was reported while it was
tried is given up, so the first reading tells nothing. -/

/-- A set that is read from its first element on is placeable. -/
theorem setFrom (h : k.Keeps g) (there : k.Fine w) (before : k.Later r w) (here : k.Later w u) :
    k.Reads r (Parse.setFrom g w.save) u fun v _ => k.Placeable v := by
  refine .restore there here fun t back => ?_
  have since := before.trans (back.later there)
  refine .bind since (h _ t back.fine) fun ts t₁ l₁ _ given => .pure l₁ fun clean l => ?_
  obtain ⟨more, rfl, whole, -⟩ := given clean trivial
  exact ⟨trivial, formed_set whole⟩

/-- The rest of a set.  Where it is read again from its first element, what was read of that one does
not count. -/
theorem set (h : k.Keeps g) (there : k.Fine w) (before : k.Later r w) (here : k.Later w u)
    (head : Term) (plain : Bool) :
    k.Reads r (Parse.set g w.save head plain) u fun v _ =>
      (u.failures.size ≤ r.failures.size → head.Whole k.names) → k.Placeable v := by
  have later := before.trans here
  -- what the first element does not settle is read again from there, with operators
  have again {t : Reading} (since : k.Later w t) :
      k.Reads r (Parse.setFrom g w.save) t fun v _ =>
        (u.failures.size ≤ r.failures.size → head.Whole k.names) → k.Placeable v :=
    (setFrom h there before since).weaken fun _ _ _ _ given _ => given
  refine .nested later ?_
  rw [token_iff]
  split
  · refine .pure later fun clean first l => ⟨trivial, formed_set fun t ht => ?_⟩
    exact List.mem_singleton.1 ht ▸ first clean
  · refine .bind later (.scan later.fine) fun _ t₁ l₁ after _ => ?_
    refine .bind l₁ (elementsBehind h (.refl l₁.fine) .rbrace head) fun ts t₂ l₂ afterThen given => ?_
    refine .pure l₂ fun clean first l => ⟨trivial, formed_set (given clean (first ?_))⟩
    exact after.clean (afterThen.clean clean)
  · split
    · exact again here
    · refine .bind later (.scan later.fine) fun _ t₁ l₁ after _ => ?_
      refine .bind l₁ (.attempt (h (.body .rbrace) t₁ l₁.fine)) fun b t₂ l₂ afterThen given => ?_
      split
      · next b =>
          refine .pure l₂ fun clean first l => ⟨trivial, formed_setComprehension (first ?_) ?_⟩
          · exact after.clean (afterThen.clean clean)
          · exact given clean b rfl trivial
      · rw [token_iff]
        split
        · exact again ((here.trans after).trans afterThen)
        · exact .fail l₂
  · exact .fail later

/-! ## Objects

The key of an object is kept from the first reading, so it has to be known to be whole before the second
one. -/

/-- The rest of an object is placeable as its first entry is whole. -/
theorem objectRest (h : k.Keeps g) (fine : k.Fine u) (key value : Term) (plain : Bool) :
    k.Reads u (Parse.objectRest g key value plain) u fun v _ =>
      key.Whole k.names → value.Whole k.names → k.Placeable v := by
  refine .nested (.refl fine) ?_
  rw [token_iff]
  split
  · refine .pure (.refl fine) fun _ first second l => ⟨trivial, formed_object fun p hp => ?_⟩
    exact List.mem_singleton.1 hp ▸ ⟨first, second⟩
  · split
    · exact .unexpected_fail (.refl fine) fun _ l => .fail l
    · refine .bind (.refl fine) (.scan fine) fun _ t₁ l₁ _ _ => ?_
      refine .bind l₁ (h (.body .rbrace) t₁ l₁.fine) fun b t₂ l₂ _ given => ?_
      exact .pure l₂ fun clean first second l =>
        ⟨trivial, formed_objectComprehension first second (given clean trivial)⟩
  · refine .bind (.refl fine) (.scan fine) fun _ t₁ l₁ _ _ => ?_
    refine .bind l₁ (h (.pairs .rbrace [(key, value)]) t₁ l₁.fine) fun ps t₂ l₂ _ given => ?_
    refine .pure l₂ fun clean first second l => ⟨trivial, formed_object fun p hp => ?_⟩
    obtain ⟨more, rfl, whole⟩ := given clean trivial
    rcases List.mem_cons.1 hp with rfl | hp
    · exact ⟨first, second⟩
    · exact whole p hp
  · exact .fail (.refl fine)

/-- An object that does not end was reported. -/
theorem unterminatedObject {P : Value → Reading → Prop} (later : k.Later r u) :
    k.Reads r Parse.unterminatedObject u P := .unexpected_fail later fun _ l => .fail l

/-- An object of which the first value is read again is placeable as its key is whole. -/
theorem objectFrom (h : k.Keeps g) (there : k.Fine w) (before : k.Later r w) (here : k.Later w u)
    (key : Term) :
    k.Reads r (Parse.objectFrom g w.save key) u fun v _ =>
      (w.failures.size ≤ r.failures.size → key.Whole k.names) → k.Placeable v := by
  refine .restore there here fun t back => ?_
  have since := before.trans (back.later there)
  refine .bind since (h (.compound false) t back.fine) fun value t₁ l₁ after valued => ?_
  have rest : k.Reads r (Parse.objectRest g key value true) t₁ fun v _ =>
      (w.failures.size ≤ r.failures.size → key.Whole k.names) → k.Placeable v := by
    refine .tail l₁ (objectRest h l₁.fine key value true) fun v t₂ later clean given first => ?_
    have clean₁ := later.clean clean
    exact given (first (back.failures ▸ after.clean clean₁)) (valued clean₁ trivial)
  rw [token_iff]
  split
  · exact rest
  · exact rest
  · exact unterminatedObject l₁

/-- An object is placeable as its first key is whole. -/
theorem object (h : k.Keeps g) (fine : k.Fine u) (key : Term) (plain : Bool) :
    k.Reads u (Parse.object g key plain) u fun v _ => key.Whole k.names → k.Placeable v := by
  refine .nested (.refl fine) (.bind (.refl fine) (.scan fine) fun _ t₁ l₁ _ _ => ?_)
  rw [save_iff]
  refine .bind l₁ (wholeTerm h l₁.fine) fun value t₂ l₂ after valued => ?_
  -- the value is read again from where it starts, with operators
  have again {t : Reading} (since : k.Later t₁ t) :
      k.Reads u (Parse.objectFrom g t₁.save key) t fun v _ => key.Whole k.names → k.Placeable v :=
    (objectFrom h l₁.fine l₁ since key).weaken fun _ _ _ _ given first => given fun _ => first
  have rest : k.Reads t₂ (Parse.attempt (Parse.objectRest g key value false)) t₂ fun v _ =>
      ∀ w ∈ v, key.Whole k.names → value.Whole k.names → k.Placeable w :=
    .attempt (objectRest h l₂.fine key value false)
  split
  · exact again after
  · rw [token_iff]
    split
    · refine .bind l₂ rest fun v t₃ l₃ afterThen given => ?_
      split
      · next v =>
          exact .pure l₃ fun clean first => given clean v rfl first (valued (afterThen.clean clean))
      · refine .restore l₁.fine (after.trans afterThen) fun t back => ?_
        exact unterminatedObject (l₁.trans (back.later l₁.fine))
    · refine .bind l₂ rest fun v t₃ l₃ afterThen given => ?_
      split
      · next v =>
          exact .pure l₃ fun clean first => given clean v rfl first (valued (afterThen.clean clean))
      · refine .restore l₁.fine (after.trans afterThen) fun t back => ?_
        exact unterminatedObject (l₁.trans (back.later l₁.fine))
    · refine .bind l₂ rest fun v t₃ l₃ afterThen given => ?_
      split
      · next v =>
          exact .pure l₃ fun clean first => given clean v rfl first (valued (afterThen.clean clean))
      · exact again (after.trans afterThen)
    · exact again after

/-! ## Braces

What stands between braces is placed at the brace that opens. -/

/-- What stands between braces is placeable. -/
theorem bracedElements (h : k.Keeps g) (fine : k.Fine u) :
    k.Reads u (Parse.bracedElements g) u fun v _ => k.Placeable v := by
  refine .bind (.refl fine) (.scan fine) fun _ t₁ l₁ _ _ => ?_
  rw [token_iff]
  split
  · exact .pure l₁ fun _ l => ⟨trivial, formed_object fun _ h => absurd h List.not_mem_nil⟩
  · refine .bind l₁ (leadingComma l₁.fine) fun plain t₂ l₂ _ _ => ?_
    rw [save_iff]
    refine .bind l₂ (wholeTerm h l₂.fine) fun head t₃ l₃ since first => ?_
    rw [token_iff]
    split
    · exact (set h l₂.fine l₂ since head plain).weaken fun _ _ _ _ given => given first
    · split
      · exact .tail l₃ (object h l₃.fine head plain) fun _ _ later clean given =>
          given (first (later.clean clean))
      · refine .restore l₂.fine since fun t back => ?_
        have again := l₂.trans (back.later l₂.fine)
        refine .bind again (h (.compound false) t back.fine) fun head t₄ l₄ after first => ?_
        rw [token_iff]
        have first (clean : t₄.failures.size ≤ u.failures.size) : head.Whole k.names :=
          first clean trivial
        -- read with operators, the first element tells a set from an object
        have rest : k.Reads u (Parse.set g t₂.save head true) t₄ fun v _ => k.Placeable v :=
          (set h l₂.fine l₂ ((back.later l₂.fine).trans after) head true).weaken
            fun _ _ _ _ given => given first
        split
        · exact rest
        · exact rest
        · exact .tail l₄ (object h l₄.fine head plain) fun _ _ later clean given =>
            given (first (later.clean clean))
        · exact .unexpected_fail l₄ fun _ l => .fail l

/-- A set or an object is whole, and has the lead of its value. -/
theorem braced (h : k.Keeps g) (fine : k.Fine u) :
    k.Reads u (Parse.braced g) u fun t _ => t.Whole k.names ∧ t.lead = t.value.lead :=
  bracketed fine (bracedElements h fine)

end Keeps

end Course

end RegoSyntax
