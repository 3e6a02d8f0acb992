/-
# RegoSyntax.Proofs.Tracks.Collections — what stands between brackets is placed there.

A first element that is read again was read from the same token, so what is read behind it the second time
follows what is read of it then.  Its wildcards have other names than those of the first reading.

What is shown of a collection is `Closes`: the parser rests at the closing token, the value is no
variable, and the nodes below stand between the offset where the collection starts and there, one after
the other.  A bracket is added to it by `bracketed`, which gives the term its place and its text.

Where the parser returns to the first element, the nodes that it has read are given up together with the
reading, and the ones that are read then are covered from the same cursor.  So each way through a rule has
its own chain of `Covers`, and `again` in the proofs below stands for the way that starts over.
-/
import RegoSyntax.Proofs.Tracks.Terms

namespace RegoSyntax

open Parse

namespace Survey

/-- A collection that was read from an offset on, up to its closing token. -/
structure Closes (m : Survey) (stop : Token) (start : Nat) (value : Value) (v : Reading) : Prop where
  token : v.look.token = stop
  other : value.isVar = false
  covers : m.Covers v start value.walkParts

namespace Keeps

variable {m : Survey} {g : Grammar} {c d : Cursor} {r u v w : Reading} {n : Nat}

open Tracks

theorem bracketed {x : Parse Value} {stop : Token} (sound : m.Sound c u) (proper : c.Proper m.source)
    (joint : stop.isJoint = true) (plain : stop.isPlain = true)
    (h : m.Tracks (m.Later u) x u fun value v => m.Closes stop c.offset value v) :
    m.Tracks (m.Later u) (Parse.bracketed x) u fun t v => Heads m c v t := by
  refine .nested sound (.refl sound) ?_
  rw [location_iff]
  refine .step (.refl sound) h fun value t d s l _ closes => ?_
  rw [look_iff]
  refine placed_self (.pure l ?_)
  have offset : u.look.location.offset = c.offset := sound.offset
  have le : c.offset ≤ t.look.offset := sound.offset ▸ l.ahead
  -- the text of the collection starts with it, at the bracket
  have opens : m.Opens u.look.location.offset u.look.location.offset :=
    ⟨c, sound.rests.at'.starts, offset.symm, .inl offset.symm⟩
  refine ⟨fun ended => ?_, .inr fun e rests => ?_, ?_⟩
  · rw [← closes.token, ended] at joint
    cases joint
  · exact (rests.kind_iff stop plain).1 closes.token ▸ joint
  · refine .of_parts (closes.covers.mono (.refl _) (Nat.le_refl _) (Nat.le_succ _)) closes.other
      (s.rests.anchored_text sound.rests.located opens s.rests.bounds_stop) ?_
    exact .here proper offset (Nat.lt_succ_of_le le)

/-- A comma in front of all elements is passed; it has no node. -/
theorem leadingComma (sound : m.Sound c u) :
    m.Tracks (m.Later u) Parse.leadingComma u fun _ _ => True := by
  unfold Parse.leadingComma
  rw [token_iff]
  split
  · next comma =>
      have comma : u.look.token = .comma := beq_iff_eq.1 comma
      exact .step (.refl sound) (.scan sound (by rw [comma]; decide)) fun _ _ _ _ l _ _ => .pure l trivial
  · exact .pure (.refl sound) trivial

/-! ## Lists

Elements are read one behind the other with a comma between them, so what they were read from lies in the
same order. -/

/-- Elements stand behind those that were read before, with a comma between them. -/
theorem elements (h : m.Keeps g) (sound : m.Sound c u) (stop : Token) (read : List Term) :
    m.Tracks (m.Later u) (Parse.elements g stop read) u fun ts v => v.look.token = stop ∧
      ∀ a, m.Covers u a (walkTerms read) → m.Covers v a (walkTerms ts) := by
  unfold Parse.elements
  rw [token_iff]
  split
  · next closes => exact .pure (.refl sound) ⟨beq_iff_eq.1 closes, fun _ covers => covers⟩
  · refine .step (.refl sound) (h (.compound false) c u sound trivial) fun t t₁ d₁ s₁ l₁ _ reads => ?_
    -- the nodes so far, and behind them those of the element
    have more (a : Nat) (covers : m.Covers u a (walkTerms read)) :
        m.Covers t₁ a (walkTerms (read ++ [t])) := by
      rw [walkTerms_append]
      exact covers.then sound l₁ reads.path
    rw [token_iff]
    split
    · next closes => exact .pure l₁ ⟨beq_iff_eq.1 closes, more⟩
    · split
      · next comma =>
          have comma : t₁.look.token = .comma := beq_iff_eq.1 comma
          refine .step l₁ (.scan s₁ (by rw [comma]; decide)) fun _ t₂ d₂ s₂ l₂ n₂ _ => ?_
          exact .tail l₂ (h (.elements stop (read ++ [t])) d₂ t₂ s₂ trivial)
            fun ts v _ ⟨closes, covers⟩ => ⟨closes, fun a before => covers a ((more a before).later n₂)⟩
      · exact .unexpected_fail l₁ s₁

/-- Keys and values stand behind those that were read before, each key in front of its value. -/
theorem pairs (h : m.Keeps g) (sound : m.Sound c u) (stop : Token) (read : List (Term × Term)) :
    m.Tracks (m.Later u) (Parse.pairs g stop read) u fun ps v => v.look.token = stop ∧
      ∀ a, m.Covers u a (walkPairs read) → m.Covers v a (walkPairs ps) := by
  unfold Parse.pairs
  rw [token_iff]
  split
  · next closes => exact .pure (.refl sound) ⟨beq_iff_eq.1 closes, fun _ covers => covers⟩
  · refine .step (.refl sound) (h (.compound false) c u sound trivial) fun key t₁ d₁ s₁ l₁ _ keyed => ?_
    rw [token_iff]
    split
    · exact .unexpected_fail l₁ s₁
    · next colon =>
        have colon : t₁.look.token = .colon := by simpa using colon
        refine .step l₁ (.scan s₁ (by rw [colon]; decide)) fun _ t₂ d₂ s₂ l₂ n₂ _ => ?_
        refine .step l₂ (h (.compound false) d₂ t₂ s₂ trivial) fun value t₃ d₃ s₃ l₃ n₃ valued => ?_
        have more (a : Nat) (covers : m.Covers u a (walkPairs read)) :
            m.Covers t₃ a (walkPairs (read ++ [(key, value)])) := by
          rw [walkPairs_append, walkPairs, walkPairs, List.append_nil]
          exact covers.then sound l₃ ((keyed.spans.later n₂).then s₂ n₃ valued.spans)
        rw [token_iff]
        split
        · next closes => exact .pure l₃ ⟨beq_iff_eq.1 closes, more⟩
        · split
          · next comma =>
              have comma : t₃.look.token = .comma := beq_iff_eq.1 comma
              refine .step l₃ (.scan s₃ (by rw [comma]; decide)) fun _ t₄ d₄ s₄ l₄ n₄ _ => ?_
              exact .tail l₄ (h (.pairs stop (read ++ [(key, value)])) d₄ t₄ s₄ trivial)
                fun ps v _ ⟨closes, covers⟩ =>
                  ⟨closes, fun a before => covers a ((more a before).later n₄)⟩
          · exact .unexpected_fail l₃ s₃

/-! ## Arrays

The first element of an array decides between a list and a comprehension; it is read again as the first of
a list. -/

/-- A list that is read from the start. -/
theorem listFrom (h : m.Keeps g) (there : m.Sound c w) (before : m.Later w v) (stop : Token)
    (wrap : List Term → Value) (other : ∀ ts, (wrap ts).isVar = false)
    (parts : ∀ ts, (wrap ts).walkParts = walkTerms ts) :
    m.Tracks (m.Later w) (do restore w.save; return wrap (← g (.elements stop []))) v
      fun value t => m.Closes stop c.offset value t := by
  refine .restore there before fun t back => ?_
  refine .step back.later (h (.elements stop []) c t back.sound trivial)
    fun ts t₁ _ _ l₁ _ ⟨closes, covers⟩ => .pure l₁ ⟨closes, other ts, ?_⟩
  rw [parts]
  exact covers c.offset (.nil back.sound.offset.ge)

/-- The elements of an array are read from its first one on. -/
theorem arrayFrom (h : m.Keeps g) (there : m.Sound c w) (before : m.Later w v) :
    m.Tracks (m.Later w) (Parse.arrayFrom g w.save) v fun value t => m.Closes .rbrack c.offset value t :=
  listFrom h there before .rbrack .array (fun _ => rfl) fun _ => rfl

/-- The elements of a set are read from its first one on. -/
theorem setFrom (h : m.Keeps g) (there : m.Sound c w) (before : m.Later w v) :
    m.Tracks (m.Later w) (Parse.setFrom g w.save) v fun value t => m.Closes .rbrace c.offset value t :=
  listFrom h there before .rbrace .set (fun _ => rfl) fun _ => rfl

/-- What stands between brackets is covered from the bracket that opens. -/
theorem arrayElements (h : m.Keeps g) (sound : m.Sound c u) (more : u.look.token ≠ .eof) :
    m.Tracks (m.Later u) (Parse.arrayElements g) u fun value v => m.Closes .rbrack c.offset value v := by
  refine .step (.refl sound) (.scan sound more) fun _ t₁ d₁ s₁ l₁ _ _ => ?_
  rw [token_iff]
  split
  · next closes => exact .pure l₁ ⟨beq_iff_eq.1 closes, rfl, .nil (sound.offset ▸ l₁.ahead)⟩
  · refine .step l₁ (leadingComma s₁) fun plain t₂ d₂ s₂ l₂ _ _ => ?_
    have le : c.offset ≤ d₂.offset := by
      rw [← sound.offset, ← s₂.offset]
      exact l₂.ahead
    rw [save_iff]
    refine .step l₂ (h .term d₂ t₂ s₂ trivial) fun head t₃ d₃ s₃ l₃ n₃ read => ?_
    -- the elements read again from behind the bracket are those of an array too
    have again {t : Reading} (since : m.Later t₂ t) :
        m.Tracks (m.Later u) (Parse.arrayFrom g t₂.save) t
          fun value v => m.Closes .rbrack c.offset value v :=
      (arrayFrom h s₂ since).weaken (fun _ later => l₂.trans later) fun _ _ _ ⟨token, other, covers⟩ =>
        ⟨token, other, covers.mono (.refl _) le (Nat.le_refl _)⟩
    rw [token_iff]
    split
    · next closes => exact .pure l₃ ⟨closes, rfl, read.path.mono (.refl _) le (Nat.le_refl _)⟩
    · next comma =>
        refine .step l₃ (.scan s₃ (by rw [comma]; decide)) fun _ t₄ d₄ s₄ l₄ n₄ _ => ?_
        refine .step l₄ (h (.elements .rbrack [head]) d₄ t₄ s₄ trivial)
          fun ts t₅ _ _ l₅ _ ⟨closes, covers⟩ => .pure l₅ ⟨closes, rfl, ?_⟩
        exact (covers _ (read.path.later n₄)).mono (.refl _) le (Nat.le_refl _)
    · next bar =>
        split
        · exact again n₃
        · refine .step l₃ (.scan s₃ (by rw [bar]; decide)) fun _ t₄ d₄ s₄ l₄ n₄ _ => ?_
          refine .step l₄ (.attempt (h (.body .rbrack) d₄ t₄ s₄ trivial)) fun b t₅ d₅ s₅ l₅ n₅ holds => ?_
          split
          · next b =>
              obtain ⟨closes, covers⟩ := holds b rfl
              refine .pure l₅ ⟨closes, rfl, ?_⟩
              have whole := (read.spans.later n₄).then s₄ n₅ covers.body
              exact whole.mono (.refl _) le (Nat.le_refl _)
          · rw [token_iff]
            split
            · exact again ((n₃.trans n₄).trans n₅)
            · exact .fail l₅
    · exact again n₃

/-- An array is placed at its bracket. -/
theorem array (h : m.Keeps g) (sound : m.Sound c u) (opens : u.look.token = .lbrack) :
    m.Tracks (m.Later u) (Parse.array g) u fun t v => Heads m c v t := by
  have more : u.look.token ≠ .eof := by rw [opens]; decide
  have kind := (sound.rests.kind_iff .lbrack rfl).1 opens
  exact bracketed sound (sound.rests.proper more (by rw [kind]; decide)) rfl rfl (arrayElements h sound more)

/-! ## Sets

A set is read as an array is, with its own brackets; the empty one is no set but an object. -/

/-- The rest of a set, of which the first element starts at a place and was read from there or, with
operators, once more. -/
theorem set (h : m.Keeps g) (there : m.Sound c w) (before : m.Later w u) (sound : m.Sound d u)
    {head : Term} (read : m.Reads u c head) (plain : Bool) :
    m.Tracks (m.Later w) (Parse.set g w.save head plain) u fun value v => m.Closes .rbrace c.offset value v := by
  refine .nested sound before ?_
  rw [token_iff]
  split
  · next closes => exact .pure before ⟨closes, rfl, read.path⟩
  · next comma =>
      refine .step before (.scan sound (by rw [comma]; decide)) fun _ t₁ d₁ s₁ l₁ n₁ _ => ?_
      exact .step l₁ (h (.elements .rbrace [head]) d₁ t₁ s₁ trivial)
        fun ts t₂ _ _ l₂ _ ⟨closes, covers⟩ => .pure l₂ ⟨closes, rfl, covers _ (read.path.later n₁)⟩
  · next bar =>
      split
      · exact setFrom h there before
      · refine .step before (.scan sound (by rw [bar]; decide)) fun _ t₁ d₁ s₁ l₁ n₁ _ => ?_
        refine .step l₁ (.attempt (h (.body .rbrace) d₁ t₁ s₁ trivial)) fun b t₂ d₂ s₂ l₂ n₂ holds => ?_
        split
        · next b =>
            obtain ⟨closes, covers⟩ := holds b rfl
            exact .pure l₂ ⟨closes, rfl, (read.spans.later n₁).then s₁ n₂ covers.body⟩
        · rw [token_iff]
          split
          · exact setFrom h there l₂
          · exact .fail l₂
  · exact .fail before

/-! ## Objects

An object is decided by the colon behind its first key.  The value behind it is read again, and the key is
not. -/

/-- The rest of an object is covered from where its first key was. -/
theorem objectRest (h : m.Keeps g) (sound : m.Sound d u) {key value : Term}
    (entry : m.Covers u n (key.walk ++ value.walk)) (plain : Bool) :
    m.Tracks (m.Later u) (Parse.objectRest g key value plain) u fun value v => m.Closes .rbrace n value v := by
  -- one entry is a list of entries
  have single : m.Covers u n (walkPairs [(key, value)]) := by
    rw [walkPairs, walkPairs, List.append_nil]
    exact entry
  refine .nested sound (.refl sound) ?_
  rw [token_iff]
  split
  · next closes => exact .pure (.refl sound) ⟨closes, rfl, single⟩
  · next bar =>
      split
      · exact .unexpected_fail (.refl sound) sound
      · refine .step (.refl sound) (.scan sound (by rw [bar]; decide)) fun _ t₁ d₁ s₁ l₁ _ _ => ?_
        exact .step l₁ (h (.body .rbrace) d₁ t₁ s₁ trivial)
          fun b t₂ _ _ l₂ n₂ ⟨closes, covers⟩ =>
            .pure l₂ ⟨closes, rfl, (entry.later l₁).then s₁ n₂ covers.body⟩
  · next comma =>
      refine .step (.refl sound) (.scan sound (by rw [comma]; decide)) fun _ t₁ d₁ s₁ l₁ _ _ => ?_
      exact .step l₁ (h (.pairs .rbrace [(key, value)]) d₁ t₁ s₁ trivial)
        fun ps t₂ _ _ l₂ _ ⟨closes, covers⟩ => .pure l₂ ⟨closes, rfl, covers _ (single.later l₁)⟩
  · exact .fail (.refl sound)

/-- An object that does not end is no value. -/
theorem unterminatedObject {P : Value → Reading → Prop} (before : m.Later r u) (sound : m.Sound d u) :
    m.Tracks (m.Later r) Parse.unterminatedObject u P := .unexpected_fail before sound

/-- The value of the first entry is read once more, behind the same key. -/
theorem objectFrom (h : m.Keeps g) (there : m.Sound c w) (before : m.Later w v) {key : Term}
    (keyed : m.Covers w n key.walk) :
    m.Tracks (m.Later w) (Parse.objectFrom g w.save key) v fun value t => m.Closes .rbrace n value t := by
  refine .restore there before fun t back => ?_
  refine .step back.later (h (.compound false) c t back.sound trivial) fun value t₁ d₁ s₁ l₁ n₁ valued => ?_
  have rest : m.Tracks (m.Later w) (Parse.objectRest g key value true) t₁
      fun value t => m.Closes .rbrace n value t :=
    .tail l₁ (objectRest h s₁ ((keyed.later back.later).then back.sound n₁ valued.spans) true)
      fun _ _ _ closes => closes
  rw [token_iff]
  split
  · exact rest
  · exact rest
  · exact unterminatedObject l₁ s₁

/-- An object is covered from where its first key was. -/
theorem object (h : m.Keeps g) (sound : m.Sound d u) (colon : u.look.token = .colon) {key : Term}
    (keyed : m.Covers u n key.walk) (plain : Bool) :
    m.Tracks (m.Later u) (Parse.object g key plain) u fun value v => m.Closes .rbrace n value v := by
  refine .nested sound (.refl sound) ?_
  refine .step (.refl sound) (.scan sound (by rw [colon]; decide)) fun _ t₁ d₁ s₁ l₁ _ _ => ?_
  rw [save_iff]
  refine .step l₁ (h .term d₁ t₁ s₁ trivial) fun value t₂ d₂ s₂ l₂ n₂ valued => ?_
  -- to read the value again, as an expression, is to read an object too
  have again {t : Reading} (since : m.Later t₁ t) :
      m.Tracks (m.Later u) (Parse.objectFrom g t₁.save key) t fun value v => m.Closes .rbrace n value v :=
    (objectFrom h s₁ since (keyed.later l₁)).weaken (fun _ later => l₁.trans later) fun _ _ _ closes => closes
  have rest : m.Tracks (m.Later t₂) (attempt (Parse.objectRest g key value false)) t₂
      fun a v => ∀ value ∈ a, m.Closes .rbrace n value v :=
    .attempt (objectRest h s₂ ((keyed.later l₁).then s₁ n₂ valued.spans) false)
  split
  · exact again n₂
  · rw [token_iff]
    -- in both cases an object whose end is missing ends the reading
    have ended {f : Option Value → Parse Value} (found : ∀ v, f (some v) = return v)
        (none : f none = (do Parse.restore t₁.save; Parse.unterminatedObject)) :
        m.Tracks (m.Later u) (attempt (Parse.objectRest g key value false) >>= f) t₂
          fun value v => m.Closes .rbrace n value v := by
      refine .step l₂ rest fun a t₃ d₃ s₃ l₃ n₃ closes => ?_
      cases a with
      | some v =>
          rw [found]
          exact .pure l₃ (closes v rfl)
      | none =>
          rw [none]
          refine .restore s₁ (n₂.trans n₃) fun t back => ?_
          exact unterminatedObject (l₁.trans back.later) back.sound
    split
    · exact ended (fun _ => rfl) rfl
    · exact ended (fun _ => rfl) rfl
    · refine .step l₂ rest fun a t₃ d₃ s₃ l₃ n₃ closes => ?_
      split
      · next v => exact .pure l₃ (closes v rfl)
      · exact again (n₂.trans n₃)
    · exact again n₂

/-! ## Braces

Braces are read from the token behind the one that opens. -/

/-- What stands between braces is covered from the brace that opens. -/
theorem bracedElements (h : m.Keeps g) (sound : m.Sound c u) (more : u.look.token ≠ .eof) :
    m.Tracks (m.Later u) (Parse.bracedElements g) u fun value v => m.Closes .rbrace c.offset value v := by
  refine .step (.refl sound) (.scan sound more) fun _ t₁ d₁ s₁ l₁ _ _ => ?_
  rw [token_iff]
  split
  · next closes => exact .pure l₁ ⟨beq_iff_eq.1 closes, rfl, .nil (sound.offset ▸ l₁.ahead)⟩
  · refine .step l₁ (leadingComma s₁) fun plain t₂ d₂ s₂ l₂ _ _ => ?_
    have le : c.offset ≤ d₂.offset := by
      rw [← sound.offset, ← s₂.offset]
      exact l₂.ahead
    rw [save_iff]
    refine .step l₂ (h .term d₂ t₂ s₂ trivial) fun head t₃ d₃ s₃ l₃ n₃ read => ?_
    have asSet {t : Reading} {d : Cursor} (since : m.Later t₂ t) (s : m.Sound d t) {head : Term}
        (read : m.Reads t d₂ head) (plain : Bool) :
        m.Tracks (m.Later u) (Parse.set g t₂.save head plain) t
          fun value v => m.Closes .rbrace c.offset value v :=
      (set h s₂ since s read plain).weaken (fun _ later => l₂.trans later) fun _ _ _ ⟨token, other, covers⟩ =>
        ⟨token, other, covers.mono (.refl _) le (Nat.le_refl _)⟩
    have asObject {t : Reading} {d : Cursor} (since : m.Later u t) (s : m.Sound d t)
        (colon : t.look.token = .colon) {head : Term} (read : m.Reads t d₂ head) :
        m.Tracks (m.Later u) (Parse.object g head plain) t
          fun value v => m.Closes .rbrace c.offset value v :=
      .tail since (object h s colon (read.spans.mono (.refl _) le (Nat.le_refl _)) plain)
        fun _ _ _ closes => closes
    rw [token_iff]
    split
    · exact asSet n₃ s₃ read plain
    · split
      · next colon => exact asObject l₃ s₃ (beq_iff_eq.1 colon) read
      -- a first term with more behind it is read again, as an expression
      · refine .restore s₂ n₃ fun t back => ?_
        refine .step (l₂.trans back.later) (h (.compound false) d₂ t back.sound trivial)
          fun head t₄ d₄ s₄ l₄ n₄ read => ?_
        rw [token_iff]
        split
        · exact asSet (back.later.trans n₄) s₄ read true
        · exact asSet (back.later.trans n₄) s₄ read true
        · next colon => exact asObject l₄ s₄ colon read
        · exact .unexpected_fail l₄ s₄

/-- A set or an object is placed at its brace. -/
theorem braced (h : m.Keeps g) (sound : m.Sound c u) (opens : u.look.token = .lbrace) :
    m.Tracks (m.Later u) (Parse.braced g) u fun t v => Heads m c v t := by
  have more : u.look.token ≠ .eof := by rw [opens]; decide
  have kind := (sound.rests.kind_iff .lbrace rfl).1 opens
  exact bracketed sound (sound.rests.proper more (by rw [kind]; decide)) rfl rfl (bracedElements h sound more)

end Keeps

end Survey

end RegoSyntax
