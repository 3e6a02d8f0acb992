/-
# RegoSyntax.Proofs.Tracks.Rules — rules cover what they were read from.

The rules of one clause share a head.  Each of them has it with wildcards of its own as far as these are
arguments; other wildcards of the head are shared, so heads may have them in common, but no body has a
wildcard in common with a head or with another body.

The nodes of rules are told in two lists, those of heads and those of bodies (`inHeads`, `inBodies`),
because only the latter follow one another.  `Clear` keeps both: bodies stand one behind the other between
two offsets, and the wildcards of heads were drawn at offsets that a predicate `H` allows, which grows
with the keywords and braces where arguments were renewed.  `Laid` says that every rule and every head has
a place with text.

A body behind `if` needs more care than any other.  What is given up for a query in braces may have gone
past the end of that query, so the parser that comes back is only known to be sound if no error has been
reported (`Since`).
-/
import RegoSyntax.Proofs.Tracks.Astray
import RegoSyntax.Proofs.Tracks.Heads

namespace RegoSyntax

open Parse

namespace Survey

variable {m : Survey} {c d : Cursor} {r u v w t : Reading} {W : Array Nat} {H K : Nat → Prop} {a b x : Nat}

/-! ## Rules by their links

A rule is followed by its alternatives, which are rules again.  What is stated of a rule is stated of each
link, so that a link is added without a look at the others. -/

/-- The nodes of a rule are its own and those of its alternatives, in this order. -/
theorem Clear.of_links {rule : Rule} (before : ∀ n, H n → n < a)
    (own : m.Clear W H a x rule.body.walk rule.head.nodes)
    (rest : m.Clear W H x b (rule.elseRule.toList.flatMap Rule.inBodies)
      (rule.elseRule.toList.flatMap Rule.inHeads)) : m.Clear W H a b rule.inBodies rule.inHeads := by
  rw [Rule.inBodies_eq, Rule.inHeads_eq]
  exact own.append rest before

/-- A rule is laid if it is, and if its alternatives are. -/
theorem Laid.of_links {rule : Rule} (place : ∃ l, rule.location = some l ∧ m.Spanned l)
    (head : ∃ l, rule.head.location = some l ∧ m.Spanned l) (rest : ∀ r' ∈ rule.elseRule, m.Laid r') :
    m.Laid rule := fun link hl => by
  rw [Rule.links_eq] at hl
  rcases List.mem_cons.1 hl with rfl | hl
  · exact ⟨place, head⟩
  · obtain ⟨r', hr, hl⟩ := List.mem_flatMap.1 hl
    exact rest r' (Option.mem_toList.1 hr) link hl

/-- What follows a rule as its alternative, if anything does. -/
structure Further (m : Survey) (H : Nat → Prop) (u v : Reading) (next : Option Rule) : Prop where
  clear : m.Clear v.wildcards H u.look.offset v.look.offset (next.toList.flatMap Rule.inBodies)
    (next.toList.flatMap Rule.inHeads)
  laid : ∀ r ∈ next, m.Laid r

/-- Where nothing follows, nothing is to be shown. -/
theorem Further.none (later : m.Later u v) : m.Further H u v none := ⟨.nil later.ahead, nofun⟩

/-- A body of one literal. -/
theorem Stated.single {e : Expr} (stated : m.Stated u c e)
    (located : ∃ l, e.location = some l ∧ m.Spanned l) : m.Covers u c.offset (Body.walk (Body.push [] e)) := by
  have indexed : m.Stated u c { e with index := 0 } := stated.congr rfl rfl
  refine .body ?_
  show m.Covers u c.offset (Expr.walk _ ++ [])
  rw [List.append_nil]
  exact indexed.walk located

/-- A body that is moved to the place of its alternative. -/
theorem Spans.body_relocate {body : Body} {l : Location} (h : m.Spans W a b (Body.walk body))
    (spanned : m.Spanned l) : m.Spans W a b (Body.walk (body.relocate l)) := by
  rw [Body.walk, walkBody_relocate]
  exact h.relocate spanned

namespace Keeps

variable {g : Grammar}

open Tracks

/-! ## Default rules

The body of a default rule is no text of the source, and stands where the rule stands. -/

/-- Problems are reported at a place that is a token's. -/
theorem rejectFor (sound : m.Sound c u) {place : Location} (located : m.Located place)
    (problems : List Problem) :
    m.Tracks (m.Later u) (Parse.rejectFor place problems) u fun _ _ => True := by
  have reported (rest : List Problem) {u : Reading} (sound : m.Sound c u) :
      m.Tracks (m.Later u) (rest.forM (Parse.report place)) u fun _ _ => True := by
    induction rest generalizing u with
    | nil => exact .pure (.refl sound) trivial
    | cons problem rest ih =>
        exact .step (.refl sound) (.report sound located) fun _ t _ _ l _ stays =>
          .tail l (ih stays.sound) fun _ _ _ _ => trivial
  unfold Parse.rejectFor
  refine .step (.refl sound) (reported problems sound) fun _ t _ _ l _ _ => ?_
  split
  · exact .pure l trivial
  · exact .fail l

/-- A default rule has a body that is made at its own place. -/
theorem defaultRule (sound : m.Sound c u) {own : Head} {place : Location}
    (spanned : m.Spanned { place with text := u.look.text place.offset u.look.lastStop })
    (bears : m.Bears u.wildcards (From a u) own) (le : a ≤ u.look.offset)
    (located : ∃ l, own.location = some l ∧ m.Spanned l) :
    m.Tracks (m.Later u) (Parse.defaultRule own place) u fun rule v =>
      m.Clear v.wildcards (fun _ => False) a v.look.offset rule.inBodies rule.inHeads ∧ m.Laid rule := by
  unfold Parse.defaultRule
  rw [upToLastStop_iff]
  have place' := spanned.anchored.located
  -- the body of a default is made, and stands at the place of the rule
  have made {v : Reading} (later : m.Later u v) :
      m.Clear v.wildcards (From a v) v.look.offset v.look.offset
        (Body.walk (trueBody { place with text := u.look.text place.offset u.look.lastStop })) own.nodes :=
    .behind ((bears.later later).nodes.mono (.refl _) fun _ => .inl) (spans_trueBody spanned (Nat.le_refl _))
      (fun _ from' => from'.2) (Nat.le_refl _)
  have rest {t : Reading} {d : Cursor} (s : m.Sound d t) (l : m.Later u t) :
      m.Tracks (m.Later u) (do
        Parse.rejectFor { place with text := u.look.text place.offset u.look.lastStop }
          (argumentProblems [] own.args)
        return { Rule.new own (trueBody { place with
            text := u.look.text place.offset u.look.lastStop }) with
          isDefault := true, generatedBody := true
          location := some { place with
            text := u.look.text place.offset u.look.lastStop } }) t fun rule v =>
        m.Clear v.wildcards (fun _ => False) a v.look.offset rule.inBodies rule.inHeads ∧ m.Laid rule := by
    refine .step l (rejectFor s place' _) fun _ v _ _ l₁ _ _ => .pure l₁ ⟨?_, ?_⟩
    · exact (Clear.of_links (fun _ from' => from'.2) (made l₁) (.nil (Nat.le_refl _))).close
        (le.trans l₁.ahead)
    · exact .of_links ⟨_, rfl, spanned⟩ located nofun
  -- with a value or without one, what is wrong is reported and the arguments come next
  split
  · exact .step (.refl sound) (rejectFor sound place' _) fun _ t _ s l _ _ => rest s l
  · exact .step (.refl sound) (rejectFor sound place' _) fun _ t _ s l _ _ => rest s l

/-! ## Bodies

A body behind `if` is read as a literal first; if that fails the parser steps back behind the word and
over the token there, so the body is not known to start at a brace. -/

/-- The body in braces stands behind the brace. -/
theorem bracedBody (h : m.Keeps g) (sound : m.Sound c u) (more : u.look.token ≠ .eof) :
    m.Tracks (m.Later u) (Parse.bracedBody g) u fun b v =>
      ∃ n, u.look.offset < n ∧ m.Covers v n (Body.walk b) := by
  unfold Parse.bracedBody
  refine .step (.refl sound) (.scan sound more) fun _ t₁ d₁ s₁ l₁ _ ⟨ahead, _⟩ => ?_
  refine .step l₁ (h (.body .rbrace) d₁ t₁ s₁ trivial) fun b t₂ d₂ s₂ l₂ _ ⟨closes, covers⟩ => ?_
  refine .step l₂ (.scan s₂ (by rw [closes]; decide)) fun _ t₃ _ _ l₃ n₃ _ => .pure l₃ ?_
  exact ⟨d₁.offset, s₁.offset ▸ ahead, covers.body.later n₃⟩

/-- Behind the end of a source there is no body. -/
theorem bracedBody_ended (lost : m.Loses g) (sound : m.Sound c u) (ended : u.look.token = .eof) :
    m.Tracks (m.Since u) (Parse.bracedBody g) u fun _ _ => False := by
  unfold Parse.bracedBody
  refine .bind (Tracks.scan_ended sound ended) (fun t ⟨astray, same⟩ => ?_) fun _ t ⟨astray, same⟩ _ => ?_
  · exact ⟨astray.toMarked, same ▸ .refl _, fun _ => astray.recalls⟩
  · refine .bind_fails ((lost (.body .rbrace) trivial c t astray).weaken (fun v since => ?_)
      fun _ _ _ false => false)
    exact ⟨since.marked, same ▸ since.drawn, since.recalls⟩

/-- The body behind `if`: what is given up for a query in braces was read from where that starts. -/
theorem ifBody (h : m.Keeps g) (lost : m.Loses g) (sound : m.Sound c u) (ifKw : u.look.token = .ifKw) :
    m.Tracks (m.Since u) (Parse.ifBody g) u fun b v =>
      m.Later u v ∧ m.Covers v u.look.offset (Body.walk b) := by
  unfold Parse.ifBody
  refine .go (.refl sound) (.scan sound (by rw [ifKw]; decide)) fun _ t₁ d₁ s₁ l₁ _ _ => ?_
  rw [save_iff]
  refine .go l₁ (.attempt (h .literal d₁ t₁ s₁ trivial)) fun e t₂ d₂ s₂ l₂ n₂ read => ?_
  split
  · next e some =>
      obtain ⟨some, -⟩ := Option.filter_eq_some_iff.1 some
      obtain ⟨stated, located⟩ := read e some
      refine .pure l₂.since ⟨l₂, (stated.single located).mono (.refl _) ?_ (Nat.le_refl _)⟩
      rw [← s₁.offset]
      exact l₁.ahead
  -- -- no literal came of it: back behind `if`, and a braced body is read from there
  · refine .restore s₁ n₂ fun t back => ?_
    have since := l₁.trans back.later
    -- -- at the end of the input no token can be stepped over, so the body fails
    by_cases ended : t.look.token = .eof
    · exact (bracedBody_ended lost back.sound ended).weaken (fun _ fails => since.since.trans fails)
        fun _ _ _ false => false.elim
    · refine (bracedBody h back.sound ended).weaken (fun _ later => (since.trans later).since)
        fun b v later ⟨n, lt, covers⟩ => ⟨since.trans later, covers.mono (.refl _) ?_ (Nat.le_refl _)⟩
      exact since.ahead.trans lt.le

/-! ## Alternatives

An alternative is read at `else`.  Its head repeats that of the rule, with arguments of its own; what it
shares with the rule is the nodes of the head that are no arguments. -/

/-- The arguments of an alternative are renewed at its keyword. -/
theorem alternativeHead (sound : m.Sound c u) (head : Head) (place : Location) :
    m.Tracks (m.Later u) (Parse.alternativeHead head place) u fun own v => m.Sound c v ∧
      v.look.token = u.look.token ∧ own.location = some place ∧ ∀ H : Nat → Prop, m.Bears u.wildcards H head →
        m.Bears v.wildcards (fun n => H n ∨ n = place.offset) own := by
  unfold Parse.alternativeHead
  refine .step (.refl sound) (renewed sound _ _) fun own t _ _ l _ ⟨args, same, renews⟩ => .pure l ?_
  subst same
  refine ⟨renews.sound, renews.token, rfl, fun H bears => ?_⟩
  obtain ⟨reference, args, key, value⟩ := renews.bears l.drawn
    (h := { head with generatedValue := false, keywords := [] })
    ⟨bears.reference, bears.args, bears.key, bears.value⟩
  exact ⟨reference, args, key, value⟩

/-- The head of an alternative has got its value. -/
structure Valued (m : Survey) (a : Nat) (u v : Reading) (own own' : Head) : Prop where
  located : ∃ l, own'.location = some l ∧ m.Spanned l
  bears : ∀ H : Nat → Prop, m.Bears u.wildcards (fun n => H n ∨ From a u n) own →
    m.Bears v.wildcards (fun n => H n ∨ From a v n) own'

/-- The value of an alternative of which the keyword has been read. -/
theorem alternativeValue (h : m.Keeps g) (there : m.Sound c w) (proper : c.Proper m.source)
    (sound : m.Sound d u) (lt : w.look.offset < u.look.offset) {own : Head}
    (located : own.location = some w.look.location) :
    m.Tracks (m.Later u) (Parse.alternativeValue g own w.look.location) u fun own' v =>
      Valued m w.look.offset u v own own' := by
  have spanned := there.rests.spanned proper
  -- without a sign the value is the one that is meant, at the place of the keyword
  have standing : m.Tracks (m.Later u) (Pure.pure
      { own with generatedValue := true, value := some (trueTerm w.look.location) }) u fun own' v =>
        Valued m w.look.offset u v own own' :=
    .pure (.refl sound) ⟨⟨_, located, spanned⟩, fun H bears =>
      { bears with value := strewn_trueTerm spanned.anchored }⟩
  have written (more : u.look.token ≠ .eof) : m.Tracks (m.Later u) (do
      let assign := (← token) == .assign
      scan
      let v ← g (.compound true)
      return { own with
        assign, value := some v, location := some (← upToLastStop w.look.location) }) u fun own' v =>
        Valued m w.look.offset u v own own' := by
    rw [token_iff]
    refine .step (.refl sound) (.scan sound more) fun _ t₁ d₁ s₁ l₁ _ _ => ?_
    refine .step l₁ (h (.compound true) d₁ t₁ s₁ trivial) fun value t₂ d₂ s₂ l₂ n₂ read => ?_
    rw [upToLastStop_iff]
    refine .pure l₂ ⟨⟨_, rfl, there.spanned_up s₂ proper (lt.trans_le l₂.ahead)⟩, fun H bears => ?_⟩
    have kept := bears.mono l₂.drawn (K := fun n => H n ∨ From w.look.offset t₂ n)
      fun n => .imp id fun ⟨from', upTo⟩ => ⟨from', upTo.trans_le l₂.ahead⟩
    have le : w.look.offset ≤ d₁.offset := by
      rw [← s₁.offset]
      exact lt.le.trans l₁.ahead
    exact ⟨kept.reference, kept.args, kept.key,
      (Strewn.of_covers read.spans le).mono (.refl _) fun _ => .inr⟩
  unfold Parse.alternativeValue
  rw [token_iff]
  split
  · exact standing
  · exact standing
  · next assign => exact written (by rw [assign]; decide)
  · next unify => exact written (by rw [unify]; decide)
  · exact .unexpected_fail (.refl sound) sound

/-- The body of an alternative stands behind `if`. -/
theorem alternativeIfBody (h : m.Keeps g) (sound : m.Sound c u) (ifKw : u.look.token = .ifKw) :
    m.Tracks (m.Later u) (Parse.alternativeIfBody g) u fun b v =>
      m.Covers v u.look.offset (Body.walk b.1) := by
  unfold Parse.alternativeIfBody
  refine .step (.refl sound) (.scan sound (by rw [ifKw]; decide)) fun _ t₁ d₁ s₁ l₁ _ _ => ?_
  rw [token_iff]
  split
  · next brace =>
      refine .step l₁ (bracedBody h s₁ (by rw [brace]; decide)) fun b t₂ _ _ l₂ _ ⟨n, lt, covers⟩ =>
        .pure l₂ (covers.mono (.refl _) (l₁.ahead.trans lt.le) (Nat.le_refl _))
  · exact .unexpected_fail l₁ s₁
  · refine .step l₁ (h .literal d₁ t₁ s₁ trivial) fun e t₂ _ _ l₂ _ ⟨stated, located⟩ =>
      .pure l₂ ((stated.single located).mono (.refl _) ?_ (Nat.le_refl _))
    rw [← s₁.offset]
    exact l₁.ahead

/-- What follows an alternative stands behind it. -/
theorem furtherAlternative (h : m.Keeps g) (sound : m.Sound c u) (head : Head) :
    m.Tracks (m.Later u) (Parse.furtherAlternative g head) u fun next v =>
      ∀ H : Nat → Prop, (∀ n, H n → n < u.look.offset) → m.Strewn u.wildcards H head.nodes →
        m.Further H u v next := by
  unfold Parse.furtherAlternative
  rw [token_iff]
  split
  · next elseKw =>
      refine .step (.refl sound) (h (.alternative head) c u sound (beq_iff_eq.1 elseKw))
        fun rule t _ _ l _ yields => .pure l fun H before strewn => ?_
      obtain ⟨clear, laid⟩ := yields H before strewn
      refine ⟨?_, fun r hr => Option.some.inj hr ▸ laid⟩
      rw [Option.toList_some, List.flatMap_singleton, List.flatMap_singleton]
      exact clear
  · exact .pure (.refl sound) fun _ _ _ => .none (.refl sound)

/-- An alternative of which the head and the body have been read, and what follows it. -/
theorem Valued.clear {own : Head} {rule : Rule} (heads : m.Bears v.wildcards (fun n => H n ∨ From a v n) own)
    (before : ∀ n, H n → n < a) (le : a ≤ v.look.offset) (later : m.Later v w) (after : m.Later w t)
    (nodes : rule.head.nodes = own.nodes) (body : m.Covers w v.look.offset rule.body.walk)
    (further : m.Further H w t rule.elseRule) :
    m.Clear t.wildcards H a t.look.offset rule.inBodies rule.inHeads := by
  refine .of_links before (.mono (.behind ?_ body before le) after.drawn (Nat.le_refl _)) further.clear
  rw [nodes]
  exact heads.nodes.mono later.drawn fun _ => id

/-- An alternative stands behind its keyword, and its head has the nodes of the rule's head or such as
were read there. -/
theorem alternative (h : m.Keeps g) (sound : m.Sound c u) (elseKw : u.look.token = .elseKw) (head : Head) :
    m.Tracks (m.Later u) (Parse.alternative g head) u fun rule v => ∀ H : Nat → Prop,
      (∀ n, H n → n < u.look.offset) → m.Strewn u.wildcards H head.nodes →
        m.Clear v.wildcards H u.look.offset v.look.offset rule.inBodies rule.inHeads ∧ m.Laid rule := by
  have proper := sound.rests.proper_of_word (.inr (.inl (by rw [elseKw]; rfl)))
  unfold Parse.alternative
  rw [location_iff]
  refine .step (.refl sound) (alternativeHead sound head u.look.location)
    fun own t₁ _ _ l₁ _ ⟨s₁, token, located, renewed⟩ => ?_
  refine .step l₁ (.scan s₁ (by rw [token, elseKw]; decide)) fun _ t₂ d₂ s₂ l₂ n₂ ⟨ahead, _⟩ => ?_
  have lt : u.look.offset < t₂.look.offset := l₁.ahead.trans_lt ahead
  refine .step l₂ (alternativeValue h sound proper s₂ lt located) fun own' t₃ d₃ s₃ l₃ n₃ valued => ?_
  -- the nodes of the head are those of the first head or lie behind the keyword
  have heads (H : Nat → Prop) (strewn : m.Strewn u.wildcards H head.nodes) :
      m.Bears t₃.wildcards (fun n => H n ∨ From u.look.offset t₃ n) own' :=
    valued.bears H ((renewed H (.of_nodes strewn)).mono n₂.drawn fun n =>
      .imp id (by rintro rfl; exact ⟨Nat.le_refl _, lt⟩))
  have spanned {v : Reading} {d : Cursor} (s : m.Sound d v) (later : m.Later t₃ v) :
      m.Spanned { u.look.location with text := v.look.text u.look.location.offset v.look.lastStop } :=
    sound.spanned_up s proper (lt.trans_le (n₃.trans later).ahead)
  rw [token_iff]
  -- in the three cases the body is written behind `if`, written in braces, or made
  split
  · next ifKw =>
      refine .step l₃ (alternativeIfBody h s₃ ifKw) fun ⟨b, moved⟩ t₄ d₄ s₄ l₄ n₄ body => ?_
      refine .step l₄ (furtherAlternative h s₄ head) fun next t₅ d₅ s₅ l₅ n₅ further => ?_
      rw [upToLastStop_iff]
      have place := spanned s₅ (n₄.trans n₅)
      refine .pure l₅ fun H before strewn => ?_
      have further := further H (fun n hn => (before n hn).trans_le l₄.ahead)
        (strewn.mono l₄.drawn fun _ => id)
      refine ⟨Valued.clear (heads H strewn) before l₃.ahead n₄ n₅ rfl ?_ further,
        .of_links ⟨_, rfl, place⟩ valued.located further.laid⟩
      show m.Covers t₄ _ (Body.walk (if moved = true then b.relocate _ else b))
      split
      · exact Spans.body_relocate body place
      · exact body
  · next brace =>
      refine .step l₃ (bracedBody h s₃ (by rw [brace]; decide)) fun b t₄ d₄ s₄ l₄ n₄ ⟨n, behind, body⟩ => ?_
      refine .step l₄ (furtherAlternative h s₄ head) fun next t₅ d₅ s₅ l₅ n₅ further => ?_
      rw [upToLastStop_iff]
      refine .pure l₅ fun H before strewn => ?_
      have further := further H (fun n hn => (before n hn).trans_le l₄.ahead)
        (strewn.mono l₄.drawn fun _ => id)
      exact ⟨Valued.clear (heads H strewn) before l₃.ahead n₄ n₅ rfl
        (body.mono (.refl _) behind.le (Nat.le_refl _)) further,
        .of_links ⟨_, rfl, spanned s₅ (n₄.trans n₅)⟩ valued.located further.laid⟩
  · rw [upToLastStop_iff]
    have place := spanned s₃ (.refl s₃)
    refine .pure l₃ fun H before strewn => ?_
    refine ⟨Valued.clear (heads H strewn) before l₃.ahead (.refl s₃) (.refl s₃) rfl ?_
      (.none (.refl s₃)), .of_links ⟨_, rfl, place⟩ valued.located nofun⟩
    exact Spans.body_relocate (spans_trueBody (sound.rests.spanned proper) (Nat.le_refl _)) place

/-- Where there is no alternative, nothing was read. -/
theorem alternative? (h : m.Keeps g) (sound : m.Sound c u) (head : Head) :
    m.Tracks (m.Later u) (Parse.alternative? g head) u fun next v =>
      ∀ H : Nat → Prop, (∀ n, H n → n < u.look.offset) → m.Strewn u.wildcards H head.nodes →
        m.Further H u v next := by
  unfold Parse.alternative?
  rw [token_iff]
  dsimp only
  split
  · exact .pure (.refl sound) fun _ _ _ => .none (.refl sound)
  · next elseKw =>
      have elseKw : u.look.token = .elseKw := by simpa using elseKw
      refine .step (.refl sound) (.startsRefWithKeyword sound) fun b t d s l _ same => ?_
      split
      · exact .pure l fun _ _ _ => .none l
      · next keyword =>
          -- the reading has not moved, as the keyword starts no reference
          obtain rfl : t = u := by
            rcases same with ⟨-, same⟩ | ⟨yes, -⟩
            · exact same
            · exact absurd yes keyword
          split
          · exact .reportHere_fail l s
          · split
            · exact .reportHere_fail l s
            · refine .step l (h (.alternative head) d t s elseKw) fun rule v _ _ l₁ _ yields => .pure l₁ ?_
              intro H before strewn
              obtain ⟨clear, laid⟩ := yields H before strewn
              refine ⟨?_, fun r hr => Option.some.inj hr ▸ laid⟩
              rw [Option.toList_some, List.flatMap_singleton, List.flatMap_singleton]
              exact clear

/-! ## Rules

Behind the first body come alternatives or further bodies.  Each further body makes a rule with the head
of the first, moved to the place of its body. -/

/-- A further body stands behind those before it, and its rule has the head of the first one. -/
theorem siblings (h : m.Keeps g) (sound : m.Sound c u) (first : Rule) (read : List Rule) :
    m.Tracks (m.Later u) (Parse.siblings g first read) u fun rs v => ∀ (H : Nat → Prop) (a : Nat),
      (∀ n, H n → n < a) → m.Strewn u.wildcards H first.head.nodes →
        m.Clear u.wildcards H a u.look.offset (read.flatMap Rule.inBodies) (read.flatMap Rule.inHeads) →
          (∀ r ∈ read, m.Laid r) →
            m.Clear v.wildcards H a v.look.offset (rs.flatMap Rule.inBodies) (rs.flatMap Rule.inHeads) ∧
              ∀ r ∈ rs, m.Laid r := by
  unfold Parse.siblings
  rw [token_iff]
  dsimp only
  split
  · exact .pure (.refl sound) fun _ _ _ _ clear laid => ⟨clear, laid⟩
  · next brace =>
      have brace : u.look.token = .lbrace := by simpa using brace
      have more : u.look.token ≠ .eof := by
        rw [brace]
        decide
      have proper := sound.rests.proper more (by rw [(sound.rests.kind_iff .lbrace rfl).1 brace]; decide)
      split
      · exact .reportHere_fail (.refl sound) sound
      · rw [location_iff]
        refine .step (.refl sound) (bracedBody h sound more) fun b t₁ d₁ s₁ l₁ _ ⟨x, behind, body⟩ => ?_
        rw [upToLastStop_iff]
        have spanned := sound.spanned_up s₁ proper (behind.trans_le body.le)
        generalize made : ({ u.look.location with
          text := t₁.look.text u.look.location.offset t₁.look.lastStop } : Location) = place at spanned ⊢
        have offset : place.offset = u.look.offset := made ▸ rfl
        refine .step l₁ (renewed s₁ first.head place.offset) fun own t₂ d₂ s₂ l₂ n₂ ⟨args, same, renews⟩ => ?_
        have ready (rs : List Rule) : (Production.siblings first rs).Ready m d₂ t₂ := trivial
        refine .tail l₂ (h (.siblings first _) d₂ t₂ s₂ (ready _))
          fun rs v _ yields H a before strewn clear laid => ?_
        refine yields H a before (strewn.mono l₂.drawn fun _ => id) ?_ fun r hr => ?_
        -- the nodes of the new rule lie behind those of the rules read before it
        · rw [List.flatMap_append, List.flatMap_append, List.flatMap_singleton, List.flatMap_singleton]
          refine (clear.mono l₂.drawn (Nat.le_refl _)).append (.of_links (x := t₂.look.offset)
            (fun n hn => (before n hn).trans_le clear.bodies.le) ?_ (.nil (Nat.le_refl _))) before
          refine .behind ?_ (body.later n₂) (fun n hn => (before n hn).trans_le clear.bodies.le) behind.le
          show m.Strewn t₂.wildcards _ (own.relocate _).nodes
          rw [Head.nodes_relocate]
          refine Strewn.relocate ?_ spanned
          subst same
          refine ((renews.bears n₂.drawn (.of_nodes (strewn.mono l₁.drawn fun _ => id))).nodes).mono
            (.refl _) fun n => .imp id ?_
          rintro rfl
          exact ⟨offset.ge, offset ▸ behind⟩
        · rcases List.mem_append.1 hr with hr | hr
          · exact laid r hr
          · obtain rfl := List.mem_singleton.1 hr
            exact .of_links ⟨_, rfl, spanned⟩ ⟨_, rfl, spanned⟩ nofun

/-- A place that stretches up to the last token, wherever a parser has come to since. -/
def Stretches (m : Survey) (u : Reading) (place : Location) : Prop :=
  ∀ v, m.Later u v → m.Spanned { place with text := v.look.text place.offset v.look.lastStop }

/-- A place that stretches up to the last token does so from later on as well. -/
theorem Stretches.later {place : Location} (h : Stretches m u place) (later : m.Later u v) :
    Stretches m v place := fun t since => h t (later.trans since)

/-- The place of a token that has been passed. -/
theorem stretches_of_lt (sound : m.Sound c u) (proper : c.Proper m.source)
    (lt : u.look.offset < v.look.offset) : Stretches m v u.look.location := fun t later => by
  obtain ⟨d, there⟩ := later.sound
  exact sound.spanned_up there proper (lt.trans_le later.ahead)

/-- The rules of a head and a body that have been read. -/
theorem rulesFrom (h : m.Keeps g) (sound : m.Sound c u) {head : Head} {b : Body} {place : Location}
    (before : ∀ n, H n → n < a) (strewn : m.Strewn u.wildcards H head.nodes)
    (clear : m.Clear u.wildcards H a u.look.offset (Body.walk b) head.nodes)
    (located : ∃ l, head.location = some l ∧ m.Spanned l) (stretches : Stretches m u place) :
    m.Tracks (m.Later u) (Parse.rulesFrom g head b place) u fun rs v =>
      m.Clear v.wildcards H a v.look.offset (rs.flatMap Rule.inBodies) (rs.flatMap Rule.inHeads) ∧
        ∀ r ∈ rs, m.Laid r := by
  have upTo (n : Nat) (hn : H n) : n < u.look.offset := (before n hn).trans_le clear.bodies.le
  unfold Parse.rulesFrom
  refine .step (.refl sound) (alternative? h sound head) fun next t₁ d₁ s₁ l₁ _ further => ?_
  have further := further H upTo strewn
  rw [upToLastStop_iff]
  have ready (first : Rule) (rs : List Rule) : (Production.siblings first rs).Ready m d₁ t₁ := trivial
  refine .tail l₁ (h (.siblings _ _) d₁ t₁ s₁ (ready _ _)) fun rs v _ yields => ?_
  refine yields H a before (strewn.mono l₁.drawn fun _ => id) ?_ fun r hr => ?_
  · rw [List.flatMap_singleton, List.flatMap_singleton]
    exact .of_links before (clear.mono l₁.drawn (Nat.le_refl _)) further.clear
  · obtain rfl := List.mem_singleton.1 hr
    exact .of_links ⟨_, rfl, stretches t₁ l₁⟩ located further.laid

/-- Rules have been read from an offset on. -/
structure Defined (m : Survey) (a : Nat) (u v : Reading) (rs : List Rule) : Prop where
  later : m.Later u v
  clear : m.Clear v.wildcards (fun _ => False) a v.look.offset (rs.flatMap Rule.inBodies)
    (rs.flatMap Rule.inHeads)
  laid : ∀ r ∈ rs, m.Laid r

theorem definedRules (h : m.Keeps g) (lost : m.Loses g) (sound : m.Sound c u) {own : Head}
    {place : Location} (bears : m.Bears u.wildcards (From a u) own) (le : a ≤ u.look.offset)
    (located : ∃ l, own.location = some l ∧ m.Spanned l) (spanned : m.Spanned place)
    (stretches : Stretches m u place) :
    m.Tracks (m.Since u) (Parse.definedRules g own place) u fun rs v => Defined m a u v rs := by
  unfold Parse.definedRules
  rw [token_iff]
  refine .go (.refl sound) (resolved sound spanned.anchored _ bears) fun own' t d s l _ ⟨same, bears, kept⟩ => ?_
  subst same
  rw [← kept] at located
  -- the body is read behind the head, and what follows has the wildcards of the head at most
  have onward {head : Head} {b : Body} {v : Reading} (nodes : head.nodes = own'.nodes)
      (location : head.location = own'.location) (later : m.Later t v)
      (body : m.Covers v t.look.offset (Body.walk b)) :
      m.Tracks (m.Since t) (Parse.rulesFrom g head b place) v fun rs v => Defined m a t v rs := by
    obtain ⟨e, there⟩ := later.sound
    have strewn : m.Strewn v.wildcards (From a t) head.nodes := by
      rw [nodes]
      exact bears.nodes.mono later.drawn fun _ => id
    refine (rulesFrom h there (fun _ from' => from'.2) strewn (.behind
      (strewn.mono (.refl _) fun _ => .inl) body (fun _ from' => from'.2) (Nat.le_refl _))
      (location ▸ located) (stretches.later later)).weaken (fun _ after => (later.trans after).since)
      fun rs v after ⟨clear, laid⟩ => ⟨later.trans after, clear.close le, laid⟩
  split
  · next ifKw =>
      refine .bind (ifBody h lost s ifKw) (fun _ since => since) fun b v _ ⟨later, body⟩ => ?_
      exact onward rfl rfl later body
  · next brace =>
      refine .go l (bracedBody h s (by rw [brace]; decide)) fun b v _ _ later _ ⟨n, lt, body⟩ => ?_
      exact onward rfl rfl later (body.mono (.refl _) lt.le (Nat.le_refl _))
  · split
    · refine .pure l.since ⟨l, ?_, fun r hr => ?_⟩
      · rw [List.flatMap_singleton, List.flatMap_singleton]
        refine Clear.close (.of_links (x := t.look.offset) (fun _ from' => from'.2) (.behind ?_
          (spans_trueBody spanned (Nat.le_refl _)) (fun _ from' => from'.2) (Nat.le_refl _))
          (.nil (Nat.le_refl _))) le
        exact bears.nodes.mono (.refl _) fun _ => .inl
      · obtain rfl := List.mem_singleton.1 hr
        exact .of_links located located nofun
    · exact .fail l.since

/-- The rules of a clause stand between the token they start at and the one behind them. -/
theorem rules (h : m.Keeps g) (lost : m.Loses g) (sound : m.Sound c u) :
    m.Tracks (m.Since u) (Parse.rules g) u fun rs v => Defined m c.offset u v rs := by
  unfold Parse.rules
  rw [location_iff]
  -- whether or not a keyword starts a reference, the parser stands where it stood
  refine .go (.refl sound) (.startsRefWithKeyword sound) fun _ t₁ _ _ l₁ _ same => ?_
  have s₁ : m.Sound c t₁ := by
    rcases same with ⟨-, rfl⟩ | ⟨-, named⟩
    · exact sound
    · exact named.sound
  rw [token_iff]
  dsimp only
  split
  · next isDefault =>
      have defaultKw : t₁.look.token = .defaultKw := beq_iff_eq.1 isDefault
      have proper := s₁.rests.proper_of_word (.inr (.inl (by rw [defaultKw]; rfl)))
      refine .go l₁ (.scan s₁ (by rw [defaultKw]; decide)) fun _ t₂ d₂ s₂ l₂ n₂ ⟨ahead, _⟩ => ?_
      refine .go l₂ (.startsRefWithKeyword s₂) fun _ t₃ d₃ s₃ l₃ n₃ _ => ?_
      rw [token_iff]
      split
      · exact .fail l₃.since
      · next ident =>
          refine .go l₃ (ruleHead h s₃ _ (by simpa using ident))
            fun own t₄ d₄ s₄ l₄ n₄ ⟨_, bears, located⟩ => ?_
          have lt : u.look.offset < t₄.look.offset :=
            (l₁.ahead.trans_lt ahead).trans_le (n₃.trans n₄).ahead
          have le : c.offset ≤ d₃.offset := by
            rw [← sound.offset, ← s₃.offset]
            exact l₃.ahead
          refine .go l₄ (defaultRule s₄ (stretches_of_lt sound proper lt t₄ (.refl s₄)) (bears.since le)
            (sound.offset ▸ lt.le) located) fun rule v _ _ l₅ _ ⟨clear, laid⟩ => ?_
          refine .pure l₅.since ⟨l₅, ?_, fun r hr => List.mem_singleton.1 hr ▸ laid⟩
          rw [List.flatMap_singleton, List.flatMap_singleton]
          exact clear
  · rw [token_iff]
    split
    · exact .fail l₁.since
    · next ident =>
        have ident : t₁.look.token = .ident := by simpa using ident
        have proper := s₁.rests.proper_of_word (.inl ident)
        refine .go l₁ (ruleHead h s₁ _ ident) fun own t₂ d₂ s₂ l₂ n₂ ⟨ahead, bears, located⟩ => ?_
        have lt : u.look.offset < t₂.look.offset := l₁.ahead.trans_lt ahead
        refine (definedRules h lost s₂ bears (sound.offset ▸ lt.le) located (sound.rests.spanned proper)
          (stretches_of_lt sound proper lt)).weaken (fun _ since => l₂.since.trans since)
          fun rs v _ defined => ⟨l₂.trans defined.later, defined.clear, defined.laid⟩

/-! ## The grammar

The statement goes by induction on the depth, one case for each production. -/

/-- What one rule of the grammar keeps, out of what the productions below it keep. -/
theorem rule (h : m.Keeps g) : m.Keeps (Parse.rule g) := fun α p c u sound ready => by
  cases p with
  | term => exact term h sound
  | reference head start => exact reference h sound head start ready.1 ready.2
  | segments place start path => exact segments h sound place start path ready.1 ready.2
  | elements stop read => exact elements h sound stop read
  | pairs stop read => exact pairs h sound stop read
  | compound keyed => exact compound h sound keyed
  | membership keyed left start => exact membership h sound keyed ready
  | operation tier left start => exact operation h sound tier ready
  | body stop => exact body h sound stop
  | literals oneLine stop read => exact literals h sound oneLine stop read
  | literal => exact literal h sound
  | replacements read => exact replacements h sound ready read
  | symbols read => exact symbols h sound ready read
  | alternative head => exact alternative h sound ready head
  | siblings first read => exact siblings h sound first read

theorem grammar (n : Nat) : m.Keeps (Parse.grammar n) := by
  induction n with
  | zero => exact fun _ _ _ _ sound _ => .fail (.refl sound)
  | succ n ih => exact rule ih

end Keeps

end Survey

end RegoSyntax
