/-
# RegoSyntax.Proofs.Tracks.Operators — operations stand where their left operands do.

The text of an operation starts where its left operand was read from, save for the value of a membership
with a key: its text starts at the key, so that there is a comma in between.  The operators that enter a
tree stand at their tokens, and none of them has the name of a wildcard.

The nodes of an operation are those of its operator, of its left operand and of what was read behind the
operator, in this order.  The operator stands further on than the left operand, but as it has no wildcards
it may be put first: `Operates` says that its nodes cover nothing, from any offset.
-/
import RegoSyntax.Proofs.Tracks.Primaries

namespace RegoSyntax

open Parse

/-- No token is named like a wildcard. -/
theorem Token.name_plain (k : Token) : isWildcardName k.name = false := by
  cases k <;> decide +kernel

/-- No tier has the end of the source for an operator. -/
theorem Tier.operators_ne_eof (tier : Tier) : Token.eof ∉ tier.operators := by
  cases tier <;> decide

namespace Survey

variable {m : Survey} {c d : Cursor} {r u v w : Reading}

/-- The path of an operator, at the place of its token. -/
theorem Spans.operator {W : Array Nat} {a b : Nat} {name : String} {l : Location} {path : List Term}
    (le : a ≤ b) (plain : isWildcardName name = false) (anchored : m.Anchored l)
    (rest : ∀ t ∈ path, ∃ s, t = ⟨.string s, some l⟩) :
    m.Spans W a b (Term.mk (.ref (⟨.var name, some l⟩ :: path)) (some l)).walk := by
  refine .term ?_ anchored rfl
  refine (Spans.named (le_refl a) plain anchored).append ?_
  induction path with
  | nil => exact .nil le
  | cons t path ih =>
      obtain ⟨s, rfl⟩ := rest t List.mem_cons_self
      exact (Spans.term (v := .string s) (.nil (le_refl a)) anchored rfl).append
        (ih fun t ht => rest t (List.mem_cons_of_mem _ ht))

namespace Keeps

variable {g : Grammar}

open Tracks

/-- An operator that is part of a tree wherever it is put. -/
def Operates (m : Survey) (op : Term) : Prop := ∀ (W : Array Nat) (a : Nat), m.Spans W a a op.walk

/-- An operator that has been read covers nothing. -/
theorem operator (sound : m.Sound c u) {kinds : List Token} (more : Token.eof ∉ kinds) :
    m.Tracks (m.Later u) (Parse.operator kinds) u fun op _ => Operates m op := by
  unfold Parse.operator
  rw [token_iff]
  split
  · next listed =>
      rw [location_iff]
      refine .step (.refl sound) (.scan sound fun ended => ?_) fun _ _ _ _ l _ _ => .pure l fun W a => ?_
      · exact more (ended ▸ List.contains_iff_mem.1 listed)
      · exact .operator (Nat.le_refl a) (Token.name_plain _) sound.rests.anchored (List.forall_mem_nil _)
  · exact .fail (.refl sound)

/-- The path of a membership operator covers nothing either. -/
theorem memberOperator (sound : m.Sound c u) (n : Nat) :
    m.Tracks (m.Later u) (Parse.memberOperator n) u fun op _ => Operates m op := by
  have plain : isWildcardName memberRoot = false := by decide +kernel
  unfold Parse.memberOperator
  rw [token_iff]
  split
  · next inKw =>
      have inKw : u.look.token = .inKw := beq_iff_eq.1 inKw
      rw [location_iff]
      refine .step (.refl sound) (.scan sound (by rw [inKw]; decide)) fun _ _ _ _ l _ _ =>
        .pure l fun W a => ?_
      exact .operator (Nat.le_refl a) plain sound.rests.anchored
        fun t ht => ⟨_, List.mem_singleton.1 ht⟩
  · exact .fail (.refl sound)

/-- The call of an operator on a left operand and on what was read behind it. -/
theorem operatorCall (sound : m.Sound c u) {op left : Term} {others : List Term} {start : Nat}
    (operates : Operates m op) (opens : m.Opens start left.place.offset) :
    m.Tracks (m.Later u) (Parse.operatorCall op left others start) u fun t v =>
      m.Opens start t.place.offset ∧ ∀ first n, m.Read u.wildcards first n left →
        m.Spans u.wildcards n u.look.offset (walkTerms others) → m.Reads v first t := by
  unfold Parse.operatorCall
  rw [lastStop_iff]
  refine placed_self (.pure (.refl sound) ⟨opens, fun first n read more => ?_⟩)
  refine .of_parts ?_ rfl ?_ (read.root.mono more.le)
  · show m.Spans u.wildcards first.offset u.look.offset (op.walk ++ (left.walk ++ walkTerms others))
    exact (operates _ _).append (read.spans.append more)
  · exact sound.rests.anchored_text read.anchored.located opens
      (sound.rests.bounds_lastStop read.root.proper (read.root.mono more.le).lt)

/-! ## The tiers below membership

The tiers differ in their operators alone.  A left operand has been read or is read first, and each
further operator extends what there is. -/

/-- An operand starts at its own token. -/
theorem faces_here (sound : m.Sound c u) : m.Faces u.look.offset c :=
  ⟨c, sound.rests.at'.starts, sound.offset.symm, .inl rfl⟩

/-- The text of an operation starts no later than its left operand. -/
theorem Faces.le {start : Nat} (h : m.Faces start c) : start ≤ c.offset := by
  obtain ⟨a, -, rfl, rfl | ⟨q, -, before, precedes⟩⟩ := h
  · exact Nat.le_refl _
  · exact (before.trans precedes.lt).le

/-- An operand is read from where the parser was. -/
theorem operand (h : m.Keeps g) (sound : m.Sound c u) (tier : Tier) {start : Nat} (faces : m.Faces start c) :
    m.Tracks (m.Later u) (Parse.operand g tier start) u fun t v => m.Reads v c t := by
  unfold Parse.operand
  split
  · next tier _ =>
      exact (h (.operation tier none start) c u sound faces).weaken (fun _ later => later)
        fun _ _ _ yields => yields c rfl
  · exact h .term c u sound trivial

/-- An operation extends its left operand. -/
theorem applied (h : m.Keeps g) (sound : m.Sound c u) (tier : Tier) {left : Term} {start : Nat}
    (opens : m.Opens start left.place.offset) :
    m.Tracks (m.Later u) (Parse.applied g tier left start) u fun t v =>
      m.Opens start t.place.offset ∧ m.Extends u v left t := by
  refine .step (.refl sound) (operator sound tier.operators_ne_eof) fun op t₁ d₁ s₁ l₁ _ operates => ?_
  rw [offset_iff]
  refine .step l₁ (operand h s₁ tier (faces_here s₁)) fun right t₂ d₂ s₂ l₂ n₂ read => ?_
  refine .tail l₂ (operatorCall s₂ operates opens) fun t v later ⟨begins, called⟩ => ⟨begins, ?_⟩
  intro first reads
  refine called first d₁.offset ((reads.later l₁).mono n₂.drawn s₁.offset.le) ?_
  exact read.path

/-- The left operand of an operation is one that has been read, or is read now. -/
theorem leftOperand {x : Parse Term} {f : Term → Parse Term} (sound : m.Sound c u) {left : Option Term}
    {start : Nat} (leads : m.Leads left start c)
    (h : m.Faces start c → m.Tracks (m.Later u) x u fun t v => m.Reads v c t)
    (rest : ∀ (first : Term) (t : Reading) (d : Cursor), m.Sound d t → m.Later u t →
      m.Opens start first.place.offset → start < d.offset →
      m.Tracks (m.Later t) (f first) t fun a v => m.Extends t v first a) :
    m.Tracks (m.Later u) (match left with
      | some t => pure t >>= f
      | none => x >>= f) u fun a v => ∀ first, m.Left left c u first → m.Reads v first a := by
  cases left with
  | none =>
      refine .step (.refl sound) (h leads) fun t t₁ d₁ s₁ l₁ _ read => ?_
      have lt : start < d₁.offset := by
        rw [← s₁.offset]
        exact (Faces.le leads).trans_lt read.root.lt
      refine .tail l₁ (rest t t₁ d₁ s₁ l₁ (Faces.opens leads read.root) lt) fun a v _ extends' first same => ?_
      exact same ▸ extends' c read
  | some t => exact rest t u c sound (.refl sound) leads.1 leads.2

/-- What follows an operation of which all operators so far have been read. -/
theorem operationRest (h : m.Keeps g) (sound : m.Sound c u) (tier : Tier) {left : Term} {start : Nat}
    (opens : m.Opens start left.place.offset) (lt : start < c.offset) :
    m.Tracks (m.Later u) (do
      match ← attempt (Parse.applied g tier left start) with
      | some c =>
        if tier.operators.contains (← token) then g (.operation tier (some c) start) else return c
      | none => return left) u fun a v => m.Extends u v left a := by
  refine .step (.refl sound) (.attempt (applied h sound tier opens)) fun a t d s l _ called => ?_
  split
  · next call =>
      obtain ⟨begins, extends'⟩ := called call rfl
      rw [token_iff]
      split
      · refine .tail l (h (.operation tier (some call) start) d t s ⟨begins, ?_⟩) fun a v _ yields => ?_
        · rw [← s.offset]
          exact (sound.offset ▸ lt).trans_le l.ahead
        · exact extends'.trans yields
      · exact .pure l extends'
  · exact .pure l (.of_later l)

/-- An operation is read from where its left operand was. -/
theorem operation (h : m.Keeps g) (sound : m.Sound c u) (tier : Tier) {left : Option Term} {start : Nat}
    (leads : m.Leads left start c) :
    m.Tracks (m.Later u) (Parse.operation g tier left start) u fun t v =>
      ∀ first, m.Left left c u first → m.Reads v first t :=
  .nested sound (.refl sound) (leftOperand sound leads (fun faces => operand h sound tier faces)
    fun _ _ _ s _ opens lt => operationRest h s tier opens lt)

/-! ## Membership

Membership goes on in the same way with its own operator, and a key in front of a value makes it start at
the key. -/

/-- The operands of a membership are read from where the parser was. -/
theorem memberOperand (h : m.Keeps g) (sound : m.Sound c u) {start : Nat} (faces : m.Faces start c) :
    m.Tracks (m.Later u) (Parse.memberOperand g start) u fun t v => m.Reads v c t :=
  (h (.operation .relation none start) c u sound faces).weaken (fun _ later => later)
    fun _ _ _ yields => yields c rfl

/-- The value of a membership stands behind the comma; the text of an operation in it starts at the key. -/
theorem keyedMember (h : m.Keeps g) (sound : m.Sound c u) (comma : u.look.token = .comma) {key : Term}
    {start : Nat} (opens : m.Opens start key.place.offset) (lt : start < c.offset) :
    m.Tracks (m.Later u) (Parse.keyedMember g key start) u fun t v =>
      m.Opens start t.place.offset ∧ m.Extends u v key t := by
  have kind := (sound.rests.kind_iff .comma rfl).1 comma
  refine .step (.refl sound) (.scan sound (by rw [comma]; decide))
    fun _ t₁ d₁ s₁ l₁ _ ⟨_, _, _, precedes⟩ => ?_
  have faces : m.Faces start d₁ := by
    obtain ⟨a, starts, rfl, -⟩ := opens
    exact ⟨a, starts, rfl, .inr ⟨c, kind, lt, precedes d₁ s₁.rests⟩⟩
  refine .step l₁ (memberOperand h s₁ faces) fun value t₂ d₂ s₂ l₂ n₂ valued => ?_
  refine .step l₂ (memberOperator s₂ 3) fun op t₃ d₃ s₃ l₃ n₃ operates => ?_
  rw [offset_iff]
  refine .step l₃ (memberOperand h s₃ (faces_here s₃)) fun domain t₄ d₄ s₄ l₄ n₄ ranges => ?_
  refine .tail l₄ (operatorCall s₄ operates opens) fun t v _ ⟨begins, called⟩ => ⟨begins, ?_⟩
  intro first reads
  refine called first d₁.offset ((reads.later l₁).mono ((n₂.trans n₃).trans n₄).drawn s₁.offset.le) ?_
  exact (valued.spans.later n₃).then s₃ n₄ ranges.path

/-- A membership extends its value. -/
theorem member (h : m.Keeps g) (sound : m.Sound c u) {value : Term} {start : Nat}
    (opens : m.Opens start value.place.offset) :
    m.Tracks (m.Later u) (Parse.member g value start) u fun t v =>
      m.Opens start t.place.offset ∧ m.Extends u v value t := by
  refine .step (.refl sound) (memberOperator sound 2) fun op t₁ d₁ s₁ l₁ _ operates => ?_
  rw [offset_iff]
  refine .step l₁ (memberOperand h s₁ (faces_here s₁)) fun domain t₂ d₂ s₂ l₂ n₂ ranges => ?_
  refine .tail l₂ (operatorCall s₂ operates opens) fun t v _ ⟨begins, called⟩ => ⟨begins, ?_⟩
  intro first reads
  exact called first d₁.offset ((reads.later l₁).mono n₂.drawn s₁.offset.le) ranges.path

/-- A keyed membership, if there is one, extends its key. -/
theorem keyedMember? (h : m.Keeps g) (sound : m.Sound c u) (keyed : Bool) {key : Term} {start : Nat}
    (opens : m.Opens start key.place.offset) (lt : start < c.offset) :
    m.Tracks (m.Later u) (Parse.keyedMember? g keyed key start) u fun a v =>
      ∀ t ∈ a, m.Opens start t.place.offset ∧ m.Extends u v key t := by
  unfold Parse.keyedMember?
  rw [token_iff]
  split
  · next both =>
      have comma : u.look.token = .comma := beq_iff_eq.1 (Bool.and_eq_true_iff.1 both).2
      rw [save_iff]
      refine .step (.refl sound) (.attempt (keyedMember h sound comma opens lt))
        fun a t d s l _ called => ?_
      split
      · next call => exact .pure l fun t ht => Option.some.inj ht ▸ called call rfl
      · exact .restore sound l fun t back => .pure back.later fun _ none => by cases none
  · exact .pure (.refl sound) fun _ none => by cases none

/-- Memberships one after the other extend the first one. -/
theorem memberChain (h : m.Keeps g) (sound : m.Sound c u) (keyed : Bool) {left : Term} {start : Nat}
    (opens : m.Opens start left.place.offset) (lt : start < c.offset) :
    m.Tracks (m.Later u) (Parse.memberChain g keyed left start) u fun t v => m.Extends u v left t := by
  unfold Parse.memberChain
  rw [token_iff]
  split
  · exact (h (.membership keyed (some left) start) c u sound ⟨opens, lt⟩).weaken (fun _ later => later)
      fun _ _ _ yields => yields
  · exact .pure (.refl sound) fun _ reads => reads

/-- What follows a left operand of memberships. -/
theorem membershipRest (h : m.Keeps g) (sound : m.Sound c u) (keyed : Bool) {left : Term} {start : Nat}
    (opens : m.Opens start left.place.offset) (lt : start < c.offset) :
    m.Tracks (m.Later u) (do
      match ← Parse.keyedMember? g keyed left start with
      | some c => Parse.memberChain g keyed c start
      | none =>
        let _ ← startsRefWithKeyword
        match ← attempt (Parse.member g left start) with
        | some c => Parse.memberChain g keyed c start
        | none => return left) u fun a v => m.Extends u v left a := by
  -- -- a call found here opens where the left side does, so the chain goes on from it
  have chain {call : Term} {t : Reading} {d : Cursor} (s : m.Sound d t) (l : m.Later u t)
      (called : m.Opens start call.place.offset ∧ m.Extends u t left call) :
      m.Tracks (m.Later u) (Parse.memberChain g keyed call start) t fun a v => m.Extends u v left a := by
    have lt : start < d.offset := by
      rw [← s.offset]
      exact (sound.offset ▸ lt).trans_le l.ahead
    exact .tail l (memberChain h s keyed called.1 lt) fun _ _ _ extends' => called.2.trans extends'
  refine .step (.refl sound) (keyedMember? h sound keyed opens lt) fun a t d s l _ called => ?_
  split
  · next call => exact chain s l (called call rfl)
  · refine .step l (.startsRefWithKeyword s) fun _ t₁ d₁ s₁ l₁ n₁ _ => ?_
    refine .step l₁ (.attempt (member h s₁ opens)) fun a t₂ d₂ s₂ l₂ _ called => ?_
    split
    · next call =>
        obtain ⟨begins, extends'⟩ := called call rfl
        exact chain s₂ l₂ ⟨begins, (Extends.of_later l₁).trans extends'⟩
    · exact .pure l₂ (.of_later l₂)

/-- A membership is read from where its first operand was. -/
theorem membership (h : m.Keeps g) (sound : m.Sound c u) (keyed : Bool) {left : Option Term} {start : Nat}
    (leads : m.Leads left start c) :
    m.Tracks (m.Later u) (Parse.membership g keyed left start) u fun t v =>
      ∀ first, m.Left left c u first → m.Reads v first t :=
  .nested sound (.refl sound) (leftOperand sound leads (fun faces => memberOperand h sound faces)
    fun _ _ _ s _ opens lt => membershipRest h s keyed opens lt)

/-- A compound term is read from where the parser was. -/
theorem compound (h : m.Keeps g) (sound : m.Sound c u) (keyed : Bool) :
    m.Tracks (m.Later u) (Parse.compound g keyed) u fun t v => m.Reads v c t := by
  refine .nested sound (.refl sound) ?_
  rw [offset_iff]
  exact (h (.membership keyed none u.look.offset) c u sound (faces_here sound)).weaken (fun _ later => later)
    fun _ _ _ yields => yields c rfl

end Keeps

end Survey

end RegoSyntax
