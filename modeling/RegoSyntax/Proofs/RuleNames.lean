/-
# RegoSyntax.Proofs.RuleNames — what rules are named by.

The head of a rule is read like a term that starts with a variable, and such a term may go on behind a call:
`f(x).y` is a path that starts with the call `f(x)`.  That such a path names no rule is looked at where there
are arguments behind it, and where a path of two segments may end in a key.  Elsewhere it is not looked at,
so a rule may be named by a call (`Rule.Unchecked`); and this is the only way for it not to be named by a
variable (`parse_rules_named`).

A parser has no say in this but by what it gives, and so the judgement is on results (`Parse.Gives`).

`Parse.Gives` has a rule for each way to put parsers together: what is given last is what counts
(`Gives.last`), and a parser that looks at the token first may assume its kind behind it (`Gives.token`).
`Names` says of a grammar what its productions give, and is passed on by the productions
(`Names.grammar`).
-/
import RegoSyntax.Proofs.Outcome
import RegoSyntax.Proofs.Tracks.Outcome

namespace RegoSyntax

/-! ## Paths and rules

What a rule is named by is told by the first term of its path.  It is a variable, or a call that a segment
follows, save where nobody looks at it. -/

/-- A call, or what the call `set()` stands for. -/
def Value.isCalled : Value → Bool
  | .call _ | .set [] => true
  | _ => false

/-- What is moved is a call if it was one. -/
theorem Value.isCalled_relocate (v : Value) (l : Location) : (v.relocate l).isCalled = v.isCalled := by
  cases v with
  | set ts => cases ts <;> rfl
  | _ => rfl

/-- A path that can be read on from a token of a kind: it starts with a variable or with a call, and a call
is not all of it. -/
def Ref.Open (path : Ref) (kind : Token) : Prop :=
  ∃ first segments, path = first :: segments ∧ (first.value.isVar = true ∨
    first.value.isCalled = true ∧ (segments ≠ [] ∨ Parse.continuesRef kind = true))

/-- A path that starts with a variable, or with a call that a segment follows. -/
def Ref.Headed (path : Ref) : Prop :=
  ∃ first segments, path = first :: segments ∧
    (first.value.isVar = true ∨ first.value.isCalled = true ∧ segments ≠ [])

/-- A term that names something with a path, if it is one. -/
def Term.Headed (t : Term) : Prop := ∀ path, t.value = .ref path → Ref.Headed path

namespace Head

/-- A path of two segments is taken whole before `contains`, before `if` without a value, and where something
else has it so. -/
def TakenWhole (whole : Prop) (h : Head) : Prop :=
  whole ∨ .containsKw ∈ h.keywords ∨ .ifKw ∈ h.keywords ∧ h.generatedValue = true

/-- A head of which nobody looks at what its path starts with. -/
structure Unchecked (whole : Prop) (h : Head) : Prop where
  args : h.args = []
  segments : 2 ≤ h.reference.length
  short : h.reference.length = 2 → h.TakenWhole whole

/-- A head that starts with a variable, or else with a call that nobody looks at. -/
def Starts (whole : Prop) (h : Head) : Prop :=
  ∃ first segments, h.reference = first :: segments ∧
    (first.value.isVar = true ∨ first.value.isCalled = true ∧ h.Unchecked whole)

/-- A head with the same path and arguments starts like the head that it is made from. -/
theorem Starts.of {whole whole' : Prop} {h h' : Head} (starts : h.Starts whole)
    (reference : h'.reference = h.reference) (args : h.args = [] → h'.args = [])
    (short : h.TakenWhole whole → h'.TakenWhole whole') : h'.Starts whole' := by
  obtain ⟨first, segments, same, named | ⟨called, unchecked⟩⟩ := starts
  · exact ⟨first, segments, reference.trans same, .inl named⟩
  · refine ⟨first, segments, reference.trans same, .inr ⟨called, args unchecked.args, ?_, fun two => ?_⟩⟩
    · rw [reference]
      exact unchecked.segments
    · rw [reference] at two
      exact short (unchecked.short two)

/-- A head that is moved starts as it did. -/
theorem Starts.relocate {whole : Prop} {h : Head} (starts : h.Starts whole) (l : Location) :
    (h.relocate l).Starts whole := by
  obtain ⟨first, segments, same, starts⟩ := starts
  refine ⟨first.relocate l, segments.map (·.relocate l), ?_, ?_⟩
  · rw [Head.relocate, same, List.map_cons]
  · rw [Term.relocate_value, Value.isVar_relocate]
    refine starts.imp id ?_
    rintro ⟨called, unchecked⟩
    refine ⟨?_, ?_, ?_, fun two => unchecked.short ?_⟩
    · rwa [Value.isCalled_relocate]
    · rw [Head.relocate, unchecked.args, List.map_nil]
    · rw [Head.relocate, List.length_map]
      exact unchecked.segments
    · rwa [Head.relocate, List.length_map] at two

end Head

/-- A rule that is named by a variable, or else by a call that nobody looks at; and all of its alternatives
are named like it. -/
structure Rule.Named (r : Rule) : Prop where
  starts : r.head.Starts (r.isDefault = true)
  links : ∀ link ∈ r.links, link.head.reference = r.head.reference

/-- A rule and its alternatives have a path, if it is that of the rule and of the alternatives behind it. -/
theorem Rule.links_reference {r : Rule} {path : Ref} (here : r.head.reference = path)
    (next : ∀ r' ∈ r.elseRule, ∀ link ∈ r'.links, link.head.reference = path) :
    ∀ link ∈ r.links, link.head.reference = path := by
  intro link listed
  rw [Rule.links, Rule.alternatives_eq] at listed
  rcases List.mem_cons.1 listed with rfl | listed
  · exact here
  · rcases behind : r.elseRule with _ | r'
    · rw [behind] at listed
      cases listed
    · rw [behind] at listed
      exact next r' behind link listed

/-- A rule without alternatives. -/
theorem Rule.Named.alone {r : Rule} (starts : r.head.Starts (r.isDefault = true)) (alone : r.elseRule = none) :
    r.Named := by
  refine ⟨starts, Rule.links_reference rfl fun r' behind => ?_⟩
  rw [alone] at behind
  cases behind

section paths

variable {path : Ref} {kind : Token}

/-- With one more segment a path is a path. -/
theorem Ref.Open.push (h : Ref.Open path kind) (t : Term) : Ref.Headed (path ++ [t]) := by
  obtain ⟨first, segments, rfl, named | ⟨called, -⟩⟩ := h
  · exact ⟨first, segments ++ [t], rfl, .inl named⟩
  · exact ⟨first, segments ++ [t], rfl, .inr ⟨called, by simp⟩⟩

/-- Where nothing goes on with a path, it is all that it will be. -/
theorem Ref.Open.headed (h : Ref.Open path kind) (ends : Parse.continuesRef kind = false) :
    Ref.Headed path := by
  obtain ⟨first, segments, rfl, named | ⟨called, some | continues⟩⟩ := h
  · exact ⟨first, segments, rfl, .inl named⟩
  · exact ⟨first, segments, rfl, .inr ⟨called, some⟩⟩
  · exact absurd (ends.symm.trans continues) Bool.false_ne_true

/-- A path that names a rule may be read on from any token. -/
theorem Ref.Headed.opens (h : Ref.Headed path) (kind : Token) : Ref.Open path kind := by
  obtain ⟨first, segments, rfl, named | ⟨called, some⟩⟩ := h
  · exact ⟨first, segments, rfl, .inl named⟩
  · exact ⟨first, segments, rfl, .inr ⟨called, .inl some⟩⟩

/-- A variable is no path, so nothing is to be shown. -/
theorem Term.headed_of_isVar {t : Term} (named : t.value.isVar = true) : t.Headed := fun path same => by
  rw [same] at named
  cases named

/-- A call is no path either. -/
theorem Term.headed_of_isCalled {t : Term} (called : t.value.isCalled = true) : t.Headed :=
  fun path same => by
    rw [same] at called
    cases called

end paths

namespace Parse

/-! ## What parsers give

Of a parser no more is said here than what it gives; where the token starts matters to a few of them, and
to the rest any token will do. -/

/-- What a parser gives that starts at a token of some kinds. -/
def Gives {α : Type} (kinds : Token → Prop) (x : Parse α) (P : α → Prop) : Prop :=
  ∀ env o s, kinds s.look.token → ∀ a, (x.run env o s).1 = some a → P a

/-- Any token will do. -/
def anyKind (_ : Token) : Prop := True

namespace Gives

variable {α β : Type} {kinds : Token → Prop} {x : Parse α} {f : α → Parse β} {P : α → Prop} {Q : β → Prop}

/-- What is given at once. -/
theorem pure {a : α} (holds : P a) : Gives kinds (Pure.pure a) P :=
  fun _ _ _ _ _ given => Option.some.inj given ▸ holds

/-- A parser that fails gives nothing. -/
theorem fail : Gives kinds (Parse.fail : Parse α) P := fun _ _ _ _ _ given => by cases given

/-- What is given from any token is given from a token of some kinds. -/
theorem everywhere (h : Gives anyKind x P) : Gives kinds x P := fun env o s _ => h env o s trivial

/-- What is given by one parser behind another. -/
theorem bind (first : Gives kinds x P) (second : ∀ a, P a → Gives anyKind (f a) Q) :
    Gives kinds (x >>= f) Q := by
  intro env o s here b given
  rw [run_bind] at given
  rcases result : x.run env o s with ⟨_ | a, t⟩
  · rw [result] at given
    cases given
  · rw [result] at given
    exact second a (first env o s here a (by rw [result])) env o t trivial b given

/-- What is given last is what counts. -/
theorem last (second : ∀ a, Gives anyKind (f a) Q) : Gives kinds (x >>= f) Q :=
  .bind (P := fun _ => True) (fun _ _ _ _ _ _ => trivial) fun a _ => second a

/-- The kind of the token may be assumed behind a look at it. -/
theorem token {f : Token → Parse β} (second : ∀ kind, kinds kind → Gives (· = kind) (f kind) Q) :
    Gives kinds (token >>= f) Q := fun env o s here => second _ here env o s rfl

/-- To report changes nothing about what is given. -/
theorem report {f : Unit → Parse β} {l : Location} {problem : Problem} (second : Gives kinds (f ()) Q) :
    Gives kinds (report l problem >>= f) Q := fun env o _ here => second env o _ here

/-- What an attempt gives is what the parser gives. -/
theorem attempt (h : Gives kinds x P) : Gives kinds (attempt x) fun a => ∀ b ∈ a, P b := by
  intro env o s here a given b some
  obtain rfl := Option.some.inj given
  exact h env o s here b some

/-- What a production gives is what it gives when it is entered. -/
theorem nested (h : Gives kinds x P) : Gives kinds (nested x) P := by
  intro env o s here a given
  rcases answer : o.answer (.nest s.depth) with _ | _
  · rw [run_nested_refused env x answer] at given
    cases given
  · rw [run_nested_granted env x answer] at given
    exact h env o { s with journal := (.nest s.depth, true) :: s.journal, depth := s.depth + 1 } here a given

/-- What there is already is given. -/
theorem ofOption {a : Option α} (holds : ∀ b ∈ a, P b) : Gives kinds (ofOption a) P := by
  cases a with
  | none => exact .fail
  | some b => exact .pure (holds b rfl)

end Gives

/-! ## References

A head is read like a term, so what a reference gives has to be told before it is made a head. -/

/-- What a grammar gives that names rules. -/
structure Names (g : Grammar) : Prop where
  reference : ∀ head start, Gives (Ref.Open [head]) (g (.reference head start)) Term.Headed
  segments : ∀ place start path, Gives (Ref.Open path) (g (.segments place start path)) Term.Headed
  alternative : ∀ head, Gives anyKind (g (.alternative head)) fun r =>
    ∀ link ∈ r.links, link.head.reference = head.reference
  siblings : ∀ first read, first.isDefault = false → first.Named → (∀ r ∈ read, r.Named) →
    Gives anyKind (g (.siblings first read)) fun rs => ∀ r ∈ rs, r.Named

/-- Arguments make a call, or the empty set. -/
theorem gives_call (g : Grammar) (operator : Term) (start : Nat) :
    Gives anyKind (Parse.call g operator start) fun c => c.value.isCalled = true := by
  have placed (v : Value) (called : v.isCalled = true) (l : Location) (start stop : Nat) :
      Gives anyKind (Parse.placed (.ofValue v) l start stop) fun c => c.value.isCalled = true :=
    .last fun _ => .pure called
  refine .nested (.last fun _ => .last fun _ => ?_)
  split
  · refine .last fun _ => .last fun _ => placed _ ?_ _ _ _
    split <;> rfl
  · exact .last fun _ => .last fun _ => .last fun _ => placed _ rfl _ _ _

/-- A path that ends is the value of the term. -/
theorem gives_endReference {path : Ref} (headed : Ref.Headed path) (place : Location) (start : Nat) :
    Gives anyKind (Parse.endReference place start path) Term.Headed := by
  refine .last fun _ => .last fun _ => .pure fun path' same => ?_
  obtain rfl := Value.ref.inj same
  exact headed

/-- A word makes a variable. -/
theorem gives_variableHere : Gives anyKind Parse.variableHere fun t => t.value.isVar = true := by
  refine .last fun l => ?_
  dsimp only
  split
  · exact .last fun _ => .last fun _ => .last fun _ => .pure rfl
  · exact .last fun _ => .last fun _ => .pure rfl

namespace Names

variable {g : Grammar} (h : Names g)

include h

/-- What a head is read on to. -/
theorem referenceBody (head : Term) (start : Nat) :
    Gives (Ref.Open [head]) (Parse.reference g head start) Term.Headed := by
  refine .nested ?_
  dsimp only
  split
  · exact .report (h.segments _ start [head])
  · exact h.segments _ start [head]

/-- What segments are read on to: a path, or a call at its end. -/
theorem segmentsBody (place : Location) (start : Nat) (path : Ref) :
    Gives (Ref.Open path) (Parse.segments g place start path) Term.Headed := by
  unfold Parse.segments
  refine .token fun kind opens => ?_
  have further (t : Term) : Gives anyKind (g (.segments place start (path ++ [t]))) Term.Headed :=
    fun env o s _ => h.segments place start _ env o s ((opens.push t).opens _)
  split
  · exact .last further
  · exact .last further
  · refine .last fun _ => .last fun operator => .bind (gives_call g operator start).everywhere fun c called => ?_
    -- a call is read on only if something goes on with it
    have more {kind : Token} (continues : continuesRef kind = true) :
        Gives (· = kind) (g (.reference c start)) Term.Headed :=
      fun env o s here => h.reference c start env o s ⟨c, [], rfl, .inr ⟨called, .inr (here ▸ continues)⟩⟩
    refine .token fun kind _ => ?_
    split
    · exact .last fun _ => .pure (Term.headed_of_isCalled called)
    · exact more rfl
    · exact more rfl
    · exact .pure (Term.headed_of_isCalled called)
  · refine .bind (gives_endReference (opens.headed rfl) place start).everywhere fun t headed => ?_
    exact .last fun _ => .pure headed
  · next point bracket _ _ =>
      have ends : continuesRef kind = false := by
        simpa [continuesRef] using ⟨point, bracket⟩
      exact (gives_endReference (opens.headed ends) place start).everywhere

/-- What a variable is read on to. -/
theorem finish {name : Term} (named : name.value.isVar = true) (skipBlanks : Bool) :
    Gives anyKind (Parse.finish g name skipBlanks) Term.Headed := by
  have more (start : Nat) : Gives anyKind (g (.reference name start)) Term.Headed :=
    fun env o s _ => h.reference name start env o s ⟨name, [], rfl, .inl named⟩
  -- a variable alone is itself, or the root of a document
  have alone : Gives anyKind
      (pure (if isRoot name.value then ⟨.ref [name], name.location⟩ else name) : Parse Term) Term.Headed := by
    refine .pure ?_
    split
    · intro path same
      obtain rfl := Value.ref.inj same
      exact ⟨name, [], rfl, .inl named⟩
    · exact Term.headed_of_isVar named
  unfold Parse.finish
  refine .last fun start => .last fun _ => .token fun kind _ => ?_
  split
  · exact (more start).everywhere
  · exact (more start).everywhere
  · exact (more start).everywhere
  · dsimp only
    split
    · exact .last fun _ => alone
    · exact alone.everywhere

end Names

/-! ## Heads

The form of a term tells which head it makes, and the kind of the token behind it tells whether the path
is taken whole. -/

/-- A path with a name starts with a variable. -/
theorem isVar_of_headVar? {path : Ref} {name : String} (named : Ref.headVar? path = some name) :
    ∃ first segments, path = first :: segments ∧ first.value.isVar = true := by
  cases path with
  | nil => cases named
  | cons first segments =>
      refine ⟨first, segments, rfl, ?_⟩
      have named : first.value.varName? = some name := named
      rcases first with ⟨v, l⟩
      cases v with
      | var name => rfl
      | _ => cases named

/-- A head starts like the term that it is made from. -/
theorem gives_headOf {t : Term} (headed : t.Headed) :
    Gives anyKind (Parse.headOf t) fun h => h.Starts True := by
  unfold Parse.headOf
  -- a variable, a path, a call, or nothing that can be a head
  split
  · exact .pure ⟨_, [], rfl, .inl rfl⟩
  · next path same =>
      obtain ⟨first, segments, rfl, starts⟩ := headed path same
      refine .pure ⟨first, segments, rfl, starts.imp id fun ⟨called, more⟩ => ⟨called, rfl, ?_, fun _ => ?_⟩⟩
      · exact Nat.succ_le_succ (List.length_pos_iff.2 more)
      · exact .inl trivial
  · next op args _ =>
      split
      · next name same => exact .pure ⟨op, [], rfl, .inl (by rw [same]; rfl)⟩
      · next path _ =>
          split
          · next some =>
              obtain ⟨name, some⟩ := Option.isSome_iff_exists.1 some
              obtain ⟨first, segments, rfl, named⟩ := isVar_of_headVar? some
              exact .pure ⟨first, segments, rfl, .inl named⟩
          · exact .last fun _ => .fail
      · exact .fail
  · exact .fail

/-- What is written behind the path and the arguments of a head leaves them as they are. -/
theorem gives_headRest (g : Grammar) (isDefault : Bool) (place : Location) {h : Head} (starts : h.Starts True) :
    Gives anyKind (Parse.headRest g isDefault place h) fun h' => h'.Starts True := by
  have valued (h' : Head) (starts : h'.Starts True) {kinds : Token → Prop} :
      Gives kinds (pure (Parse.valued h' place) : Parse Head) fun h' => h'.Starts True := by
    refine .pure ?_
    unfold Parse.valued
    split
    · exact starts.of rfl id fun _ => .inl trivial
    · exact starts
  unfold Parse.headRest
  refine .token fun kind _ => ?_
  split
  · dsimp only
    split
    · exact .last fun _ => .last fun _ => .pure (starts.of rfl id fun _ => .inl trivial)
    · exact .last fun _ => .pure (starts.of rfl id fun _ => .inl trivial)
  · exact .last fun value => valued { h with value } (starts.of rfl id fun _ => .inl trivial)
  · exact .last fun value => valued { h with assign := true, value } (starts.of rfl id fun _ => .inl trivial)
  · exact valued _ starts

/-- The head of a rule starts with a variable or with a call. -/
theorem Names.ruleHead {g : Grammar} (h : Names g) (isDefault : Bool) :
    Gives anyKind (Parse.ruleHead g isDefault) fun h' => h'.Starts True := by
  unfold Parse.ruleHead
  refine .last fun place => .bind gives_variableHere fun name named => ?_
  refine .bind (.attempt (h.finish named true)) fun t headed => ?_
  split
  · exact .last fun _ => .fail
  · next t =>
      refine .bind (gives_headOf (headed t rfl)) fun own starts => ?_
      refine .bind (gives_headRest g isDefault place starts) fun own' starts => ?_
      exact .last fun _ => .pure (starts.of rfl id id)

/-- In the light of what follows it, a path of two segments that starts with a call is taken whole. -/
theorem gives_resolved {h : Head} (starts : h.Starts True) (place : Location) (hasIf : Bool) :
    Gives anyKind (Parse.resolved h place hasIf) fun h' =>
      h'.Starts (hasIf = true ∧ h'.generatedValue = true) := by
  have named {kinds : Token → Prop} : Gives kinds (Parse.headName h.reference) fun _ =>
      ∃ first segments, h.reference = first :: segments ∧ first.value.isVar = true :=
    .ofOption fun name found => isVar_of_headVar? found
  -- the branches of the definition; where it asks for a name, the path starts with a variable
  unfold Parse.resolved
  split
  · next base key two =>
      split
      · next uses => exact .pure (starts.of rfl id fun _ => .inr (.inl (List.contains_iff_mem.1 uses)))
      split
      · next hasIf =>
          split
          · exact .pure (starts.of rfl id fun _ => .inl ⟨hasIf, rfl⟩)
          · refine .bind named fun name ⟨first, segments, same, named⟩ => .pure ?_
            exact ⟨first, segments, same, .inl named⟩
      split
      · refine .bind named fun name ⟨first, segments, same, named⟩ => .pure ?_
        obtain ⟨rfl, rfl⟩ := List.cons.inj (two.symm.trans same)
        dsimp only
        split
        · exact ⟨base, [], rfl, .inl named⟩
        · exact ⟨base, [key], same, .inl named⟩
      · next some =>
          refine .pure (starts.imp fun first => .imp fun segments ⟨same, starts⟩ => ⟨same, starts.imp id ?_⟩)
          -- an unchecked head has no arguments, against the condition of the branch
          intro ⟨called, unchecked⟩
          rw [unchecked.args] at some
          exact absurd rfl some
  · next long =>
      refine .pure (starts.imp fun first => .imp fun segments ⟨same, starts⟩ => ⟨same, starts.imp id ?_⟩)
      refine fun ⟨called, unchecked⟩ => ⟨called, unchecked.args, unchecked.segments, fun two => ?_⟩
      obtain ⟨base, key, two⟩ := List.length_eq_two.1 two
      exact absurd two (long base key)

/-! ## Rules

All rules of one head have its path, so the head of the first one settles the name of all of them. -/

/-- A default rule is named as its head is. -/
theorem gives_defaultRule {h : Head} (starts : h.Starts True) (place : Location) :
    Gives anyKind (Parse.defaultRule h place) Rule.Named := by
  have rule (place : Location) : Gives anyKind (do
      rejectFor place (argumentProblems [] h.args)
      return { Rule.new h (trueBody place) with
        isDefault := true, generatedBody := true, location := some place }) Rule.Named :=
    .last fun _ => .pure (.alone (starts.of rfl id (Or.imp (fun _ => rfl) id)) rfl)
  unfold Parse.defaultRule
  refine .last fun place => ?_
  split
  · exact .last fun _ => rule place
  · exact .last fun _ => rule place

/-- New names for wildcards do not change what a head starts with. -/
theorem gives_renewed (h : Head) (stands : Nat) : Gives anyKind (Parse.renewed h stands) fun h' =>
    ∃ args, h' = { h with args } ∧ (h.args = [] → args = []) := by
  unfold Parse.renewed
  rcases h.args with _ | ⟨t, ts⟩
  · exact .pure ⟨[], rfl, fun _ => rfl⟩
  · exact .last fun args => .pure ⟨args, rfl, fun none => by cases none⟩

/-- An alternative has the path of the rule. -/
theorem gives_alternativeHead (h : Head) (place : Location) :
    Gives anyKind (Parse.alternativeHead h place) fun own => own.reference = h.reference := by
  refine .bind (gives_renewed _ _) fun own renewed => .pure ?_
  obtain ⟨args, rfl, -⟩ := renewed
  rfl

/-- The value of an alternative leaves its path as it is. -/
theorem gives_alternativeValue (g : Grammar) (own : Head) (place : Location) :
    Gives anyKind (Parse.alternativeValue g own place) fun own' => own'.reference = own.reference := by
  unfold Parse.alternativeValue
  refine .token fun kind _ => ?_
  split
  · exact .pure rfl
  · exact .pure rfl
  · exact .last fun _ => .last fun _ => .last fun _ => .last fun _ => .pure rfl
  · exact .last fun _ => .last fun _ => .last fun _ => .last fun _ => .pure rfl
  · exact .last fun _ => .fail

namespace Names

variable {g : Grammar} (h : Names g)

include h

/-- A further alternative has the path of the rule. -/
theorem furtherAlternative (head : Head) :
    Gives anyKind (Parse.furtherAlternative g head) fun next =>
      ∀ r ∈ next, ∀ link ∈ r.links, link.head.reference = head.reference := by
  unfold Parse.furtherAlternative
  refine .token fun kind _ => ?_
  split
  · refine .bind (h.alternative head).everywhere fun r links => .pure fun r' same => ?_
    exact Option.some.inj same ▸ links
  · exact .pure fun _ none => by cases none

/-- An alternative and those behind it have the path of the rule. -/
theorem alternativeBody (head : Head) :
    Gives anyKind (Parse.alternative g head) fun r => ∀ link ∈ r.links, link.head.reference = head.reference := by
  unfold Parse.alternative
  refine .last fun start => .bind (gives_alternativeHead head start) fun own same => .last fun _ => ?_
  refine .bind (gives_alternativeValue g own start) fun own' same' => ?_
  have here : own'.reference = head.reference := same'.trans same
  refine .token fun kind _ => ?_
  split
  · refine .last fun b => .bind (h.furtherAlternative head) fun next links => .last fun place => .pure ?_
    exact Rule.links_reference here links
  · refine .last fun b => .bind (h.furtherAlternative head) fun next links => .last fun place => .pure ?_
    exact Rule.links_reference here links
  · exact .last fun place => .pure (Rule.links_reference here fun _ none => by cases none)

/-- If there is an alternative it has the path of the rule. -/
theorem alternative? (head : Head) :
    Gives anyKind (Parse.alternative? g head) fun next =>
      ∀ r ∈ next, ∀ link ∈ r.links, link.head.reference = head.reference := by
  have none {kinds : Token → Prop} : Gives kinds (pure none : Parse (Option Rule)) fun next =>
      ∀ r ∈ next, ∀ link ∈ r.links, link.head.reference = head.reference :=
    .pure fun _ none => by cases none
  unfold Parse.alternative?
  refine .token fun kind _ => ?_
  dsimp only
  split
  · exact none
  · refine .last fun named => ?_
    split
    · exact none
    split
    · exact .last fun _ => .fail
    split
    · exact .last fun _ => .fail
    · refine .bind (h.alternative head) fun r links => .pure fun r' same => ?_
      exact Option.some.inj same ▸ links

/-- A rule for a further body is named like the first one. -/
theorem siblingsBody {first : Rule} (plain : first.isDefault = false) (named : first.Named) {read : List Rule}
    (others : ∀ r ∈ read, r.Named) :
    Gives anyKind (Parse.siblings g first read) fun rs => ∀ r ∈ rs, r.Named := by
  unfold Parse.siblings
  refine .token fun kind _ => ?_
  dsimp only
  split
  · exact .pure others
  split
  · exact .last fun _ => .fail
  refine .last fun _ => .last fun b => .last fun place => .bind (gives_renewed _ _) fun own renewed => ?_
  obtain ⟨args, rfl, none⟩ := renewed
  refine h.siblings first _ plain named fun r listed => ?_
  rcases List.mem_append.1 listed with listed | listed
  · exact others r listed
  · obtain rfl := List.mem_singleton.1 listed
    have starts : Head.Starts (first.isDefault = true) { first.head with args } :=
      named.starts.of rfl none id
    rw [plain] at starts
    exact .alone (starts.relocate place) rfl

/-- The rules of a head with a body are named like the head. -/
theorem rulesFrom {head : Head} (starts : head.Starts (false = true)) (b : Body) (place : Location) :
    Gives anyKind (Parse.rulesFrom g head b place) fun rs => ∀ r ∈ rs, r.Named := by
  unfold Parse.rulesFrom
  refine .bind (h.alternative? head) fun next links => .last fun place => ?_
  have named : Rule.Named { Rule.new head b with elseRule := next, location := some place } :=
    ⟨starts, Rule.links_reference rfl links⟩
  refine h.siblings _ _ rfl named fun r listed => ?_
  rw [List.mem_singleton.1 listed]
  exact named

/-- Behind a head, with `if` or without it, comes a body, or the head is a fact. -/
theorem definedRules {head : Head} (starts : head.Starts True) (place : Location) :
    Gives anyKind (Parse.definedRules g head place) fun rs => ∀ r ∈ rs, r.Named := by
  unfold Parse.definedRules
  refine .token fun kind _ => .bind (gives_resolved starts place _).everywhere fun own starts => ?_
  split
  -- the head remembers `if`, so it is known later why its path was not looked at
  · have withIf : Head.Starts (false = true) { own with keywords := own.keywords ++ [.ifKw] } := by
      refine starts.of rfl id ?_
      rintro (⟨-, made⟩ | contains | ⟨-, made⟩)
      · exact .inr (.inr ⟨List.mem_append_right _ List.mem_cons_self, made⟩)
      · exact .inr (.inl (List.mem_append_left _ contains))
      · exact .inr (.inr ⟨List.mem_append_right _ List.mem_cons_self, made⟩)
    exact .last fun b => h.rulesFrom withIf b place
  · exact .last fun b => h.rulesFrom (starts.of rfl id (Or.imp And.left id)) b place
  · next notIf _ =>
      split
      · refine .pure fun r listed => ?_
        obtain rfl := List.mem_singleton.1 listed
        exact .alone (starts.of rfl id (Or.imp (fun ⟨hasIf, _⟩ => (notIf (beq_iff_eq.1 hasIf)).elim) id)) rfl
      · exact .fail

/-- The rules of one head. -/
theorem rules : Gives anyKind (Parse.rules g) fun rs => ∀ r ∈ rs, r.Named := by
  unfold Parse.rules
  refine .last fun place => .last fun _ => .token fun kind _ => ?_
  dsimp only
  split
  · refine .last fun _ => .last fun _ => .token fun kind _ => ?_
    split
    · exact .fail
    · refine .bind (h.ruleHead _).everywhere fun own starts => ?_
      exact .bind (gives_defaultRule starts place) fun r named => .pure (by simpa using named)
  · refine .token fun kind _ => ?_
    split
    · exact .fail
    · exact .bind (h.ruleHead _).everywhere fun own starts => h.definedRules starts place

end Names

/-- The grammar names rules by variables and calls, however deep it is followed. -/
theorem Names.grammar : ∀ n, Names (Parse.grammar n)
  | 0 => ⟨fun _ _ => .fail, fun _ _ _ => .fail, fun _ => .fail, fun _ _ _ _ _ => .fail⟩
  | n + 1 =>
    have h := Names.grammar n
    { reference := h.referenceBody
      segments := h.segmentsBody
      alternative := h.alternativeBody
      siblings := fun _ _ plain named others => h.siblingsBody plain named others }

/-! ## Statements -/

/-- Of two readings either one is given. -/
theorem Gives.orElse {α : Type} {x y : Parse α} {P : α → Prop} (start : Snapshot) (first : Gives anyKind x P)
    (second : Gives anyKind y P) : Gives anyKind (Parse.orElse start x y) P := by
  unfold Parse.orElse
  refine .bind first.attempt fun a given => ?_
  split
  · exact .pure (given _ rfl)
  · refine .last fun clean => ?_
    split
    · exact .last fun _ => second
    · exact .fail

/-- The rules among the statements that are read are named. -/
theorem Names.statement {g : Grammar} (h : Names g) (skipRules : Bool) (allowed : KeywordTable) :
    Gives anyKind (Parse.statement g skipRules allowed) fun ss => ∀ r, .rule r ∈ ss → r.Named := by
  have query : Gives anyKind (Parse.queryStatement g) fun ss => ∀ r, .rule r ∈ ss → r.Named :=
    .last fun _ => .pure fun r listed => by cases List.mem_singleton.1 listed
  refine .last fun start => .orElse start ?_ (.orElse start ?_ ?_)
  · exact .last fun _ => .pure fun r listed => by cases List.mem_singleton.1 listed
  · exact .last fun _ => .pure fun r listed => by cases List.mem_singleton.1 listed
  · unfold Parse.definitionStatement
    split
    · exact query
    · refine .orElse start (.bind h.rules fun rs named => .pure fun r listed => ?_) query
      obtain ⟨r', among, same⟩ := List.mem_map.1 listed
      exact Statement.rule.inj same ▸ named r' among

end Parse

/-! ## Sources -/

/-- All rules that a run has read are named. -/
def Run.Named (r : Run) : Prop := ∀ rule, .rule rule ∈ r.statements → rule.Named

/-- Rules that are named stay so from statement to statement. -/
theorem Run.Named.step {r : Run} (named : r.Named) (t : Task) : (r.step t).1.Named := by
  unfold Run.step
  split
  · exact named
  · have read := (Parse.Names.grammar (Parse.depthFor t.source.utf8ByteSize)).statement t.skipRules
      t.words.allowed t.env t.settings r.state trivial
    rcases run : t.statement.run t.env t.settings r.state with ⟨_ | ss, s⟩
    · exact named
    · intro rule listed
      rcases List.mem_append.1 listed with listed | listed
      · exact named rule listed
      · refine read ss ?_ rule listed
        show (t.statement.run t.env t.settings r.state).1 = some ss
        rw [run]

/-- All rules of a whole run are named. -/
theorem Task.named_run (t : Task) : t.run.Named := by
  have start : (Run.start t).Named := fun _ listed => absurd listed List.not_mem_nil
  exact Run.finish_induction (P := Run.Named) id (fun _ named => ⟨named.step t, fun _ => named.step t⟩) start _

/-- Every rule is named by a variable, or else by a call that nobody looks at. -/
theorem parse_rules_named (source file : String) (o : Options) :
    ∀ r, .rule r ∈ (parse source file o).statements → r.Named := by
  intro r listed
  rcases settled : o.negotiate with problem | words
  · rw [parse_unsettled settled] at listed
    cases listed
  · obtain ⟨-, ⟨as, same, annotations⟩, -⟩ := parse_follows source file settled
    rw [same] at listed
    rcases List.mem_append.1 listed with listed | listed
    · exact Task.named_run _ r listed
    · obtain ⟨a, other⟩ := annotations _ listed
      cases other

/-- A rule with a path of two segments. -/
theorem named_of_rule : ∃ r, .rule r ∈ (parse "p.q if x" "" {}).statements ∧ r.Named := by
  have found : ∃ r ∈ (parse "p.q if x" "" {}).statements.filterMap Statement.rule?, r.body.length = 1 := by
    decide +kernel
  obtain ⟨r, listed, -⟩ := found
  obtain ⟨s, listed, same⟩ := List.mem_filterMap.1 listed
  cases s with
  | rule r' => exact ⟨r', listed, parse_rules_named "p.q if x" "" {} r' listed⟩
  | _ => cases same

/-- A path of three segments may start with a call. -/
theorem named_by_call : (parse "f(x).y.z { true }" "" {}).errors = [] ∧
    ∃ r ∈ (parse "f(x).y.z { true }" "" {}).statements.filterMap Statement.rule?,
      Ref.headVar? r.head.reference = none := by
  decide +kernel

end RegoSyntax
