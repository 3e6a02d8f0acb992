/-
# RegoSyntax.Proofs.HeadWildcards — which wildcards rules with one head share.

Further bodies and alternatives have the head of their rule, with new names for its wildcards as far as these
are arguments.  A wildcard that stands elsewhere in the head, in the path, the key or the value or inside of
an argument, keeps its name, so `f([_]) = 1 { a } { b }` gives two rules that share one
(`shared_of_argument`).  These are the only ones that are shared (`parse_heads_apart`): whatever else occurs
in a head of the clause was drawn for it alone.

What is shown of a clause is where the wildcards of its heads were drawn: those that are not shared lie
between the start of the part that the head is for and its end, and these parts follow one another.

The wildcards of a head that is written out once are its own (`Apart.single`), and those of heads that
follow one another are apart if the parts of the source are (`Apart.append`).
-/
import RegoSyntax.Proofs.Tracks.Outcome

namespace RegoSyntax

open Parse

/-! ## Clauses among statements

A file is a row of statements.  A clause of it is a rule and the further rules right behind it, so
statements that are appended may add to the last clause or open a new one. -/

/-- The rules for further bodies that statements start with. -/
def furtherRules : List Statement → List Rule
  | .rule r :: ss => if r.isFurther then r :: furtherRules ss else []
  | _ => []

/-- The rule clauses among statements: a rule, and the rules for the further bodies behind it. -/
def ruleClauses : List Statement → List (Rule × List Rule)
  | [] => []
  | .rule r :: ss => if r.isFurther then ruleClauses ss else (r, furtherRules ss) :: ruleClauses ss
  | _ :: ss => ruleClauses ss

/-- Statements do not start with a rule for a further body. -/
def Opened (ss : List Statement) : Prop := ∀ s ∈ ss.head?, ∀ r, s = .rule r → r.isFurther = false

/-- Statements that open a new clause have no further rule for the one before. -/
theorem furtherRules_append (ss : List Statement) {ts : List Statement} (opened : Opened ts) :
    furtherRules (ss ++ ts) = furtherRules ss := by
  induction ss with
  | nil =>
      cases ts with
      | nil => rfl
      | cons t ts =>
          cases t with
          | rule r =>
              have plain : r.isFurther = false := opened _ rfl r rfl
              simp [furtherRules, plain]
          | _ => rfl
  | cons s ss ih =>
      cases s with
      | rule r => rw [List.cons_append, furtherRules, furtherRules, ih]
      | _ => rfl

/-- Clauses are counted apart, if the second part opens a new one. -/
theorem ruleClauses_append (ss : List Statement) {ts : List Statement} (opened : Opened ts) :
    ruleClauses (ss ++ ts) = ruleClauses ss ++ ruleClauses ts := by
  induction ss with
  | nil => rfl
  | cons s ss ih =>
      cases s with
      | rule r =>
          rw [List.cons_append, ruleClauses, ruleClauses, ih, furtherRules_append ss opened]
          split <;> rfl
      | _ => exact ih

/-- Statements that are no rules are in no clause. -/
theorem ruleClauses_of_others {ss : List Statement} (others : ∀ s ∈ ss, ∀ r, s ≠ .rule r) :
    ruleClauses ss = [] := by
  induction ss with
  | nil => rfl
  | cons s ss ih =>
      obtain ⟨other, rest⟩ := List.forall_mem_cons.1 others
      cases s with
      | rule r => exact absurd rfl (other r)
      | _ => exact ih rest

/-- Rules for further bodies are further rules, and no clauses of their own. -/
theorem furtherRules_of_rules {rs : List Rule} (further : ∀ r ∈ rs, r.isFurther = true) :
    furtherRules (rs.map Statement.rule) = rs ∧ ruleClauses (rs.map Statement.rule) = [] := by
  induction rs with
  | nil => exact ⟨rfl, rfl⟩
  | cons r rs ih =>
      obtain ⟨here, rest⟩ := List.forall_mem_cons.1 further
      rw [List.map_cons, furtherRules, ruleClauses, if_pos here, if_pos here, (ih rest).1, (ih rest).2]
      exact ⟨rfl, rfl⟩

/-! ## Heads

What two heads of one clause have in common is told by names.  A name that was drawn at an offset belongs
to the head that drew it, as no other one was read there. -/

/-- The nodes of a head that are copied with it: all but the arguments that are variables themselves. -/
def Head.copied (h : Head) : List Visit :=
  walkTerms h.reference ++ walkTerms (h.args.filter (!·.value.isVar)) ++ walkKey h.key ++ walkKey h.value

/-- All wildcards that two heads have in common are among some names. -/
def Head.ShareOnly (names : List String) (h h' : Head) : Prop :=
  ∀ x ∈ wildcardsOf h.nodes, x ∈ wildcardsOf h'.nodes → x ∈ names

/-- The heads of a clause: those of its rules, each with those of its alternatives behind it. -/
def headsOf (rs : List Rule) : List Head := (rs.flatMap Rule.links).map (·.head)

/-- The heads of rules are listed rule by rule. -/
theorem headsOf_append (rs rs' : List Rule) : headsOf (rs ++ rs') = headsOf rs ++ headsOf rs' := by
  rw [headsOf, List.flatMap_append, List.map_append]
  rfl

/-- The heads of a rule and of what follows it as its alternative. -/
theorem headsOf_single (r : Rule) : headsOf [r] = r.head :: headsOf r.elseRule.toList := by
  rw [headsOf, List.flatMap_singleton, Rule.links_eq]
  rfl

/-- The rules of a clause share what is copied with the head of the first one, and no other wildcards. -/
def SharesCopied (rs : List Rule) : Prop :=
  ∃ first more, rs = first :: more ∧ (∀ r ∈ more, r.isFurther = true) ∧
    (headsOf rs).Pairwise (Head.ShareOnly (wildcardsOf first.head.copied))

/-- A rule without alternatives. -/
theorem SharesCopied.single {r : Rule} (alone : r.elseRule = none) : SharesCopied [r] := by
  refine ⟨r, [], rfl, List.forall_mem_nil _, ?_⟩
  rw [headsOf_single, alone]
  exact List.pairwise_singleton _ _

/-- The statements of one clause: its rules share what is copied with the head, or there are none. -/
def StatementsShare (ss : List Statement) : Prop :=
  (∀ s ∈ ss, ∀ r, s ≠ .rule r) ∨ ∃ rs, ss = rs.map .rule ∧ SharesCopied rs

/-- A statement that is no rule has no heads. -/
theorem StatementsShare.other {s : Statement} (other : ∀ r, s ≠ .rule r) : StatementsShare [s] :=
  .inl fun _ hs => List.mem_singleton.1 hs ▸ other

/-- The rules of all clauses share what is copied with their heads, and no more. -/
def ClausesShare (ss : List Statement) : Prop :=
  ∀ clause ∈ ruleClauses ss, SharesCopied (clause.1 :: clause.2)

/-- The clauses of what was read at once. -/
theorem StatementsShare.clauses {ss : List Statement} (shares : StatementsShare ss) (opened : Opened ss) :
    ClausesShare ss := by
  rcases shares with others | ⟨rs, rfl, shares⟩
  · intro clause listed
    rw [ruleClauses_of_others others] at listed
    cases listed
  · obtain ⟨first, more, rfl, further, pairs⟩ := shares
    have plain : first.isFurther = false := opened _ rfl first rfl
    obtain ⟨all, none⟩ := furtherRules_of_rules further
    intro clause listed
    rw [List.map_cons, ruleClauses, plain, if_neg Bool.false_ne_true, all, none] at listed
    obtain rfl := List.mem_singleton.1 listed
    exact ⟨first, more, rfl, further, pairs⟩

namespace Survey

variable {m : Survey} {c d : Cursor} {r u v w t : Reading} {W W' : Array Nat} {names : List String}
  {a b n : Nat} {h : Head} {hs hs' : List Head}

/-- A wildcard has one of some names, or was drawn between two offsets. -/
def Own (drawn : Array Nat) (names : List String) (start stop : Nat) (x : String) : Prop :=
  x ∈ names ∨ ∃ n, Drawn drawn x n ∧ start ≤ n ∧ n < stop

/-- Heads with wildcards that are shared or were drawn between two offsets, each time for one head alone. -/
structure Apart (drawn : Array Nat) (names : List String) (start stop : Nat) (hs : List Head) : Prop where
  own : ∀ h ∈ hs, ∀ x ∈ wildcardsOf h.nodes, Own drawn names start stop x
  pairs : hs.Pairwise (Head.ShareOnly names)

namespace Apart

/-- No heads are apart. -/
theorem nil : Apart W names a b [] := ⟨List.forall_mem_nil _, .nil⟩

/-- One head is apart, if its wildcards are its own. -/
theorem single (own : ∀ x ∈ wildcardsOf h.nodes, Own W names a b x) : Apart W names a b [h] :=
  ⟨fun _ hh => List.mem_singleton.1 hh ▸ own, List.pairwise_singleton _ _⟩

/-- Heads stay apart in a longer part of the source. -/
theorem mono {a' b' : Nat} (apart : Apart W names a b hs) (grows : Grows W W') (starts : a' ≤ a)
    (stops : b ≤ b') : Apart W' names a' b' hs where
  own h hh x hx := (apart.own h hh x hx).imp id fun ⟨n, drawn, from', upTo⟩ =>
    ⟨n, drawn.grow grows, starts.trans from', upTo.trans_le stops⟩
  pairs := apart.pairs

/-- Heads behind others share nothing else with them: a wildcard was drawn at one offset only. -/
theorem append (apart : Apart W names a n hs) (apart' : Apart W names n b hs') (le : a ≤ n) (le' : n ≤ b) :
    Apart W names a b (hs ++ hs') where
  own h hh := (List.mem_append.1 hh).elim ((apart.mono (.refl _) (Nat.le_refl _) le').own h)
    ((apart'.mono (.refl _) le (Nat.le_refl _)).own h)
  pairs := by
    refine List.pairwise_append.2 ⟨apart.pairs, apart'.pairs, fun h hh h' hh' x hx hx' => ?_⟩
    rcases apart.own h hh x hx with shared | ⟨i, drawn, -, upTo⟩
    · exact shared
    rcases apart'.own h' hh' x hx' with shared | ⟨j, drawn', from', -⟩
    · exact shared
    have same := drawn.unique drawn'
    omega

end Apart

/-! ## New names for arguments

An argument that is a wildcard itself is renamed, and any other argument is copied with all wildcards
inside of it. -/

/-- Arguments in which the variables among the wildcards have got names that were drawn at an offset. -/
structure Renamed (drawn : Array Nat) (stands : Nat) (ts ts' : List Term) : Prop where
  kept : ts'.filter (!·.value.isVar) = ts.filter (!·.value.isVar)
  others : ∀ x ∈ wildcardsOf (walkTerms ts'),
    x ∈ wildcardsOf (walkTerms (ts.filter (!·.value.isVar))) ∨ Drawn drawn x stands

/-- A variable that is no wildcard. -/
theorem wildcardsOf_plain {name : String} {l : Option Location} (plain : ¬isWildcardName name = true) :
    wildcardsOf (walkTerms [⟨.var name, l⟩]) = [] := by
  rw [walkTerms_single, wildcardsOf_var, if_neg plain]

/-- Arguments are renamed one after the other. -/
theorem Renamed.cons {x y : Term} {xs ys : List Term} (first : Renamed W n [x] [y]) (rest : Renamed W' n xs ys)
    (grows : Grows W W') : Renamed W' n (x :: xs) (y :: ys) where
  kept := by
    rw [← List.singleton_append, List.filter_append, first.kept, rest.kept, ← List.filter_append]
    rfl
  others z hz := by
    rw [← List.singleton_append, walkTerms_append, wildcardsOf_append] at hz
    rw [← List.singleton_append (x := x), List.filter_append, walkTerms_append, wildcardsOf_append]
    rcases List.mem_append.1 hz with hz | hz
    · exact (first.others z hz).imp (List.mem_append_left _) (·.grow grows)
    · exact (rest.others z hz).imp (List.mem_append_right _) id

/-- A head with the same path and key, and arguments that were renamed, has wildcards of its own. -/
theorem Renamed.own {args : List Term} (renamed : Renamed W n h.args args) (from' : a ≤ n) (upTo : n < b) :
    ∀ x ∈ wildcardsOf { h with args }.nodes, Own W (wildcardsOf h.copied) a b x := by
  intro x hx
  have part {ns : List Visit} (among : ∀ y ∈ ns, y ∈ h.copied) (hx : x ∈ wildcardsOf ns) :
      Own W (wildcardsOf h.copied) a b x := by
    obtain ⟨y, hy, wild⟩ := List.mem_filterMap.1 hx
    exact .inl (List.mem_filterMap.2 ⟨y, among y hy, wild⟩)
  rw [Head.nodes, wildcardsOf_append, wildcardsOf_append, wildcardsOf_append] at hx
  rcases List.mem_append.1 hx with hx | hx
  · rcases List.mem_append.1 hx with hx | hx
    · rcases List.mem_append.1 hx with hx | hx
      · exact part (fun y hy => by simp [Head.copied, hy]) hx
      · rcases renamed.others x hx with shared | drawn
        · exact part (fun y hy => by simp [Head.copied, hy]) shared
        · exact .inr ⟨n, drawn, from', upTo⟩
    · exact part (fun y hy => by simp [Head.copied, hy]) hx
  · exact part (fun y hy => by simp [Head.copied, hy]) hx

namespace Tracks

variable {α : Type} {R S : Reading → Prop} {P Q : α → Reading → Prop}

/-- What is so of a parser on two accounts. -/
theorem both {x : Parse α} (first : m.Tracks R x u P) (second : m.Tracks S x u Q) :
    m.Tracks R x u fun a v => P a v ∧ Q a v := fun o depth journal =>
  ⟨(first o depth journal).1, fun a result =>
    ⟨(first o depth journal).2 a result, (second o depth journal).2 a result⟩⟩

end Tracks

namespace Keeps

variable {g : Grammar}

open Tracks

/-- Names are drawn, whatever else happens. -/
abbrev Draws (u v : Reading) : Prop := Grows u.wildcards v.wildcards

/-- An argument that is a wildcard gets a new name, and any other one is copied. -/
theorem renamedTerm (u : Reading) (stands : Nat) (t : Term) :
    m.Tracks (Draws u) (match t.value with
      | .var name =>
        if isWildcardName name then do return { t with value := .var (← freshWildcard stands) }
        else return t
      | _ => return t) u fun t' v => Renamed v.wildcards stands [t] [t'] := by
  split
  · next name var =>
      obtain ⟨_, l⟩ := t
      cases var
      split
      · intro o depth journal
        -- the name that is drawn is the next one, and is put in the place of the old one
        refine ⟨.push _ _, fun t' result => ?_⟩
        obtain rfl := Option.some.inj result
        refine ⟨rfl, fun x hx => .inr ?_⟩
        rw [walkTerms_single, wildcardsOf_var] at hx
        split at hx
        · exact List.mem_singleton.1 hx ▸ .next _ _
        · cases hx
      · next plain =>
          refine .pure (.refl _) ⟨rfl, fun x hx => ?_⟩
          rw [wildcardsOf_plain plain] at hx
          cases hx
  · next other =>
      -- only a variable could be a wildcard
      have solid : t.value.isVar = false := by
        rcases value : t.value with _ | _ | _ | _ | name | _ | _ | _ | _ | _ | _ | _ | _ <;>
          first
          | rfl
          | exact absurd value (other name)
      refine .pure (.refl _) ⟨rfl, fun x hx => .inl ?_⟩
      rwa [List.filter_singleton, solid]

/-- A head gets new names for those arguments, and all else of it is copied. -/
theorem renamed (u : Reading) (h : Head) (stands : Nat) :
    m.Tracks (Draws u) (Parse.renewed h stands) u fun h' v => ∃ args, h' = { h with args } ∧
      Renamed v.wildcards stands h.args args := by
  have all (ts : List Term) (u : Reading) :
      m.Tracks (Draws u) (ts.mapM fun t => match t.value with
        | .var name =>
          if isWildcardName name then do return { t with value := .var (← freshWildcard stands) }
          else return t
        | _ => return t) u fun ts' v => Renamed v.wildcards stands ts ts' := by
    induction ts generalizing u with
    | nil => exact .pure (.refl _) ⟨rfl, fun _ hx => .inl hx⟩
    | cons t ts ih =>
        rw [List.mapM_cons]
        refine .bind (renamedTerm u stands t) (fun _ grows => grows) fun t' v grows first => ?_
        refine .bind (ih v) (fun _ more => grows.trans more) fun ts' w more rest => ?_
        exact .pure (grows.trans more) (first.cons rest more)
  unfold Parse.renewed
  exact .bind (all h.args u) (fun _ grows => grows) fun args v grows renamed => .pure grows ⟨args, rfl, renamed⟩

/-! ## Alternatives

An alternative has the head of its rule with new names, another value and the place of its own word. -/

/-- A head with another value, which was read up to where a parser has come to. -/
structure Revalued (u v : Reading) (own own' : Head) : Prop where
  reference : own'.reference = own.reference
  args : own'.args = own.args
  key : own'.key = own.key
  value : ∀ x ∈ wildcardsOf (walkKey own'.value), ∃ n, Drawn v.wildcards x n ∧ From u.look.offset v n

/-- The head of an alternative has wildcards of its own, but for those that are copied. -/
theorem Revalued.own {args : List Term} {own' : Head} (revalued : Revalued u v { h with args } own')
    (renamed : Renamed v.wildcards a h.args args) (from' : a ≤ u.look.offset) (upTo : a < v.look.offset) :
    ∀ x ∈ wildcardsOf own'.nodes, Own v.wildcards (wildcardsOf h.copied) a v.look.offset x := by
  intro x hx
  rw [Head.nodes, revalued.reference, revalued.args, revalued.key, wildcardsOf_append] at hx
  rcases List.mem_append.1 hx with hx | hx
  · refine renamed.own (Nat.le_refl _) upTo x ?_
    rw [Head.nodes, wildcardsOf_append]
    exact List.mem_append_left _ hx
  · obtain ⟨n, drawn, behind, before⟩ := revalued.value x hx
    exact .inr ⟨n, drawn, from'.trans behind, before⟩

/-- The head of an alternative is the head of the rule with new names. -/
theorem alternativeHead_renamed (u : Reading) (h : Head) (place : Location) :
    m.Tracks (Draws u) (Parse.alternativeHead h place) u fun own v =>
      ∃ args, own.reference = h.reference ∧ own.args = args ∧ own.key = h.key ∧ own.value = h.value ∧
        Renamed v.wildcards place.offset h.args args := by
  unfold Parse.alternativeHead
  refine .bind (renamed u _ _) (fun _ grows => grows) fun own v grows ⟨args, same, renamed⟩ => ?_
  subst same
  exact .pure grows ⟨args, rfl, rfl, rfl, rfl, renamed⟩

/-- The value of an alternative is read or made up, and the head is otherwise as it was. -/
theorem alternativeValue_revalued (keeps : m.Keeps g) (sound : m.Sound c u) (own : Head) (place : Location) :
    m.Tracks (m.Later u) (Parse.alternativeValue g own place) u fun own' v => Revalued u v own own' := by
  -- the value that is made up has no wildcards
  have standing : m.Tracks (m.Later u) (Pure.pure
      { own with generatedValue := true, value := some (trueTerm place) }) u fun own' v =>
        Revalued u v own own' :=
    .pure (.refl sound) ⟨rfl, rfl, rfl, fun x hx => by cases hx⟩
  have written (more : u.look.token ≠ .eof) : m.Tracks (m.Later u) (do
      let assign := (← token) == .assign
      scan
      let v ← g (.compound true)
      return { own with assign, value := some v, location := some (← upToLastStop place) }) u fun own' v =>
        Revalued u v own own' := by
    rw [token_iff]
    refine .step (.refl sound) (.scan sound more) fun _ t₁ d₁ s₁ l₁ _ _ => ?_
    refine .step l₁ (keeps (.compound true) d₁ t₁ s₁ trivial) fun value t₂ d₂ s₂ l₂ n₂ read => ?_
    rw [upToLastStop_iff]
    refine .pure l₂ ⟨rfl, rfl, rfl, fun x hx => ?_⟩
    obtain ⟨n, drawn, -, behind, upTo⟩ := read.spans.born x hx
    exact ⟨n, drawn, (l₁.ahead.trans s₁.offset.le).trans behind, upTo⟩
  unfold Parse.alternativeValue
  rw [token_iff]
  split
  · exact standing
  · exact standing
  · next assign => exact written (by rw [assign]; decide)
  · next unify => exact written (by rw [unify]; decide)
  · exact .unexpected_fail (.refl sound) sound

/-- What a grammar keeps of the heads of alternatives and further rules. -/
structure Parts (m : Survey) (g : Grammar) : Prop where
  alternative : ∀ head c u, m.Sound c u → u.look.token = .elseKw →
    m.Tracks (m.Later u) (g (.alternative head)) u fun rule v =>
      Apart v.wildcards (wildcardsOf head.copied) u.look.offset v.look.offset (headsOf [rule])
  siblings : ∀ first read c u, m.Sound c u →
    m.Tracks (m.Later u) (g (.siblings first read)) u fun rs v => ∃ more, rs = read ++ more ∧
      (∀ r ∈ more, r.isFurther = true) ∧
        Apart v.wildcards (wildcardsOf first.head.copied) u.look.offset v.look.offset (headsOf more)

namespace Parts

variable (parts : Parts m g)

include parts

/-- The heads of further alternatives are apart. -/
theorem furtherAlternative (sound : m.Sound c u) (head : Head) :
    m.Tracks (m.Later u) (Parse.furtherAlternative g head) u fun next v =>
      Apart v.wildcards (wildcardsOf head.copied) u.look.offset v.look.offset (headsOf next.toList) := by
  unfold Parse.furtherAlternative
  rw [token_iff]
  split
  · next elseKw =>
      refine .step (.refl sound) (parts.alternative head c u sound (beq_iff_eq.1 elseKw))
        fun rule t _ _ l _ apart => .pure l ?_
      exact apart
  · exact .pure (.refl sound) .nil

/-- The heads of an alternative and of those behind it are apart. -/
theorem alternativeBody (keeps : m.Keeps g) (sound : m.Sound c u) (elseKw : u.look.token = .elseKw)
    (head : Head) : m.Tracks (m.Later u) (Parse.alternative g head) u fun rule v =>
      Apart v.wildcards (wildcardsOf head.copied) u.look.offset v.look.offset (headsOf [rule]) := by
  unfold Parse.alternative
  rw [location_iff]
  refine .step (.refl sound) ((alternativeHead sound head u.look.location).both
    (alternativeHead_renamed u head u.look.location)) fun own t₁ _ _ l₁ _ ⟨here, renamed⟩ => ?_
  obtain ⟨s₁, token, -, -⟩ := here
  obtain ⟨args, reference, same, key, -, renamed⟩ := renamed
  refine .step l₁ (.scan s₁ (by rw [token, elseKw]; decide)) fun _ t₂ d₂ s₂ l₂ n₂ ⟨ahead, _⟩ => ?_
  have lt : u.look.offset < t₂.look.offset := l₁.ahead.trans_lt ahead
  refine .step l₂ (alternativeValue_revalued keeps s₂ own u.look.location)
    fun own' t₃ d₃ s₃ l₃ n₃ revalued => ?_
  have own'' : ∀ x ∈ wildcardsOf own'.nodes,
      Own t₃.wildcards (wildcardsOf head.copied) u.look.offset t₃.look.offset x := by
    have revalued : Revalued t₂ t₃ { head with args } own' :=
      ⟨revalued.reference.trans reference, revalued.args.trans same, revalued.key.trans key, revalued.value⟩
    have renamed : Renamed t₃.wildcards u.look.offset head.args args :=
      ⟨renamed.kept, fun x hx => (renamed.others x hx).imp id (·.grow (n₂.trans n₃).drawn)⟩
    exact revalued.own renamed lt.le (lt.trans_le n₃.ahead)
  -- the alternatives behind have their wildcards behind the body
  have chained {v w : Reading} {rule : Rule} (nodes : rule.head.nodes = own'.nodes) (toBody : m.Later t₃ v)
      (behind : m.Later v w) (further : Apart w.wildcards (wildcardsOf head.copied) v.look.offset w.look.offset
        (headsOf rule.elseRule.toList)) :
      Apart w.wildcards (wildcardsOf head.copied) u.look.offset w.look.offset (headsOf [rule]) := by
    rw [headsOf_single, ← List.singleton_append]
    have first : Apart w.wildcards (wildcardsOf head.copied) u.look.offset v.look.offset [rule.head] :=
      (Apart.single (nodes.symm ▸ own'')).mono (toBody.trans behind).drawn (Nat.le_refl _) toBody.ahead
    exact first.append further (l₃.trans toBody).ahead behind.ahead
  rw [token_iff]
  split
  · next ifKw =>
      refine .step l₃ (alternativeIfBody keeps s₃ ifKw) fun ⟨b, moved⟩ t₄ d₄ s₄ l₄ n₄ _ => ?_
      refine .step l₄ (parts.furtherAlternative s₄ head) fun next t₅ d₅ s₅ l₅ n₅ further => ?_
      rw [upToLastStop_iff]
      exact .pure l₅ (chained rfl n₄ n₅ further)
  · next brace =>
      refine .step l₃ (bracedBody keeps s₃ (by rw [brace]; decide)) fun b t₄ d₄ s₄ l₄ n₄ _ => ?_
      refine .step l₄ (parts.furtherAlternative s₄ head) fun next t₅ d₅ s₅ l₅ n₅ further => ?_
      rw [upToLastStop_iff]
      exact .pure l₅ (chained rfl n₄ n₅ further)
  · rw [upToLastStop_iff]
    exact .pure l₃ (chained rfl (.refl s₃) (.refl s₃) .nil)

/-- The heads of alternatives are apart, if there are any. -/
theorem alternative? (sound : m.Sound c u) (head : Head) :
    m.Tracks (m.Later u) (Parse.alternative? g head) u fun next v =>
      Apart v.wildcards (wildcardsOf head.copied) u.look.offset v.look.offset (headsOf next.toList) := by
  unfold Parse.alternative?
  rw [token_iff]
  dsimp only
  split
  · exact .pure (.refl sound) .nil
  · next elseKw =>
      refine .step (.refl sound) (.startsRefWithKeyword sound) fun b t d s l _ same => ?_
      split
      · exact .pure l .nil
      · next keyword =>
          -- -- an `else` that begins no reference was looked at without moving
          obtain rfl : t = u := by
            rcases same with ⟨-, same⟩ | ⟨yes, -⟩
            · exact same
            · exact absurd yes keyword
          split
          · exact .reportHere_fail l s
          split
          · exact .reportHere_fail l s
          · refine .step l (parts.alternative head d t s (by simpa using elseKw)) fun rule v _ _ l₁ _ apart => ?_
            exact .pure l₁ apart

/-! ## Rules

Further rules are read behind the first one, each with a head that was renamed at its own brace. -/

/-- The heads of rules for further bodies are apart. -/
theorem siblingsBody (keeps : m.Keeps g) (sound : m.Sound c u) (first : Rule) (read : List Rule) :
    m.Tracks (m.Later u) (Parse.siblings g first read) u fun rs v => ∃ more, rs = read ++ more ∧
      (∀ r ∈ more, r.isFurther = true) ∧
        Apart v.wildcards (wildcardsOf first.head.copied) u.look.offset v.look.offset (headsOf more) := by
  unfold Parse.siblings
  rw [token_iff]
  dsimp only
  split
  · exact .pure (.refl sound) ⟨[], (List.append_nil _).symm, List.forall_mem_nil _, .nil⟩
  · next brace =>
      have brace : u.look.token = .lbrace := by simpa using brace
      have kind : c.lexeme.kind = .lbrace := (sound.rests.kind_iff .lbrace rfl).1 brace
      split
      · exact .reportHere_fail (.refl sound) sound
      · rw [location_iff]
        refine .step (.refl sound) (bracedBody keeps sound (by rw [brace]; decide))
          fun b t₁ d₁ s₁ l₁ _ ⟨x, behind, body⟩ => ?_
        have lt : u.look.offset < t₁.look.offset := behind.trans_le body.le
        rw [upToLastStop_iff]
        refine .step l₁ ((Keeps.renewed s₁ first.head u.look.offset).both
          (renamed t₁ first.head u.look.offset)) fun own t₂ d₂ s₂ l₂ n₂ ⟨_, args, same, renamed⟩ => ?_
        subst same
        refine .tail l₂ (parts.siblings first _ d₂ t₂ s₂) fun rs v n₃ ⟨more, same, further, apart⟩ => ?_
        refine ⟨_ :: more, same.trans (List.append_assoc _ _ _), List.forall_mem_cons.2 ⟨?_, further⟩, ?_⟩
        -- the text of the rule starts with the brace of its body
        · have major : c.Significant := ⟨by rw [kind]; decide, by rw [kind]; decide⟩
          have at' := s₁.rests.at'
          have text : (t₁.look.text u.look.offset t₁.look.lastStop).toList.head? = some '{' := by
            rw [sound.offset, s₁.offset] at lt
            rw [sound.offset, at'.head_text sound.rests.at'.starts,
              if_pos (at'.lt_lastStop sound.rests.at'.starts major lt)]
            exact Lexeme.brace_of_kind kind
          exact beq_iff_eq.2 text
        -- its wildcards were drawn behind those of the rules before it
        · rw [← List.singleton_append, headsOf_append, headsOf_single]
          refine Apart.append (n := t₂.look.offset) ?_ apart l₂.ahead n₃.ahead
          refine (Apart.single (fun x hx => ?_)).mono n₃.drawn (Nat.le_refl _) (Nat.le_refl _)
          refine renamed.own (Nat.le_refl _) (lt.trans_le n₂.ahead) x ?_
          rw [← wildcardsOf_relocate, ← Head.nodes_relocate]
          exact hx

/-- The rules of one clause share what is copied with its head. -/
theorem rulesFrom (sound : m.Sound c u) {head : Head} {b : Body} {place : Location} (le : a ≤ u.look.offset)
    (own : ∀ x ∈ wildcardsOf head.nodes, Own u.wildcards (wildcardsOf head.copied) a u.look.offset x) :
    m.Tracks (m.Later u) (Parse.rulesFrom g head b place) u fun rs _ => SharesCopied rs := by
  unfold Parse.rulesFrom
  refine .step (.refl sound) (parts.alternative? sound head) fun next t₁ d₁ s₁ l₁ _ further => ?_
  rw [upToLastStop_iff]
  refine .tail l₁ (parts.siblings _ _ d₁ t₁ s₁) fun rs v l₂ ⟨more, same, behind, apart⟩ => ?_
  refine ⟨_, more, same, behind, ?_⟩
  rw [same, headsOf_append, headsOf_single]
  have first := ((Apart.single own).mono l₁.drawn (Nat.le_refl _) (Nat.le_refl _)).append further le l₁.ahead
  exact ((first.mono l₂.drawn (Nat.le_refl _) (Nat.le_refl _)).append apart (le.trans l₁.ahead) l₂.ahead).pairs

/-- The rules behind a head share what is copied with it, whatever body comes first. -/
theorem definedRules (keeps : m.Keeps g) (lost : m.Loses g) (sound : m.Sound c u) {own : Head}
    {place : Location} (bears : m.Bears u.wildcards (From a u) own) (le : a ≤ u.look.offset)
    (anchored : m.Anchored place) :
    m.Tracks (m.Since u) (Parse.definedRules g own place) u fun rs _ => SharesCopied rs := by
  unfold Parse.definedRules
  rw [token_iff]
  refine .go (.refl sound) (resolved sound anchored _ bears) fun own' t d s l _ ⟨same, bears, _⟩ => ?_
  subst same
  -- the wildcards of the head are from before the body, with whatever body it goes on
  have onward {head : Head} {b : Body} {v : Reading} (nodes : head.nodes = own'.nodes) (later : m.Later t v) :
      m.Tracks (m.Since t) (Parse.rulesFrom g head b place) v fun rs _ => SharesCopied rs := by
    obtain ⟨e, there⟩ := later.sound
    refine (parts.rulesFrom there (le.trans later.ahead) fun x hx => ?_).weaken
      (fun _ after => (later.trans after).since) fun _ _ _ shares => shares
    obtain ⟨n, drawn, from', upTo⟩ := bears.nodes.born x (nodes ▸ hx)
    exact .inr ⟨n, drawn.grow later.drawn, from', upTo.trans_le later.ahead⟩
  split
  · next ifKw =>
      refine .bind (ifBody keeps lost s ifKw) (fun _ since => since) fun b v _ ⟨later, _⟩ => ?_
      exact onward rfl later
  · next brace =>
      refine .go l (bracedBody keeps s (by rw [brace]; decide)) fun b v _ _ later _ _ => ?_
      exact onward rfl later
  · split
    · exact .pure l.since (.single rfl)
    · exact .fail l.since

end Parts

/-- The default rule of a head has no alternatives. -/
theorem defaultRule_alone (u : Reading) (own : Head) (place : Location) :
    m.Tracks (fun _ => True) (Parse.defaultRule own place) u fun rule _ => rule.elseRule = none := by
  have any {α : Type} (x : Parse α) (u : Reading) : m.Tracks (fun _ => True) x u fun _ _ => True :=
    fun _ _ _ => ⟨trivial, fun _ _ => trivial⟩
  unfold Parse.defaultRule
  rw [upToLastStop_iff]
  split
  · refine .bind (any _ u) (fun _ _ => trivial) fun _ t _ _ => ?_
    exact .bind (any _ t) (fun _ _ => trivial) fun _ _ _ _ => .pure trivial rfl
  · refine .bind (any _ u) (fun _ _ => trivial) fun _ t _ _ => ?_
    exact .bind (any _ t) (fun _ _ => trivial) fun _ _ _ _ => .pure trivial rfl

namespace Parts

variable (parts : Parts m g)

include parts

/-- The rules of one clause share what is copied with its head, and a default rule is alone. -/
theorem rules (keeps : m.Keeps g) (lost : m.Loses g) (sound : m.Sound c u) :
    m.Tracks (m.Since u) (Parse.rules g) u fun rs _ => SharesCopied rs := by
  unfold Parse.rules
  rw [location_iff]
  refine .go (.refl sound) (.startsRefWithKeyword sound) fun _ t₁ _ _ l₁ _ same => ?_
  -- a word that is read as an identifier is still the same token
  have s₁ : m.Sound c t₁ := by
    rcases same with ⟨-, rfl⟩ | ⟨-, named⟩
    · exact sound
    · exact named.sound
  rw [token_iff]
  dsimp only
  split
  · next isDefault =>
      have defaultKw : t₁.look.token = .defaultKw := beq_iff_eq.1 isDefault
      have proper := s₁.rests.proper_of_word (.inr (.inl (by rw [defaultKw]; rfl)))
      refine .go l₁ (.scan s₁ (by rw [defaultKw]; decide)) fun _ t₂ d₂ s₂ l₂ n₂ ⟨ahead, _⟩ => ?_
      refine .go l₂ (.startsRefWithKeyword s₂) fun _ t₃ d₃ s₃ l₃ n₃ _ => ?_
      rw [token_iff]
      split
      · exact .fail l₃.since
      · next ident =>
          refine .go l₃ (ruleHead keeps s₃ _ (by simpa using ident))
            fun own t₄ d₄ s₄ l₄ n₄ ⟨_, bears, located⟩ => ?_
          -- the head takes a token, so the rule stretches over it
          have lt : u.look.offset < t₄.look.offset :=
            (l₁.ahead.trans_lt ahead).trans_le (n₃.trans n₄).ahead
          have le : c.offset ≤ d₃.offset := by
            rw [← sound.offset, ← s₃.offset]
            exact l₃.ahead
          refine .go l₄ ((defaultRule s₄ (stretches_of_lt sound proper lt t₄ (.refl s₄)) (bears.since le)
            (sound.offset ▸ lt.le) located).both (defaultRule_alone t₄ own u.look.location))
            fun rule v _ _ l₅ _ ⟨_, alone⟩ => ?_
          exact .pure l₅.since (.single alone)
  · rw [token_iff]
    split
    · exact .fail l₁.since
    · next ident =>
        refine .go l₁ (ruleHead keeps s₁ _ (by simpa using ident))
          fun own t₂ d₂ s₂ l₂ n₂ ⟨ahead, bears, _⟩ => ?_
        have le : c.offset ≤ t₂.look.offset := by
          rw [← sound.offset]
          exact l₂.ahead
        exact (parts.definedRules keeps lost s₂ bears le sound.rests.anchored).weaken
          (fun _ since => l₂.since.trans since) fun _ _ _ shares => shares

end Parts

/-- The grammar keeps heads apart, however deep it is followed. -/
theorem Parts.grammar : ∀ n, Parts m (Parse.grammar n)
  | 0 => ⟨fun _ _ _ sound _ => .fail (.refl sound), fun _ _ _ _ sound => .fail (.refl sound)⟩
  | n + 1 =>
    have parts := Parts.grammar n
    have keeps := Keeps.grammar (m := m) n
    { alternative := fun head _ _ sound elseKw => parts.alternativeBody keeps sound elseKw head
      siblings := fun first read _ _ sound => parts.siblingsBody keeps sound first read }

/-! ## Statements

A statement without an error adds one clause at most, and its names were drawn behind those of the
statements before. -/

/-- A statement is read, and its rules share no more than what is copied. -/
theorem Parts.statement (parts : Parts m g) (keeps : m.Keeps g) (lost : m.Loses g) (sound : m.Sound c u)
    (skipRules : Bool) {allowed : KeywordTable} (known : allowed.Known) :
    m.Tracks (m.Since u) (Parse.statement g skipRules allowed) u fun ss v =>
      m.Later u v ∧ StatementsShare ss := by
  -- a query has no heads
  have queried {v : Reading} (sound : m.Sound c v) :
      m.Tracks (m.Since v) (Parse.queryStatement g) v fun ss w => m.Later v w ∧ StatementsShare ss :=
    .go (.refl sound) (query keeps sound true .eof) fun _ _ _ _ later _ _ =>
      .pure later.since ⟨later, .other nofun⟩
  unfold Parse.statement
  rw [save_iff]
  have here : Back m c u u u := ⟨sound, rfl, .refl sound, rfl⟩
  refine orElse sound (fun v back => ?_) (fun v back => ?_) here
  · exact .bind (package keeps back.sound) (fun _ since => since) fun _ _ since ⟨later, _⟩ =>
      .pure since ⟨later, .other nofun⟩
  refine orElse sound (fun v back => ?_) (fun v back => ?_) back
  · exact .bind (importStatement keeps back.sound known) (fun _ since => since) fun _ _ since ⟨later, _⟩ =>
      .pure since ⟨later, .other nofun⟩
  unfold Parse.definitionStatement
  split
  · exact queried back.sound
  · refine orElse sound (fun v back => ?_) (fun v back => queried back.sound) back
    refine .bind ((Keeps.rules keeps lost back.sound).both (parts.rules keeps lost back.sound))
      (fun _ since => since) fun rs t since ⟨defined, shares⟩ => ?_
    exact .pure since ⟨defined.later, .inr ⟨rs, rfl, shares⟩⟩

end Keeps

end Survey

/-! ## Sources

By induction over the run; a wildcard of a clause cannot be met in another one, since it was drawn at one
offset. -/

/-- What is so of the rules between two statements, as long as there is no error. -/
structure Run.Shares (t : Task) (r : Run) : Prop where
  sound : r.Sound t
  going : r.Going t
  clauses : r.state.failures.size ≤ 0 → ClausesShare r.statements

/-- One statement more shares no head with those before. -/
theorem Run.shares_step {t : Task} {r : Run} (known : t.words.allowed.Known) (h : r.Shares t) :
    ((r.step t).1.state.failures.size ≤ 0 → ClausesShare (r.step t).1.statements) ∧
      ((r.step t).2 = true → (r.step t).1.Shares t) := by
  have sound := Task.sound_step known h.sound
  have going := (Run.step_kept known h.going).2
  suffices clauses : (r.step t).1.state.failures.size ≤ 0 → ClausesShare (r.step t).1.statements from
    ⟨clauses, fun more => ⟨sound, going more, clauses⟩⟩
  clear sound going
  unfold Run.step
  split
  · exact h.clauses
  · obtain ⟨later, holds⟩ := Task.reads_statement known h.sound.fine t.settings r.state.depth r.state.journal
    obtain ⟨c, sound⟩ := h.going.sound
    obtain ⟨-, shared⟩ := (Survey.Keeps.Parts.grammar _).statement (.grammar _) (.grammar _) sound t.skipRules
      known t.settings r.state.depth r.state.journal
    have here : (⟨r.state.toReading, r.state.depth, r.state.journal⟩ : ParseState) = r.state := rfl
    rw [here, show t.course.env = t.env from rfl] at later holds
    rw [here, show t.survey.env = t.env from rfl] at shared
    change ∀ a, (t.statement.run t.env t.settings r.state).1 = some a → _ at shared
    rcases run : t.statement.run t.env t.settings r.state with ⟨a, s⟩
    rw [run] at later holds shared
    -- the statements before are as they were, and share no head with those that are added
    cases a with
    | none => exact fun clean => h.clauses (later.clean clean)
    | some read =>
        intro clean
        have clause := holds read rfl (Nat.le_trans clean (Nat.zero_le _))
        have before := h.clauses (later.clean clean)
        have after := (shared read rfl).2.clauses clause.first
        intro x listed
        rw [ruleClauses_append _ clause.first] at listed
        exact (List.mem_append.1 listed).elim (before x) (after x)

/-- The rules of one clause share what is copied with its head. -/
theorem Task.clauses_run {t : Task} (allowed : t.words.allowed.Known) (selected : t.words.selected.Known) :
    t.run.state.failures.size ≤ 0 → ClausesShare t.run.statements :=
  Run.finish_induction (P := Run.Shares t)
    (Q := fun r => r.state.failures.size ≤ 0 → ClausesShare r.statements) Run.Shares.clauses
    (fun _ h => Run.shares_step allowed h)
    ⟨Task.sound_start selected, Run.going_start selected, fun _ _ none => by cases none⟩ _

/-- In a source without errors the heads of one clause, those of its further bodies and alternatives
included, have no wildcards in common but those that are copied with its head: they stand in the path, the
key or the value of the head, or inside of an argument. -/
theorem parse_heads_apart (source file : String) (o : Options)
    (clean : (parse source file o).errors = []) :
    ∀ clause ∈ ruleClauses (parse source file o).statements,
      (headsOf (clause.1 :: clause.2)).Pairwise fun h h' =>
        ∀ x ∈ wildcardsOf h.nodes, x ∈ wildcardsOf h'.nodes → x ∈ wildcardsOf clause.1.head.copied := by
  obtain ⟨words, settled⟩ := settled_of_clean clean
  obtain ⟨allowed, selected⟩ := Options.known_negotiate settled
  obtain ⟨-, ⟨as, same, annotations⟩, none⟩ := parse_follows source file settled
  have others : ∀ s ∈ as, ∀ r, s ≠ .rule r := fun s hs r rule => by
    obtain ⟨a, other⟩ := annotations s hs
    cases rule.symm.trans other
  have opened : Opened as := fun s hs r rule => absurd rule (others s (List.mem_of_mem_head? hs) r)
  intro clause listed
  rw [same, ruleClauses_append _ opened, ruleClauses_of_others others, List.append_nil] at listed
  obtain ⟨first, more, clause', -, pairs⟩ := Task.clauses_run allowed selected (none clean) clause listed
  obtain ⟨rfl, rfl⟩ := List.cons.inj clause'
  exact pairs

/-- A clause with a further body, of which the head has a wildcard as an argument and one in its value. -/
theorem heads_apart_of_function :
    (parse "f(_) = [_] { a } { b }" "" {}).errors = [] ∧
      (ruleClauses (parse "f(_) = [_] { a } { b }" "" {}).statements).length = 1 ∧
      ∀ clause ∈ ruleClauses (parse "f(_) = [_] { a } { b }" "" {}).statements,
        (headsOf (clause.1 :: clause.2)).Pairwise fun h h' =>
          ∀ x ∈ wildcardsOf h.nodes, x ∈ wildcardsOf h'.nodes → x ∈ wildcardsOf clause.1.head.copied := by
  have clean : (parse "f(_) = [_] { a } { b }" "" {}).errors = [] := by decide +kernel
  exact ⟨clean, by decide +kernel, parse_heads_apart _ _ _ clean⟩

/-- Two rules of one clause share the wildcard inside of an argument. -/
theorem shared_of_argument :
    (parse "f([_]) = 1 { a } { b }" "" {}).errors = [] ∧
      (ruleClauses (parse "f([_]) = 1 { a } { b }" "" {}).statements).map
        (fun clause => (headsOf (clause.1 :: clause.2)).map fun h => wildcardsOf h.nodes) =
          [[["$0"], ["$0"]]] := by
  decide +kernel

end RegoSyntax
