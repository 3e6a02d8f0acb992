/-
# RegoSyntax.Proofs.Renaming.Rules — rules in step.

The wildcards among the arguments of a head are named anew for every further body and every alternative.
Two parsers that name the arguments of alike heads anew draw as many names, so the new heads are alike too.

A rule is read from its head on, and each rule below has two readings that are alike because every part of
it is and because the questions that are asked in between have one answer (`Renaming.Agreement`).  Where a
rule asks whether a name is a wildcard, the answer is the same although the names are not.

Names that are drawn here are drawn on both sides one after the other, so the relation between the drawn
names grows (`freshWildcard`) and everything that is alike already stays alike under the larger one
(`mono`).
-/
import RegoSyntax.Proofs.Renaming.Queries

namespace RegoSyntax

open Parse

/-! ## Alike rules

Rules are alike part by part.  What the parser makes up for a rule, a value or a body that is `true`,
holds no name and is the same on both sides. -/

section

variable {N : Nat → Nat → Prop}

/-- Rules with alike parts are alike. -/
theorem Rule.Alike.of {d g : Bool} {h k : Head} {b c : Body} {r s : Option Rule} {l : Option Location}
    (head : h.Alike N k) (body : AlikeBodies N b c) (next : Option.Rel (Rule.Alike N) r s) :
    Rule.Alike N ⟨d, h, b, r, g, l⟩ ⟨d, k, c, s, g, l⟩ := by
  cases next with
  | some next => exact .orElse head body next
  | none => exact .last head body

theorem Rule.Alike.head {r s : Rule} (alike : r.Alike N s) : r.head.Alike N s.head := by
  cases alike with
  | last head _ => exact head
  | orElse head _ _ => exact head

/-- Alike rules both have an alternative, or neither has. -/
theorem Rule.Alike.elseRule {r s : Rule} (alike : r.Alike N s) :
    r.elseRule.isSome = s.elseRule.isSome := by
  cases alike <;> rfl

/-- The head that a path makes has nothing but the path, and is alike its twin's. -/
theorem AlikeTerms.headOfRef {p q : Ref} (alike : AlikeTerms N p q) :
    (Head.ofRef p).Alike N (Head.ofRef q) where
  name := .none
  reference := alike
  args := .nil
  key := .none
  value := .none
  assign := rfl
  generatedValue := rfl
  keywords := rfl
  location := rfl

theorem trueTerm_alike (place : Location) : (trueTerm place).Alike N (trueTerm place) :=
  .mk (.boolean true)

theorem trueBody_alike (place : Location) : AlikeBodies N (trueBody place) (trueBody place) :=
  AlikeBodies.push .nil (.mk (.term (trueTerm_alike place)) .nil)

/-- A head that was given no value gets the same one on both sides. -/
theorem Head.Alike.valued {h k : Head} (alike : h.Alike N k) (place : Location) :
    (Parse.valued h place).Alike N (Parse.valued k place) := by
  unfold Parse.valued
  rw [alike.value.isNone, alike.key.isNone, alike.reference.length, alike.args.isEmpty]
  split
  · exact { alike with
      value := .some (trueTerm_alike place)
      generatedValue := rfl }
  · exact alike

/-- Whether a head is written with `contains` is the same on both sides. -/
theorem Head.Alike.usesContains {h k : Head} (alike : h.Alike N k) :
    Parse.usesContains h = Parse.usesContains k := by
  rw [Parse.usesContains, Parse.usesContains, alike.keywords]

/-- The note on a missing value is told by the form of the head, and quotes the path. -/
theorem Head.Alike.valueNote {h k : Head} (alike : h.Alike N k) (isDefault : Bool) {a b : String}
    (name : AlikeText N a b) :
    (Parse.valueNote h isDefault a).Alike N (Parse.valueNote k isDefault b) := by
  unfold Parse.valueNote
  rw [alike.args.isEmpty, alike.key.isSome]
  split
  · exact .functionValue name
  · split
    · exact .partialRuleValue name
    · split
      · exact .defaultRuleValue name
      · exact .assignedRuleValue name

/-- The same is wrong with alike arguments of a default rule: only names of the language count. -/
theorem AlikeTerms.argumentProblems {ts us : List Term} (alike : AlikeTerms N ts us)
    (seen : List String) :
    Parse.argumentProblems seen ts = Parse.argumentProblems seen us :=
  match alike with
  | .nil => rfl
  | .cons (.mk v) rest => by
      cases v with
      | @var a b name =>
          simp only [Parse.argumentProblems]
          rw [name.isWildcardName]
          split
          · exact rest.argumentProblems seen
          · next plain =>
              -- a name that was seen before is reported; the lists of names seen are the same, as plain
              -- names are
              obtain rfl := name.eq_of_plain (name.isWildcardName.trans (Bool.eq_false_iff.2 plain))
              split
              · rw [rest.argumentProblems seen]
              · exact rest.argumentProblems _
      | _ =>
          simp only [Parse.argumentProblems, Value.kind]
          rw [rest.argumentProblems seen]

end

namespace Twins.InStep

variable {τ : Twins} {F : Floor} {N : Pairing} {g g' : Grammar} {t u : Term} {ts us : List Term}
  {h k : Head} {p p' : Snapshot} {α β : Type} {Q : Pairing → α → β → Prop}

/-! ## Arguments with new names

Arguments are renewed from left to right.  Each wildcard that is an argument itself gets a name, and the
names given so far are kept from one argument to the next, as both parsers draw them in the same order. -/

/-- Arguments are renewed one by one, each with the wildcards that were drawn for those before it. -/
theorem renewedArgs (alike : AlikeTerms N.pairs ts us) (stands : Nat) :
    τ.InStep F N
      (ts.mapM fun t =>
        match t.value with
        | .var name =>
          if isWildcardName name then do return { t with value := .var (← Parse.freshWildcard stands) }
          else return t
        | _ => return t)
      (us.mapM fun t =>
        match t.value with
        | .var name =>
          if isWildcardName name then do return { t with value := .var (← Parse.freshWildcard stands) }
          else return t
        | _ => return t)
      fun M => AlikeTerms M.pairs := by
  induction ts generalizing us N with
  | nil =>
      cases alike
      exact pure .nil
  | cons t ts ih =>
      obtain _ | ⟨@⟨v, w, l, value⟩, rest⟩ := alike
      rw [List.mapM_cons, List.mapM_cons]
      -- the rest of the arguments are alike under the names drawn so far, and the first one under those
      -- drawn later
      have others (M : Pairing) (t u : Term) (le : N ≤ M) (first : t.Alike M.pairs u) :=
        bind (τ := τ) (F := F) (ih (rest.mono le.more)) fun L ts us le rest =>
          pure (R := fun M => AlikeTerms M.pairs) (.cons (first.mono le.more) rest)
      refine bind (R := fun M => Term.Alike M.pairs) ?_ others
      cases value with
      | var name =>
          dsimp only
          -- either name is a wildcard, or neither is
          rw [name.isWildcardName]
          split
          · exact freshWildcard fun _ _ name => pure (.mk (.var name))
          · exact pure (.mk (.var name))
      | _ => exact pure (.mk (by constructor <;> assumption))

/-- A head with its arguments renewed. -/
theorem renewed (alike : h.Alike N.pairs k) (stands : Nat) :
    τ.InStep F N (Parse.renewed h stands) (Parse.renewed k stands) fun M => Head.Alike M.pairs :=
  bind (renewedArgs alike.args stands) fun _ _ _ le args =>
    pure { alike.mono le.more with args }

/-! ## Heads

A head is made of a term and of what is behind it.  Which head a term makes is told by its form, and alike
terms are of one form. -/

/-- A term is made a head by its form: a variable, a reference, or the call of one of them. -/
theorem headOf (alike : t.Alike N.pairs u) :
    τ.InStep F N (Parse.headOf t) (Parse.headOf u) fun M => Head.Alike M.pairs := by
  obtain @⟨v, w, l, value⟩ := alike
  cases value with
  | var name =>
      exact pure { (AlikeTerms.one (.mk (.var name))).headOfRef with
        name := .some name
        location := rfl }
  | ref path => exact pure path.headOfRef
  | call terms =>
      obtain _ | ⟨@⟨a, b, m, operator⟩, args⟩ := terms
      · exact fail
      · cases operator with
        | var name =>
            exact pure { (AlikeTerms.one (.mk (.var name))).headOfRef with args }
        | ref path =>
            unfold Parse.headOf
            dsimp only
            -- a call needs a path that leads with a variable
            rw [rel_isSome path.headVar?]
            split
            · exact pure { path.headOfRef with args }
            · exact reject (.invalidHead path.render)
        | _ => exact fail
  | _ => exact fail

/-- The term behind a sign, or a note on what was expected. -/
theorem headPart (follows : τ.Follows g g') {m n : Note} (note : m.Alike N.pairs n) :
    τ.InStep F N (Parse.headPart g m) (Parse.headPart g' n) fun M => AlikeKeys M.pairs := by
  refine scan (trying (follows.compound true) (fun M t u _ part => pure (.some part)) fun M le => ?_)
  exact unexpected (note.mono le.more) (pure .none)

/-- What stands behind the path of a head: `contains`, a value, or nothing. -/
theorem headRest (follows : τ.Follows g g') (isDefault : Bool) (place : Location)
    (alike : h.Alike N.pairs k) :
    τ.InStep F N (Parse.headRest g isDefault place h) (Parse.headRest g' isDefault place k) fun M =>
      Head.Alike M.pairs := by
  have name := alike.reference.render
  refine token fun kind => ?_
  split
  · have rest : τ.InStep F N
        (do return { h with
          key := ← Parse.headPart g (.ruleKey h.reference.render), keywords := [.containsKw] })
        (do return { k with
          key := ← Parse.headPart g' (.ruleKey k.reference.render), keywords := [.containsKw] })
        fun M => Head.Alike M.pairs :=
      bind (headPart follows (.ruleKey name)) fun M j l le key =>
        pure { alike.mono le.more with
          key
          keywords := rfl }
    rw [alike.args.isEmpty]
    split
    · exact unexpected (.containsOnFunction name) rest
    · exact rest
  · refine bind (headPart follows (.ruleValue name)) fun M v w le value => ?_
    -- a value behind a sign that unifies, and below it one behind a sign that assigns
    have head : Head.Alike M.pairs { h with value := v } { k with value := w } :=
      { alike.mono le.more with value }
    exact pure (head.valued place)
  · refine bind (headPart follows (alike.valueNote isDefault name)) fun M v w le value => ?_
    have head : Head.Alike M.pairs { h with assign := true, value := v }
        { k with assign := true, value := w } :=
      { alike.mono le.more with
        value
        assign := rfl }
    exact pure (head.valued place)
  · exact pure (alike.valued place)

/-- The head of a rule starts with a word. -/
theorem ruleHead (follows : τ.Follows g g') (isDefault : Bool) {s s' : ParseState}
    (meets : τ.Meets F N s s') (word : s.look.token = .ident) :
    τ.Outcome F N (fun M => Head.Alike M.pairs) ((Parse.ruleHead g isDefault).run τ.env τ.settings s)
      ((Parse.ruleHead g' isDefault).run τ.env' τ.settings s') := by
  have place : s'.look.location = s.look.location := by
    obtain ⟨_, same⟩ := meets.look
    rw [same]
  unfold Parse.ruleHead
  rw [run_bind, run_bind, run_location, run_location, andThen_some, andThen_some, place]
  refine (variableHere meets (.inl word)).andThen fun L n m _ name => ?_
  refine trying (finish follows name true) (fun M t u _ alike => ?_) fun M _ => reject (.same _)
  refine bind (headOf alike) fun O h k _ alike => bind (headRest follows isDefault _ alike) ?_
  exact fun _ h k _ alike => upToLastStop fun l => pure { alike with location := rfl }

theorem headName (alike : AlikeTerms N.pairs ts us) :
    τ.InStep F N (Parse.headName ts) (Parse.headName us) fun M => AlikeName M.pairs :=
  ofOption alike.headVar?

/-- A head whose path has two segments. -/
theorem resolved (alike : h.Alike N.pairs k) (place : Location) (hasIf : Bool) :
    τ.InStep F N (Parse.resolved h place hasIf) (Parse.resolved k place hasIf) fun M =>
      Head.Alike M.pairs := by
  unfold Parse.resolved
  have path := alike.reference
  split
  · next base key two =>
      rw [two] at path ⊢
      -- a path alike a path of two segments has two segments, alike one by one
      obtain ⟨base', key', two', base, key⟩ : ∃ base' key', k.reference = [base', key'] ∧
          base.Alike N.pairs base' ∧ key.Alike N.pairs key' := by
        generalize k.reference = q at path
        obtain _ | ⟨base, _ | ⟨key, _ | _⟩⟩ := path
        exact ⟨_, _, rfl, base, key⟩
      rw [two'] at path ⊢
      dsimp only
      -- the same conditions decide on both sides, so both take the same branch
      rw [alike.usesContains, alike.value.isNone, alike.args.isEmpty]
      split
      · exact pure alike
      · split
        · split
          · exact pure { alike with
              reference := path
              value := .some (trueTerm_alike place)
              generatedValue := rfl }
          · exact bind (headName path) fun M a b le name =>
              pure { alike.mono le.more with
                name := .some name
                reference := path.mono le.more }
        · split
          · refine bind (headName path) fun M a b le name => pure { alike.mono le.more with
              name := .some name
              key := .some (key.mono le.more)
              reference := ?_ }
            split
            · exact .one (base.mono le.more)
            · exact path.mono le.more
          · exact pure alike
  · next other =>
      -- a path alike one of another length does not have two segments either
      split
      · next base key two =>
          rw [two] at path
          generalize h.reference = q at path other
          obtain _ | ⟨_, _ | ⟨_, _ | _⟩⟩ := path
          exact (other _ _ rfl).elim
      · exact pure alike

/-! ## Default rules

What is wrong with a default rule is reported at one place, one problem after the other; the first that is
wrong on one side is wrong on the other. -/

/-- What is wrong at a place on both sides ends the rule. -/
theorem rejectFor {problems : List Problem} {place : Location} {f : Unit → Parse α} {f' : Unit → Parse β}
    (rest : τ.InStep F N (f ()) (f' ()) Q) :
    τ.InStep F N (Parse.rejectFor place problems >>= f) (Parse.rejectFor place problems >>= f') Q := by
  unfold Parse.rejectFor
  simp only [bind_assoc]
  have reports (all : List Problem) {y : Parse α} {y' : Parse β} (rest : τ.InStep F N y y' Q) :
      τ.InStep F N (all.forM (Parse.report place) >>= fun _ => y)
        (all.forM (Parse.report place) >>= fun _ => y') Q := by
    induction all with
    | nil => exact rest
    | cons problem all ih =>
        show τ.InStep F N
          ((Parse.report place problem >>= fun _ => all.forM (Parse.report place)) >>= fun _ => y)
          ((Parse.report place problem >>= fun _ => all.forM (Parse.report place)) >>= fun _ => y') Q
        rw [bind_assoc, bind_assoc]
        exact report (.same _) ih
  refine reports problems ?_
  split
  · exact rest
  · exact fail

/-- A default rule is checked for its value and for its arguments; what is reported is the same. -/
theorem defaultRule (alike : h.Alike N.pairs k) (place : Location) :
    τ.InStep F N (Parse.defaultRule h place) (Parse.defaultRule k place) fun M =>
      Rule.Alike M.pairs := by
  refine upToLastStop fun l => ?_
  have rest : τ.InStep F N
      (Parse.rejectFor l (argumentProblems [] h.args) >>= fun _ => Pure.pure
        { Rule.new h (trueBody l) with isDefault := true, generatedBody := true, location := some l })
      (Parse.rejectFor l (argumentProblems [] k.args) >>= fun _ => Pure.pure
        { Rule.new k (trueBody l) with isDefault := true, generatedBody := true, location := some l })
      fun M => Rule.Alike M.pairs := by
    rw [alike.args.argumentProblems]
    exact rejectFor (pure (.last alike (trueBody_alike l)))
  have value := alike.value
  dsimp only
  -- a default rule without a value has a problem of its own, which is the same as well
  generalize h.value = v at value ⊢
  generalize k.value = w at value ⊢
  cases value with
  | none => exact rejectFor rest
  | some value =>
      dsimp only
      rw [value.evaluatedKinds]
      exact rejectFor rest

/-! ## Bodies

A body behind `if` may be a set that was read as a literal; it is then given up on both sides. -/

theorem bracedBody (follows : τ.Follows g g') :
    τ.InStep F N (Parse.bracedBody g) (Parse.bracedBody g') fun M => AlikeBodies M.pairs :=
  scan (bind (follows.body .rbrace) fun _ _ _ _ body => scan (pure body))

/-- A set behind `if` is read as a body in braces on both sides. -/
theorem ifBody (follows : τ.Follows g g') :
    τ.InStep F N (Parse.ifBody g) (Parse.ifBody g') fun M => AlikeBodies M.pairs := by
  refine scan (save fun G p p' saved => ?_)
  have braced (M : Pairing) (le : N ≤ M) : τ.InStep G M
      (Parse.restore p >>= fun _ => Parse.bracedBody g)
      (Parse.restore p' >>= fun _ => Parse.bracedBody g') fun M => AlikeBodies M.pairs :=
    restore (saved.mono le) (bracedBody follows)
  refine trying follows.literal (fun M e e' le alike => ?_) braced
  have kept (x : Expr) : Option.filter (!isSet ·) (some x) = if isSet x then none else some x := by
    cases set : isSet x <;> simp [Option.filter, set]
  rw [kept, kept, alike.isSet]
  cases isSet e' with
  | true => exact braced M le
  | false => exact pure (AlikeBodies.push .nil alike)

/-! ## Alternatives

The alternatives of a rule are read by one production below, so here the step is from a link to the next.
-/

/-- The head of an alternative is the head of its rule, with its arguments renewed. -/
theorem alternativeHead (alike : h.Alike N.pairs k) (place : Location) :
    τ.InStep F N (Parse.alternativeHead h place) (Parse.alternativeHead k place) fun M =>
      Head.Alike M.pairs := by
  have plain : Head.Alike N.pairs { h with generatedValue := false, keywords := [] }
      { k with generatedValue := false, keywords := [] } :=
    { alike with
      generatedValue := rfl
      keywords := rfl }
  exact bind (renewed plain place.offset) fun M h k _ alike => pure { alike with location := rfl }

/-- The value of an alternative is written, or is `true` where none is. -/
theorem alternativeValue (follows : τ.Follows g g') (alike : h.Alike N.pairs k) (place : Location) :
    τ.InStep F N (Parse.alternativeValue g h place) (Parse.alternativeValue g' k place) fun M =>
      Head.Alike M.pairs := by
  have made : Head.Alike N.pairs
      { h with generatedValue := true, value := some (trueTerm place) }
      { k with generatedValue := true, value := some (trueTerm place) } :=
    { alike with
      value := .some (trueTerm_alike place)
      generatedValue := rfl }
  -- the two signs before a value differ only in whether the head counts as an assignment
  have written := token (τ := τ) (F := F) (N := N) (Q := fun M => Head.Alike M.pairs)
    (f := fun kind => do
      Parse.scan
      let v ← g (.compound true)
      return { h with
        assign := kind == .assign, value := some v, location := some (← Parse.upToLastStop place) })
    (g := fun kind => do
      Parse.scan
      let v ← g' (.compound true)
      return { k with
        assign := kind == .assign, value := some v, location := some (← Parse.upToLastStop place) })
    fun kind => scan (bind (follows.compound true) fun M v w le value => upToLastStop fun l =>
      pure { alike.mono le.more with
        value := .some value
        assign := rfl
        location := rfl })
  refine token fun kind => ?_
  split
  · exact pure made
  · exact pure made
  · exact written
  · exact written
  · exact reject (.same _)

/-- A body behind `if`, which may belong to the alternative as a whole. -/
theorem alternativeIfBody (follows : τ.Follows g g') :
    τ.InStep F N (Parse.alternativeIfBody g) (Parse.alternativeIfBody g') fun M a b =>
      AlikeBodies M.pairs a.1 b.1 ∧ a.2 = b.2 := by
  refine scan (token fun kind => ?_)
  split
  · exact bind (bracedBody follows) fun _ _ _ _ body => pure ⟨body, rfl⟩
  · exact reject (.same _)
  · exact bind follows.literal fun _ _ _ _ alike => pure ⟨AlikeBodies.push .nil alike, rfl⟩

/-- An alternative may be followed by another one. -/
theorem furtherAlternative (follows : τ.Follows g g') (alike : h.Alike N.pairs k) :
    τ.InStep F N (Parse.furtherAlternative g h) (Parse.furtherAlternative g' k) fun M =>
      Option.Rel (Rule.Alike M.pairs) := by
  refine token fun kind => ?_
  split
  · exact bind (follows.alternative alike) fun _ _ _ _ next => pure (.some next)
  · exact pure .none

/-- An alternative has a head, a value and a body of its own, or the body that `true` is. -/
theorem alternative (follows : τ.Follows g g') (alike : h.Alike N.pairs k) :
    τ.InStep F N (Parse.alternative g h) (Parse.alternative g' k) fun M => Rule.Alike M.pairs := by
  refine location fun start => bind (alternativeHead alike start) fun J own own' le₀ named => ?_
  refine scan (bind (alternativeValue follows named start) fun K own own' le₁ valued => ?_)
  have alike := alike.mono (le₀.trans le₁).more
  refine token fun kind => ?_
  split
  · refine bind (alternativeIfBody follows) fun L b c le₂ body => ?_
    obtain ⟨b, moved⟩ := b
    obtain ⟨c, moved'⟩ := c
    obtain ⟨body, rfl⟩ : AlikeBodies L.pairs b c ∧ moved = moved' := body
    refine bind (furtherAlternative follows (alike.mono le₂.more)) fun M r s le₃ next => ?_
    refine upToLastStop fun place => pure (.of ?_ ?_ next)
    · exact { valued.mono (le₂.trans le₃).more with keywords := rfl }
    · have body := body.mono le₃.more
      -- the body is moved as a whole where it belonged to the alternative
      cases moved with
      | true => exact body.relocate
      | false => exact body
  · refine bind (bracedBody follows) fun L b c le₂ body => ?_
    refine bind (furtherAlternative follows (alike.mono le₂.more)) fun M r s le₃ next => ?_
    exact upToLastStop fun place => pure
      (.of (valued.mono (le₂.trans le₃).more) (body.mono le₃.more) next)
  · exact upToLastStop fun place => pure (.of valued (trueBody_alike start).relocate .none)

/-- Whether there is an alternative is told by the token and by the form of the head. -/
theorem alternative? (follows : τ.Follows g g') (alike : h.Alike N.pairs k) :
    τ.InStep F N (Parse.alternative? g h) (Parse.alternative? g' k) fun M =>
      Option.Rel (Rule.Alike M.pairs) := by
  refine token fun kind => ?_
  split
  · exact pure .none
  · refine startsRefWithKeyword fun found => ?_
    rw [alike.reference.length, alike.reference.isGroundRef, alike.key.isSome]
    have next := bind (Q := fun M => Option.Rel (Rule.Alike M.pairs))
      (follows.alternative (F := F) alike) fun _ _ _ _ next => pure (.some next)
    split
    · exact pure .none
    · dsimp only
      split
      · exact reportHere (.same _) fail
      · split
        · exact reportHere (.same _) fail
        · exact next

/-! ## Rules

All rules of one head: an alternative is asked for first, and further bodies are read where there is none.
-/

/-- A further body makes a rule of its own, with a head of its own arguments, at the place of the first
one. -/
theorem siblings (follows : τ.Follows g g') {r s : Rule} {rs ss : List Rule}
    (first : r.Alike N.pairs s) (read : List.Forall₂ (Rule.Alike N.pairs) rs ss) :
    τ.InStep F N (Parse.siblings g r rs) (Parse.siblings g' s ss) fun M =>
      List.Forall₂ (Rule.Alike M.pairs) := by
  refine token fun kind => ?_
  split
  · exact pure read
  · dsimp only
    rw [first.elseRule]
    split
    · exact reportHere (.same _) fail
    · refine location fun place => bind (bracedBody follows) fun L b c le₁ body => ?_
      refine upToLastStop fun place => ?_
      refine bind (renewed (first.head.mono le₁.more) place.offset) fun M h k le₂ head => ?_
      have le := (le₁.trans le₂).more
      -- the new rule goes to the end of those that have been read
      refine follows.siblings (first.mono le)
        (List.rel_append (read.imp fun _ _ => Rule.Alike.mono le) (.cons (.of ?_ ?_ .none) .nil))
      · exact head.relocate
      · exact body.mono le₂.more

/-- Rules from a head and a body: an alternative to it, and further bodies. -/
theorem rulesFrom (follows : τ.Follows g g') (head : h.Alike N.pairs k) {b c : Body}
    (body : AlikeBodies N.pairs b c) (place : Location) :
    τ.InStep F N (Parse.rulesFrom g h b place) (Parse.rulesFrom g' k c place) fun M =>
      List.Forall₂ (Rule.Alike M.pairs) := by
  refine bind (alternative? follows head) fun M r s le next => upToLastStop fun l => ?_
  have rule := Rule.Alike.of (d := false) (g := false) (l := some l) (head.mono le.more)
    (body.mono le.more) next
  exact follows.siblings rule (.cons rule .nil)

/-- A rule has a body behind `if`, a body in braces, or none. -/
theorem definedRules (follows : τ.Follows g g') (alike : h.Alike N.pairs k) (place : Location) :
    τ.InStep F N (Parse.definedRules g h place) (Parse.definedRules g' k place) fun M =>
      List.Forall₂ (Rule.Alike M.pairs) := by
  refine token fun kind => bind (resolved alike place _) fun L h k _ head => ?_
  split
  · refine bind (ifBody follows) fun M b c le body => rulesFrom follows ?_ body place
    exact { head.mono le.more with keywords := congrArg (· ++ [.ifKw]) head.keywords }
  · refine bind (bracedBody follows) fun M b c le body => ?_
    exact rulesFrom follows (head.mono le.more) body place
  · rw [head.usesContains, head.location]
    split
    · exact pure (.cons (.last head (trueBody_alike place)) .nil)
    · exact fail

/-- Rules start with a head, perhaps behind the word of a default rule. -/
theorem rules (follows : τ.Follows g g') :
    τ.InStep F N (Parse.rules g) (Parse.rules g') fun M => List.Forall₂ (Rule.Alike M.pairs) := by
  -- -- what stands behind `default`, or in its place
  have named (place : Location) (isDefault : Bool) : τ.InStep F N
      (do
        if (← Parse.token) != .ident then Parse.fail
        let h ← Parse.ruleHead g isDefault
        if isDefault then return [← Parse.defaultRule h place] else Parse.definedRules g h place)
      (do
        if (← Parse.token) != .ident then Parse.fail
        let h ← Parse.ruleHead g' isDefault
        if isDefault then return [← Parse.defaultRule h place] else Parse.definedRules g' h place)
      fun M => List.Forall₂ (Rule.Alike M.pairs) := by
    refine token_at fun s s' meets => ?_
    dsimp only
    split
    · exact fail _ _ meets
    · next other =>
        have word : s.look.token = .ident := by simpa using other
        refine (ruleHead follows isDefault meets word).andThen fun M h k _ head => ?_
        cases isDefault with
        | true => exact bind (defaultRule head place) fun _ _ _ _ rule => pure (.cons rule .nil)
        | false => exact definedRules follows head place
  refine location fun place => startsRefWithKeyword fun _ => token fun kind => ?_
  dsimp only
  split
  · next isDefault =>
      rw [isDefault]
      -- -- a default rule: its keyword goes first, and the name behind it may be a keyword too
      exact scan (startsRefWithKeyword fun _ => named place true)
  · next other =>
      rw [Bool.eq_false_iff.2 other]
      exact named place false

end Twins.InStep

end RegoSyntax
