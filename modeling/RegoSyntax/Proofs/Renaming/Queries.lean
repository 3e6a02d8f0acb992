/-
# RegoSyntax.Proofs.Renaming.Queries — operators and queries in step.

Where a word would have to be imported first, a parser may read a literal once more with all words reserved,
to see whether it should say so.  That leaves nothing but advice and names that were drawn: it is quiet, and
two parsers stay in step of which one looks for such words and the other one does not.

The rules of operators and of literals are in step like those of terms, with one thing more.  A parser
that looks for words that have not been reserved reads ahead and returns, and its twin may not look at
all.  So the two are not in step while it looks; what is shown is that it leaves nothing behind but the
names that it drew (`Quiet`), after which they are in step again under a larger pairing of names.

That needs the runs themselves and not only what holds before and behind them, and so the two lemmas on
`suggestIn` and `suggestEvery` unfold what is run.
-/
import RegoSyntax.Proofs.Renaming.Terms

namespace RegoSyntax

open Parse

namespace Twins

namespace InStep

variable {τ : Twins} {F : Floor} {N : Pairing} {g g' : Grammar} {t u op op' : Term}
  {ts us : List Term} {p p' : Snapshot}

/-! ## Operators

An operator has a name of the language, so its term is the same on both sides. -/

/-- An operator is named after its token. -/
theorem operator (kinds : List Token) :
    τ.InStep F N (Parse.operator kinds) (Parse.operator kinds) fun M => Term.Alike M.pairs := by
  refine token fun kind => ?_
  split
  · exact location fun _ => scan
      (pure (.mk (.ref (.one (.mk (.var (.plain kind.name_plain)))))))
  · exact fail

/-- The operator of a membership is the word, or there is none on either side. -/
theorem memberOperator (n : Nat) :
    τ.InStep F N (Parse.memberOperator n) (Parse.memberOperator n) fun M =>
      Term.Alike M.pairs := by
  refine token fun kind => ?_
  split
  · refine location fun _ => scan (pure (.mk (.ref (.cons (.mk (.var (.plain ?_))) (.one ?_)))))
    · decide +kernel
    · exact .mk (.string _)
  · exact fail

/-- The call of an operator has alike operands. -/
theorem operatorCall (operator : op.Alike N.pairs op') (left : t.Alike N.pairs u)
    (others : AlikeTerms N.pairs ts us) (start : Nat) :
    τ.InStep F N (Parse.operatorCall op t ts start) (Parse.operatorCall op' u us start) fun M =>
      Term.Alike M.pairs := by
  unfold Parse.operatorCall
  rw [left.place]
  exact lastStop fun _ => placed (.mk (.call (.cons operator (.cons left others))))

/-! ### The tiers below membership

From tier to tier: an operand, and whatever goes on behind it. -/

/-- An operand is an operation of the next tier, or a term. -/
theorem operand (h : τ.Follows g g') (tier : Tier) (start : Nat) :
    τ.InStep F N (Parse.operand g tier start) (Parse.operand g' tier start) fun M =>
      Term.Alike M.pairs := by
  unfold Parse.operand
  split
  · exact h.operation _ start .none
  · exact h.term

/-- Another operand stands behind an operator. -/
theorem applied (h : τ.Follows g g') (tier : Tier) (left : t.Alike N.pairs u) (start : Nat) :
    τ.InStep F N (Parse.applied g tier t start) (Parse.applied g' tier u start) fun M =>
      Term.Alike M.pairs := by
  refine bind (operator tier.operators) fun L op op' le operator => offset fun n => ?_
  refine bind (operand h tier n) fun M r r' le' right => ?_
  exact operatorCall (operator.mono le'.more) (left.mono (le.trans le').more) (.one right) start

/-- What is read behind the left operand. -/
theorem operationRest (h : τ.Follows g g') (tier : Tier) {t u : Term} (left : t.Alike N.pairs u)
    (start : Nat) :
    τ.InStep F N
      (do
        match ← Parse.attempt (Parse.applied g tier t start) with
        | some c =>
          if tier.operators.contains (← Parse.token) then g (.operation tier (some c) start)
          else return c
        | none => return t)
      (do
        match ← Parse.attempt (Parse.applied g' tier u start) with
        | some c =>
          if tier.operators.contains (← Parse.token) then g' (.operation tier (some c) start)
          else return c
        | none => return u)
      fun M => Term.Alike M.pairs := by
  refine trying (applied h tier left start) (fun M c c' le call => token fun kind => ?_) fun M le => ?_
  · exact ite (h.operation tier start (.some call)) (pure call)
  · exact pure (left.mono le.more)

/-- An operation goes on from the operand that it has. -/
theorem operation (h : τ.Follows g g') (tier : Tier) {l m : Option Term} (alike : AlikeKeys N.pairs l m)
    (start : Nat) :
    τ.InStep F N (Parse.operation g tier l start) (Parse.operation g' tier m start) fun M =>
      Term.Alike M.pairs := by
  refine nested ?_
  cases alike with
  | some left => exact operationRest h tier left start
  | none => exact bind (operand h tier start) fun M t u _ left => operationRest h tier left start

/-! ### Membership

A membership is tried for on both sides.  Where it fails the parsers are back at the same place, with what
each of them has drawn. -/

/-- The operands of a membership are operations. -/
theorem memberOperand (h : τ.Follows g g') (start : Nat) :
    τ.InStep F N (Parse.memberOperand g start) (Parse.memberOperand g' start) fun M =>
      Term.Alike M.pairs :=
  h.operation .relation start .none

/-- A keyed membership has a key, a value and a domain. -/
theorem keyedMember (h : τ.Follows g g') (key : t.Alike N.pairs u) (start : Nat) :
    τ.InStep F N (Parse.keyedMember g t start) (Parse.keyedMember g' u start) fun M =>
      Term.Alike M.pairs := by
  refine scan (bind (memberOperand h start) fun K v v' first value => ?_)
  refine bind (memberOperator 3) fun L op op' second operator => offset fun n => ?_
  refine bind (memberOperand h n) fun M d d' third domain => ?_
  have le := second.trans third
  exact operatorCall (operator.mono third.more) (key.mono (first.trans le).more)
    (.cons (value.mono le.more) (.one domain)) start

/-- A membership has a value and a domain. -/
theorem member (h : τ.Follows g g') (value : t.Alike N.pairs u) (start : Nat) :
    τ.InStep F N (Parse.member g t start) (Parse.member g' u start) fun M => Term.Alike M.pairs := by
  refine bind (memberOperator 2) fun L op op' first operator => offset fun n => ?_
  refine bind (memberOperand h n) fun M d d' second domain => ?_
  exact operatorCall (operator.mono second.more) (value.mono (first.trans second).more) (.one domain)
    start

/-- Where no key was meant both parsers are back at the comma. -/
theorem keyedMember? (h : τ.Follows g g') (keyed : Bool) (key : t.Alike N.pairs u) (start : Nat) :
    τ.InStep F N (Parse.keyedMember? g keyed t start) (Parse.keyedMember? g' keyed u start) fun M =>
      AlikeKeys M.pairs := by
  unfold Parse.keyedMember?
  cases keyed with
  | false => exact token fun _ => pure .none
  | true =>
      refine token fun kind => ?_
      split
      · refine save fun G p p' saved => ?_
        refine trying (keyedMember h key start) (fun M c c' le call => pure (.some call)) fun M le => ?_
        exact restore (saved.mono le) (pure .none)
      · exact pure .none

/-- A membership may be the operand of another one. -/
theorem memberChain (h : τ.Follows g g') (keyed : Bool) (call : t.Alike N.pairs u) (start : Nat) :
    τ.InStep F N (Parse.memberChain g keyed t start) (Parse.memberChain g' keyed u start) fun M =>
      Term.Alike M.pairs :=
  token fun _ => ite (h.membership keyed start (.some call)) (pure call)

/-- What is read behind the first operand of a membership. -/
theorem membershipRest (h : τ.Follows g g') (keyed : Bool) {t u : Term} (left : t.Alike N.pairs u)
    (start : Nat) :
    τ.InStep F N
      (do
        match ← Parse.keyedMember? g keyed t start with
        | some c => Parse.memberChain g keyed c start
        | none =>
          let _ ← Parse.startsRefWithKeyword
          match ← Parse.attempt (Parse.member g t start) with
          | some c => Parse.memberChain g keyed c start
          | none => return t)
      (do
        match ← Parse.keyedMember? g' keyed u start with
        | some c => Parse.memberChain g' keyed c start
        | none =>
          let _ ← Parse.startsRefWithKeyword
          match ← Parse.attempt (Parse.member g' u start) with
          | some c => Parse.memberChain g' keyed c start
          | none => return u)
      fun M => Term.Alike M.pairs := by
  refine bind (keyedMember? h keyed left start) fun L c c' le found => ?_
  -- -- both found the keyed form or neither did
  cases found with
  | some call => exact memberChain h keyed call start
  | none =>
      refine startsRefWithKeyword fun _ => ?_
      refine trying (member h (left.mono le.more) start) (fun M c c' _ call => ?_) fun M le' => ?_
      · exact memberChain h keyed call start
      · exact pure (left.mono (le.trans le').more)

/-- A membership goes on from the operand that it has. -/
theorem membership (h : τ.Follows g g') (keyed : Bool) {l m : Option Term}
    (alike : AlikeKeys N.pairs l m) (start : Nat) :
    τ.InStep F N (Parse.membership g keyed l start) (Parse.membership g' keyed m start) fun M =>
      Term.Alike M.pairs := by
  refine nested ?_
  cases alike with
  | some left => exact membershipRest h keyed left start
  | none => exact bind (memberOperand h start) fun M t u _ left => membershipRest h keyed left start

/-- A compound term is a membership without an operand so far. -/
theorem compound (h : τ.Follows g g') (keyed : Bool) :
    τ.InStep F N (Parse.compound g keyed) (Parse.compound g' keyed) fun M => Term.Alike M.pairs :=
  nested (offset fun _ => h.membership keyed _ .none)

/-! ## Expressions

An expression is a call where a sign stands between two terms. -/

/-- What is assigned or unified is a call. -/
theorem expression (h : τ.Follows g g') :
    τ.InStep F N (Parse.expression g) (Parse.expression g') fun M => Expr.Alike M.pairs := by
  refine bind (h.compound true) fun L t u first left => token fun kind => ?_
  split
  · refine location fun _ => scan (bind (h.compound true) fun M r r' second right => pure ?_)
    refine ExprTerms.Alike.ofTerms (.call (.cons ?_ (.cons (left.mono second.more) (.one right))))
    exact .mk (.ref (.one (.mk (.var (.plain kind.name_plain)))))
  · obtain @⟨v, w, l, value⟩ := left
    cases value with
    | call terms => exact pure (ExprTerms.Alike.ofTerms (.call terms))
    | _ => exact pure (ExprTerms.Alike.ofTerms (.term (.mk (by constructor <;> assumption))))

/-! ## Replacements

Replacements are read one by one, and their targets are checked on both sides. -/

/-- A target is reported on both sides, or on neither. -/
theorem checkTarget {α β : Type} {Q : Pairing → α → β → Prop} (target : t.Alike N.pairs u)
    {f : Unit → Parse α} {f' : Unit → Parse β} (rest : τ.InStep F N (f ()) (f' ()) Q) :
    τ.InStep F N (Parse.checkTarget t >>= f) (Parse.checkTarget u >>= f') Q := by
  obtain @⟨v, w, l, value⟩ := target
  cases value with
  | ref _ => exact rest
  | var _ => exact rest
  | _ => exact unexpected (.same _) rest

/-- A replacement has alike values. -/
theorem replacedBy (h : τ.Follows g g') (place : Location) (target : t.Alike N.pairs u) :
    τ.InStep F N (Parse.replacedBy g place t) (Parse.replacedBy g' place u) fun M w x =>
      AlikeWiths M.pairs [w] [x] := by
  refine token fun kind => ?_
  split
  · exact unexpected (.same _) fail
  · refine scan (bind (h.compound true) fun M v w le value => upToLastStop fun l => pure ?_)
    exact .cons (target.mono le.more) value .nil

/-- A replacement has alike targets. -/
theorem replacement (h : τ.Follows g g') :
    τ.InStep F N (Parse.replacement g) (Parse.replacement g') fun M w x =>
      AlikeWiths M.pairs [w] [x] := by
  refine location fun place => scan (token fun kind => ?_)
  split
  · exact unexpected (.same _) fail
  · exact bind h.term fun M t u _ target => checkTarget target (replacedBy h place target)

/-- Replacements go on where there is another word. -/
theorem replacements (h : τ.Follows g g') {ws xs : List With} (read : AlikeWiths N.pairs ws xs) :
    τ.InStep F N (Parse.replacements g ws) (Parse.replacements g' xs) fun M =>
      AlikeWiths M.pairs := by
  refine bind (replacement h) fun M w x le last => token fun kind => ?_
  have read := (read.mono le.more).append last
  exact ite (h.replacements read) (pure read)

/-- A literal with its replacements is alike. -/
theorem replaced (h : τ.Follows g g') {e e' : Expr} (alike : e.Alike N.pairs e') :
    τ.InStep F N (Parse.replaced g e) (Parse.replaced g' e') fun M => Expr.Alike M.pairs := by
  refine token fun kind => ?_
  split
  · refine bind (h.replacements .nil) fun M ws xs le withs => pure ?_
    cases alike with
    | mk terms _ => exact .mk (terms.mono le.more) withs
  · exact pure alike

/-! ## Declarations

A declaration is a membership or a list of variables, and is told by what was read. -/

/-- A membership behind `some` has as many arguments on both sides. -/
theorem declaredMembership (h : τ.Follows g g') (place : Location) (alike : t.Alike N.pairs u)
    (terms : AlikeTerms N.pairs ts us) :
    τ.InStep F N (Parse.declaredMembership g place t ts) (Parse.declaredMembership g' place u us)
      fun M => Expr.Alike M.pairs := by
  unfold Parse.declaredMembership
  rw [terms.operatorName.memberArity?, terms.length]
  split
  · exact reject (.same _)
  · split
    · exact replaced h ((ExprTerms.Alike.ofTerms (.some _ (.one alike))).placed place)
    · exact reject (.same _)

/-- Variables are declared one after the other. -/
theorem symbols (h : τ.Follows g g') (read : AlikeTerms N.pairs ts us) :
    τ.InStep F N (Parse.symbols g ts) (Parse.symbols g' us) fun M => AlikeTerms M.pairs := by
  refine scan (token_at fun s s' meets => ?_)
  split
  · exact unexpected (.same _) fail _ _ meets
  · next other =>
      have word : s.look.token = .ident := by simpa using other
      refine (variableHere meets (.inl word)).andThen fun M t u le last => ?_
      have read := (read.mono le.more).append (.one last)
      exact scan (token fun _ => ite (h.symbols read) (pure read))

end InStep

/-! ## Looking for words

Here one side may do what the other does not: it looks for a word that should have been imported.  It
comes back in the end, so it was quiet. -/

section probes

variable {τ : Twins} {F : Floor} {N : Pairing} {s s' : ParseState} {p p' : Snapshot} {g g' : Grammar}
  {α β : Type} {Q : Pairing → α → β → Prop} {f : Unit → Parse α} {f' : Unit → Parse β}

/-- The reading under all future words of what is behind the keyword of a declaration. -/
def asMembership (g : Grammar) : Parse (Option Term) := do
  scan
  withFutureKeywords (Parse.attempt (g (.compound true)))

/-- A reading under other words keeps what is remembered. -/
theorem run_withFutureKeywords {α : Type} (x : Parse α) (e : Env) (o : Settings) (s : ParseState) :
    ((Parse.withFutureKeywords x).run e o s).2.memo = s.memo := by
  obtain ⟨u, depth, journal⟩ := s
  rw [Route.Takes.run_withFutureKeywords]
  rfl

/-- To look for a membership is quiet. -/
theorem quiet_suggestIn {e : Env} (here : s.save = p)
    (onward : Onward s ((asMembership g).run e τ.settings s).2) :
    ∃ t, (suggestIn g p).run e τ.settings s = (some (), t) ∧ Quiet s t := by
  subst here
  have depth := (asMembership g).levels e τ.settings s
  have memo : ((asMembership g).run e τ.settings s).2.memo = s.memo := by
    unfold asMembership
    rw [run_bind, Parse.scan, run_advance, andThen_some, run_withFutureKeywords]
    rfl
  -- the attempt is made in any case, and gives a term or none
  have answers : ∃ a, ((asMembership g).run e τ.settings s).1 = some a := by
    unfold asMembership
    rw [run_bind, Parse.scan, run_advance, andThen_some]
    generalize s.followedBy (Parse.next e true s.look) = v
    obtain ⟨u, depth, journal⟩ := v
    exact ⟨_, by rw [Route.Takes.run_withFutureKeywords]; rfl⟩
  have run : (suggestIn g s.save).run e τ.settings s =
      if e.suggestImports then
        andThen (fun a => (do
          Parse.restore s.save
          if a.any isMembership then Parse.hint .importIn : Parse Unit).run e τ.settings)
          ((asMembership g).run e τ.settings s)
      else (some (), s) := by
    unfold suggestIn
    rw [run_bind, run_env, andThen_some, ← run_bind, asMembership, bind_assoc]
    split <;> rfl
  rw [run]
  generalize (asMembership g).run e τ.settings s = r at onward depth memo answers ⊢
  -- the parser returns, and may leave a hint
  obtain ⟨_ | a, t⟩ := r
  · obtain ⟨_, answer⟩ := answers
    cases answer
  · have back : Quiet s { t with toReading := t.restore s.save } :=
      onward.restored memo depth
    split
    · rw [andThen_some, run_bind, run_restore, andThen_some]
      split
      · exact ⟨_, rfl, back.hinted _⟩
      · exact ⟨_, rfl, back⟩
    · exact ⟨_, rfl, .refl s⟩

/-- To look for a quantified query is quiet. -/
theorem quiet_suggestEvery {e : Env} (x : Expr) (reaches : Reaches p s)
    (onward : Onward { s with toReading := s.restore p }
      ((Parse.withFutureKeywords (quantifier g)).run e τ.settings
        { s with toReading := s.restore p }).2) :
    ∃ t, (suggestEvery g p x).run e τ.settings s = (some (), t) ∧ Quiet s t := by
  have depth := (Parse.withFutureKeywords (quantifier g)).levels e τ.settings
    { s with toReading := s.restore p }
  have memo := run_withFutureKeywords (quantifier g) e τ.settings { s with toReading := s.restore p }
  have run : (suggestEvery g p x).run e τ.settings s =
      if e.suggestImports && isEveryVar x then
        (if Option.any isQuantifier ((Parse.withFutureKeywords (quantifier g)).run e τ.settings
            { s with toReading := s.restore p }).1 then Parse.hint .importEvery
          else pure ()).run e τ.settings
          (let t := ((Parse.withFutureKeywords (quantifier g)).run e τ.settings
            { s with toReading := s.restore p }).2
          { t with
            look := s.look
            failures := t.failures.take p.failures ++
              s.failures.extract p.failures s.failures.size
            comments := t.comments.take p.comments ++
              s.comments.extract p.comments s.comments.size })
      else (some (), s) := by
    unfold suggestEvery
    rw [run_bind, run_env, andThen_some]
    split <;> rfl
  rw [run]
  generalize (Parse.withFutureKeywords (quantifier g)).run e τ.settings
    { s with toReading := s.restore p } = r at onward depth memo ⊢
  -- whatever the probe did, the look is put back and what it reported or noted is cut off
  have back : Quiet s { r.2 with
      look := s.look
      failures := r.2.failures.take p.failures ++ s.failures.extract p.failures s.failures.size
      comments := r.2.comments.take p.comments ++ s.comments.extract p.comments s.comments.size } :=
    { look := .refl _
      failures := onward.failures.rejoined reaches.1
      comments := onward.comments.rejoined reaches.2
      memo := memo
      depth := depth
      wildcards := onward.wildcards }
  split
  · split
    · exact ⟨_, rfl, back.hinted _⟩
    · exact ⟨_, rfl, back⟩
  · exact ⟨_, rfl, .refl s⟩

end probes

namespace InStep

variable {τ : Twins} {F : Floor} {N : Pairing} {g g' : Grammar} {p p' : Snapshot}
  {α β : Type} {Q : Pairing → α → β → Prop} {f : Unit → Parse α} {f' : Unit → Parse β}

theorem asMembership (h : τ.Follows g g') :
    τ.InStep F N (Twins.asMembership g) (Twins.asMembership g') fun M =>
      Option.Rel (Term.Alike M.pairs) :=
  scan (withFutureKeywords (attempt (h.compound true)))

/-- Back at a place, either side may look for a membership. -/
theorem suggestIn (h : τ.Follows g g') (saved : τ.Saved F N p p')
    (rest : ∀ M, N ≤ M → τ.InStep F M (f ()) (f' ()) Q) :
    τ.InStep F N
      (Parse.restore p >>= fun _ => Parse.suggestIn g p >>= f)
      (Parse.restore p' >>= fun _ => Parse.suggestIn g' p' >>= f') Q :=
  fun s s' meets => by
    have back := meets.restored saved
    obtain ⟨reaches, reaches'⟩ := meets.reaches saved
    -- what either side would read is read in step, so either goes on
    obtain ⟨onward, onward'⟩ := (asMembership h).onward back
    obtain ⟨t, run, quiet⟩ := quiet_suggestIn reaches.save onward
    obtain ⟨t', run', quiet'⟩ := quiet_suggestIn reaches'.save onward'
    obtain ⟨M, le, meets⟩ := back.quiet quiet quiet'
    rw [run_bind, run_bind, run_restore, run_restore, andThen_some, andThen_some, run_bind, run_bind,
      run, run', andThen_some, andThen_some]
    exact (rest M le t t' meets).since le

/-! ## Declarations and quantified queries

Behind that look the two sides read the declaration alike. -/

/-- Variables are declared from the keyword on, on both sides. -/
theorem declaredSymbols (h : τ.Follows g g') (place : Location) (saved : τ.Saved F N p p') :
    τ.InStep F N (Parse.declaredSymbols g place p) (Parse.declaredSymbols g' place p') fun M =>
      Expr.Alike M.pairs :=
  suggestIn h saved fun _ _ => bind (h.symbols .nil) fun _ _ _ _ read =>
    pure ((ExprTerms.Alike.ofTerms (.some _ read)).placed place)

/-- A declaration is a membership on both sides, or a list of variables. -/
theorem declaration (h : τ.Follows g g') :
    τ.InStep F N (Parse.declaration g) (Parse.declaration g') fun M => Expr.Alike M.pairs := by
  refine location fun place => save fun G p p' saved => scan ?_
  refine trying (h.compound true) (fun M t u le alike => ?_) fun M le =>
    declaredSymbols h place (saved.mono le)
  obtain @⟨v, w, l, value⟩ := alike
  cases value with
  | call terms => exact declaredMembership h place (.mk (.call terms)) terms
  | _ => exact declaredSymbols h place (saved.mono le)

/-- A quantified query has alike variables, domains and bodies. -/
theorem quantifiedQuery (h : τ.Follows g g') (place : Location) {j k : Option Term} {v w d e : Term}
    (key : AlikeKeys N.pairs j k) (value : v.Alike N.pairs w) (domain : d.Alike N.pairs e) :
    τ.InStep F N (Parse.quantifiedQuery g place j v d) (Parse.quantifiedQuery g' place k w e)
      fun M => Expr.Alike M.pairs := by
  refine token fun kind => ?_
  split
  · exact unexpected (.same _) fail
  · refine scan (bind (h.body .rbrace) fun M b c le body => scan ?_)
    have terms := ExprTerms.Alike.every (some place) (key.mono le.more) (value.mono le.more)
      (domain.mono le.more) body
    exact replaced h (terms.ofTerms.placed place)

/-- A quantified query is made out of alike memberships. -/
theorem quantifier (h : τ.Follows g g') :
    τ.InStep F N (Parse.quantifier g) (Parse.quantifier g') fun M => Expr.Alike M.pairs := by
  refine location fun place => scan (bind (h.compound true) fun M t u le alike => ?_)
  have terms := alike.quantified
  generalize Parse.quantified t = a at terms ⊢
  generalize Parse.quantified u = b at terms ⊢
  cases terms with
  | error note => exact reject (.same _)
  | ok key value domain => exact quantifiedQuery h place key value domain

/-- Either side may look for a quantified query at a place. -/
theorem suggestEvery (h : τ.Follows g g') (saved : τ.Saved F N p p') (x x' : Expr)
    (rest : ∀ M, N ≤ M → τ.InStep F M (f ()) (f' ()) Q) :
    τ.InStep F N (Parse.suggestEvery g p x >>= f) (Parse.suggestEvery g' p' x' >>= f') Q :=
  fun s s' meets => by
    obtain ⟨reaches, reaches'⟩ := meets.reaches saved
    obtain ⟨onward, onward'⟩ :=
      (withFutureKeywords (quantifier h)).onward (meets.restored saved)
    obtain ⟨t, run, quiet⟩ := quiet_suggestEvery x reaches onward
    obtain ⟨t', run', quiet'⟩ := quiet_suggestEvery x' reaches' onward'
    obtain ⟨M, le, meets⟩ := meets.quiet quiet quiet'
    rw [run_bind, run_bind, run, run', andThen_some, andThen_some]
    exact (rest M le t t' meets).since le

/-! ## Literals

The four forms of a literal, told apart by its first token. -/

/-- A plain literal is an expression, with its replacements and perhaps a hint. -/
theorem plainLiteral (h : τ.Follows g g') (negated : Bool) :
    τ.InStep F N (Parse.plainLiteral g negated) (Parse.plainLiteral g' negated) fun M =>
      Expr.Alike M.pairs := by
  refine save fun G p p' saved => bind (expression h) fun L e e' first alike => ?_
  have signed : Expr.Alike L.pairs { e with negated } { e' with negated } := by
    cases alike with
    | mk terms withs => exact .mk terms withs
  refine bind (replaced h signed) fun M x x' second alike => ?_
  refine suggestEvery h (saved.mono (first.trans second)) x x' fun O third => ?_
  exact pure (alike.mono third.more)

/-- A negation is passed on both sides, or on neither. -/
theorem negation {f : Bool → Parse α} {f' : Bool → Parse β}
    (rest : ∀ negated, τ.InStep F N (f negated) (f' negated) Q) :
    τ.InStep F N (Parse.negation >>= f) (Parse.negation >>= f') Q := by
  unfold Parse.negation
  simp only [bind_assoc]
  refine token fun kind => ?_
  split
  · exact rest false
  · simp only [bind_assoc]
    refine peekBlank fun next => ?_
    split
    · exact rest false
    · simp only [bind_assoc]
      exact scan (rest true)

/-- A literal is told by its first token. -/
theorem unplacedLiteral (h : τ.Follows g g') :
    τ.InStep F N (Parse.unplacedLiteral g) (Parse.unplacedLiteral g') fun M =>
      Expr.Alike M.pairs := by
  refine startsRefWithKeyword fun found => ?_
  split
  · exact plainLiteral h false
  · refine negation fun negated => token fun kind => ?_
    split
    · exact ite (reject (.same _)) (declaration h)
    · exact ite (reject (.same _)) (quantifier h)
    · exact plainLiteral h negated

/-- A literal gets its place on both sides. -/
theorem literal (h : τ.Follows g g') :
    τ.InStep F N (Parse.literal g) (Parse.literal g') fun M => Expr.Alike M.pairs :=
  location fun _ => bind (unplacedLiteral h) fun _ _ _ _ alike => upToLastStop fun l =>
    pure (alike.placed l)

/-! ## Queries

Queries are lists of literals, with their numbers. -/

/-- Literals are read up to what ends the query. -/
theorem literals (h : τ.Follows g g') (oneLine : Bool) (stop : Token) {b c : Body}
    (read : AlikeBodies N.pairs b c) :
    τ.InStep F N (Parse.literals g oneLine stop b) (Parse.literals g' oneLine stop c) fun M =>
      AlikeBodies M.pairs := by
  refine bind h.literal fun M e e' le last => token fun kind => ?_
  have read := (read.mono le.more).push last
  dsimp only
  split
  · exact scan (h.literals oneLine stop read)
  · split
    · exact pure read
    · refine look fun l hints => ite (h.literals oneLine stop read) (noFailures fun clean => ?_)
      split
      · exact unexpected (.same _) fail
      · exact fail

/-- A query has a literal at least on both sides. -/
theorem query (h : τ.Follows g g') (oneLine : Bool) (stop : Token) :
    τ.InStep F N (Parse.query g oneLine stop) (Parse.query g' oneLine stop) fun M =>
      AlikeBodies M.pairs :=
  token fun _ => ite (rejectHere (.same _)) (h.literals oneLine stop .nil)

/-- A query in braces is in step as a query. -/
theorem body (h : τ.Follows g g') (stop : Token) :
    τ.InStep F N (Parse.body g stop) (Parse.body g' stop) fun M => AlikeBodies M.pairs :=
  nested (query h false stop)

end InStep

end Twins

end RegoSyntax
