/-
# RegoSyntax.Proofs.Dialects.Paths — names and paths in front of all words that are reserved.

The path of a clause starts with a name, which both readings have taken for one.  Behind points it goes on with names,
and those may be words of the future: behind a point the newer reading takes a keyword for a name.  In brackets it goes
on with strings, behind which no operator stands, so it does not matter which words are operators.  Paths of other
kinds are left out (`Dialects.Plain`).
-/
import RegoSyntax.Proofs.Dialects.Early

namespace RegoSyntax

open Parse

/-- A token that is not the end stands in front of the one that a parser goes on to. -/
theorem Parse.Step.precedes {source : String} {env : Env} {b : Bool} {c d : Cursor} {l : Look} {t : ParseState}
    (step : Step source env b c d l t) (at' : l.At source c) (more : c.lexeme.kind ≠ .eof) : c.Precedes source d where
  before := at'.starts
  behind := step.at'.starts
  lt := (Cursor.offset_lt_skip fun none => more (Lexeme.next_kind_eof.2 none)).trans_le step.ahead
  gap := step.gap

namespace Dialects

variable {δ : Dialects} {n : Nat} {s s' t t' : ParseState} {g : Grammar} {α β : Type}

/-! ## Names

In front of all imports the older reading has no future word reserved, so a name there may be a word of
the newer one.  What both take for a name is read alike, since a variable is made of the text of a token
and not of its kind. -/

/-- The token is read as a variable, whatever is reserved. -/
theorem Early.variableHere (early : δ.Early s s') : ∃ v t t',
    Parse.variableHere.run δ.older δ.settings s = (some v, t) ∧
      Parse.variableHere.run δ.newer δ.settings s' = (some v, t') ∧
      δ.Early t t' ∧ t.look = s.look ∧ t.memo = s.memo ∧ v.value.isVar = true := by
  obtain ⟨c, beside⟩ := early.beside
  rw [run_variableHere, run_variableHere, beside.literal, beside.location, beside.offset, early.wildcards]
  split
  · exact ⟨_, _, _, rfl, rfl, { early with wildcards := rfl }, rfl, rfl, rfl⟩
  · exact ⟨_, _, _, rfl, rfl, early, rfl, rfl, rfl⟩

/-- Behind a name a term ends, or goes on as a reference. -/
theorem finish_eq (g : Grammar) (head : Term) (skipBlanks : Bool) : Parse.finish g head skipBlanks = (do
    let start ← offset
    Parse.advance skipBlanks
    let kind ← token
    if kind = .lparen ∨ kind = .dot ∨ kind = .lbrack then g (.reference head start)
    else do
      if kind == .whitespace then scan
      return if isRoot head.value then ⟨.ref [head], head.location⟩ else head) := by
  unfold Parse.finish
  refine bind_congr fun start => bind_congr fun _ => bind_congr fun kind => ?_
  cases kind <;> rfl

section names

variable {ends : Term → Look → Prop}

/-- A level deeper, and after any number of questions, early readings are so as well. -/
theorem Early.deeper (early : δ.Early s s') (j j' : List (Question × Bool)) :
    δ.Early { s.entered with journal := j } { s'.entered with journal := j' } :=
  { early with depth := congrArg (· + 1) early.depth }

/-- A term is read alike if it is so afresh, for it takes a token: what is remembered of it is then behind. -/
theorem trails_term {B : ParseState → ParseState → Prop} (sighted : δ.Sighted B) (keeps : Route.Keeps g)
    (early : δ.Early s s') (seated : δ.route.Seated s.toReading)
    (afresh : ∀ j j', δ.Trails ends (Parse.head g >>= fun t => Parse.finish g t false)
      (Parse.head g >>= fun t => Parse.finish g t false) { s.entered with journal := j }
        { s'.entered with journal := j' } fun _ => B) :
    δ.Trails ends (Parse.term g) (Parse.term g) s s' fun _ => B := by
  have strides : δ.route.Takes s.toReading (Parse.head g >>= fun t => Parse.finish g t false) s.toReading
      fun _ v => s.look.offset < v.look.offset :=
    .bind (.refl seated) (keeps.headHere seated) fun t v goes _ here => keeps.finish goes t false here.2
  have ahead (j : List (Question × Bool)) (a : Term) (t : ParseState)
      (run : (Parse.head g >>= fun t => Parse.finish g t false).run δ.older δ.settings { s.entered with journal := j } =
        (some a, t)) : s.look.offset < t.look.offset :=
    (goes_of_takes (s := { s.entered with journal := j }) strides run).2
  rw [Parse.term_eq]
  exact .nested sighted early (.recallingOr sighted (early.deeper _ _) ahead afresh)

end names

/-! ## Strings in brackets

A bracket in the path of a clause holds a string.  It is read as any term would be, through all tiers of
operators, so each of them is followed here: at a closing bracket they all find nothing. -/

/-- Readings that have come to a string behind which a bracket closes. -/
structure Quoted (δ : Dialects) (s s' : ParseState) : Prop extends δ.Early s s' where
  quotes : ∃ c, s.look.Beside δ.source c s'.look ∧ c.lexeme.kind = .string ∧
    ∀ e : Cursor, c.Precedes δ.source e → e.Significant → e.lexeme.kind = .rbrack

/-- Readings that have come to a closing bracket. -/
structure Closing (δ : Dialects) (s s' : ParseState) : Prop extends δ.Early s s' where
  bracket : s.look.token = .rbrack

theorem Closing.sighted : δ.Sighted δ.Closing :=
  ⟨(·.toEarly), fun closing early look _ => ⟨early, look ▸ closing.bracket⟩⟩

theorem Closing.bracket' (h : δ.Closing s s') : s'.look.token = .rbrack := (h.plain rfl).2 h.bracket

/-- Where no operator of a tier stands, none is applied. -/
theorem run_applied_none {tier : Tier} {left : Term} {start : Nat} {env : Env} {o : Settings}
    (other : tier.operators.contains s.look.token = false) :
    (Parse.applied g tier left start).run env o s = (none, s) := by
  unfold Parse.applied Parse.operator
  rw [run_bind, run_bind, run_token, andThen_some, if_neg (by rw [other]; decide)]
  rfl

/-- Behind a closing bracket there is no membership. -/
theorem run_no_member (g : Grammar) (keyed : Bool) (left : Term) (start : Nat) (env : Env) (o : Settings)
    (known : s.look.scanner.keywords.Known) (bracket : s.look.token = .rbrack) :
    (Parse.keyedMember? g keyed left start).run env o s = (some none, s) ∧
      Parse.startsRefWithKeyword.run env o s = (some false, s) ∧
        (Parse.member g left start).run env o s = (none, s) := by
  refine ⟨?_, ?_, ?_⟩
  · unfold Parse.keyedMember?
    cases keyed with
    | false => rfl
    | true => rw [run_bind, run_token, andThen_some, bracket]; rfl
  · rw [run_startsRefWithKeyword, if_neg]
    intro allowed
    have word := Env.word_of_allowsInRefs known allowed
    rw [bracket] at word
    revert word
    decide
  · unfold Parse.member Parse.memberOperator
    rw [run_bind, run_bind, run_token, andThen_some, bracket]
    rfl

namespace Quoted

variable {ends : Term → Look → Prop}

/-- A string is seen on both sides, or a fault in it is. -/
theorem token (h : δ.Quoted s s') : s'.look.token = s.look.token ∧
    (s.look.token = .string ∨ s.look.token = .illegal) := by
  obtain ⟨c, beside, string, -⟩ := h.quotes
  have left := beside.left.shows
  have right := beside.right.shows
  unfold Lexeme.Shows at left right
  rw [string] at left right
  by_cases faults : c.lexeme.faults ≠ []
  · rw [if_pos faults] at left right
    exact ⟨right.trans left.symm, .inr left⟩
  · rw [if_neg faults, if_neg (by decide)] at left right
    exact ⟨right.trans left.symm, .inl left⟩

/-- Behind a string that closes a bracket nothing goes on. -/
theorem finish (h : δ.Quoted s s') (head : Term) :
    δ.Trails ends (Parse.finish g head false) (Parse.finish g head false) s s' fun _ => δ.Closing := by
  obtain ⟨c, beside, string, closed⟩ := h.quotes
  obtain ⟨d, step⟩ := next_step δ.older false beside.left
  have precedes := step.precedes beside.left (by rw [string]; decide)
  have there := (h.advance false).1
  rw [finish_eq, Trails.offset_iff, Trails.advance_iff, Trails.token_iff, beside.offset]
  simp only [beq_iff_eq, there.plain (p := .lparen) rfl, there.plain (p := .dot) rfl, there.plain (p := .lbrack) rfl,
    there.plain (p := .whitespace) rfl]
  -- -- a blank behind the string is skipped on the way to the bracket
  by_cases blank : d.lexeme.kind = .whitespace
  · have token : (s.followedBy (Parse.next δ.older false s.look)).look.token = .whitespace :=
      (step.at'.shows.plain_iff rfl).2 blank
    obtain ⟨e, step'⟩ := next_step δ.older true step.at'
    have precedes' := step'.precedes step.at' (by rw [blank]; decide)
    have bracket : e.lexeme.kind = .rbrack := closed e
      ⟨precedes.before, precedes'.behind, precedes.lt.trans precedes'.lt, fun q starts after before => by
        rcases Nat.lt_trichotomy q.offset d.offset with lt | same | lt
        · exact precedes.gap q starts after lt
        · obtain rfl := starts.eq_of_offset precedes.behind same
          exact fun major => major.1 blank
        · exact precedes'.gap q starts lt before⟩ ⟨step'.blank rfl, step'.solid⟩
    simp only [token, reduceCtorEq, or_self, if_false, if_true, Trails.scan_iff]
    exact .pure fun _ => ⟨(there.advance true).1, (step'.at'.shows.plain_iff rfl).2 bracket⟩
  -- -- no blank there: the bracket is the very next token
  · have bracket : d.lexeme.kind = .rbrack := closed d precedes ⟨blank, step.solid⟩
    have token : (s.followedBy (Parse.next δ.older false s.look)).look.token = .rbrack :=
      (step.at'.shows.plain_iff rfl).2 bracket
    simp only [token, reduceCtorEq, or_self, if_false]
    exact .pure fun _ => ⟨there, token⟩

/-- A string is read alike. -/
theorem string (h : δ.Quoted s s') :
    δ.Trails (fun _ _ => True) Parse.string Parse.string s s' fun _ t t' => t = s ∧ t' = s' := by
  obtain ⟨c, beside, -⟩ := h.quotes
  have here (v : Value) :
      δ.Trails (fun _ _ => True) (Parse.here v) (Parse.here v) s s' fun _ t t' => t = s ∧ t' = s' := by
    unfold Parse.here
    rw [Trails.location_iff, beside.location]
    exact .pure fun _ => ⟨rfl, rfl⟩
  unfold Parse.string
  rw [Trails.look_iff, beside.literal]
  dsimp only
  split
  · rcases Parse.rawText? s.look.literal.toList with _ | raw
    · exact .of_fails rfl
    · exact here _
  split
  · exact here _
  split
  · exact here _
  · exact .failing

/-- A string is read alike as what a term starts with. -/
theorem head (h : δ.Quoted s s') :
    δ.Trails (fun _ _ => True) (Parse.head g) (Parse.head g) s s' fun _ => δ.Quoted := by
  unfold Parse.head
  obtain ⟨same, string | illegal⟩ := h.token
  · rw [Trails.token_iff, same, string]
    intro a t run _
    obtain ⟨t', run', rfl, rfl⟩ := h.string a t run trivial
    exact ⟨t', run', h⟩
  · refine .of_fails ?_
    rw [run_bind, run_token, andThen_some, illegal]
    exact run_bind_fails fun _ _ => rfl

variable {keyed : Bool} {start : Nat}

/-- A level deeper there is the same string. -/
theorem deeper (h : δ.Quoted s s') (j j' : List (Question × Bool)) :
    δ.Quoted { s.entered with journal := j } { s'.entered with journal := j' } :=
  { h.toEarly.deeper j j' with quotes := h.quotes }

/-- A string is read alike as a term. -/
theorem term (keeps : Route.Keeps g) (h : δ.Quoted s s') (seated : δ.route.Seated s.toReading) :
    δ.Trails ends (Parse.term g) (Parse.term g) s s' fun _ => δ.Closing :=
  trails_term Closing.sighted keeps h.toEarly seated fun j j' =>
    .next (h.deeper j j').head fun t _ _ _ there => there.finish t

/-- A string is read alike as an operation of each tier: no operator stands behind it. -/
theorem operation (depth : Nat) (tier : Tier) (h : δ.Quoted s s') (seated : δ.route.Seated s.toReading) :
    δ.Trails ends (Parse.grammar depth (.operation tier none start)) (Parse.grammar depth (.operation tier none start))
      s s' fun _ => δ.Closing := by
  -- on the depth to which the grammar is followed, which each tier takes a step of
  induction depth generalizing ends tier s s' with
  | zero => exact .of_fails rfl
  | succ depth ih =>
      refine .nested Closing.sighted h.toEarly ?_
      have operand : δ.Trails (fun _ _ => True) (Parse.operand (Parse.grammar depth) tier start)
          (Parse.operand (Parse.grammar depth) tier start) s.entered s'.entered fun _ => δ.Closing := by
        unfold Parse.operand
        split
        · exact ih _ (h.deeper _ _) seated
        · cases depth with
          | zero => exact .of_fails rfl
          | succ depth => exact (h.deeper _ _).term (.grammar depth) seated
      refine .next operand fun left u u' _ closing => ?_
      have bracket : tier.operators.contains .rbrack = false := by cases tier <;> decide
      intro a t run holds
      rw [run_bind, run_attempt, run_applied_none (by rw [closing.bracket, bracket]), andThen_some] at run
      rw [run_bind, run_attempt, run_applied_none (by rw [closing.bracket', bracket]), andThen_some]
      cases run
      exact ⟨u', rfl, closing⟩

/-- A string is read alike as a membership: its operator does not stand behind it. -/
theorem membership (depth : Nat) (h : δ.Quoted s s') (seated : δ.route.Seated s.toReading) :
    δ.Trails ends (Parse.grammar depth (.membership keyed none start))
      (Parse.grammar depth (.membership keyed none start)) s s' fun _ => δ.Closing := by
  cases depth with
  | zero => exact .of_fails rfl
  | succ depth =>
      refine .nested Closing.sighted h.toEarly (.next ((h.deeper _ _).operation depth .relation seated)
        fun left u u' _ closing => ?_)
      obtain ⟨c, beside⟩ := closing.beside
      intro a t run holds
      obtain ⟨comma, word, member⟩ := run_no_member (Parse.grammar depth) keyed left start δ.older δ.settings
        beside.left.known closing.bracket
      obtain ⟨comma', word', member'⟩ := run_no_member (Parse.grammar depth) keyed left start δ.newer δ.settings
        beside.right.known closing.bracket'
      rw [run_bind, comma, andThen_some] at run
      rw [run_bind, comma', andThen_some]
      dsimp only at run ⊢
      rw [run_bind, word, andThen_some, run_bind, run_attempt, member, andThen_some] at run
      rw [run_bind, word', andThen_some, run_bind, run_attempt, member', andThen_some]
      cases run
      exact ⟨u', rfl, closing⟩

/-- A string is read alike as a term with operators. -/
theorem compound (depth : Nat) (h : δ.Quoted s s') (seated : δ.route.Seated s.toReading) :
    δ.Trails ends (Parse.grammar depth (.compound keyed)) (Parse.grammar depth (.compound keyed)) s s'
      fun _ => δ.Closing := by
  cases depth with
  | zero => exact .of_fails rfl
  | succ depth =>
      obtain ⟨c, beside⟩ := h.beside
      refine .nested Closing.sighted h.toEarly ?_
      rw [Trails.offset_iff, show s'.entered.look.offset = s.entered.look.offset from beside.offset]
      exact (h.deeper _ _).membership depth seated

end Quoted

/-- Between two offsets no parenthesis opens, and each bracket that opens has nothing but a string in it. -/
structure Plain (source : String) (n m : Nat) : Prop where
  paren : ∀ c : Cursor, c.Starts source → n ≤ c.offset → c.offset < m → c.lexeme.kind ≠ .lparen
  bracket : ∀ c d : Cursor, c.Precedes source d → d.Significant → n ≤ c.offset → c.offset < m →
    c.lexeme.kind = .lbrack → d.lexeme.kind = .string ∧
      ∀ e : Cursor, d.Precedes source e → e.Significant → e.lexeme.kind = .rbrack

/-- Behind a bracket that opens in a plain path both readings come to a string that closes it. -/
theorem Early.quoted {m : Nat} (early : δ.Early s s') (opens : s.look.token = .lbrack)
    (plain : Plain δ.source n m) (since : n ≤ s.look.offset) (before : s.look.offset < m) :
    δ.Quoted (s.followedBy (Parse.next δ.older true s.look)) (s'.followedBy (Parse.next δ.newer true s'.look)) := by
  obtain ⟨c, beside⟩ := early.beside
  obtain ⟨d, step⟩ := next_step δ.older true beside.left
  have there := (early.advance true).1
  obtain ⟨d', beside'⟩ := there.beside
  obtain rfl := step.at'.unique beside'.left
  have bracket : c.lexeme.kind = .lbrack := (beside.left.shows.plain_iff rfl).1 opens
  have precedes := step.precedes beside.left (by rw [bracket]; decide)
  obtain ⟨string, closed⟩ := plain.bracket c d precedes ⟨step.blank rfl, step.solid⟩ (beside.left.offset ▸ since)
    (beside.left.offset ▸ before) bracket
  exact { there with quotes := ⟨d, beside', string, closed⟩ }

end Dialects

end RegoSyntax
