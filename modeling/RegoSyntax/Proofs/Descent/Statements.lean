/-
# RegoSyntax.Proofs.Descent.Statements — the depth of the grammar is not felt.

A production asks for others behind its token, or for lower ones at it.  What is left of the source and the
rank of the production bound together how deep this can go (`Route.reach`), so a grammar that is followed
deeper than that reads no different from one that is followed deeper still.  Such a grammar satisfies its own
equations, and it is the only one that does.

Statements ask for nothing but productions from where they start, so they are read the same as well.
-/
import RegoSyntax.Proofs.Descent.Rules

namespace RegoSyntax

open Parse

namespace Route

variable {ρ : Route} {u v w : Reading} {g g' : Grammar} {n m k : Nat} {α β : Type}

/-! ## Depth

How many productions may be under way below one is bounded by the tokens that are left and by its rank.  A
grammar of that depth does what a deeper one does. -/

/-- A parser stands within the source. -/
theorem Seated.inside (h : ρ.Seated u) : u.look.offset ≤ ρ.source.utf8ByteSize := by
  obtain ⟨c, at', -⟩ := h.look
  rw [at'.offset]
  exact at'.starts.in.offset_le

/-- A bound on the productions that may be under way below one. -/
def reach (ρ : Route) (p : Production α) (u : Reading) : Nat :=
  Production.topRank * (ρ.source.utf8ByteSize - u.look.offset) + p.rank

/-- To go on to a later token, or to a lower production, is to reach less far. -/
theorem reach_lt {p : Production α} {q : Production β} (seated : ρ.Seated v)
    (below : u.look.offset < v.look.offset ∨ u.look.offset ≤ v.look.offset ∧ q.rank < p.rank) :
    ρ.reach q v < ρ.reach p u := by
  have inside := seated.inside
  have lower : q.rank < 11 := q.rank_lt
  simp only [reach, Production.topRank]
  omega

/-- The depth that a source is parsed with reaches far enough. -/
theorem reach_lt_depthFor (ρ : Route) (p : Production α) (u : Reading) :
    ρ.reach p u < depthFor ρ.source.utf8ByteSize := by
  have lower : p.rank < 11 := p.rank_lt
  simp only [reach, Production.topRank, depthFor, chainLength]
  omega

/-- Beyond what can be reached it makes no difference how deep the grammar is followed. -/
theorem grammar_coincides (p : Production α) (seated : ρ.Seated u) (due : p.Due u)
    (deep : ρ.reach p u < n) (deep' : ρ.reach p u < m) :
    ρ.Coincides (Parse.grammar n p) (Parse.grammar m p) u := by
  induction n generalizing m α u with
  | zero => exact absurd deep (Nat.not_lt_zero _)
  | succ n ih =>
      obtain ⟨m, rfl⟩ : ∃ m', m = m' + 1 := ⟨m - 1, by omega⟩
      refine rule_coincides (.grammar n) p seated due fun β q v there due' below => ?_
      have less : ρ.reach q v < ρ.reach p u := reach_lt there below
      exact ih q there due' (by omega) (by omega)

/-- A grammar that is followed deep enough satisfies its own equations. -/
theorem grammar_unfolds (p : Production α) (seated : ρ.Seated u) (due : p.Due u)
    (deep : ρ.reach p u < n) : ρ.Coincides (Parse.grammar n p) (Parse.rule (Parse.grammar n) p) u :=
  grammar_coincides p seated due deep (Nat.lt_succ_of_lt deep)

/-- No other grammar satisfies these equations. -/
theorem grammar_unique (fixed : ∀ ⦃β : Type⦄ (q : Production β) (v : Reading), ρ.Seated v → q.Due v →
      ρ.Coincides (g q) (Parse.rule g q) v)
    (deep : ∀ ⦃β : Type⦄ (q : Production β) (v : Reading), ρ.reach q v < n) (p : Production α)
    (seated : ρ.Seated u) (due : p.Due u) : ρ.Coincides (Parse.grammar n p) (g p) u := by
  induction h : ρ.reach p u using Nat.strong_induction_on generalizing α u with
  | h _ ih =>
      subst h
      have agree : ρ.Agree (Parse.grammar n) g u.look.offset p.rank := fun β q v there due' below =>
        ih _ (reach_lt there below) q there due' rfl
      have unfolded := grammar_unfolds p seated due (deep p u)
      have descended := rule_coincides (.grammar n) p seated due agree
      exact (unfolded.trans descended).trans (fixed p u seated due).symm

/-! ## Clauses

A clause starts with its keyword, and all that it asks for is behind that. -/

open Coincides

/-- Behind the keyword of a clause there is a path, unless the clause is none. -/
theorem clause_coincides {keyword : Token} {note : Note} {f f' : Bool → Parse α}
    (absent : f false = (do unexpected note; Parse.fail)) (absent' : f' false = (do unexpected note; Parse.fail))
    (path : ∀ w, ρ.Names keyword u w → ρ.Coincides (f true) (f' true) w) :
    ρ.Coincides (do clauseKeyword keyword; let b ← isIdent; f b)
      (do clauseKeyword keyword; let b ← isIdent; f' b) u := by
  unfold clauseKeyword
  rw [bind_bind_iff, token_iff]
  split
  · exact .failed
  next same =>
  have same : u.look.token = keyword := by simpa using same
  dsimp only
  rw [bind_bind_iff, scanBlank_iff, bind_bind_iff, token_iff]
  split
  · exact .failed
  next apart =>
  have apart : continuesRef (u.passing ρ.env false).look.token = false := by simpa using apart
  rw [scan_iff]
  unfold isIdent
  rw [bind_bind_iff, token_iff]
  -- the path starts with an identifier, or with a keyword that may stand for one
  split
  · next ident => exact path _ ⟨same, apart, .inl rfl, beq_iff_eq.1 ident⟩
  rw [bind_bind_iff, isRefKeyword_iff]
  split
  · next allowed =>
      rw [bind_bind_iff, asIdent_iff]
      exact path _ ⟨same, apart, .inr ⟨allowed, rfl⟩, rfl⟩
  · rw [pure_bind_iff, absent, absent']
    exact .refl

/-- A package asks for a term behind its keyword. -/
theorem package_coincides (agree : ρ.Agree g g' u.look.offset k) (seated : ρ.Seated u) :
    ρ.Coincides (Parse.package g) (Parse.package g') u := by
  unfold Parse.package
  rw [location_iff]
  refine clause_coincides rfl rfl fun w names => .before (.attempt ?_)
  exact agree.ahead .term (names.seated seated) trivial (names.strides seated (by decide))

theorem importPath_coincides (agree : ρ.Agree g g' n k) (seated : ρ.Seated w) (lt : n < w.look.offset) :
    ρ.Coincides (Parse.importPath g) (Parse.importPath g') w :=
  .before (.withKeywords _ (.attempt (agree.ahead .term (seated_narrowed seated) trivial lt)))

theorem importAlias_coincides (agree : ρ.Agree g g' n k) (seated : ρ.Seated u) (lt : n < u.look.offset) :
    ρ.Coincides (Parse.importAlias g) (Parse.importAlias g') u := by
  unfold Parse.importAlias
  rw [scan_iff, token_iff]
  split
  · exact .refl
  · exact .before (.attempt (agree.ahead .term (seated.passing true) trivial
      (lt.trans_le (le_passing seated true))))

section clauses

variable (h : Keeps g)

include h

/-- An import asks for its path and for its name, both behind its keyword. -/
theorem importStatement_coincides (agree : ρ.Agree g g' u.look.offset k) (seated : ρ.Seated u)
    (allowed : KeywordTable) :
    ρ.Coincides (Parse.importStatement g allowed) (Parse.importStatement g' allowed) u := by
  refine .before ?_
  unfold Parse.importClause
  rw [location_iff]
  refine clause_coincides rfl rfl fun w names => ?_
  have there := names.seated seated
  have lt : u.look.offset < w.look.offset := names.strides seated (by decide)
  refine .follow (importPath_coincides agree there lt) (importPath_yields h there) fun p v read => ?_
  obtain ⟨path, r⟩ := p
  obtain ⟨x, narrows, rfl⟩ := read
  have closed := seated_closed there narrows.goes.seated
  dsimp only
  split
  · exact .refl
  rw [token_iff]
  split
  · exact .before (importAlias_coincides agree closed (lt.trans narrows.strides))
  · exact .refl

/-! ## Statements

A statement is tried in three ways from where it stands, and each way asks for productions of a lower rank
there. -/

omit h in
/-- Of two attempts the second one starts where the first one did. -/
theorem orElse_coincides {x x' y y' : Parse α} {clear : Prop} {F : Reading → Prop}
    {Q : α → Reading → Prop} (first : ρ.Coincides x x' v) (yields : ρ.Yields clear x v F Q)
    (since : ∀ t, F t → t.failures = #[] → ρ.unbound.Leads u t)
    (second : ∀ t, F t → t.failures = #[] → ρ.Coincides y y' (u.resumed t)) :
    ρ.Coincides (Parse.orElse u.save x y) (Parse.orElse u.save x' y') v := by
  refine .attempt_follow first yields (fun t lost => ?_) fun a t _ => .refl
  rw [noFailures_iff]
  split
  · next none =>
      have none := Array.isEmpty_iff.1 none
      exact .restore_leads (since t lost none) (second t lost none)
  · exact .refl

theorem definitionStatement_coincides (carries : Carries g)
    (agree : ρ.Agree g g' u.look.offset Production.topRank) (seated : ρ.Seated u) (skipRules : Bool) :
    ρ.Coincides (Parse.definitionStatement g skipRules u.save)
      (Parse.definitionStatement g' skipRules u.save) u := by
  have query {t : Reading} (lost : ρ.Lost u t) :
      ρ.Coincides (Parse.queryStatement g) (Parse.queryStatement g') (u.resumed t) := by
    have there := seated.resumed (lost.seated seated)
    exact .before (Keeps.query_coincides (agree.since (Nat.le_refl _) (by decide)) there (Nat.le_refl _)
      true .eof)
  unfold Parse.definitionStatement
  split
  · exact query (.treads (.refl u))
  · have rules := Carries.rules_coincides h carries agree seated
    have yields : ρ.Yields (ρ.Clear u) (do return (← Parse.rules g).map Statement.rule) u (ρ.Lost u)
        fun _ _ => True :=
      Yields.bind (Carries.rules h carries seated) (fun _ => id) fun _ _ _ => .pure trivial
    exact orElse_coincides rules.before yields (fun t lost _ => lost.unbound) fun t lost _ => query lost

/-- A statement asks for nothing but productions from where it starts. -/
theorem statement_coincides (carries : Carries g) (proper : ρ.Proper g u)
    (agree : ρ.Agree g g' u.look.offset Production.topRank) (seated : ρ.Seated u) (skipRules : Bool)
    (allowed : KeywordTable) :
    ρ.Coincides (Parse.statement g skipRules allowed) (Parse.statement g' skipRules allowed) u := by
  have package : ρ.Yields (ρ.Clear u ∧ ρ.Calls .packageKw u) (do
      return [Statement.package (← Parse.package g)]) u (ρ.Stays .packageKw u) fun _ _ => True :=
    Yields.bind (package_yields h seated proper) (fun _ => id) fun _ _ _ => .pure trivial
  have importClause : ρ.Yields False (do
      return [Statement.importClause (← Parse.importStatement g allowed)]) u (ρ.Stays .importKw u)
        fun _ _ => True :=
    Yields.bind (importStatement_yields h seated allowed) (fun _ => id) fun _ _ _ => .pure trivial
  -- -- a clause that gave up without a failure took nothing: the next one is tried where it began
  have again {keyword : Token} {x y : Parse (List Statement)} (same : ρ.Coincides x y u) (t : Reading)
      (stays : ρ.Stays keyword u t) (clean : t.failures = #[]) : ρ.Coincides x y (u.resumed t) := by
    rwa [(stays.resumed clean).2]
  have since {keyword : Token} (t : Reading) (stays : ρ.Stays keyword u t) (clean : t.failures = #[]) :
      ρ.unbound.Leads u t := (stays.resumed clean).1
  unfold Parse.statement
  rw [save_iff]
  refine orElse_coincides (package_coincides agree seated).before package since (again ?_)
  refine orElse_coincides (importStatement_coincides h agree seated allowed).before importClause since
    (again ?_)
  exact definitionStatement_coincides h carries agree seated skipRules

end clauses

end Route

end RegoSyntax
