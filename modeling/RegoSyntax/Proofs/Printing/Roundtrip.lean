/-
# RegoSyntax.Proofs.Printing.Roundtrip — the text of an expression is a source of that expression.

What is read from a source is formed of words that are not reserved, so where all nodes of an expression are
printable, the expression is read back from its text wherever its text may stand.  A source that is nothing
but that text has a single statement, which is a query of that one expression.
-/
import RegoSyntax.Fragment
import RegoSyntax.Proofs.Printing.Echoes
import RegoSyntax.Proofs.Printing.Queries

namespace RegoSyntax

open Parse Lexeme
open Page (Given)

/-! ## Fragments under options

A fragment is read as a source under options, and the expression is the single one of its single query. -/

namespace Fragment

/-- The query that a source is under options. -/
def bodyUnder (o : Options) (source : String) : Checked Body := do
  let (read, _) ← (parseSyntax source "" o).checked
  match ← literals read with
  | [] => reject .noBody
  | es => return .ofList es

/-- The expression that a source is under options. -/
def exprUnder (o : Options) (source : String) : Checked Expr := do
  match ← bodyUnder o source with
  | [e] => return e
  | b => reject (.notOneExpr b)

/-- The literals of statements that are all queries are the expressions of the queries. -/
theorem literals_ok {ss : List Statement} {es : List Expr} (h : literals ss = .ok es) :
    (∀ s ∈ ss, s.isQuery = true) ∧ ∀ e ∈ es, ∃ b, .body b ∈ ss ∧ e ∈ b := by
  induction ss generalizing es with
  | nil =>
      obtain rfl := Except.ok.inj h
      exact ⟨List.forall_mem_nil _, List.forall_mem_nil _⟩
  | cons s ss ih =>
      cases s with
      | body b =>
          obtain ⟨es', rest, h⟩ := Except.ok_of_bind h
          obtain rfl := Except.ok.inj h
          obtain ⟨queries, inside⟩ := ih rest
          refine ⟨List.forall_mem_cons.2 ⟨rfl, queries⟩, fun e he => ?_⟩
          rcases List.mem_append.1 he with he | he
          · exact ⟨b, List.mem_cons_self, he⟩
          · obtain ⟨c, hc, he⟩ := inside e he
            exact ⟨c, List.mem_cons_of_mem _ hc, he⟩
      | _ => cases h

/-- A source that is an expression has been read without an error, and its statements are queries that have
that expression. -/
theorem exprUnder_ok {o : Options} {source : String} {e : Expr} (h : exprUnder o source = .ok e) :
    (parseSyntax source "" o).errors = [] ∧
      (∀ s ∈ (parseSyntax source "" o).statements, s.isQuery = true) ∧
      ∃ b f, .body b ∈ (parseSyntax source "" o).statements ∧ f ∈ b ∧ e = { f with index := 0 } := by
  -- -- the answer is the single literal of the single query, renumbered
  obtain ⟨b, body, single⟩ := Except.ok_of_bind h
  obtain ⟨⟨ss, comments⟩, checked, body⟩ := Except.ok_of_bind body
  obtain ⟨es, listed, numbered⟩ := Except.ok_of_bind body
  have clean : (parseSyntax source "" o).errors = [] ∧ (parseSyntax source "" o).statements = ss := by
    unfold Parsed.checked at checked
    split at checked
    · cases checked
    · next none =>
        have statements := (Prod.mk.inj (Except.ok.inj checked)).1
        exact ⟨by simpa [Parsed.hasErrors] using none, statements⟩
  obtain ⟨none, rfl⟩ := clean
  obtain ⟨queries, inside⟩ := literals_ok listed
  refine ⟨none, queries, ?_⟩
  split at numbered
  · cases numbered
  obtain rfl := Except.ok.inj numbered
  split at single
  -- -- of the lists only the one with a single literal gives an answer
  · next e' one =>
      obtain rfl := Except.ok.inj single
      rcases es with _ | ⟨f, _ | _⟩
      · cases one
      · obtain ⟨b, listed, mem⟩ := inside f List.mem_cons_self
        exact ⟨b, f, listed, mem, (List.cons.inj one).1.symm⟩
      · cases one
  · cases single

/-- A source that is read as a query of one expression is that expression. -/
theorem exprUnder_of_body {o : Options} {source : String} {e : Expr}
    (clean : (parseSyntax source "" o).errors = [])
    (statements : (parseSyntax source "" o).statements = [.body [e]]) :
    exprUnder o source = .ok { e with index := 0 } := by
  unfold exprUnder bodyUnder Parsed.checked Parsed.hasErrors
  rw [clean, statements]
  rfl

end Fragment

/-! ## The text of an expression as a source

The text of an expression starts with no keyword of a clause, so the statement is a query; what is behind
it is the end of the source. -/

namespace Page

variable {p : Page} {u : Reading} {α β : Type} {Q : Option β → Reading → Prop}

/-- Where the first reading fails without an error, the second one counts. -/
theorem runs_orElse {x y : Parse β} {start : Snapshot}
    (first : p.Runs x u fun a v => a = none ∧ v.failures = #[] ∧ p.Runs y (v.restore start) Q) :
    p.Runs (orElse start x y) u Q := by
  unfold orElse
  refine gives_bind (runs_attempt (first.imp fun a v holds => ⟨a, rfl, holds⟩)) fun a v holds => ?_
  obtain ⟨rfl, clean, second⟩ := holds
  dsimp only
  rw [noFailures_iff, clean]
  exact restore_iff.2 second

/-- There is no clause where its keyword does not stand. -/
theorem runs_clause {keyword : Token} {f : Unit → Parse β} (other : u.look.token ≠ keyword) :
    p.Runs (clauseKeyword keyword >>= f) u fun a v => a = none ∧ v = u := by
  have other : (u.look.token != keyword) = true := bne_iff_ne.2 other
  unfold clauseKeyword
  rw [bind_bind_iff, token_iff, if_pos other]
  exact runs_fail ⟨rfl, rfl⟩

/-- A statement that starts with a keyword is passed over where that does not stand. -/
theorem runs_orElse_clause {s : List Char} {x : Parse α} {wrap : α → β} {y : Parse (List β)}
    {Q : Option (List β) → Reading → Prop} (here : p.Here s u)
    (missing : p.Runs x u fun a v => a = none ∧ v = u) (second : p.Runs y u Q) :
    p.Runs (orElse u.save (do return [wrap (← x)]) y) u Q := by
  refine runs_orElse (runs_bind missing (fun v holds => ?_) fun a v holds => nomatch holds.1)
  obtain ⟨-, rfl⟩ := holds
  exact ⟨rfl, here.clean, v.restore_save.symm ▸ second⟩

/-- The text of an expression starts with a token of a literal. -/
theorem Here.opens {e : Expr} (here : p.Here e.text u) (back : e.Back p) : u.look.token ∈ literalTokens := by
  have listed := (back.first [] .atEnd).2
  rw [List.append_nil] at listed
  rcases here.token with token | ⟨-, token⟩
  · exact token ▸ listed
  · rw [token]
    decide

/-- Literals are a statement where no clause starts. -/
theorem runs_statement {s : List Char} {n : Nat} {P : Body → Prop} (here : p.Here s u)
    (opens : ∀ kind ∈ [Token.packageKw, .importKw, .eof], u.look.token ≠ kind)
    (literals : p.Runs (grammar n (.literals true .eof [])) u (Given fun b v => P b ∧ p.Here [] v))
    (allowed : KeywordTable) :
    p.Runs (statement (grammar n) true allowed) u (Given fun ss v =>
      (∃ b, ss = [.body b] ∧ P b) ∧ p.Here [] v) := by
  have noPackage : p.Runs (package (grammar n)) u fun a v => a = none ∧ v = u :=
    location_iff.2 (runs_clause (opens _ (by decide)))
  have noImport : p.Runs (importStatement (grammar n) allowed) u fun a v => a = none ∧ v = u := by
    refine runs_bind (location_iff.2 (runs_clause (opens _ (by decide)))) (fun _ => id) ?_
    exact fun _ _ holds => nomatch holds.1
  unfold statement
  rw [save_iff]
  refine runs_orElse_clause here noPackage (runs_orElse_clause here noImport ?_)
  unfold definitionStatement queryStatement query
  rw [if_pos rfl, bind_bind_iff, token_iff, beq_eq_false_iff_ne.2 (opens _ (by decide))]
  exact gives_bind literals fun b v ⟨holds, there⟩ => gives_pure ⟨⟨b, rfl, holds⟩, there⟩

end Page

/-! ## Tasks without a ceiling

The task may have any words allowed and any file, and its depth comes from the length of its text, so it
is enough for the text. -/

/-- A text that starts with a legal token has no mark in front. -/
theorem Lexeme.Legal.start_rest {s : List Char} (legal : Legal s) : (Cursor.start s).rest = s := by
  unfold Cursor.start
  split
  · exact absurd legal.faults nofun
  · exact Cursor.arrive_rest _

/-- Where nothing is left, a run is at its end. -/
theorem Run.finish_atEnd {t : Task} {r : Run} (ended : r.atEnd = true) (fuel : Nat) :
    r.finish t fuel = r := by
  cases fuel with
  | zero => rfl
  | succ fuel =>
      rw [Run.finish, Run.step, if_pos ended]
      rfl

/-- A run that reads all there is with its first statement. -/
theorem Task.run_single {t : Task} {ss : List Statement} {s : ParseState}
    (begins : (Run.start t).atEnd = false)
    (run : t.statement.run t.env t.settings t.start = (some ss, s)) (ended : s.look.token = .eof) :
    t.run = ⟨ss, s⟩ := by
  have step : (Run.start t).step t = (⟨ss, s⟩, true) := by
    rw [Run.step, begins, Run.start, run]
    rfl
  rw [Task.run, Run.finish, step]
  exact Run.finish_atEnd (beq_iff_eq.2 ended) _

/-- There is enough depth for the text of a task. -/
theorem Task.deep (t : Task) : Deep (depthFor t.source.utf8ByteSize) t.source.toList 10 := by
  have enough : t.source.toList.length ≤ t.source.utf8ByteSize := by
    rw [← String.utf8Len_toList]
    exact Cursor.length_le_utf8Len _
  unfold Deep depthFor chainLength
  omega

/-- A task to read queries in the current dialect, without a ceiling. -/
structure Task.Current (t : Task) : Prop where
  version : t.env.version = .v1
  capabilities : t.env.capabilities = .ofVersion .v1
  words : KeywordTable.base.extend t.words.selected = .current
  allowed : t.words.allowed.Known
  selected : t.words.selected.Known
  skips : t.skipRules = true
  free : t.settings.maxDepth = 0

namespace Task.Current

variable {t : Task} (h : t.Current)
include h

/-- The text of a task. -/
def page : Page := ⟨t.source, t.env, h.version, h.capabilities⟩

/-- A text that starts with a legal token is read from there. -/
theorem start_here (legal : Legal t.source.toList) : h.page.Here t.source.toList t.start.toReading := by
  obtain ⟨c, walk, start⟩ := Task.start_walk h.selected
  have reserved := Task.start_words walk h.words
  have rest := legal.start_rest
  have first : (Cursor.start t.source.toList).lexeme = next t.source.toList := by
    rw [Cursor.lexeme, rest]
  obtain rfl : c = Cursor.start t.source.toList :=
    walk.rests (first ▸ legal.solid) fun _ => first ▸ legal.filled
  rw [start]
  refine ⟨⟨⟨_, walk.at', rest⟩, .inl ?_, reserved, ?_⟩, List.forall_mem_nil _⟩
  · rw [walk.exact, reserved, Cursor.shown, first, rest]
    rfl
  · have clean := walk.clean fun d hd from' upTo => by
      rw [hd.eq_of_offset (Cursor.starts_first _) (Nat.le_antisymm upTo from')]
      exact first ▸ legal.faults
    show #[] ++ _ = #[]
    rw [clean]
    rfl

/-- A source whose text is read as literals to its end has one statement, which is the query of these. -/
theorem run_query {P : Body → Prop} (legal : Legal t.source.toList)
    (opens : ∀ kind ∈ [Token.packageKw, .importKw, .eof], t.start.look.token ≠ kind)
    (literals : h.page.Runs (Parse.grammar (depthFor t.source.utf8ByteSize) (.literals true .eof []))
      t.start.toReading (Given fun b v => P b ∧ h.page.Here [] v)) :
    ∃ b, t.run.statements = [.body b] ∧ P b ∧ t.run.state.failures = #[] := by
  have begins : (Run.start t).atEnd = false := beq_eq_false_iff_ne.2 (opens _ (by decide))
  have runs := Page.runs_statement (h.start_here legal) opens literals t.words.allowed t.settings
    t.start.depth t.start.journal h.free
  have statement : t.statement = Parse.statement (Parse.grammar (depthFor t.source.utf8ByteSize)) true
      t.words.allowed := by
    rw [Task.statement, h.skips, Task.grammar]
  rw [← statement, show h.page.env = t.env from rfl] at runs
  rcases result : t.statement.run t.env t.settings t.start with ⟨a, s⟩
  rw [result] at runs
  obtain ⟨ss, rfl, ⟨b, rfl, holds⟩, there⟩ := runs
  have single := Task.run_single begins result (there.token_eq rfl nofun)
  rw [single]
  exact ⟨b, rfl, holds, there.clean⟩

/-- A source that is the text of an expression has one statement, which is a query of that expression. -/
theorem run_printed {e : Expr} (text : t.source.toList = e.text) (printed : e.Printed) :
    ∃ e', t.run.statements = [.body [e']] ∧ e.same e' = true ∧ t.run.state.failures = #[] := by
  have back := printed.back h.page
  have legal : Legal t.source.toList := by
    have first := (back.first [] .atEnd).1
    rwa [List.append_nil, ← text] at first
  have here : h.page.Here e.text t.start.toReading := text ▸ h.start_here legal
  have other : ∀ kind ∈ [Token.packageKw, .importKw, .eof], t.start.look.token ≠ kind :=
    fun kind listed same => by
      have unlisted : ∀ kind ∈ [Token.packageKw, .importKw, .eof], kind ∉ literalTokens := by decide
      exact unlisted kind listed (same ▸ here.opens back)
  have alone : e.text ++ (more ';' Expr.text [] ++ []) = e.text := by simp
  have literals : h.page.Runs (Parse.grammar (depthFor t.source.utf8ByteSize) (.literals true .eof []))
      t.start.toReading (Given fun es v => sameBodies ([] ++ [e]) es = true ∧ h.page.Here (past []) v) :=
    Page.runs_literals back (List.forall_mem_nil _) .atEnd rfl nofun (by rw [sameBodies])
      (alone.symm ▸ here) (alone.symm ▸ text ▸ t.deep)
  obtain ⟨b, statements, same, clean⟩ := h.run_query legal other literals
  rcases b with _ | ⟨e', _ | _⟩
  · simp [sameBodies] at same
  · exact ⟨e', statements, by simpa [sameBodies] using same, clean⟩
  · simp [sameBodies] at same

end Task.Current

/-! ## The text of an expression that has been read

What was read under any options is formed of words, which the current dialect does not reserve; that is
what printing relies on. -/

namespace Fragment

/-- Queries of the current dialect, without a ceiling. -/
def unbounded : Options := { version := some .v1, skipRules := true, maxDepth := 0 }

/-- The options fit together. -/
theorem unbounded_negotiate : unbounded.negotiate = .ok ⟨.future, .future⟩ := rfl

/-- The task of reading a source as queries of the current dialect. -/
def task (source : String) : Task := .new source "" unbounded ⟨.future, .future⟩

theorem task_current (source : String) : (task source).Current where
  version := rfl
  capabilities := rfl
  words := rfl
  allowed := KeywordTable.known_future
  selected := KeywordTable.known_future
  skips := rfl
  free := rfl

theorem parseSyntax_unbounded (source : String) :
    parseSyntax source "" unbounded = .ofRun source (task source).run := by
  rw [parseSyntax, unbounded_negotiate]
  rfl

/-- An expression that has been read is formed of words that are not reserved. -/
theorem whole_of_read {source : String} {e : Expr} (read : exprUnder unbounded source = .ok e) :
    e.Whole Unreserved := by
  have current := task_current source
  obtain ⟨clean, queries, b, f, listed, mem, rfl⟩ := exprUnder_ok read
  rw [parseSyntax_unbounded] at clean queries listed
  have clean : (task source).run.state.failures = #[] :=
    Array.toList_eq_nil_iff.1 (List.map_eq_nil_iff.1 clean)
  have formed := Task.run_asks current.skips current.allowed current.selected current.words clean queries
  have whole := (Body.whole_iff.1 (formed _ listed)).2.2 f mem
  obtain ⟨self, terms, withs⟩ := Expr.whole_iff.1 whole
  exact Expr.whole_iff.2 ⟨⟨self.terms, self.sign, self.withs, self.bare⟩, terms, withs⟩

end Fragment

/-- The text of an expression is a source of that expression: what has been read in the current dialect, and
has no wildcards, no paths that a reserved word heads and no calls of what a call makes, is read back from
its text. -/
theorem parse_printed (source : String) (e : Expr)
    (read : Fragment.exprUnder Fragment.unbounded source = .ok e)
    (printable : ∀ n ∈ e.walk, n.isPrintable = true) :
    ∃ e', Fragment.exprUnder Fragment.unbounded e.render = .ok e' ∧ e.same e' = true := by
  have printed : e.Printed := fun n hn => ⟨Fragment.whole_of_read read n hn, printable n hn⟩
  obtain ⟨e', statements, same, clean⟩ :=
    (Fragment.task_current e.render).run_printed (e := e) rfl printed
  refine ⟨_, Fragment.exprUnder_of_body (e := e') ?_ ?_, Expr.same_index same 0⟩
  · rw [Fragment.parseSyntax_unbounded, Parsed.ofRun, clean]
    rfl
  · rw [Fragment.parseSyntax_unbounded]
    exact statements

/-- A negated call with a replacement, of a path and an object with a comprehension in it. -/
theorem printed_query :
    ∃ e, Fragment.exprUnder Fragment.unbounded
        "not f(a.b[1], \x7b\"k\": [x | x = 1e3]\x7d) with input.y as `z`" = .ok e ∧
      (∀ n ∈ e.walk, n.isPrintable = true) ∧
      ∃ e', Fragment.exprUnder Fragment.unbounded e.render = .ok e' ∧ e.same e' = true := by
  have read : (match Fragment.exprUnder Fragment.unbounded
      "not f(a.b[1], \x7b\"k\": [x | x = 1e3]\x7d) with input.y as `z`" with
      | .ok e => e.walk.all (·.isPrintable)
      | .error _ => false) = true := by
    decide +kernel
  split at read
  · next e given =>
      have printable := List.all_eq_true.1 read
      exact ⟨e, given, printable, parse_printed _ e given printable⟩
  · cases read

end RegoSyntax
