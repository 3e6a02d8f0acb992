/-
# RegoSyntax.Proofs.Visits — the readings that a parse comes through.

A parser goes on, looks ahead and returns, takes up again what it remembers, remembers what it has read, and
reads for a while with other words reserved.  The readings that this makes of the first one are those that a
parse visits (`Task.Visits`).  Among them are those that the runs of a task stand in between two statements
(`Task.Reaches.visits`) and those that productions lead to, with a result or without
(`Task.Visits.production`).

In all of them the way to the token is kept (`Task.Visits.kept`), and so it is in all that they remember.
-/
import RegoSyntax.Proofs.Moves.Boundaries
import RegoSyntax.Proofs.Trail

namespace RegoSyntax

open Parse

/-- What a production relies on where it is read. -/
def Production.Relies : {α : Type} → Production α → Reading → Prop
  | _, .alternative _, u => u.look.token = .elseKw
  | _, p, u => p.Poised u

namespace Task

variable {t : Task} {u v : Reading} {r : Run} {ss : List Statement}

/-! ## Visits -/

/-- The readings that a parse comes through. -/
inductive Visits (t : Task) : Reading → Prop
  /-- at the first token -/
  | start : Visits t t.start.toReading
  /-- on to the next token, or to the blank before it -/
  | pass {u : Reading} (skipBlanks : Bool) : Visits t u → Visits t (u.passing t.env skipBlanks)
  /-- back to where the parser has been: what has been remembered since is not forgotten -/
  | back {u v : Reading} : Visits t u → Visits t v → Visits t (u.resumed v)
  /-- with other errors, comments, advice or names of wildcards -/
  | aside {u v : Reading} : Visits t u → Route.Same u v → Visits t v
  /-- at a keyword that is taken for an identifier -/
  | ident {u : Reading} : Visits t u →
      t.env.allowsInRefs u.look.scanner.keywords u.look.token.name = true →
      Visits t { u with look := { u.look with token := .ident } }
  /-- with what has been read from an earlier token remembered -/
  | remember {u v : Reading} (term : Option Term) : Visits t u → Visits t v →
      u.look.offset ≤ v.look.offset →
      (term.isSome → u.look.token ≠ .whitespace ∧ u.look.offset < v.look.offset) →
      Visits t (u.remembering v term)
  /-- behind what is remembered from here -/
  | replay {u : Reading} {e : MemoEntry} : Visits t u → e ∈ u.memo.entries → e.offset = u.look.offset →
      Visits t (u.recalling e)
  /-- with other words reserved -/
  | reserve {u : Reading} {table : KeywordTable} : Visits t u → table.Known →
      Visits t { u with look := { u.look with scanner := { u.look.scanner with keywords := table } } }
  /-- in a parser that remembers nothing yet -/
  | forget {u : Reading} : Visits t u → Visits t { u with memo := .empty }
  /-- behind such a parser, with what had been remembered before -/
  | regain {u v : Reading} : Visits t u → Visits t v → Visits t { v with memo := u.memo }

/-- In a reading the way to its token is kept, and what is remembered leads on along ways that were kept. -/
structure Fares (t : Task) (u : Reading) : Prop where
  look : ∃ c, u.look.Kept t.source t.env.file c
  memo : ∀ e ∈ u.memo.entries, t.route.Sits e ∧ ∃ c, e.after.Kept t.source t.env.file c

theorem Fares.seated (h : t.Fares u) : t.route.Seated u := by
  obtain ⟨c, kept⟩ := h.look
  exact ⟨⟨c, kept.at', kept.solid⟩, fun e he => (h.memo e he).1⟩

/-- The way to the first token. -/
theorem fares_start (known : t.words.selected.Known) : t.Fares t.start.toReading := by
  have before : (leave t.opening.look).Before t.source (Cursor.start t.source.toList) :=
    { starts := Cursor.starts_first t.source, text := rfl, cursor := rfl
      known := KeywordTable.known_base.extend known, last := Cursor.lastStop_first t.source }
  obtain ⟨c, walk, start⟩ := start_walk known
  have starts := walk.at'.starts
  have lastStop : (next t.env true t.opening.look).look.lastStop = 0 := walk.lastStop
  -- all tokens are behind the first one
  have ahead {d : Cursor} (there : d.Starts t.source) : (Cursor.start t.source.toList).offset ≤ d.offset := by
    obtain ⟨k, rfl⟩ := there
    exact Cursor.nth_offset_le t.source (Nat.zero_le k)
  have breaks : Cursor.Breaks t.source (Cursor.start t.source.toList).offset c ↔ Cursor.Breaks t.source 0 c := by
    constructor
    · rintro ⟨d, there, newline, -, upTo⟩
      exact ⟨d, there, newline, Nat.zero_le _, upTo⟩
    · rintro ⟨d, there, newline, -, upTo⟩
      exact ⟨d, there, newline, ahead there, upTo⟩
  have newline := next_newline t.env before walk.at'
  rw [start]
  refine ⟨⟨c, walk.at', walk.solid, walk.place, fun _ => ?_, fun _ => ?_⟩, List.forall_mem_nil _⟩
  · show Cursor.Last t.source c (next t.env true t.opening.look).look.lastStop
    rw [lastStop]
    exact .first walk.gap
  · show (next t.env true t.opening.look).look.skippedNewline = true ↔
      Cursor.Breaks t.source (next t.env true t.opening.look).look.lastStop c
    rw [lastStop, newline, breaks]
    exact or_iff_right Bool.false_ne_true

namespace Visits

/-- Nothing that a parser does loses the way. -/
theorem fares (h : t.Visits u) (known : t.words.selected.Known) : t.Fares u := by
  -- -- every way to a visit keeps the look on its cursor and each entry on its own
  induction h with
  | start => exact fares_start known
  | pass b _ ih =>
      obtain ⟨c, kept⟩ := ih.look
      exact ⟨kept.next rfl b, ih.memo⟩
  | back _ _ ih ih' => exact ⟨ih.look, ih'.memo⟩
  | aside _ same ih =>
      obtain ⟨c, kept⟩ := ih.look
      obtain ⟨hints, look⟩ := same.look
      exact ⟨⟨c, look ▸ kept.hints hints⟩, same.memo ▸ ih.memo⟩
  | ident _ allowed ih =>
      obtain ⟨c, kept⟩ := ih.look
      exact ⟨⟨c, kept.ident allowed⟩, ih.memo⟩
  | remember term _ _ ahead strides ih ih' =>
      refine ⟨ih'.look, fun e he => ?_⟩
      -- -- the new entry leads from one visit to another; the old ones are kept
      rcases Memo.mem_push he with rfl | old
      · exact ⟨⟨ih.seated.look, ih'.seated.look, ahead, fun given => (strides given).1,
          fun given => (strides given).2⟩, ih'.look⟩
      · exact ih'.memo e old
  | replay _ he _ ih => exact ⟨(ih.memo _ he).2, ih.memo⟩
  | reserve _ there ih =>
      obtain ⟨c, kept⟩ := ih.look
      exact ⟨⟨c, kept.words there⟩, ih.memo⟩
  | forget _ ih => exact ⟨ih.look, List.forall_mem_nil _⟩
  | regain _ _ ih ih' => exact ⟨ih'.look, ih.memo⟩

theorem seated (h : t.Visits u) (known : t.words.selected.Known) : t.route.Seated u := (h.fares known).seated

/-- What a parser keeps tells of the source wherever it is not at a blank or at the end. -/
theorem tells (h : t.Visits u) (known : t.words.selected.Known) (white : u.look.token ≠ .whitespace)
    (more : u.look.token ≠ .eof) : u.look.Tells t.source t.env.file := by
  obtain ⟨c, kept⟩ := (h.fares known).look
  exact kept.tells white more

/-! ## What is visited -/

/-- What moves lead to is visited. -/
theorem leads (h : t.Visits u) (known : t.words.selected.Known) (leads : t.route.unbound.Leads u v) :
    t.Visits v := by
  induction leads with
  | refl => exact h
  | trans _ _ first second => exact second (first h)
  | pass b => exact h.pass b
  | point => exact h.pass true
  | segment => exact (h.pass false).pass false
  | astray b => exact (h.pass b).aside (.reporting _ _ _)
  | report => exact h.aside (.reporting _ _ _)
  | hint hints => exact h.aside ⟨rfl, hints, rfl⟩
  | ident allowed _ => exact h.ident allowed
  | draw => exact h.aside ⟨rfl, _, rfl⟩
  | resume _ ih => exact h.back (ih h)
  | remember term leads strides ih =>
      exact .remember term h (ih h) (leads.ahead (Route.seated_unbound (h.seated known))) strides
  | recollect he here => exact h.replay he here

variable (h : t.Visits u) (known : t.words.selected.Known)

include h known

theorem goes (goes : t.route.Goes u v) : t.Visits v := h.leads known goes.leads.unbound

theorem treads (treads : t.route.Treads u v) : t.Visits v := h.leads known treads.unbound

theorem lost (lost : t.route.Lost u v) : t.Visits v := h.leads known lost.unbound

/-- Every production that may be read from a reading that is visited leads to one. -/
theorem production {α : Type} {p : Production α} (ready : p.Relies u) (n : Nat) (o : Settings) (depth : Nat)
    (journal : List (Question × Bool)) :
    t.Visits ((Parse.grammar n p).run t.env o ⟨u, depth, journal⟩).2.toReading := by
  have seated := h.seated known
  have query (inQuery : p.inQuery = true) (poised : p.Poised u) :
      t.Visits ((Parse.grammar n p).run t.env o ⟨u, depth, journal⟩).2.toReading :=
    h.goes known (Route.Keeps.grammar n t.route p u inQuery seated poised o depth journal).1
  -- a production of rules may end in a body that could not be read
  have rules (follows : t.route.Follows u (Parse.grammar n p) u) :
      t.Visits ((Parse.grammar n p).run t.env o ⟨u, depth, journal⟩).2.toReading := by
    obtain ⟨lost, walks, -⟩ := follows o depth journal
    rcases result : ((Parse.grammar n p).run t.env o ⟨u, depth, journal⟩).1 with _ | a
    · exact h.lost known (lost result)
    · exact h.treads known (walks a result).treads
  have carries := Route.Carries.grammar n
  cases p with
  | alternative head => exact rules (carries.alternative t.route u head seated ready)
  | siblings first read => exact rules (carries.siblings t.route u first read seated)
  | _ => exact query rfl ready

/-- So does every statement. -/
theorem arrives (arrives : t.route.Arrives t.words.allowed u ss v) (allowed : t.words.allowed.Known) :
    t.Visits v := by
  -- the path of a clause starts behind its keyword
  have path {keyword : Token} {w : Reading} (names : t.route.Names keyword u w) : t.Visits w := by
    have behind : t.Visits ((u.passing t.route.env false).passing t.route.env true) := (h.pass false).pass true
    rcases names.path with there | ⟨allowed, there⟩
    · rw [there]
      exact behind
    · rw [there]
      exact .ident behind allowed
  -- it is read with no word of the future reserved
  have narrow {keyword : Token} {w x : Reading} (names : t.route.Names keyword u w)
      (narrows : t.route.Narrows w x) : t.Visits (Route.Takes.Closed w x) := by
    have there := path names
    have reserved := (there.seated known).look
    obtain ⟨c, at', -⟩ := reserved
    have inside : t.Visits (Route.Narrowed w) := (there.reserve (at'.known.removeAll .future)).forget
    exact .regain there ((inside.goes known narrows.goes).reserve at'.known)
  cases arrives with
  | package names goes _ => exact (path names).goes known goes
  | @imports i w imports =>
      obtain ⟨memo, -, hints, look⟩ := i.applied_same t.env t.words.allowed w
      have there : t.Visits w := by
        cases imports with
        | plain names narrows same => exact (narrow names narrows).aside same
        | renamed names narrows renames => exact ((narrow names narrows).pass true).goes known renames.goes
      obtain ⟨c, at', -⟩ := (there.seated known).look
      exact (there.reserve (i.known_reserving t.env allowed at'.known)).aside ⟨memo, hints, look⟩
  | rules walks _ => exact h.treads known walks.treads
  | query lost _ goes _ => exact (h.back (h.lost known lost)).goes known goes

end Visits

/-- The runs of a task stand between two statements where its parse comes through. -/
theorem Reaches.visits (h : t.Reaches r) (allowed : t.words.allowed.Known) (selected : t.words.selected.Known) :
    t.Visits r.state.toReading := by
  induction h with
  | start => exact .start
  | step before more ih =>
      obtain ⟨ss, -, arrives⟩ := step_arrives (before.sound allowed selected) (ih.seated selected) more
      exact ih.arrives selected arrives allowed

end Task

end RegoSyntax
