/-
# RegoSyntax.Proofs.Separators — what stands between two literals.

Behind a literal that is not the last one of its body the parser goes on where it finds a semicolon, or where
it remembers that a line break was skipped.  What it remembers is so of the source unless it stands at a blank
(`Task.Visits.tells`), and from a blank no literal is read (`Route.grammar_rejects`).  So there is a semicolon
or a line break between any two literals (`Task.Visits.body_separated`).

`visits_tell` has both for all sources and options: what a parser keeps of the way, and what follows from it.
-/
import RegoSyntax.Proofs.Descent.Shares
import RegoSyntax.Proofs.Visits

namespace RegoSyntax

open Parse

/-! ## Separators

The notion is one of the source alone.  A semicolon counts between two offsets, and a line break counts
wherever the scanner would see one; the reader need not know of either. -/

/-- A semicolon or a line break stands between two offsets of a source. -/
def Separates (source : String) (m n : Nat) : Prop :=
  (∃ x ∈ tokensOf source, x.token = .semicolon ∧ m ≤ x.position.offset ∧ x.position.stop ≤ n) ∨
    '\n' ∈ (textBetween source m n).toList

/-- One literal ends before another one starts, and a separator is between them. -/
def Expr.SeparatedFrom (source : String) (e f : Expr) : Prop :=
  ∃ l m : Location, e.location = some l ∧ f.location = some m ∧ l.stop ≤ m.offset ∧
    Separates source l.stop m.offset

/-- Any two literals of a body that follow each other have a separator between them. -/
def Body.Separated (source : String) (b : Body) : Prop := b.IsChain (Expr.SeparatedFrom source)

/-- What has been read of a body has separators, and behind its last literal there is one before an offset. -/
structure Body.SeparatedUpTo (source : String) (b : Body) (n : Nat) : Prop where
  separated : b.Separated source
  last : ∀ e ∈ b.getLast?, ∃ l, e.location = some l ∧ l.stop ≤ n ∧ Separates source l.stop n

theorem Body.separatedUpTo_nil (source : String) (n : Nat) : Body.SeparatedUpTo source [] n :=
  ⟨.nil, fun _ none => absurd none (Option.not_mem_none _)⟩

theorem Body.SeparatedUpTo.push {source : String} {b : Body} {n : Nat} (h : b.SeparatedUpTo source n) {e : Expr}
    {l : Location} (located : e.location = some l) (starts : l.offset = n) : (b.push e).Separated source := by
  refine List.isChain_append.2 ⟨h.separated, .singleton _, fun d hd f hf => ?_⟩
  obtain rfl : { e with index := b.length } = f := Option.some.inj hf
  obtain ⟨m, there, before, separates⟩ := h.last d hd
  exact ⟨m, l, there, located, starts ▸ before, starts ▸ separates⟩

theorem Body.getLast?_push (b : Body) (e : Expr) : (b.push e).getLast? = some { e with index := b.length } :=
  List.getLast?_concat

namespace Route

variable {ρ : Route} {u v : Reading}

/-- There is nothing to go on to behind the end. -/
theorem not_eof_of_ahead (seated : ρ.Seated u) (there : ρ.Seated v) (ahead : u.look.offset < v.look.offset) :
    u.look.token ≠ .eof := by
  intro ended
  obtain ⟨c, at', -⟩ := seated.look
  have none : c.rest = [] := Lexeme.next_kind_eof.1 ((at'.shows.plain_iff rfl).1 ended)
  have inside := there.inside
  rw [at'.offset, at'.starts.in.offset_of_end none] at ahead
  omega

/-- A literal has the place of the token that it was read from, which is no blank, with the text up to the last
token before the one that the parser has come to. -/
theorem literal_placed (seated : ρ.Seated u) (n : Nat) :
    ρ.Takes u (Parse.grammar n .literal) u fun e v => u.look.token ≠ .whitespace ∧
      u.look.offset < v.look.offset ∧ e.location =
        some { u.look.location with text := v.look.text u.look.offset v.look.lastStop } := by
  by_cases blank : u.look.token = .whitespace
  · intro o depth journal
    obtain ⟨goes, -, same⟩ := Keeps.grammar n ρ .literal u rfl seated trivial o depth journal
    refine ⟨goes, fun e given => ?_, same⟩
    rw [grammar_rejects seated blank n .literal rfl o depth journal] at given
    cases given
  · cases n with
    | zero => exact .fail (.refl seated)
    | succ n =>
        show ρ.Takes u (Parse.literal (Parse.grammar n)) u _
        unfold Parse.literal
        rw [Takes.location_iff]
        refine .bind (.refl seated) ((Keeps.grammar n).unplacedLiteral seated) fun e v goes _ ahead => ?_
        rw [Takes.upToLastStop_iff]
        exact .pure goes ⟨blank, ahead, rfl⟩

end Route

namespace Task.Visits

variable {t : Task} {u v : Reading} (h : t.Visits u) (known : t.words.selected.Known)

include h known

/-- The text of a place up to the last token before a later one ends where that token does. -/
theorem stop_upToLast (ahead : t.route.Goes u v) (lt : u.look.offset < v.look.offset)
    (filled : u.look.token ≠ .whitespace) :
    Location.stop { u.look.location with text := v.look.text u.look.offset v.look.lastStop } = v.look.lastStop := by
  obtain ⟨c, kept⟩ := (h.fares known).look
  obtain ⟨d, kept'⟩ := ((h.goes known ahead).fares known).look
  have major : c.Significant := ⟨mt (kept.at'.shows.plain_iff rfl).2 filled, kept.solid⟩
  rw [kept.at'.offset, kept'.at'.offset] at lt
  have behind := kept'.at'.lt_lastStop kept.at'.starts major lt
  obtain ⟨e, inside, stop⟩ := kept'.at'.last.inside
  have size := textBetween_size kept.at'.starts.in inside (stop ▸ behind)
  show u.look.offset + (v.look.scanner.text u.look.offset v.look.lastStop).utf8ByteSize = v.look.lastStop
  rw [Scanner.text, kept'.at'.text, kept.at'.offset, ← stop]
  exact size

/-- Behind the last token a semicolon separates what is read next from what has been read. -/
theorem separates_of_semicolon (semicolon : u.look.token = .semicolon) :
    u.look.lastStop ≤ (u.passing t.env true).look.offset ∧
      Separates t.source u.look.lastStop (u.passing t.env true).look.offset := by
  obtain ⟨c, kept⟩ := (h.fares known).look
  obtain ⟨d, step⟩ := next_step t.env true kept.at'
  have kind : c.lexeme.kind = .semicolon := (kept.at'.shows.plain_iff rfl).1 semicolon
  have filled : c.rest ≠ [] := fun none => by
    rw [Cursor.lexeme, Lexeme.next_kind_eof.2 none] at kind
    cases kind
  have le := (kept.last filled).le kept.at'.starts
  rw [Reading.passing_look, step.at'.offset]
  refine ⟨le.trans (c.offset_le_skip.trans step.ahead), .inl ⟨c.scanned t.source, ?_, ?_, le, step.ahead⟩⟩
  · exact mem_tokensOf.2 ⟨c, kept.at'.starts, rfl⟩
  · exact (c.scanned_plain t.source rfl).2 kind

/-- So does a line break that was skipped. -/
theorem separates_of_newline (newline : u.look.skippedNewline = true) (filled : u.look.token ≠ .whitespace)
    (more : u.look.token ≠ .eof) :
    u.look.lastStop ≤ u.look.offset ∧ Separates t.source u.look.lastStop u.look.offset := by
  obtain ⟨c, kept⟩ := (h.fares known).look
  have nonempty : c.rest ≠ [] := fun none => more ((kept.at'.shows.plain_iff rfl).2 (Lexeme.next_kind_eof.2 none))
  refine ⟨?_, .inr ((h.tells known filled more).newline.1 newline)⟩
  rw [kept.at'.offset]
  exact (kept.last nonempty).le kept.at'.starts

/-- The literals that are read on behind others are separated, as those are: up to the token that the parser has
come to, if it is one that a literal starts with. -/
theorem literals_separated (oneLine : Bool) (stop : Token) (n : Nat) {read : Body}
    (before : u.look.token ≠ .whitespace → u.look.token ≠ .eof → read.SeparatedUpTo t.source u.look.offset) :
    t.route.Takes u (Parse.grammar n (.literals oneLine stop read)) u fun b _ => b.Separated t.source := by
  -- along the grammar: behind each literal that is read with what is below, the loop is entered again
  induction n generalizing u read with
  | zero => exact .fail (.refl (h.seated known))
  | succ n ih =>
      have seated := h.seated known
      show t.route.Takes u (Parse.literals (Parse.grammar n) oneLine stop read) u _
      unfold Parse.literals
      refine .bind (.refl seated) (Route.literal_placed seated n) fun e v goes _ ⟨filled, ahead, located⟩ => ?_
      have there : t.Visits v := h.goes known goes
      have more : u.look.token ≠ .eof := Route.not_eof_of_ahead seated goes.seated ahead
      have separated : (Body.push read e).Separated t.source := (before filled more).push located rfl
      have onward {m : Nat} (separates : v.look.lastStop ≤ m ∧ Separates t.source v.look.lastStop m) :
          (Body.push read e).SeparatedUpTo t.source m := by
        refine ⟨separated, fun f hf => ?_⟩
        rw [Body.getLast?_push] at hf
        obtain rfl := Option.some.inj hf
        have stop := h.stop_upToLast known goes ahead filled
        exact ⟨_, located, by rw [stop]; exact separates⟩
      dsimp only
      rw [Route.Takes.token_iff]
      split
      · next semicolon =>
          have semicolon := beq_iff_eq.1 semicolon
          have passes : t.route.Goes v (v.passing t.env true) := .over goes.seated true semicolon rfl
          have separates := there.separates_of_semicolon known semicolon
          rw [Route.Takes.scan_iff]
          exact .tail (goes.trans passes) (ih (there.pass true) fun _ _ => onward separates) fun _ _ _ => id
      split
      · exact .pure goes separated
      rw [Route.Takes.look_iff]
      split
      · next newline =>
          refine .tail goes (ih there fun filled more => ?_) fun _ _ _ => id
          exact onward (there.separates_of_newline known newline filled more)
      · rw [Route.Takes.noFailures_iff]
        split
        · exact .unexpected_fail goes
        · exact .fail goes

/-- The literals of a body are separated. -/
theorem body_separated (stop : Token) (n : Nat) :
    t.route.Takes u (Parse.grammar n (.body stop)) u fun b _ => b.Separated t.source := by
  have seated := h.seated known
  cases n with
  | zero => exact .fail (.refl seated)
  | succ n =>
      refine .nested (.refl seated) ?_
      unfold Parse.query
      rw [Route.Takes.token_iff]
      split
      · exact .reportHere_fail (.refl seated)
      · exact h.literals_separated known false stop n fun _ _ => Body.separatedUpTo_nil _ _

end Task.Visits

/-- The runs of a task and all its productions stay among the readings that a parse visits.  In each of those that
is not at a blank or at the end, what the parser keeps tells of the source: of the token that it stands at, of
the last one before it, and of a line break between the two.  So the literals of a body between braces, or of a
comprehension, are separated by semicolons and line breaks. -/
theorem visits_tell {source file : String} {o : Options} {words : Negotiated} (settled : o.negotiate = .ok words)
    {t : Task} (new : t = Task.new source file o words) :
    (∀ r, t.Reaches r → t.Visits r.state.toReading) ∧
    ∀ u, t.Visits u →
      (∀ ⦃α : Type⦄ (p : Production α), p.Relies u → ∀ n s depth journal,
        t.Visits ((Parse.grammar n p).run t.env s ⟨u, depth, journal⟩).2.toReading) ∧
      (u.look.token ≠ .whitespace → u.look.token ≠ .eof → u.look.Tells source file) ∧
      ∀ n stop s depth journal b,
        ((Parse.grammar n (.body stop)).run t.env s ⟨u, depth, journal⟩).1 = some b → b.Separated source := by
  subst new
  obtain ⟨allowed, selected⟩ := o.known_negotiate settled
  refine ⟨fun r reaches => reaches.visits allowed selected, fun u visits => ⟨?_, ?_, ?_⟩⟩
  · intro α p ready n s depth journal
    exact visits.production selected ready n s depth journal
  · exact visits.tells selected
  · intro n stop s depth journal b given
    exact (visits.body_separated selected stop n s depth journal).2.1 b given

/-- A body of two literals, with a comment before the line break between them. -/
theorem visits_tell_commented : ∃ t u, t = Task.new "x # one\n y ]" "" {} ⟨.future, .future⟩ ∧ t.Visits u ∧
    u.look.Tells "x # one\n y ]" "" ∧
      ∃ b : Body, ((t.grammar (.body .rbrack)).run t.env t.settings ⟨u, 0, []⟩).1 = some b ∧ b.length = 2 ∧
        b.Separated "x # one\n y ]" := by
  have settled : ({} : Options).negotiate = .ok ⟨.future, .future⟩ := rfl
  generalize new : Task.new "x # one\n y ]" "" {} ⟨.future, .future⟩ = t
  obtain ⟨-, tells⟩ := visits_tell settled new.symm
  obtain ⟨-, first, separated⟩ := tells t.start.toReading .start
  have token : t.start.look.token = .ident := by
    rw [← new]
    decide +kernel
  have length : (((t.grammar (.body .rbrack)).run t.env t.settings ⟨t.start.toReading, 0, []⟩).1.map
      List.length) = some 2 := by
    rw [← new]
    decide +kernel
  obtain ⟨b, given, two⟩ := Option.map_eq_some_iff.1 length
  refine ⟨t, _, rfl, .start, first ?_ ?_, b, given, two, separated _ _ _ _ _ b given⟩
  · rw [token]
    decide
  · rw [token]
    decide

end RegoSyntax
