/-
# RegoSyntax.Proofs.Openings — what stands between the keyword of a clause and its path.

Behind the keyword of a package or import clause the parser looks whether a point or a bracket follows
directly, in which case there is no clause, and it goes on from there to the path without looking back.  So a
token that stands right behind the keyword is passed with nothing said about it, as in `package(a`
(`package_with_stray`).  Nothing else is: whatever solid token there is between the keyword and the first word
of the path, it stands right behind the keyword (`parse_clauses_open`).
-/
import RegoSyntax.Proofs.Moves.Walls
import RegoSyntax.Proofs.Stream
import RegoSyntax.Proofs.Tracks.Outcome

namespace RegoSyntax

open Parse

/-! ## Openings -/

/-- A clause at a place opens with a keyword and with a word, which a name is made of. -/
structure Opening (source : String) (place : Location) (name : String) (keyword word : Scanned) : Prop where
  listed : keyword ∈ tokensOf source ∧ word ∈ tokensOf source
  first : keyword.position.offset = place.offset
  named : name = word.text source ∨ isWildcardName name = true
  solid : word.isSolid = true
  inside : keyword.position.stop ≤ word.position.offset ∧ word.position.stop ≤ place.stop
  /-- What stands in between stands right behind the keyword, and is no point and no bracket. -/
  between : ∀ x ∈ tokensOf source, x.isSolid = true → keyword.position.offset < x.position.offset →
    x.position.offset < word.position.offset →
    x.position.offset = keyword.position.stop ∧ x.token ≠ .dot ∧ x.token ≠ .lbrack

/-- A clause at a place starts with its keyword, and then with the name that its path starts with. -/
def Opens (source : String) (place : Option Location) (spelling : String) (name : Option String) : Prop :=
  ∃ l ∈ place, ∃ n ∈ name, ∃ keyword word,
    Opening source l n keyword word ∧ keyword.text source = spelling

/-- The name that the path of a package starts with, behind the root of all packages. -/
def Package.name? (p : Package) : Option String := p.path.tail.head?.bind (·.value.string?)

/-- Package and import clauses open with their keywords. -/
def Statement.Opens (source : String) : Statement → Prop
  | .package p => RegoSyntax.Opens source p.location "package" p.name?
  | .importClause i => RegoSyntax.Opens source i.location "import" i.path.lead
  | _ => True

/-- A stretch of the text between two offsets ends where it ends. -/
theorem Location.stop_upTo {source : String} {c d : Cursor} {l : Location} (hc : c.In source) (hd : d.In source)
    (offset : l.offset = c.offset) (lt : c.offset < d.offset) :
    Location.stop { l with text := textBetween source l.offset d.offset } = d.offset := by
  show l.offset + (textBetween source l.offset d.offset).utf8ByteSize = d.offset
  rw [offset, textBetween_size hc hd lt]

namespace Route

variable {ρ : Route} {c d : Cursor} {u v w x : Reading} {n : Nat}

/-! ## From the keyword to the path -/

/-- The word that a path starts with is the next one but one: what comes before it is passed unseen. -/
theorem Names.at_next {keyword : Token} (names : ρ.Names keyword u w) {b : Cursor}
    (behind : (Parse.next ρ.env false u.look).look.At ρ.source b) :
    ∃ d, w.look.At ρ.source d ∧ b.skip.offset ≤ d.offset ∧
      ∀ e : Cursor, e.Starts ρ.source → b.offset < e.offset → e.offset < d.offset → ¬ e.Significant := by
  obtain ⟨d, step⟩ := next_step ρ.env true behind
  have there : ((u.passing ρ.env false).passing ρ.env true).look.At ρ.source d := by
    rw [Reading.passing_look, Reading.passing_look]
    exact step.at'
  refine ⟨d, ?_, step.ahead, step.gap⟩
  rcases names.path with rfl | ⟨allowed, rfl⟩
  · exact there
  · exact there.asIdent allowed

/-- Between the keyword and the path there is only what stands right behind the keyword. -/
theorem Names.opening {keyword : Token} {name : String} (names : ρ.Names keyword u w) (seated : ρ.Seated u)
    (reserved : keyword.isKeyword = true)
    (named : ∀ d, w.look.At ρ.source d → name = d.word ∨ isWildcardName name = true)
    (there : ρ.Seated v) (ahead : w.look.offset < v.look.offset) :
    ∃ kw first, Opening ρ.source
        { u.look.location with text := v.look.text u.look.location.offset v.look.lastStop } name kw first ∧
      kw.text ρ.source = keyword.name := by
  obtain ⟨c, stands, -⟩ := seated.look
  obtain ⟨b, step⟩ := next_step ρ.env false stands
  obtain ⟨d, at', beyond, gap⟩ := names.at_next step.at'
  obtain ⟨e, last, -⟩ := there.look
  have kind : c.lexeme.kind = .ident := stands.kind_of_word (.inr (.inl (names.keyword ▸ reserved)))
  have word : d.lexeme.kind = .ident := at'.kind_of_word (.inl names.ident)
  have filled {a : Cursor} (kind : a.lexeme.kind = .ident) : a.rest ≠ [] := fun none => by
    rw [Cursor.lexeme, none] at kind
    cases kind
  have alone : ¬ Course.Adjoined c := not_adjoined_of_apart stands names.apart
  rw [at'.offset, last.offset] at ahead
  -- the three tokens: the keyword, what stands right behind it, and the first one of the path
  refine ⟨c.scanned ρ.source, d.scanned ρ.source, ⟨⟨mem_tokensOf.2 ⟨c, stands.starts, rfl⟩,
    mem_tokensOf.2 ⟨d, at'.starts, rfl⟩⟩, stands.offset.symm, ?_, ?_, ⟨?_, ?_⟩, ?_⟩, ?_⟩
  · rw [Cursor.scanned_text at'.starts (filled word)]
    exact named d at'
  · exact (d.scanned_solid ρ.source).2 ⟨Cursor.significant_of_ident word, filled word⟩
  · show c.skip.offset ≤ d.offset
    exact step.ahead.trans (b.offset_le_skip.trans beyond)
  -- the text goes on to the end of the first token of the path at least
  · obtain ⟨f, inside, stop⟩ := last.last.inside
    have covered : d.skip.offset ≤ v.look.lastStop :=
      last.last.behind d at'.starts ahead (Cursor.significant_of_ident word)
    have size : c.offset < f.offset := by
      have := Cursor.offset_lt_skip (filled word)
      have := step.ahead
      have := b.offset_le_skip
      have := c.offset_le_skip
      omega
    rw [Look.text, Scanner.text, last.text, ← stop,
      Location.stop_upTo stands.starts.in inside stands.offset size, stop]
    exact covered
  -- a solid token in between is the first one that was passed, and right behind the keyword
  · intro x listed solid behind before
    obtain ⟨a, starts, rfl⟩ := mem_tokensOf.1 listed
    obtain ⟨major, more⟩ := (a.scanned_solid ρ.source).1 solid
    have behind : c.offset < a.offset := behind
    have before : a.offset < d.offset := before
    have same : a = b := by
      refine starts.eq_of_offset step.at'.starts (Nat.le_antisymm ?_ ?_)
      · exact Nat.le_of_not_lt fun later => gap a starts later before major
      · exact Nat.le_of_not_lt fun earlier => step.gap a starts behind earlier major
    subst same
    have next : a = c.skip := by
      rcases step.tight rfl with next | white | ended
      · exact next
      · exact absurd white major.1
      · exact absurd (Lexeme.next_kind_eof.1 ended) more
    subst next
    refine ⟨rfl, fun dot => alone (.inl ?_), fun bracket => alone (.inr ?_)⟩
    · exact (c.skip.scanned_plain ρ.source rfl).1 dot
    · exact (c.skip.scanned_plain ρ.source rfl).1 bracket
  · rw [Cursor.scanned_text stands.starts (filled kind), ← names.keyword]
    exact stands.word (.inl (names.keyword ▸ reserved))

end Route

end RegoSyntax
