/-
# RegoSyntax.Proofs.Wildcards — no two wildcards outside of heads have one name.

Every `_` is a variable of its own.  The names are drawn while the parser reads, also for what it gives up,
and a term that is remembered comes back with the names that it had.  What stays is that the wildcards of
bodies were drawn one behind the other, at offsets of the source where there is a `_`; and no word of a
source has the name of a wildcard.

Heads are another matter: rules that share one share the wildcards in its value.
-/
import RegoSyntax.Proofs.Stream
import RegoSyntax.Proofs.Tracks.Outcome

namespace RegoSyntax

namespace Survey

variable {m : Survey} {W : Array Nat} {a b n : Nat} {ns : List Visit}

/-- Names that were drawn one behind the other, with the offsets at which they were drawn. -/
theorem offsets_of_ordered {names : List String} (ordered : names.Pairwise (Earlier W))
    (born : ∀ x ∈ names, ∃ n, Drawn W x n ∧ m.Blank n) :
    ∃ offsets, List.Forall₂ (Drawn W) names offsets ∧ offsets.Pairwise (· < ·) ∧
      ∀ n ∈ offsets, m.Blank n := by
  induction names with
  | nil => exact ⟨[], .nil, .nil, List.forall_mem_nil _⟩
  | cons x names ih =>
      obtain ⟨first, rest⟩ := List.pairwise_cons.1 ordered
      obtain ⟨here, more⟩ := List.forall_mem_cons.1 born
      obtain ⟨n, drawn, blank⟩ := here
      obtain ⟨offsets, same, sorted, blanks⟩ := ih rest more
      refine ⟨n :: offsets, .cons drawn same, List.pairwise_cons.2 ⟨fun k hk => ?_, sorted⟩,
        List.forall_mem_cons.2 ⟨blank, blanks⟩⟩
      obtain ⟨i, hi, rfl⟩ := List.mem_iff_getElem.1 hk
      have lt : i < names.length := same.length_eq ▸ hi
      obtain ⟨j, k, hj, hk, before⟩ := first names[i] (List.getElem_mem lt)
      have drawn' : Drawn W names[i] offsets[i] := same.get lt hi
      rw [hj.unique drawn, hk.unique drawn'] at before
      exact before

/-- A token at which a wildcard was drawn. -/
theorem Blank.token (h : m.Blank n) :
    ∃ x ∈ tokensOf m.source, x.position.offset = n ∧ x.text m.source = "_" := by
  obtain ⟨c, starts, rfl, word⟩ := h
  have filled : c.rest ≠ [] := fun none => by
    rw [Cursor.word, none, List.take_nil] at word
    exact absurd word (by decide)
  exact ⟨c.scanned m.source, mem_tokensOf.2 ⟨c, starts, rfl⟩, rfl, (Cursor.scanned_text starts filled).trans word⟩

end Survey

/-- No word of a source is named like a wildcard. -/
theorem word_not_wildcard {source : String} {x : Scanned} (listed : x ∈ tokensOf source)
    (word : x.isWord = true) : isWildcardName (x.text source) = false := by
  obtain ⟨c, starts, rfl⟩ := mem_tokensOf.1 listed
  have kind := Cursor.scanned_word word
  have filled : c.rest ≠ [] := fun none => by
    rw [Cursor.lexeme, none] at kind
    cases kind
  rw [Cursor.scanned_text starts filled]
  exact Cursor.word_plain kind

/-- Of the wildcards in the statements of a source that stand outside of heads, no two have one name, and none
has that of a wildcard in a head.  They stand for as many `_` in the source, in the same order; and no word
of the source has the name of a wildcard. -/
theorem parse_wildcards (source file : String) (o : Options) :
    let inBodies := wildcardsOf ((parse source file o).statements.flatMap Statement.inBodies)
    let inHeads := wildcardsOf ((parse source file o).statements.flatMap Statement.inHeads)
    inBodies.Nodup ∧ (∀ x ∈ inHeads, x ∉ inBodies) ∧
      (∃ offsets : List Nat, offsets.length = inBodies.length ∧ offsets.Pairwise (· < ·) ∧
        ∀ n ∈ offsets, ∃ x ∈ tokensOf source, x.position.offset = n ∧ x.text source = "_") ∧
        ∀ x ∈ tokensOf source, x.isWord = true → isWildcardName (x.text source) = false := by
  dsimp only
  rcases settled : o.negotiate with problem | words
  · rw [parse_unsettled settled]
    exact ⟨.nil, List.forall_mem_nil _, ⟨[], rfl, .nil, List.forall_mem_nil _⟩,
      fun _ => word_not_wildcard⟩
  · obtain ⟨W, stop, passage⟩ := (parse_holds source file settled).statements
    obtain ⟨bodies, -, apart⟩ := passage.clear
    obtain ⟨offsets, drawn, sorted, blanks⟩ := Survey.offsets_of_ordered bodies.ordered fun x hx => by
      obtain ⟨n, drawn, blank, -⟩ := bodies.born x hx
      exact ⟨n, drawn, blank⟩
    exact ⟨bodies.nodup, apart, ⟨offsets, drawn.length_eq.symm, sorted, fun n hn => (blanks n hn).token⟩,
      fun _ => word_not_wildcard⟩

end RegoSyntax
