/-
# RegoSyntax.Keyword — tables of reserved words.

A `KeywordTable` is a finite map from words to token kinds.  The scanner looks up every identifier
it reads in the table it holds, so reserving a word in the middle of a file (after an import)
changes how all later text is read.

The entries are kept in strictly increasing order of their words, as a proof field.  A finite map
therefore has exactly one representation: equality of tables is equality of what they reserve,
and neither the order nor the repetition of insertions can be seen.
-/
import RegoSyntax.Token

namespace RegoSyntax

/-- A finite map from reserved words to token kinds, listed by word. -/
structure KeywordTable where
  entries : List (String × Token)
  sorted : entries.Pairwise (fun a b => a.1 < b.1)
deriving DecidableEq

namespace KeywordTable

/-- The table that reserves nothing. -/
def empty : KeywordTable := ⟨[], .nil⟩

instance : Inhabited KeywordTable := ⟨empty⟩

/-- The token kind for which a word is reserved, if it is. -/
def get? (t : KeywordTable) (word : String) : Option Token :=
  (t.entries.find? (·.1 == word)).map (·.2)

/-- Whether a word is reserved. -/
def contains (t : KeywordTable) (word : String) : Bool := (t.get? word).isSome

/-- The number of reserved words. -/
def size (t : KeywordTable) : Nat := t.entries.length

/-- The reserved words, in increasing order. -/
def words (t : KeywordTable) : List String := t.entries.map (·.1)

/-! ## Insertion -/

/-- Put an entry at its place in a sorted list, over an entry with the same word. -/
def insertEntry (word : String) (kind : Token) : List (String × Token) → List (String × Token)
  | [] => [(word, kind)]
  | e :: rest =>
    if word < e.1 then (word, kind) :: e :: rest
    else if word = e.1 then (word, kind) :: rest
    else e :: insertEntry word kind rest

theorem mem_insertEntry {word : String} {kind : Token} {x : String × Token} :
    ∀ {l : List (String × Token)}, x ∈ insertEntry word kind l → x = (word, kind) ∨ x ∈ l
  | [], h => by simpa [insertEntry] using h
  | e :: rest, h => by
    unfold insertEntry at h
    split at h
    · simpa using h
    · split at h
      · rcases List.mem_cons.1 h with h | h
        · exact .inl h
        · exact .inr (List.mem_cons_of_mem _ h)
      · rcases List.mem_cons.1 h with h | h
        · exact .inr (h ▸ List.mem_cons_self)
        · exact (mem_insertEntry h).imp id (List.mem_cons_of_mem _)

theorem pairwise_insertEntry (word : String) (kind : Token) :
    ∀ {l : List (String × Token)}, l.Pairwise (fun a b => a.1 < b.1) →
      (insertEntry word kind l).Pairwise (fun a b => a.1 < b.1)
  | [], _ => by simp [insertEntry]
  | e :: rest, h => by
    have he := List.pairwise_cons.1 h
    unfold insertEntry
    split
    · rename_i hlt
      refine List.pairwise_cons.2 ⟨fun x hx => ?_, h⟩
      rcases List.mem_cons.1 hx with rfl | hx
      · exact hlt
      · exact String.lt_trans hlt (he.1 x hx)
    · split
      · rename_i heq
        exact List.pairwise_cons.2 ⟨fun x hx => heq ▸ he.1 x hx, he.2⟩
      · rename_i hlt hne
        refine List.pairwise_cons.2 ⟨fun x hx => ?_, pairwise_insertEntry word kind he.2⟩
        rcases mem_insertEntry hx with rfl | hx
        · exact Std.lt_of_le_of_ne (Std.not_lt.1 hlt) (fun h => hne h.symm)
        · exact he.1 x hx

/-- Reserve a word, forgetting what it was reserved for before. -/
def insert (t : KeywordTable) (word : String) (kind : Token) : KeywordTable :=
  ⟨insertEntry word kind t.entries, pairwise_insertEntry word kind t.sorted⟩

/-- Reserve the words of a list one after the other. -/
def insertAll (t : KeywordTable) (l : List (String × Token)) : KeywordTable :=
  l.foldl (fun t e => t.insert e.1 e.2) t

/-- The table of the words of a list; of two entries for one word the later one counts. -/
def ofList (l : List (String × Token)) : KeywordTable := empty.insertAll l

/-- Reserve every word of `other` as well; where both have a word, `other` decides. -/
def extend (t other : KeywordTable) : KeywordTable := t.insertAll other.entries

/-- Free every word that `other` reserves, whatever it reserves it for. -/
def removeAll (t other : KeywordTable) : KeywordTable :=
  ⟨t.entries.filter (fun e => !other.contains e.1), t.sorted.filter _⟩

/-! ## The words of the language -/

/-- The words that every dialect reserves. -/
def baseWords : List (String × Token) :=
  [("not", .notKw), ("package", .packageKw), ("import", .importKw), ("as", .asKw),
   ("default", .defaultKw), ("else", .elseKw), ("with", .withKw), ("null", .nullKw),
   ("true", .trueKw), ("false", .falseKw), ("some", .someKw)]

/-- The words that the older dialects reserve only once they are imported. -/
def futureWords : List (String × Token) :=
  [("in", .inKw), ("every", .everyKw), ("contains", .containsKw), ("if", .ifKw)]

/-- The table every scanner starts with. -/
def base : KeywordTable := ofList baseWords

/-- The table of the future words. -/
def future : KeywordTable := ofList futureWords

end KeywordTable

end RegoSyntax
