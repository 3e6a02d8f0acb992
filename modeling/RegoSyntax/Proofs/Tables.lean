/-
# RegoSyntax.Proofs.Tables — tables of reserved words by what they reserve.

A table is known by its look-ups (`KeywordTable.ext_get?`), and the look-ups of a table that was changed
are told from those of the tables before.

Entries are kept in order of their words, with one entry for each word, so the same look-ups make the same
entries.
-/
import RegoSyntax.Keyword

namespace RegoSyntax

namespace KeywordTable

/-- The entry of a list for a word. -/
def find (l : List (String × Token)) (word : String) : Option Token :=
  (l.find? (·.1 == word)).map (·.2)

/-- To look a word up is to find its entry. -/
theorem get?_eq_find (t : KeywordTable) (word : String) : t.get? word = find t.entries word := rfl

/-- An empty list has no entry. -/
theorem find_nil (word : String) : find [] word = none := rfl

/-- The first entry for a word is found. -/
theorem find_cons (e : String × Token) (l : List (String × Token)) (word : String) :
    find (e :: l) word = if e.1 = word then some e.2 else find l word := by
  by_cases same : e.1 = word
  · simp [find, same]
  · simp [find, same]

/-- A word without an entry is not found. -/
theorem find_eq_none {l : List (String × Token)} {word : String} (h : ∀ e ∈ l, e.1 ≠ word) :
    find l word = none := by
  simpa [find] using h

/-- An entry that is put into an ordered list is found, and no other one is lost. -/
theorem find_insertEntry {l : List (String × Token)} (sorted : l.Pairwise (fun a b => a.1 < b.1))
    (word : String) (kind : Token) (x : String) :
    find (insertEntry word kind l) x = if word = x then some kind else find l x := by
  induction l with
  | nil => rw [insertEntry, find_cons]
  | cons e l ih =>
      obtain ⟨first, sorted⟩ := List.pairwise_cons.1 sorted
      unfold insertEntry
      -- the word stands before the first entry, at it, or behind it
      split
      · rw [find_cons]
      split
      · next same =>
          rw [find_cons, find_cons]
          by_cases here : word = x
          · rw [if_pos here, if_pos here]
          · rw [if_neg here, if_neg here, if_neg (same ▸ here)]
      · next other =>
          rw [find_cons, find_cons, ih sorted]
          by_cases here : e.1 = x
          · rw [if_pos here, if_pos here, if_neg fun there => other (there.trans here.symm)]
          · rw [if_neg here, if_neg here]

/-- A word that is reserved is found, and all others are found as before. -/
@[simp] theorem get?_insert (t : KeywordTable) (word : String) (kind : Token) (x : String) :
    (t.insert word kind).get? x = if word = x then some kind else t.get? x :=
  find_insertEntry t.sorted word kind x

/-- Words that are reserved are found, and all others are found as before. -/
theorem get?_insertAll (t : KeywordTable) {l : List (String × Token)}
    (distinct : l.Pairwise (fun a b => a.1 ≠ b.1)) (x : String) :
    (t.insertAll l).get? x = (find l x).or (t.get? x) := by
  induction l generalizing t with
  | nil => rfl
  | cons e l ih =>
      obtain ⟨first, distinct⟩ := List.pairwise_cons.1 distinct
      have step := ih (t.insert e.1 e.2) distinct
      rw [find_cons]
      refine step.trans ?_
      rw [get?_insert]
      by_cases here : e.1 = x
      · rw [if_pos here, if_pos here, find_eq_none fun e' he => here ▸ (first e' he).symm]
        rfl
      · rw [if_neg here, if_neg here]

/-- A table has one entry for each word. -/
theorem distinct (t : KeywordTable) : t.entries.Pairwise (fun a b => a.1 ≠ b.1) :=
  t.sorted.imp fun {a b} lt (same : a.1 = b.1) => String.lt_irrefl b.1 (same ▸ lt)

/-- What is reserved when another table is added. -/
@[simp] theorem get?_extend (t u : KeywordTable) (x : String) :
    (t.extend u).get? x = (u.get? x).or (t.get? x) := t.get?_insertAll u.distinct x

/-- What is reserved when the words of another table are freed. -/
@[simp] theorem get?_removeAll (t u : KeywordTable) (x : String) :
    (t.removeAll u).get? x = if u.contains x = true then none else t.get? x := by
  show find (t.entries.filter fun e => !u.contains e.1) x = _
  rw [get?_eq_find]
  induction t.entries with
  | nil => rw [List.filter_nil, find_nil, ite_self]
  | cons e l ih =>
      rw [List.filter_cons, find_cons]
      by_cases here : e.1 = x
      · subst here
        cases freed : u.contains e.1 with
        | false => simp [find_cons]
        | true => simpa [freed] using ih
      · cases freed : u.contains e.1 with
        | false => simpa [find_cons, here] using ih
        | true => simpa [here] using ih

/-- To join another table frees no word. -/
theorem contains_extend (t u : KeywordTable) {x : String} (h : t.contains x = true) :
    (t.extend u).contains x = true := by
  rw [contains, get?_extend]
  rw [contains] at h
  cases u.get? x with
  | none => exact h
  | some _ => rfl

/-- What is found is an entry. -/
theorem mem_of_get? {t : KeywordTable} {word : String} {kind : Token} (h : t.get? word = some kind) :
    (word, kind) ∈ t.entries := by
  obtain ⟨e, found, rfl⟩ := Option.map_eq_some_iff.1 h
  have same : e.1 = word := by simpa using List.find?_some found
  exact same ▸ List.mem_of_find?_eq_some found

/-- An entry is found. -/
theorem get?_of_mem {t : KeywordTable} {word : String} {kind : Token} (h : (word, kind) ∈ t.entries) :
    t.get? word = some kind := by
  rw [get?_eq_find]
  have distinct := t.distinct
  revert h distinct
  induction t.entries with
  | nil => exact fun h => absurd h List.not_mem_nil
  | cons e l ih =>
      intro h distinct
      obtain ⟨first, distinct⟩ := List.pairwise_cons.1 distinct
      rw [find_cons]
      rcases List.mem_cons.1 h with rfl | behind
      · rw [if_pos rfl]
      · rw [if_neg (first _ behind), ih behind distinct]

/-- Tables that reserve the same words for the same are the same. -/
theorem ext_get? {t u : KeywordTable} (h : ∀ x, t.get? x = u.get? x) : t = u := by
  have same : t.entries = u.entries := by
    refine List.Perm.eq_of_pairwise (fun a b _ _ (ab : a.1 < b.1) (ba : b.1 < a.1) => ?_) t.sorted
      u.sorted ?_
    · exact absurd ba (String.lt_asymm ab)
    · refine (List.perm_ext_iff_of_nodup ?_ ?_).2 fun e => ?_
      · exact t.distinct.imp fun other same => other (congrArg Prod.fst same)
      · exact u.distinct.imp fun other same => other (congrArg Prod.fst same)
      · exact ⟨fun he => mem_of_get? ((h e.1).symm.trans (get?_of_mem he)),
          fun he => mem_of_get? ((h e.1).trans (get?_of_mem he))⟩
  cases t
  cases u
  cases same
  rfl

/-- To free words that are freed already changes nothing, whatever has been reserved for them. -/
theorem removeAll_congr {t t' u : KeywordTable} (h : ∀ x, u.contains x = false → t'.get? x = t.get? x) :
    t'.removeAll u = t.removeAll u :=
  ext_get? fun x => by
    rw [get?_removeAll, get?_removeAll]
    cases freed : u.contains x with
    | true => rfl
    | false => simpa using h x freed

end KeywordTable

end RegoSyntax
