/-
# RegoSyntax.Proofs.Authors — whom an author entry names.

A text names an author by its words: the last one is an address if it stands between angle brackets, and the
others are the name.  Printing puts the words together again, so reading what was printed meets the same words
(`Text.words_joinWith`), with one exception.  An address with nothing in it is read like any other one, and is
not printed.  Where it was the only word the author has neither a name nor an address, which an object with
such members is refused for; where another word in brackets stands before it, that one is the address of what
was printed.  Beside these texts (`Hollow`) all authors are someone, and all are read back from what they are
printed as (`author_settles`).
-/
import RegoSyntax.Metadata.Contents

namespace RegoSyntax

/-! ## Words

A text is cut at its blanks, and its words are what is between them. -/

namespace Text

variable {s t w : String} {ws : List String}

/-- What is between blanks: it is not empty, and has no blank in it. -/
def IsWord (w : String) : Prop := w ≠ "" ∧ ∀ c ∈ w.toList, isBlank c = false

theorem pieces_eq_splitOnP (f : Char → Bool) (cs : List Char) : pieces f cs = cs.splitOnP f := by
  induction cs with
  | nil => rfl
  | cons c cs ih =>
      rw [pieces, List.splitOnP_cons_eq_if_modifyHead, ih]
      rcases cut : cs.splitOnP f with _ | ⟨w, ws⟩
      · exact absurd cut (List.splitOnP_ne_nil f cs)
      · rfl

/-- No piece has one of the marks in it. -/
theorem unmarked_of_mem_pieces {f : Char → Bool} {cs w : List Char} (h : w ∈ pieces f cs) :
    ∀ c ∈ w, f c = false := by
  induction cs generalizing w with
  | nil =>
      obtain rfl := List.mem_singleton.1 h
      exact List.forall_mem_nil _
  | cons d cs ih =>
      rw [pieces_eq_splitOnP, List.splitOnP_cons_eq_if_modifyHead, ← pieces_eq_splitOnP] at h
      split at h
      · rcases List.mem_cons.1 h with rfl | inside
        · exact List.forall_mem_nil _
        · exact ih inside
      · next plain =>
          rcases cut : pieces f cs with _ | ⟨v, vs⟩ <;> rw [cut] at h ih
          · cases h
          · rcases List.mem_cons.1 h with rfl | inside
            · exact List.forall_mem_cons.2 ⟨Bool.eq_false_iff.2 plain, ih List.mem_cons_self⟩
            · exact ih (List.mem_cons_of_mem _ inside)

theorem isWord_of_mem_words (h : w ∈ words s) : IsWord w := by
  obtain ⟨cs, listed, rfl⟩ := List.mem_map.1 h
  obtain ⟨piece, filled⟩ := List.mem_filter.1 listed
  refine ⟨fun none => ?_, by rw [String.toList_ofList]; exact unmarked_of_mem_pieces piece⟩
  have nothing : cs = [] := by simpa using congrArg String.toList none
  rw [nothing] at filled
  cases filled

theorem words_of_isWord (h : IsWord w) : words w = [w] := by
  have filled : w.toList ≠ [] := fun none => h.1 (String.toList_inj.1 none)
  rw [words, pieces_eq_splitOnP, List.splitOnP_eq_singleton h.2, List.filter_cons_of_pos (by simpa using filled)]
  simp

/-- Texts with a blank between them have the words of both. -/
theorem words_append (s t : String) : words (s ++ " " ++ t) = words s ++ words t := by
  have blank : (s ++ " " ++ t).toList = s.toList ++ ' ' :: t.toList := by simp
  rw [words, blank, pieces_eq_splitOnP, List.splitOnP_append_cons _ _ (by decide), List.filter_append,
    List.map_append, ← pieces_eq_splitOnP, ← pieces_eq_splitOnP, words, words]

/-- Words that are put together are the words of what they make. -/
theorem words_joinWith (h : ∀ w ∈ ws, IsWord w) : words (joinWith " " ws) = ws := by
  induction ws with
  | nil => rfl
  | cons w ws ih =>
      obtain ⟨first, rest⟩ := List.forall_mem_cons.1 h
      rcases ws with _ | ⟨v, vs⟩
      · exact words_of_isWord first
      · rw [joinWith, words_append, words_of_isWord first, ih rest]
        · rfl
        · exact List.cons_ne_nil v vs

end Text

namespace Metadata

open Text (IsWord words)

variable {s e w : String} {init : List String} {a : Author}

/-! ## Addresses

An address is a word between the two marks, and each address makes one such word. -/

/-- A word that is an address. -/
def addressWord (e : String) : String := "<" ++ e ++ ">"

/-- An address is found where there is one. -/
theorem bracketed?_iff : bracketed? w = some e ↔ w = addressWord e := by
  have spelled : (addressWord e).toList = '<' :: (e.toList ++ ['>']) := by simp [addressWord]
  constructor
  · intro found
    unfold bracketed? at found
    split at found
    · next rest opened =>
        split at found
        · next closed =>
            obtain rfl := Option.some.inj found
            obtain ⟨inside, rfl⟩ := List.getLast?_eq_some_iff.1 (beq_iff_eq.1 closed)
            rw [← String.toList_inj, opened, spelled, String.toList_ofList, List.dropLast_concat]
        · cases found
    · cases found
  · rintro rfl
    simp [bracketed?, spelled]

theorem addressWord_inj (h : addressWord e = addressWord w) : e = w :=
  Option.some.inj ((bracketed?_iff.2 rfl).symm.trans (bracketed?_iff.2 h))

/-! ## Reading and printing

What a text comes to is told by its last word, and an author is printed as its words with the address
last. -/

/-- The last word is an address: the words before it are the name. -/
theorem authorOfText_address (cut : words s = init ++ [addressWord e]) :
    authorOfText s = .ok ⟨joinWith " " init, e⟩ := by
  simp only [authorOfText, cut, List.getLast?_concat, bracketed?_iff.2 rfl, List.dropLast_concat]

/-- The last word is no address: all words are the name. -/
theorem authorOfText_plain (cut : words s = init ++ [w]) (plain : bracketed? w = none) :
    authorOfText s = .ok ⟨joinWith " " (init ++ [w]), ""⟩ := by
  simp only [authorOfText, cut, List.getLast?_concat, plain]

theorem authorOfText_blank (cut : words s = []) : authorOfText s = .error .emptyAuthor := by
  simp only [authorOfText, cut, List.getLast?_nil]

/-- There are no other authors. -/
theorem authorOfText_cases (read : authorOfText s = .ok a) :
    ∃ init last, words s = init ++ [last] ∧ (∀ w ∈ init ++ [last], IsWord w) ∧
      (bracketed? last = none ∧ a = ⟨joinWith " " (init ++ [last]), ""⟩ ∨
        ∃ e, last = addressWord e ∧ a = ⟨joinWith " " init, e⟩) := by
  have isWord : ∀ w ∈ words s, IsWord w := fun w hw => Text.isWord_of_mem_words hw
  rcases ends : (words s).getLast? with _ | last
  · rw [authorOfText_blank (List.getLast?_eq_none_iff.1 ends)] at read
    cases read
  obtain ⟨init, cut⟩ := List.getLast?_eq_some_iff.1 ends
  refine ⟨init, last, cut, cut ▸ isWord, ?_⟩
  rcases shape : bracketed? last with _ | e
  · rw [authorOfText_plain cut shape] at read
    exact .inl ⟨rfl, (Except.ok.inj read).symm⟩
  · obtain rfl := bracketed?_iff.1 shape
    rw [authorOfText_address cut] at read
    exact .inr ⟨e, rfl, (Except.ok.inj read).symm⟩

/-- Words make a text that is not empty. -/
theorem joinWith_ne_empty (h : ∀ w ∈ init, IsWord w) (named : init ≠ []) : joinWith " " init ≠ "" := by
  intro none
  have same := Text.words_joinWith h
  rw [none] at same
  exact named same.symm

/-- An author without an address is printed as the name. -/
theorem render_name (name : String) : Author.render ⟨name, ""⟩ = name := by
  have blank : "".isEmpty = true := rfl
  simp only [Author.render, blank]

/-- With an address an author is printed as words, of which the address is the last. -/
theorem words_render (h : ∀ w ∈ init, IsWord w) (address : IsWord (addressWord e)) (addressed : e ≠ "") :
    words (Author.render ⟨joinWith " " init, e⟩) = init ++ [addressWord e] := by
  have shown : e.isEmpty = false := by simpa using addressed
  rcases init with _ | ⟨w, ws⟩
  · have printed : Author.render ⟨joinWith " " [], e⟩ = addressWord e := by
      simp only [Author.render, shown]
      rfl
    rw [printed, Text.words_of_isWord address, List.nil_append]
  · have named : (joinWith " " (w :: ws)).isEmpty = false := by
      simpa using joinWith_ne_empty h (List.cons_ne_nil w ws)
    have printed : Author.render ⟨joinWith " " (w :: ws), e⟩ =
        joinWith " " (w :: ws) ++ " " ++ addressWord e := by
      simp only [Author.render, named, shown, addressWord]
      rw [show " <" = " " ++ "<" from rfl]
      simp only [String.append_assoc]
    rw [printed, Text.words_append, Text.words_joinWith h, Text.words_of_isWord address]

/-! ## Hollow texts

A text is hollow if its address is empty and the word in front of that is an address itself, or there is
none: then what is printed is not read back. -/

/-- The last word of a text is an address with nothing in it, and no word that is no address stands before
it. -/
def Hollow (ws : List String) : Prop :=
  ∃ init, ws = init ++ [addressWord ""] ∧ ∀ w ∈ init.getLast?, (bracketed? w).isSome

theorem hollow_concat :
    Hollow (init ++ [w]) ↔ w = addressWord "" ∧ ∀ v ∈ init.getLast?, (bracketed? v).isSome := by
  constructor
  · rintro ⟨init', same, before⟩
    obtain ⟨rfl, last⟩ := List.append_inj' same rfl
    exact ⟨List.singleton_inj.1 last, before⟩
  · rintro ⟨rfl, before⟩
    exact ⟨init, rfl, before⟩

/-- A name is read back as a name exactly if its last word is no address. -/
theorem authorOfText_name (h : ∀ w ∈ init, IsWord w) :
    authorOfText (joinWith " " init) = .ok ⟨joinWith " " init, ""⟩ ↔
      ∃ w ∈ init.getLast?, bracketed? w = none := by
  have cut := Text.words_joinWith h
  rcases last : init.getLast? with _ | w
  · rw [authorOfText_blank (cut.trans (List.getLast?_eq_none_iff.1 last))]
    exact iff_of_false nofun nofun
  · obtain ⟨before, rfl⟩ := List.getLast?_eq_some_iff.1 last
    rcases shape : bracketed? w with _ | e
    · exact iff_of_true (authorOfText_plain cut shape) ⟨w, rfl, shape⟩
    · obtain rfl := bracketed?_iff.1 shape
      rw [authorOfText_address cut]
      refine iff_of_false (fun same => ?_) ?_
      · -- the name has lost its last word
        have names : joinWith " " before = joinWith " " (before ++ [addressWord e]) :=
          congrArg Author.name (Except.ok.inj same)
        rw [← names, Text.words_joinWith (List.forall_mem_append.1 h).1] at cut
        simp at cut
      · rintro ⟨v, found, plain⟩
        rw [← Option.some.inj found, bracketed?_iff.2 rfl] at plain
        cases plain

/-- The author that a text names is read back from what it is printed as, unless the text is hollow. -/
theorem authorOfText_render (read : authorOfText s = .ok a) :
    authorOfText a.render = .ok a ↔ ¬ Hollow (words s) := by
  obtain ⟨init, last, cut, isWord, ⟨plain, rfl⟩ | ⟨e, rfl, rfl⟩⟩ := authorOfText_cases read <;>
    rw [cut, hollow_concat]
  · rw [render_name, authorOfText_name isWord, List.getLast?_concat]
    refine iff_of_true ⟨last, rfl, plain⟩ fun hollow => ?_
    rw [bracketed?_iff.2 hollow.1] at plain
    cases plain
  · obtain ⟨before, word⟩ := List.forall_mem_append.1 isWord
    rcases Decidable.em (e = "") with rfl | addressed
    · rw [render_name, authorOfText_name before]
      simp
    · have printed := words_render before (word _ List.mem_cons_self) addressed
      exact iff_of_true (authorOfText_address printed) fun hollow => addressed (addressWord_inj hollow.1)

/-! ## Whom an entry names

The entry may be a text or an object; an object is refused where both of its parts are missing. -/

/-- A text names someone unless its only word is an address with nothing in it. -/
theorem authorOfText_names (read : authorOfText s = .ok a) :
    a.name ≠ "" ∨ a.email ≠ "" ↔ words s ≠ [addressWord ""] := by
  obtain ⟨init, last, cut, isWord, ⟨plain, rfl⟩ | ⟨e, rfl, rfl⟩⟩ := authorOfText_cases read <;> rw [cut]
  · refine iff_of_true (.inl (joinWith_ne_empty isWord (by simp))) fun same => ?_
    obtain ⟨-, last⟩ := List.append_inj' (same.trans (List.nil_append _).symm) rfl
    rw [List.singleton_inj.1 last, bracketed?_iff.2 rfl] at plain
    cases plain
  · rcases Decidable.em (e = "") with rfl | addressed
    · -- the name is all there can be
      have named : joinWith " " init ≠ "" ↔ init ≠ [] := by
        refine ⟨?_, joinWith_ne_empty (List.forall_mem_append.1 isWord).1⟩
        rintro filled rfl
        exact filled rfl
      simpa using named
    · refine iff_of_true (.inr addressed) fun same => addressed ?_
      obtain ⟨-, last⟩ := List.append_inj' (same.trans (List.nil_append _).symm) rfl
      exact addressWord_inj (List.singleton_inj.1 last)

/-- An object is refused if it has neither a name nor an address. -/
theorem author_object {entries : List (Yaml.Datum × Yaml.Datum)} (read : author (.object entries) = .ok a) :
    a.name ≠ "" ∨ a.email ≠ "" := by
  rw [author] at read
  rcases given : objectMembers entries with problem | members <;> rw [given] at read
  · cases read
  simp only [bind, Except.bind] at read
  split at read
  · cases read
  · next some =>
      obtain rfl := Except.ok.inj read
      rcases Decidable.em (memberText members "name" = "") with blank | named
      · refine .inr fun (none : memberText members "email" = "") => some ?_
        rw [blank, none]
        rfl
      · exact .inl named

/-- An author that an entry gives is someone, unless the entry is the text of an address with nothing in it;
and one that a text gives is read back from what it is printed as, unless the text is hollow. -/
theorem author_settles (e : Entry) (s : String) :
    (∀ a, author e = .ok a →
      (a.name ≠ "" ∨ a.email ≠ "" ↔ ∀ s, e = .text s → words s ≠ [addressWord ""])) ∧
    ∀ a, authorOfText s = .ok a → (authorOfText a.render = .ok a ↔ ¬ Hollow (words s)) := by
  refine ⟨fun a read => ?_, fun a => authorOfText_render⟩
  cases e with
  | text s =>
      rw [authorOfText_names read]
      exact ⟨fun h t same => Entry.text.inj same ▸ h, fun h => h s rfl⟩
  | object entries => exact iff_of_true (author_object read) nofun
  | other v => cases read

/-- A name of two words and an address. -/
theorem author_settles_jane :
    author (.text "Jane Doe <jane@example.com>") = .ok ⟨"Jane Doe", "jane@example.com"⟩ ∧
      ¬ Hollow (words "Jane Doe <jane@example.com>") ∧ words "Jane Doe <jane@example.com>" ≠ [addressWord ""] ∧
      ("Jane Doe" ≠ "" ∨ "jane@example.com" ≠ "") ∧
      authorOfText (Author.render ⟨"Jane Doe", "jane@example.com"⟩) = .ok ⟨"Jane Doe", "jane@example.com"⟩ := by
  have cut : words "Jane Doe <jane@example.com>" = ["Jane", "Doe"] ++ [addressWord "jane@example.com"] := by
    decide +kernel
  have read : author (.text "Jane Doe <jane@example.com>") = .ok ⟨"Jane Doe", "jane@example.com"⟩ :=
    authorOfText_address cut
  have solid : ¬ Hollow (words "Jane Doe <jane@example.com>") := by
    rw [cut, hollow_concat]
    exact fun hollow => absurd hollow.1 (by decide)
  have several : words "Jane Doe <jane@example.com>" ≠ [addressWord ""] := by
    rw [cut]
    decide
  obtain ⟨settled, printed⟩ :=
    author_settles (.text "Jane Doe <jane@example.com>") "Jane Doe <jane@example.com>"
  have named := (settled _ read).2 fun s same => Entry.text.inj same ▸ several
  exact ⟨read, solid, several, named, (printed _ (authorOfText_address cut)).2 solid⟩

/-- The empty address: it names nobody; and behind another address it leaves a name that is read back as
that address. -/
theorem nobody_named :
    author (.text "<>") = .ok ⟨"", ""⟩ ∧
      authorOfText "<a> <>" = .ok ⟨"<a>", ""⟩ ∧
      authorOfText (Author.render ⟨"<a>", ""⟩) = .ok ⟨"", "a"⟩ := by
  have alone : words "<>" = [] ++ [addressWord ""] := by decide +kernel
  have behind : words "<a> <>" = ["<a>"] ++ [addressWord ""] := by decide +kernel
  have left : words (Author.render ⟨"<a>", ""⟩) = [] ++ [addressWord "a"] := by decide +kernel
  exact ⟨authorOfText_address alone, authorOfText_address behind, authorOfText_address left⟩

end Metadata

end RegoSyntax
