/-
# RegoSyntax.Proofs.Printing.Atoms — the text of a primary term is read as that term.

`Term.Echoes` says that a term comes back from its text, whatever closes it; `Term.Heads` says the same of
a term that a reference or a call goes on behind, and leaves open what becomes of it there.  A printed term
has no operators and is never read twice: what would be an operator ends it, and each tier of operators
finds none.

The grammar is followed to a depth that the text is paid for with: `Deep` says that there is enough left
for a text, and for a few productions more that are entered before the next token is taken.
-/
import RegoSyntax.Proofs.Printing.Pages
import RegoSyntax.Proofs.Printing.Printed

namespace RegoSyntax

open Parse Lexeme

/-! ## Sameness

What is read back has other places, so it is compared by `same`, which does not look at them.  Trees that
are the same have the same forms, and answer alike to what the parser asks. -/

section sameness

/-- Terms are the same if their values are. -/
theorem Term.same_eq (t u : Term) : t.same u = t.value.same u.value := by
  obtain ⟨v, l⟩ := t
  obtain ⟨w, m⟩ := u
  rw [Term.same]

/-- References are the same if their paths are. -/
theorem Term.same_of_refs {t u : Term} {p q : List Term} (ht : t.value = .ref p) (hu : u.value = .ref q)
    (h : sameTerms p q = true) : t.same u = true := by
  rw [Term.same_eq, ht, hu, Value.same]
  exact h

/-- Lists of terms are compared piece by piece. -/
theorem sameTerms_append {a b c d : List Term} (first : sameTerms a c = true)
    (rest : sameTerms b d = true) : sameTerms (a ++ b) (c ++ d) = true := by
  induction a generalizing c with
  | nil =>
      cases c with
      | nil => exact rest
      | cons => simp [sameTerms] at first
  | cons t a ih =>
      cases c with
      | nil => simp [sameTerms] at first
      | cons u c =>
          simp only [sameTerms, List.cons_append, Bool.and_eq_true] at first ⊢
          exact ⟨first.1, ih first.2⟩

/-- Lists of entries are compared piece by piece. -/
theorem samePairs_append {a b c d : List (Term × Term)} (first : samePairs a c = true)
    (rest : samePairs b d = true) : samePairs (a ++ b) (c ++ d) = true := by
  induction a generalizing c with
  | nil =>
      cases c with
      | nil => exact rest
      | cons => simp [samePairs] at first
  | cons t a ih =>
      obtain ⟨k, v⟩ := t
      rcases c with _ | ⟨⟨l, w⟩, c⟩
      · simp [samePairs] at first
      · simp only [samePairs, List.cons_append, Bool.and_eq_true] at first ⊢
        exact ⟨first.1, ih first.2⟩

/-- A list of one term. -/
theorem sameTerms_singleton {t u : Term} (h : t.same u = true) : sameTerms [t] [u] = true := by
  simp [sameTerms, h]

/-- A list of one entry. -/
theorem samePairs_singleton {k v k' v' : Term} (key : k.same k' = true) (value : v.same v' = true) :
    samePairs [(k, v)] [(k', v')] = true := by
  simp [samePairs, key, value]

variable {v w : Value}

theorem Value.varName?_of_same (h : v.same w = true) : w.varName? = v.varName? := by
  cases v <;> cases w <;> simp_all [Value.same, Value.varName?]

theorem Parse.canHeadRef_of_same (h : v.same w = true) : canHeadRef w = canHeadRef v := by
  cases v <;> cases w <;> simp_all [Value.same, canHeadRef]

theorem Value.isVarNamed_of_same (h : v.same w = true) (name : String) :
    w.isVarNamed name = v.isVarNamed name := by
  rw [Value.isVarNamed, Value.isVarNamed, Value.varName?_of_same h]

theorem Parse.isRoot_of_same (h : v.same w = true) : isRoot w = isRoot v := by
  rw [isRoot, isRoot, Value.isVarNamed_of_same h, Value.isVarNamed_of_same h]

end sameness

/-! ## Depth

How deep the grammar has to be followed is told by the length of the text, with some productions more for
each token. -/

/-- The grammar is followed deep enough for a text, and for `rank` productions more. -/
def Deep (n : Nat) (s : List Char) (rank : Nat) : Prop := chainLength * s.length + rank ≤ n

namespace Deep

variable {n rank rank' : Nat} {s t : List Char}

/-- One production is entered. -/
theorem enter (h : Deep n s (rank + 1)) : ∃ m, n = m + 1 ∧ Deep m s rank := by
  unfold Deep at h
  exact ⟨n - 1, by omega, by unfold Deep; omega⟩

/-- There is enough depth for fewer productions. -/
theorem mono (h : Deep n s rank) (le : rank' ≤ rank) : Deep n s rank' :=
  (Nat.add_le_add_left le _).trans h

/-- A token pays for the productions before the next one. -/
theorem shorter (h : Deep n s rank) (lt : t.length < s.length) (le : rank' ≤ chainLength) :
    Deep n t rank' := by
  unfold Deep chainLength at *
  omega

end Deep

/-! ## Primary terms

A term is recalled where the parser has been before.  Where nothing is remembered from here on it is read,
and then remembered. -/

/-- A primary term, without what is remembered of it. -/
def Parse.primary (g : Grammar) : Parse Term := do
  let t ← head g
  finish g t false

namespace Page

variable {p : Page} {g : Grammar} {n : Nat} {r s : List Char} {u : Reading}

/-- No reading of what is to be read is taken up again. -/
theorem runs_remembered {α : Type} {f : Option MemoEntry → Parse α} {Q : Option α → Reading → Prop}
    (h : p.Here s u) (afresh : p.Runs (f none) u Q) : p.Runs (Parse.remembered >>= f) u Q := by
  have unknown : u.memo.lookup u.look.offset = none := by
    rcases found : u.memo.lookup u.look.offset with _ | e
    · rfl
    · obtain ⟨listed, same⟩ := Memo.lookup_some found
      have before := h.memo e listed
      have here := h.offset_add
      omega
  unfold Parse.remembered
  rw [bind_bind_iff, reading_iff, unknown]
  exact afresh

/-- A term is remembered, and starts before the place that the parser has come to. -/
theorem runs_remember {start : Reading} (before : p.Here s start) (h : p.Here r u)
    (shorter : String.utf8Len r < String.utf8Len s) (term : Option Term) :
    p.Runs (Parse.remember start.save term) u <| Given fun _ v => p.Here r v := by
  intro o depth journal _
  refine ⟨(), rfl, { h with memo := fun e he => ?_ }⟩
  rcases List.mem_cons.1 he with rfl | he
  · have place : start.look.offset + String.utf8Len s = p.source.utf8ByteSize := before.offset_add
    show start.look.offset + String.utf8Len r < p.source.utf8ByteSize
    omega
  · exact h.memo e ((List.dropWhile_sublist _).subset he)

/-- What is read as a primary term is read as a term. -/
theorem runs_term {P : Term → Prop} (h : p.Here s u) (shorter : String.utf8Len r < String.utf8Len s)
    (deep : Deep n s 1)
    (read : ∀ m, Deep m s 0 → p.Runs (primary (grammar m)) u (Given fun t v => P t ∧ p.Here r v)) :
    p.Runs (grammar n .term) u <| Given fun t v => P t ∧ p.Here r v := by
  obtain ⟨m, rfl, within⟩ := deep.enter
  refine runs_nested (runs_remembered h ?_)
  unfold freshTerm
  rw [save_iff]
  refine gives_bind (P := fun a v => ∃ t, a = some t ∧ P t ∧ p.Here r v) ?_ ?_
  · refine runs_attempt ((read m within).imp ?_)
    rintro _ v ⟨t, rfl, holds⟩
    exact ⟨some t, rfl, t, rfl, holds⟩
  · rintro _ v ⟨t, rfl, holds, here⟩
    exact gives_bind (runs_remember h here shorter _) fun _ w here => runs_ofOption ⟨t, rfl, holds, here⟩

/-! ## Behind a term

Behind a term stands what closes it, or what it goes on with; the parser tells them apart by the very next
token, blanks included. -/

/-- A legal text has no blank in front. -/
theorem past_of_legal (legal : Legal s) : past s = s := by
  unfold past
  split
  · exact absurd rfl legal.filled
  · rfl

/-- Behind a term there is a blank, which is passed over, or one of the marks that may stand there. -/
theorem Here.closing (h : p.Here r u) (closes : Closes r) :
    (u.look.token = .whitespace ∧ p.Runs scan u (Given fun _ v => p.Here (past r) v)) ∨
      (u.look.token ∈ closingTokens ∧ p.Here (past r) u) := by
  rcases closes.token with ⟨token, blank⟩ | ⟨token, same⟩
  · have left : behind r = past r := by
      rw [blank]
      rfl
    have again : past (past r) = past r := past_of_legal closes.legal
    refine .inl ⟨h.token_eq token nofun, ?_⟩
    refine (h.scan (by rw [left, again]; exact closes.legal)).imp_given fun _ v ⟨sees, memo⟩ => ?_
    rw [left, again] at sees
    exact ⟨sees, memo ▸ h.memo.mono (utf8Len_past r)⟩
  · have other : Token.containsKw ∉ closingTokens := by decide
    refine .inr ⟨?_, same.symm ▸ h⟩
    rw [h.token_eq rfl fun contains => other (contains ▸ token)]
    exact token

/-- A term with nothing behind it that it goes on with. -/
theorem runs_finish_closes (h : p.Last r u) (closes : Closes r) (t : Term) :
    p.Runs (finish g t false) u <| Given fun t' v =>
      t'.value = (if isRoot t.value then .ref [t] else t.value) ∧ p.Here (past r) v := by
  have result : (if isRoot t.value then (⟨.ref [t], t.location⟩ : Term) else t).value =
      if isRoot t.value then .ref [t] else t.value := by split <;> rfl
  unfold finish
  rw [offset_iff]
  refine gives_bind (h.scanBlank closes.stops) fun _ v here => ?_
  rw [token_iff]
  rcases here.closing closes with ⟨token, scan⟩ | ⟨token, there⟩
  · rw [token]
    exact gives_bind scan fun _ w there => gives_pure ⟨result, there⟩
  · simp only [closingTokens, List.mem_cons, List.not_mem_nil, or_false] at token
    rcases token with token | token | token | token | token | token | token <;> rw [token] <;>
      exact gives_pure ⟨result, there⟩

/-- A term with something behind it that it goes on with. -/
theorem runs_finish_opens {Q : Option Term → Reading → Prop} (h : p.Last r u) (opens : Opens r) (t : Term)
    (rest : ∀ start v, p.Here r v → p.Runs (g (.reference t start)) v Q) :
    p.Runs (finish g t false) u Q := by
  have stops : Stops r := by cases opens <;> exact ⟨rfl, nofun⟩
  unfold finish
  rw [offset_iff]
  refine gives_bind (h.scanBlank stops) fun _ v here => ?_
  rw [token_iff]
  cases opens
  all_goals
    rw [here.token_eq rfl nofun]
    exact rest _ v here

/-! ## Atoms

An atom is one token, or a number with its sign. -/

/-- A constant. -/
theorem runs_constant {value : Value} {word : String} {kind : Token}
    (listed : (value, word, kind) ∈ constants) (h : p.Here (word.toList ++ r) u) (apart : Apart r) :
    p.Runs (head g) u <| Given fun t v => t.value = value ∧ p.Last r v := by
  obtain ⟨shows, left⟩ := shown_constant listed apart
  obtain ⟨⟨c, w, cons, -⟩, -⟩ := constants_reserved _ listed
  have last : p.Last r u := left ▸ h.last (by rw [cons]; exact List.cons_ne_nil _ _)
  have token : kind ≠ .containsKw → u.look.token = kind := h.token_eq shows
  unfold head
  rw [token_iff]
  simp only [constants, List.mem_cons, Prod.mk.injEq, List.not_mem_nil, or_false] at listed
  rcases listed with ⟨rfl, -, rfl⟩ | ⟨rfl, -, rfl⟩ | ⟨rfl, -, rfl⟩ <;> rw [token (by decide)] <;>
    exact gives_here ⟨rfl, last⟩

/-- A string. -/
theorem runs_string {text : String} (h : p.Here ((Quoted.json text).toList ++ r) u) :
    p.Runs (head g) u <| Given fun t v => t.value = .string text ∧ p.Last r v := by
  have token := next_json text r
  have current : u.look.token = .string := h.token_eq (shown_of_next token nofun) nofun
  have filled : (Quoted.json text).toList ++ r ≠ [] := by
    rw [Quoted.json_toList]
    exact List.cons_ne_nil _ _
  have literal : u.look.literal = Quoted.json text := by
    rw [h.literal_eq (by rw [token]; nofun) filled, token, List.take_left, String.ofList_toList]
  have last : p.Last r u := by
    have last := h.last filled
    rwa [behind, token, List.drop_left] at last
  unfold head
  rw [token_iff, current]
  unfold string
  rw [look_iff, literal]
  dsimp only
  -- neither is the spelling raw, nor is it that of the empty string, unless the text is empty
  split
  · next raw =>
      rw [Quoted.json_toList] at raw
      cases raw
  split
  · next empty =>
      have same : some text = some "" := by
        rw [← JsonText.stringOf_json text, beq_iff_eq.1 empty]
        decide +kernel
      rw [Option.some.inj same]
      exact gives_here ⟨rfl, last⟩
  · rw [JsonText.stringOf_json]
    exact gives_here ⟨rfl, last⟩

/-- A variable. -/
theorem runs_variable {name : String} (speakable : Speakable name) (h : p.Here (name.toList ++ r) u)
    (apart : Apart r) : p.Runs (head g) u <| Given fun t v => t.value = .var name ∧ p.Last r v := by
  have token := next_word speakable.word apart
  have filled : name.toList ++ r ≠ [] := by
    obtain ⟨c, w, cons, -⟩ := speakable.word
    rw [cons]
    exact List.cons_ne_nil _ _
  have last : p.Last r u := behind_word speakable.word apart ▸ h.last filled
  have literal : u.look.literal = name := by
    rw [h.literal_eq (by rw [token]; nofun) filled, token, List.take_left, String.ofList_toList]
  -- -- `contains` is the one keyword that names a variable, and shows as itself or as an identifier
  have dispatch : u.look.token = .ident ∨ u.look.token = .containsKw := by
    rcases speakable.shown apart with shows | ⟨-, shows⟩
    · exact .inl (h.token_eq shows nofun)
    · rcases h.token with same | ⟨-, same⟩
      · exact .inr (same.trans shows)
      · exact .inl same
  have read : p.Runs variableHere u (Given fun t v => t.value = .var name ∧ p.Last r v) := by
    unfold variableHere
    rw [look_iff, literal, if_neg (by simpa using speakable.named)]
    exact gives_here ⟨rfl, last⟩
  unfold head
  rw [token_iff]
  rcases dispatch with same | same <;> rw [same] <;> exact read

/-! ### Numbers

The sign of a number is a token of its own, and the parser takes it only in front of a number or a point.
-/

/-- A mark in front of a number, if it is there. -/
theorem runs_signMark {mark : Token} {following : List Token} {marked : Bool} {c : Char}
    (h : p.Here ((if marked then [c] else []) ++ s) u) (shows : shown (c :: s) = mark)
    (left : behind (c :: s) = s) (legal : Legal s) (follows : shown s ∈ following)
    (plain : Token.containsKw ∉ mark :: following) (other : mark ∉ following) :
    p.Runs (signMark mark following) u <| Given fun b v => b = marked ∧ p.Here s v := by
  have word : shown s ≠ .containsKw := fun word => plain (word ▸ List.mem_cons_of_mem _ follows)
  unfold signMark
  rw [token_iff]
  -- the sign or the point is there or not, as the spelling has it
  cases marked with
  | false =>
      have token : u.look.token = shown s := h.token_eq rfl word
      have absent : (u.look.token == mark) = false := by
        rw [token, beq_eq_false_iff_ne]
        exact fun same => other (same ▸ follows)
      rw [absent]
      exact gives_pure ⟨rfl, h⟩
  | true =>
      have token : u.look.token = mark := h.token_eq shows fun word => plain (word ▸ .head _)
      have next : p.Last s u := Here.before h left
      rw [token, beq_self_eq_true, if_pos rfl]
      refine gives_bind (next.scan ((past_of_legal legal).symm ▸ legal)) fun _ v here => ?_
      rw [past_of_legal legal] at here
      rw [token_iff, here.token_eq rfl word, if_pos (List.contains_iff_mem.2 follows)]
      exact gives_pure ⟨rfl, here⟩

/-- A number. -/
theorem runs_number {spelling : String} (spelled : Spelled spelling)
    (h : p.Here (spelling.toList ++ r) u) (closes : Closes r) :
    p.Runs (head g) u <| Given fun t v => t.value = .number spelling ∧ p.Last r v := by
  have dispatch := (spelled.first closes).2
  obtain ⟨negative, pointed, literal, ahead, same, whole, zero, n, numeral, bounds⟩ := spelled
  obtain ⟨legal, token, left, taken⟩ := next_literal whole closes
  have split : spelling.toList ++ r = (if negative then ['-'] else []) ++
      ((if pointed then ['.'] else []) ++ (literal.toList ++ r)) := by
    rw [same]
    cases negative <;> cases pointed <;> simp
  -- behind the sign there is the point, or the number itself
  have pointLegal : Legal ((if pointed then ['.'] else []) ++ (literal.toList ++ r)) ∧
      shown ((if pointed then ['.'] else []) ++ (literal.toList ++ r)) ∈ [Token.number, .dot] := by
    cases pointed
    · exact ⟨legal, token ▸ .head _⟩
    · exact ⟨⟨⟨rfl, nofun⟩, nofun⟩, List.contains_iff_mem.1 rfl⟩
  have read : p.Runs Parse.number u (Given fun t v => t.value = .number spelling ∧ p.Last r v) := by
    unfold Parse.number
    rw [location_iff]
    refine gives_bind (runs_signMark (split ▸ h) rfl rfl pointLegal.1 pointLegal.2 (by decide) (by decide)) ?_
    rintro sign v ⟨signed, behind⟩
    refine gives_bind (runs_signMark behind rfl rfl legal (token ▸ .head _) (by decide) (by decide)) ?_
    rintro point w ⟨dotted, here⟩
    have filled : literal.toList ++ r ≠ [] := by
      intro none
      rw [none] at token
      cases token
    have text : w.look.literal = literal := by
      rw [here.literal_eq legal.solid filled, taken, String.ofList_toList]
    -- only where no point stands in front are leading zeros looked for
    have noZero : (!pointed && Numeral.hasLeadingZero literal.toList) = false := by
      cases pointed
      · exact zero rfl
      · rfl
    rw [look_iff, text, signed, dotted]
    dsimp only
    rw [noZero, ← same]
    simp only [Bool.false_eq_true, if_false, numeral, bounds, if_true]
    exact gives_pure ⟨rfl, left ▸ here.last filled⟩
  unfold head
  rw [token_iff]
  simp only [List.mem_cons, List.not_mem_nil, or_false] at dispatch
  rcases dispatch with shows | shows | shows <;> rw [h.token_eq shows nofun] <;> exact read

end Page

open Page (Given)

/-! ## Terms that are read back

To be read back is told in several strengths: with what a term goes on with, without it, and as an
expression. -/

section back

variable (p : Page) (t : Term)

/-- A term is read back from its text, whatever closes it. -/
def Term.Echoes : Prop :=
  ∀ n r u, Closes r → p.Here (t.text ++ r) u → Deep n (t.text ++ r) 1 →
    p.Runs (grammar n .term) u (Given fun t' v => t.same t' = true ∧ p.Here (past r) v)

/-- A printed term that stands for a value is read back. -/
structure Term.Back : Prop where
  plain : t.Plain
  echoes : t.Echoes p

/-- The tokens that the text of an expression starts with. -/
def literalTokens : List Token := openingTokens ++ [.notKw, .someKw, .everyKw]

/-- An expression is read back from its text, whatever ends it. -/
structure Expr.Back (p : Page) (e : Expr) : Prop where
  first : ∀ r, Closes r → Legal (e.text ++ r) ∧ shown (e.text ++ r) ∈ literalTokens
  echoes : ∀ n r u, Ends r → p.Here (e.text ++ r) u → Deep n (e.text ++ r) 9 →
    p.Runs (grammar n .literal) u (Given fun e' v => e.same e' = true ∧ p.Here (past r) v)

/-- A term is read back from its text without what it goes on with. -/
def Term.Begins (r : List Char) : Prop :=
  ∀ n u, p.Here (t.text ++ r) u → Deep n (t.text ++ r) 0 →
    p.Runs (head (grammar n)) u (Given fun t' v => t.same t' = true ∧ p.Last r v)

/-- A term is read back from its text, and then the parser is to read what it goes on with. -/
def Term.Continues (r : List Char) : Prop :=
  ∀ n u Q, p.Here (t.text ++ r) u → Deep n (t.text ++ r) 0 →
    (∀ m t' start v, t.same t' = true → p.Here r v → Deep m r 2 →
      p.Runs (grammar m (.reference t' start)) v Q) →
    p.Runs (primary (grammar n)) u Q

variable {p t}

theorem Term.Begins.continues {r : List Char} (h : t.Begins p r) (opens : Opens r)
    (filled : t.text ≠ []) : t.Continues p r := by
  intro n u Q here deep rest
  unfold primary
  refine Page.gives_bind (h n u here deep) fun t' v ⟨same, last⟩ => ?_
  have shorter : r.length < (t.text ++ r).length := by
    rw [List.length_append]
    exact Nat.lt_add_of_pos_left (List.length_pos_of_ne_nil filled)
  exact Page.runs_finish_opens last opens t' fun start w there =>
    rest n t' start w same there (deep.shorter shorter (by decide))

/-- What is read as a primary term is read as a term. -/
theorem Term.echoes_of_primary (filled : t.text ≠ [])
    (h : ∀ n r u, Closes r → p.Here (t.text ++ r) u → Deep n (t.text ++ r) 0 →
      p.Runs (primary (grammar n)) u (Given fun t' v => t.same t' = true ∧ p.Here (past r) v)) :
    t.Echoes p := by
  intro n r u closes here deep
  have taken : 0 < String.utf8Len t.text := by
    obtain ⟨c, s, cons⟩ := List.exists_cons_of_ne_nil filled
    rw [cons, String.utf8Len_cons]
    exact Nat.add_pos_right _ c.utf8Size_pos
  have shorter : String.utf8Len (past r) < String.utf8Len (t.text ++ r) := by
    rw [String.utf8Len_append]
    have := Page.utf8Len_past r
    omega
  exact Page.runs_term here shorter deep fun m within => h m r u closes here within

theorem Term.Begins.echoes (h : ∀ r, Closes r → t.Begins p r) (other : isRoot t.value = false)
    (filled : t.text ≠ []) : t.Echoes p := by
  refine t.echoes_of_primary filled fun n r u closes here deep => ?_
  unfold primary
  refine Page.gives_bind (h r closes n u here deep) fun t' v ⟨same, last⟩ => ?_
  refine (Page.runs_finish_closes last closes t').imp_given fun t'' w ⟨value, there⟩ => ⟨?_, there⟩
  rw [Term.same_eq] at same ⊢
  rwa [value, isRoot_of_same same, other]

/-- The root of a document is a path on its own. -/
theorem Term.Begins.root {l : Option Location} (h : ∀ r, Closes r → t.Begins p r)
    (root : isRoot t.value = true) (filled : t.text ≠ []) : Term.Echoes p ⟨.ref [t], l⟩ := by
  have text : Term.text ⟨.ref [t], l⟩ = t.text := by
    rw [text_ref, no_segments_text, List.append_nil]
  refine Term.echoes_of_primary (text ▸ filled) fun n r u closes here deep => ?_
  rw [text] at here deep
  unfold primary
  refine Page.gives_bind (h r closes n u here deep) fun t' v ⟨same, last⟩ => ?_
  refine (Page.runs_finish_closes last closes t').imp_given fun t'' w ⟨value, there⟩ => ⟨?_, there⟩
  rw [isRoot_of_same ((Term.same_eq _ _).symm.trans same), root, if_pos rfl] at value
  rw [Term.same_eq, value, Value.same]
  exact sameTerms_singleton same

end back

/-! ### Atoms

Each atom begins with its own token, and nothing goes on with it that would make it longer. -/

section atoms

variable {p : Page} {l : Option Location} {r : List Char}

/-- A constant is read from its word. -/
theorem begins_constant {t : Term} (h : t.value = .null ∨ ∃ b, t.value = .boolean b)
    (apart : Apart r) : t.Begins p r := by
  obtain ⟨word, kind, listed, text⟩ := text_constant h
  intro n u here deep
  rw [text] at here
  refine (Page.runs_constant listed here apart).imp_given fun t' v ⟨value, last⟩ => ⟨?_, last⟩
  rw [Term.same_eq, value]
  rcases h with h | ⟨b, h⟩ <;> rw [h] <;> simp [Value.same]

/-- A string is read from its quotes. -/
theorem begins_string (s : String) : Term.Begins p ⟨.string s, l⟩ r := by
  intro n u here deep
  rw [text_string] at here
  refine (Page.runs_string here).imp_given fun t' v ⟨value, last⟩ => ⟨?_, last⟩
  rw [Term.same_eq, value, Value.same, beq_self_eq_true]

/-- A number is read from its spelling. -/
theorem begins_number {spelling : String} (spelled : Spelled spelling) (closes : Closes r) :
    Term.Begins p ⟨.number spelling, l⟩ r := by
  intro n u here deep
  rw [text_number] at here
  refine (Page.runs_number spelled here closes).imp_given fun t' v ⟨value, last⟩ => ⟨?_, last⟩
  rw [Term.same_eq, value, Value.same, beq_self_eq_true]

/-- A variable is read from its name. -/
theorem begins_variable {name : String} (speakable : Speakable name) (apart : Apart r) :
    Term.Begins p ⟨.var name, l⟩ r := by
  intro n u here deep
  rw [text_var] at here
  refine (Page.runs_variable speakable here apart).imp_given fun t' v ⟨value, last⟩ => ⟨?_, last⟩
  rw [Term.same_eq, value, Value.same, beq_self_eq_true]

end atoms

end RegoSyntax
