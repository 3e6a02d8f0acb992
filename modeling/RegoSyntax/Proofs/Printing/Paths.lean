/-
# RegoSyntax.Proofs.Printing.Paths — references and calls are read back.

A reference is read from its head on, segment by segment, and may turn out to be the operator of a call,
whose result may be the head of a longer reference.  So a head is followed by whatever it goes on with,
and `Term.Leads` says that the parser comes there with the head in its hands.

A path is printed without blanks between its segments, and the parser reads it without skipping any: so
wherever a segment ends, what stands there next is a dot, a bracket, the parenthesis of a call, or what
closes the term (`Closes`).  The depth that is needed goes down with the text that is left, one level for
each segment.
-/
import RegoSyntax.Proofs.Printing.Collections

namespace RegoSyntax

open Parse Lexeme
open Page (Given)

namespace Page

variable {p : Page} {n : Nat} {r s : List Char} {u : Reading}

/-! ## Segments

The segments of a path are read one by one: a word behind a point, or a term in brackets. -/

/-- A reference of which the head has been read. -/
theorem runs_reference {head : Term} {start : Nat} {Q : Option Term → Reading → Prop}
    (heads : canHeadRef head.value = true) (deep : Deep n s 2)
    (rest : ∀ m, Deep m s 1 → p.Runs (grammar m (.segments head.place start [head])) u Q) :
    p.Runs (grammar n (.reference head start)) u Q := by
  obtain ⟨m, rfl, within⟩ := deep.enter
  refine runs_nested ?_
  rw [heads]
  exact rest m within

/-- A word of a segment is an identifier, or a keyword that may stand for one. -/
theorem shown_segment {w : String} (word : IsWord w.toList) (apart : Apart r) :
    shown (w.toList ++ r) = .ident ∨ (shown (w.toList ++ r)).isKeyword = true ∨
      (shown (w.toList ++ r)).isFutureKeyword = true := by
  rw [shown_word word apart, String.ofList_toList]
  rcases reserved : KeywordTable.current.get? w with _ | kind
  · exact .inl rfl
  · exact .inr (KeywordTable.isKeyword_of_mem (KeywordTable.known_current.get? reserved))

/-- A segment behind a point. -/
theorem runs_namedSegment {w : String} (word : IsWord w.toList) (apart : Apart r) (stops : Stops r)
    (here : p.Here ('.' :: (w.toList ++ r)) u) :
    p.Runs namedSegment u (Given fun t v => t.value = .string w ∧ p.Here r v) := by
  have last : p.Last (w.toList ++ r) u := here.before rfl
  have legal := legal_of_word word r
  unfold namedSegment
  refine gives_bind (last.scanBlank legal.toStops) fun _ v there => ?_
  rw [token_iff, isRefKeyword_iff, there.words, p.allowsInRefs]
  -- a keyword stands for a name behind a dot, if it is one of those that may
  have named : (v.look.token == .ident || (v.look.token.isKeyword || v.look.token.isFutureKeyword)) = true := by
    rcases there.token with same | ⟨-, same⟩
    · rw [same]
      rcases shown_segment word apart with ident | word | word
      · rw [ident]
        rfl
      · rw [word, Bool.true_or, Bool.or_true]
      · rw [word, Bool.or_true, Bool.or_true]
    · rw [same]
      rfl
  have token := next_word word apart
  have filled : w.toList ++ r ≠ [] := by
    obtain ⟨c, t, cons, -⟩ := word
    rw [cons]
    exact List.cons_ne_nil _ _
  -- the literal of the token is the text of the word
  have literal : v.look.literal = w := by
    rw [there.literal_eq legal.solid filled, token, List.take_left, String.ofList_toList]
  rw [named, if_pos rfl, look_iff]
  have last : p.Last r v := behind_word word apart ▸ there.last filled
  refine gives_bind (last.scanBlank stops) fun _ x ended => ?_
  exact gives_pure ⟨by rw [literal], ended⟩

/-- A segment between brackets. -/
theorem runs_bracketSegment {t : Term} (segment : t.Back p) (stops : Stops r)
    (here : p.Here ('[' :: (t.text ++ ']' :: r)) u) (deep : Deep n ('[' :: (t.text ++ ']' :: r)) 0) :
    p.Runs (bracketSegment (grammar n)) u (Given fun t' v => t.same t' = true ∧ p.Here r v) := by
  have rests : Rests (']' :: r) := .mark (by decide)
  have last : p.Last (t.text ++ ']' :: r) u := here.before rfl
  have legal := (segment.plain.first rests.closes).1
  unfold bracketSegment
  refine gives_bind (last.scan ((past_of_legal legal).symm ▸ legal)) fun _ v there => ?_
  rw [past_of_legal legal] at there
  refine gives_bind (runs_compound segment.echoes rests (fun _ => nofun) there
    (deep.shorter (Nat.lt_succ_self _) (by decide))) fun t' w ⟨same, ended⟩ => ?_
  have ended : p.Here (']' :: r) w := ended
  have last : p.Last r w := ended.before rfl
  rw [token_iff, ended.token_eq rfl nofun]
  exact gives_bind (last.scanBlank stops) fun _ x ended => gives_pure ⟨same, ended⟩

/-- What a path goes on with behind some of its segments. -/
theorem segments_append (ts : List Term) {r : List Char} (apart : Apart r) (stops : Stops r) :
    Apart ((renderSegments ts).toList ++ r) ∧ Stops ((renderSegments ts).toList ++ r) := by
  cases ts with
  | nil =>
      rw [no_segments_text, List.nil_append]
      exact ⟨apart, stops⟩
  | cons t ts =>
      obtain ⟨rest, start | start⟩ := renderSegments_cons t ts <;> rw [start, List.cons_append]
      · exact ⟨Opens.point.apart, ⟨rfl, nofun⟩⟩
      · exact ⟨Opens.bracket.apart, ⟨rfl, nofun⟩⟩

/-- The segments of a path, one by one. -/
theorem runs_segments {place : Location} {start : Nat} {path path' ts : List Term}
    {Q : Option Term → Reading → Prop} (segments : ∀ t ∈ ts, t.Back p) (apart : Apart r) (stops : Stops r)
    (same : sameTerms path path' = true) (here : p.Here ((renderSegments ts).toList ++ r) u)
    (deep : Deep n ((renderSegments ts).toList ++ r) 1)
    (rest : ∀ m path' v, sameTerms (path ++ ts) path' = true → p.Here r v → Deep m r 1 →
      p.Runs (grammar m (.segments place start path')) v Q) :
    p.Runs (grammar n (.segments place start path')) u Q := by
  -- on the segments still written; the path read so far agrees with the path before them
  induction ts generalizing n path path' u with
  | nil =>
      rw [no_segments_text, List.nil_append] at here deep
      rw [List.append_nil] at rest
      exact rest n path' u same here deep
  | cons t ts ih =>
      obtain ⟨m, rfl, within⟩ := deep.enter
      obtain ⟨apart', stops'⟩ := segments_append ts apart stops
      have others : ∀ t ∈ ts, t.Back p := fun t ht => segments t (List.mem_cons_of_mem _ ht)
      have further (t' : Term) (w : Reading) (same' : t.same t' = true)
          (there : p.Here ((renderSegments ts).toList ++ r) w)
          (enough : Deep m ((renderSegments ts).toList ++ r) 1) :
          p.Runs (grammar m (.segments place start (path' ++ [t']))) w Q := by
        refine ih others (sameTerms_append same (sameTerms_singleton same')) there enough ?_
        rw [List.append_assoc]
        exact rest
      -- a segment is written behind a dot if it is a string and a name, else between brackets
      rcases segments_text t ts with ⟨s, string, word, text⟩ | text
      · rw [text, List.cons_append, List.append_assoc] at here within
        show p.Runs (Parse.segments (grammar m) place start path') u Q
        unfold Parse.segments
        rw [token_iff, here.token_eq rfl (by decide : Token.dot ≠ .containsKw)]
        refine gives_bind (runs_namedSegment word apart' stops' here) fun t' w ⟨value, there⟩ => ?_
        refine further t' w ?_ there (within.shorter (by
          simp only [List.length_append, List.length_cons]
          omega) (by decide))
        rw [Term.same_eq, string, value, Value.same, beq_self_eq_true]
      · rw [text, List.cons_append, List.append_assoc] at here within
        show p.Runs (Parse.segments (grammar m) place start path') u Q
        unfold Parse.segments
        rw [token_iff, here.token_eq rfl (by decide : Token.lbrack ≠ .containsKw)]
        refine gives_bind (runs_bracketSegment (segments t List.mem_cons_self) stops' here within) ?_
        rintro t' w ⟨same', there⟩
        refine further t' w same' there (within.shorter (by
          simp only [List.length_append, List.length_cons]
          omega) (by decide))

/-- A path with nothing behind it that it goes on with. -/
theorem runs_endReference {place : Location} {start : Nat} {path : List Term} (closes : Closes r)
    (here : p.Here r u) (deep : Deep n r 1) :
    p.Runs (grammar n (.segments place start path)) u (Given fun t v =>
      t.value = .ref path ∧ p.Here (past r) v) := by
  obtain ⟨m, rfl, -⟩ := deep.enter
  have ends (w : Reading) : p.Runs (endReference place start path) w (Given fun t v =>
      t.value = .ref path ∧ v = w) := by
    unfold endReference
    rw [lastStop_iff]
    exact gives_placed fun l => ⟨rfl, rfl⟩
  show p.Runs (Parse.segments (grammar m) place start path) u _
  unfold Parse.segments
  rw [token_iff]
  -- a blank behind the path is passed over; any other end is looked at and left
  rcases here.closing closes with ⟨token, scan⟩ | ⟨token, there⟩
  · rw [token]
    refine gives_bind (ends u) ?_
    rintro t _ ⟨value, rfl⟩
    exact gives_bind scan fun _ w there => gives_pure ⟨value, there⟩
  · have ended : p.Runs (endReference place start path) u (Given fun t v =>
        t.value = .ref path ∧ p.Here (past r) v) := (ends u).imp_given ?_
    · simp only [closingTokens, List.mem_cons, List.not_mem_nil, or_false] at token
      rcases token with token | token | token | token | token | token | token <;> rw [token] <;>
        exact ended
    · rintro t _ ⟨value, rfl⟩
      exact ⟨value, there⟩

/-! ## Calls

Arguments stand in parentheses right behind a path.  What stands behind a call decides whether the
reference ends with it. -/

/-- A call without arguments. -/
theorem runs_call_nil {g : Grammar} {operator : Term} {start : Nat} (stops : Stops r)
    (here : p.Here ('(' :: ')' :: r) u) :
    p.Runs (call g operator start) u (Given fun t v =>
      t.value = (if isSetConstructor operator then .set [] else .call [operator]) ∧ p.Here r v) := by
  unfold call
  refine runs_nested ?_
  refine gives_bind ((here.before rfl).scan ⟨⟨rfl, nofun⟩, nofun⟩) fun _ v there => ?_
  have there : p.Here (')' :: r) v := there
  have last : p.Last r v := there.before rfl
  have close : v.look.token = .rparen := there.token_eq rfl nofun
  rw [token_iff, close, beq_self_eq_true, if_pos rfl, look_iff]
  exact gives_bind (last.scanBlank stops) fun _ w ended => gives_placed fun l => ⟨rfl, ended⟩

/-- A call with arguments. -/
theorem runs_call_cons {operator op t : Term} {ts : List Term} {start : Nat} (same : op.same operator = true)
    (first : t.Back p) (others : ∀ t ∈ ts, t.Back p) (stops : Stops r)
    (here : p.Here ('(' :: (t.text ++ (more ',' Term.text ts ++ ')' :: r))) u)
    (deep : Deep n ('(' :: (t.text ++ (more ',' Term.text ts ++ ')' :: r))) 0) :
    p.Runs (call (grammar n) operator start) u (Given fun t' v =>
      Value.same (.call (op :: t :: ts)) t'.value = true ∧ p.Here r v) := by
  have rests : Rests (more ',' Term.text ts ++ ')' :: r) := rests_more (.head _) (by decide) ts
  obtain ⟨legal, opening⟩ := first.plain.first rests.closes
  have last : p.Last (t.text ++ (more ',' Term.text ts ++ ')' :: r)) u := here.before rfl
  unfold call
  refine runs_nested ?_
  refine gives_bind (last.scan ((past_of_legal legal).symm ▸ legal)) fun _ v there => ?_
  rw [past_of_legal legal] at there
  -- there is an argument, so the list does not end at once
  have other : v.look.token ≠ .rparen := fun same => by
    have opening := there.token_opening opening
    rw [same] at opening
    exact absurd opening (by decide)
  rw [token_iff, beq_eq_false_iff_ne.2 other]
  refine gives_bind (runs_elements (by decide) first others (sameTerms_singleton same) there
    (deep.shorter (Nat.lt_succ_self _) (by decide))) fun terms w ⟨same, ended⟩ => ?_
  have last : p.Last r w := ended.before rfl
  rw [look_iff]
  have called : Value.same (.call (op :: t :: ts)) (.call terms) = true := by
    rw [Value.same]
    exact same
  exact gives_bind (last.scanBlank stops) fun _ x ended => gives_placed fun l => ⟨called, ended⟩

section called

variable {place : Location} {start : Nat} {path : List Term} {P : Term → Prop}

/-- A path that is called, with nothing behind the call that it goes on with. -/
theorem runs_called_closes (closes : Closes r) (here : p.Here ('(' :: s) u)
    (deep : Deep n ('(' :: s) 1)
    (read : ∀ m operator, Deep m ('(' :: s) 0 → operator.value = .ref path →
      p.Runs (call (grammar m) operator start) u (Given fun t v => P t ∧ p.Here r v)) :
    p.Runs (grammar n (.segments place start path)) u (Given fun t v => P t ∧ p.Here (past r) v) := by
  obtain ⟨m, rfl, within⟩ := deep.enter
  show p.Runs (Parse.segments (grammar m) place start path) u _
  unfold Parse.segments
  have paren : u.look.token = .lparen := here.token_eq rfl nofun
  rw [token_iff, paren]
  dsimp only
  rw [offset_iff, placed_iff]
  refine gives_bind (read m _ within rfl) fun c v ⟨holds, there⟩ => ?_
  rw [token_iff]
  rcases there.closing closes with ⟨token, scan⟩ | ⟨token, there⟩
  · rw [token]
    exact gives_bind scan fun _ w ended => gives_pure ⟨holds, ended⟩
  · simp only [closingTokens, List.mem_cons, List.not_mem_nil, or_false] at token
    rcases token with token | token | token | token | token | token | token <;> rw [token] <;>
      exact gives_pure ⟨holds, there⟩

/-- A path that is called, with something behind the call that it goes on with. -/
theorem runs_called_opens {Q : Option Term → Reading → Prop} (opens : Opens r) (other : r.head? ≠ some '(')
    (here : p.Here ('(' :: s) u) (deep : Deep n ('(' :: s) 1)
    (read : ∀ m operator, Deep m ('(' :: s) 0 → operator.value = .ref path →
      p.Runs (call (grammar m) operator start) u (Given fun t v => P t ∧ p.Here r v))
    (rest : ∀ m t v, Deep m ('(' :: s) 0 → P t → p.Here r v →
      p.Runs (grammar m (.reference t start)) v Q) :
    p.Runs (grammar n (.segments place start path)) u Q := by
  obtain ⟨m, rfl, within⟩ := deep.enter
  show p.Runs (Parse.segments (grammar m) place start path) u _
  unfold Parse.segments
  have paren : u.look.token = .lparen := here.token_eq rfl nofun
  rw [token_iff, paren]
  dsimp only
  rw [offset_iff, placed_iff]
  refine gives_bind (read m _ within rfl) fun c v ⟨holds, there⟩ => ?_
  have further := rest m c v within holds there
  rw [token_iff]
  -- -- another call cannot follow here; a point and a bracket go on with the reference
  cases opens with
  | call => exact absurd rfl other
  | point | bracket =>
      rw [there.token_eq rfl nofun]
      exact further

end called

end Page

/-! ## Heads

A head leads on if the parser comes from its text to what stands behind it with the same term in its
hands.  Names, collections, paths and calls all do. -/

section heads

variable (p : Page)

/-- The parser comes from the text of a head to what it goes on with.  What is made by a call is not
called again. -/
def Term.Leads (t : Term) : Prop :=
  ∀ r, Opens r → (t.isResult = true → r.head? ≠ some '(') → t.Continues p r

/-- A path of which the head and the segments are read back. -/
structure Leading (head : Term) (segments : List Term) : Prop where
  leads : head.Leads p
  heads : canHeadRef head.value = true
  segments : ∀ t ∈ segments, t.Back p

/-- A term that is made by a call of a path, or written as one. -/
def Term.Called (t : Term) : Prop :=
  ∃ head segments args, Leading p head segments ∧ (segments = [] → head.isResult = false) ∧
    t.text = head.text ++ ((renderSegments segments).toList ++ '(' :: args) ∧
    ∀ r u n start operator path, Stops r → sameTerms (head :: segments) path = true →
      operator.value = .ref path → p.Here ('(' :: (args ++ r)) u → Deep n ('(' :: (args ++ r)) 0 →
      p.Runs (call (grammar n) operator start) u (Given fun c v => t.same c = true ∧ p.Here r v)

variable {p}

/-- The parser comes from the text of a path to what is behind it. -/
theorem Leading.runs {head : Term} {segments : List Term} (h : Leading p head segments) {r : List Char}
    (apart : Apart r) (stops : Stops r) (opens : Opens ((renderSegments segments).toList ++ r))
    (other : head.isResult = true → ((renderSegments segments).toList ++ r).head? ≠ some '(')
    {n : Nat} {u : Reading} {Q : Option Term → Reading → Prop}
    (here : p.Here (head.text ++ ((renderSegments segments).toList ++ r)) u)
    (deep : Deep n (head.text ++ ((renderSegments segments).toList ++ r)) 0)
    (rest : ∀ m place start path v, sameTerms (head :: segments) path = true → p.Here r v → Deep m r 1 →
      p.Runs (grammar m (.segments place start path)) v Q) :
    p.Runs (primary (grammar n)) u Q := by
  refine h.leads _ opens other n u Q here deep fun m head' start v same there within => ?_
  have heads : canHeadRef head'.value = true := by
    rw [canHeadRef_of_same ((Term.same_eq _ _).symm.trans same), h.heads]
  refine Page.runs_reference heads within fun m within => ?_
  refine Page.runs_segments h.segments apart stops (sameTerms_singleton same) there within ?_
  exact fun m path v same there within => rest m _ start path v same there within

/-- A segment starts with what goes on with a term, and with no call. -/
theorem renderSegments_opens (t : Term) (ts : List Term) (r : List Char) :
    Opens ((renderSegments (t :: ts)).toList ++ r) ∧
      ((renderSegments (t :: ts)).toList ++ r).head? ≠ some '(' := by
  obtain ⟨rest, start | start⟩ := renderSegments_cons t ts <;> rw [start, List.cons_append]
  · exact ⟨.point, nofun⟩
  · exact ⟨.bracket, nofun⟩

/-- A reference is read back. -/
theorem Leading.echoes {head t : Term} {ts : List Term} {l : Option Location}
    (h : Leading p head (t :: ts)) : Term.Echoes p ⟨.ref (head :: t :: ts), l⟩ := by
  refine Term.echoes_of_primary ?_ fun n r u closes here deep => ?_
  · obtain ⟨rest, start | start⟩ := renderSegments_cons t ts <;> rw [text_ref, start] <;>
      exact List.append_ne_nil_of_right_ne_nil _ (List.cons_ne_nil _ _)
  rw [text_ref, List.append_assoc] at here deep
  obtain ⟨opens, other⟩ := renderSegments_opens t ts r
  refine h.runs closes.apart closes.stops opens (fun _ => other) here deep ?_
  intro m place start path v same there within
  refine (Page.runs_endReference closes there within).imp_given fun t' w ⟨value, ended⟩ => ⟨?_, ended⟩
  rw [Term.same_eq, value, Value.same]
  exact same

namespace Term.Called

variable {t : Term} (h : t.Called p)
include h

/-- A call has text. -/
theorem filled : t.text ≠ [] := by
  obtain ⟨head, segments, args, -, -, text, -⟩ := h
  rw [text]
  exact List.append_ne_nil_of_right_ne_nil _
    (List.append_ne_nil_of_right_ne_nil _ (List.cons_ne_nil _ _))

/-- The parser comes from the text of a call to its arguments. -/
theorem runs : ∃ args, ∀ r n u Q, Stops r →
    p.Here (t.text ++ r) u → Deep n (t.text ++ r) 0 →
    (∀ m place start path v, p.Here ('(' :: (args ++ r)) v → Deep m ('(' :: (args ++ r)) 1 →
      (∀ m operator, Deep m ('(' :: (args ++ r)) 0 → operator.value = .ref path →
        p.Runs (call (grammar m) operator start) v (Given fun c v => t.same c = true ∧ p.Here r v)) →
      p.Runs (grammar m (.segments place start path)) v Q) →
    p.Runs (primary (grammar n)) u Q := by
  obtain ⟨head, segments, args, leading, result, text, read⟩ := h
  refine ⟨args, fun r n u Q stops here deep rest => ?_⟩
  rw [text, List.append_assoc, List.append_assoc, List.cons_append] at here deep
  -- behind the head comes a segment or a parenthesis, and a result is not called again
  have opens : Opens ((renderSegments segments).toList ++ '(' :: (args ++ r)) ∧
      (head.isResult = true → ((renderSegments segments).toList ++ '(' :: (args ++ r)).head? ≠ some '(') := by
    cases segments with
    | nil =>
        rw [no_segments_text, List.nil_append]
        exact ⟨.call, fun made => by rw [result rfl] at made; cases made⟩
    | cons t ts =>
        obtain ⟨opens, other⟩ := renderSegments_opens t ts ('(' :: (args ++ r))
        exact ⟨opens, fun _ => other⟩
  refine leading.runs Opens.call.apart ⟨rfl, nofun⟩ opens.1 opens.2 here deep ?_
  intro m place start path v same there within
  exact rest m place start path v there within fun m operator within value =>
    read r v m start operator path stops same value there within

/-- What is made by a call is read back. -/
theorem echoes : t.Echoes p := by
  refine Term.echoes_of_primary h.filled fun n r u closes here deep => ?_
  obtain ⟨args, runs⟩ := h.runs
  refine runs r n u _ closes.stops here deep fun m place start path v there within read => ?_
  exact Page.runs_called_closes closes there within read

/-- What is made by a call leads on. -/
theorem leads (made : t.isResult = true) : t.Leads p := by
  intro r opens other n u Q here deep rest
  obtain ⟨args, runs⟩ := h.runs
  have stops : Stops r := by cases opens <;> exact ⟨rfl, nofun⟩
  refine runs r n u _ stops here deep fun m place start path v there within read => ?_
  refine Page.runs_called_opens opens (other made) there within read ?_
  intro m c w within same ended
  refine rest m c start w same ended (within.shorter (by
    simp only [List.length_append, List.length_cons]
    omega) (by decide))

end Term.Called

/-! ## Operators

The operator of a call is a path, which may be a name of the language; the empty set is printed as a call
of one. -/

variable {head : Term} {segments : List Term}

/-- Operators that are the same make the same kind of term. -/
theorem isSetConstructor_of_same {op operator : Term} (h : op.same operator = true) :
    isSetConstructor operator = isSetConstructor op := by
  obtain ⟨v, l⟩ := op
  obtain ⟨w, m⟩ := operator
  rw [Term.same_eq] at h
  cases v with
  | ref path =>
      cases w with
      | ref path' =>
          rw [Value.same] at h
          rcases path with _ | ⟨t, _ | ⟨_, _⟩⟩ <;> rcases path' with _ | ⟨t', _ | ⟨_, _⟩⟩ <;>
            simp only [sameTerms, Bool.and_eq_true, Bool.and_false, Bool.false_eq_true] at h
          · rfl
          · exact Value.isVarNamed_of_same ((Term.same_eq t t').symm.trans h.1) setConstructor
          · rfl
      | _ => simp [Value.same] at h
  | _ => cases w <;> simp_all [Value.same, isSetConstructor]

/-- A call of a path is read back. -/
theorem Leading.called {op : Term} {args : List Term} {l : Option Location}
    (h : Leading p head segments) (operator : op.value = .ref (head :: segments))
    (result : segments = [] → head.isResult = false) (arguments : ∀ t ∈ args, t.Back p)
    (other : args = [] → isSetConstructor op = false) : Term.Called p ⟨.call (op :: args), l⟩ := by
  have text : op.text = head.text ++ (renderSegments segments).toList := by
    obtain ⟨v, m⟩ := op
    obtain rfl : v = .ref (head :: segments) := operator
    exact text_ref head segments
  have same {o : Term} {path : List Term} (same : sameTerms (head :: segments) path = true)
      (value : o.value = .ref path) : op.same o = true := Term.same_of_refs operator value same
  -- without arguments the parser meets the closing parenthesis at once
  cases args with
  | nil =>
      refine ⟨head, segments, [')'], h, result, ?_, ?_⟩
      · rw [text_call_nil, text, List.append_assoc]
      · intro r u n start o path stops sameParts value here deep
        refine (Page.runs_call_nil stops here).imp_given fun c v ⟨call, ended⟩ => ⟨?_, ended⟩
        have same := same sameParts value
        rw [isSetConstructor_of_same same, other rfl, if_neg Bool.false_ne_true] at call
        rw [Term.same_eq, call, Value.same]
        exact sameTerms_singleton same
  | cons t ts =>
      refine ⟨head, segments, t.text ++ more ',' Term.text ts ++ [')'], h, result, ?_, ?_⟩
      · rw [text_call_cons, text, List.append_assoc]
      · intro r u n start o path stops sameParts value here deep
        rw [List.append_assoc, List.append_assoc] at here deep
        have first := arguments t List.mem_cons_self
        exact (Page.runs_call_cons (same sameParts value) first
          (fun t ht => arguments t (List.mem_cons_of_mem _ ht)) stops here deep).imp_given
          fun c v read => ⟨(Term.same_eq _ _).trans read.1, read.2⟩

/-- A variable leads on. -/
theorem Speakable.leads {name : String} (speakable : Speakable name) (l : Option Location) :
    Term.Leads p ⟨.var name, l⟩ := by
  intro r opens _
  refine (begins_variable speakable opens.apart).continues opens ?_
  obtain ⟨c, t, cons, -⟩ := speakable.word
  rw [text_var, cons]
  exact List.cons_ne_nil _ _

/-- The empty set is read back. -/
theorem called_set {l : Option Location} : Term.Called p ⟨.set [], l⟩ := by
  have leading : Leading p ⟨.var setConstructor, none⟩ [] :=
    ⟨speakable_set.leads none, rfl, List.forall_mem_nil _⟩
  refine ⟨_, [], [')'], leading, fun _ => rfl, ?_, ?_⟩
  · rw [text_set_nil, text_var, no_segments_text]
    decide
  · intro r u n start operator path stops same value here deep
    refine (Page.runs_call_nil stops here).imp_given fun c v ⟨call, ended⟩ => ⟨?_, ended⟩
    have same : Term.same ⟨.ref [⟨.var setConstructor, none⟩], none⟩ operator = true :=
      Term.same_of_refs rfl value same
    have constructor : isSetConstructor operator = true := (isSetConstructor_of_same same).trans (by decide)
    rw [constructor, if_pos rfl] at call
    rw [Term.same_eq, call, Value.same, sameTerms]

end heads

end RegoSyntax
