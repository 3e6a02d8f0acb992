/-
# RegoSyntax.Proofs.Printing.Printed — trees whose text is read back.

The text of a tree does not tell all trees apart.  A wildcard has a name that is no word; a path may be
headed by a word that is reserved where its text is read; and what is called may be the result of a call,
whose text goes on with a second list of arguments.  `Visit.isPrintable` leaves these out, node by node.
Otherwise the text of a term starts with a bracket, a quote, a number or a word, and `Term.Opening` says
which.
-/
import RegoSyntax.Proofs.Printing.Spelling
import RegoSyntax.Proofs.Printing.Texts

namespace RegoSyntax

open Parse Lexeme

/-! ## Printable nodes -/

/-- Whether a term is made by a call, or written as one. -/
def Term.isResult (t : Term) : Bool :=
  match t.value with
  | .call _ | .set [] => true
  | _ => false

/-- Whether an operator is nothing but what is made by a call, or written as one. -/
def Term.callsResult (op : Term) : Bool :=
  match op.value with
  | .ref [t] => t.isResult
  | _ => false

/-- Whether a word of the current dialect is not reserved, or is the one that may be a variable. -/
def isSpeakable (name : String) : Bool := !Version.v1.reserves name || name == Token.containsKw.name

/-- Whether a value has a text that tells what it is, apart from its parts. -/
def Value.isPrintable : Value → Bool
  | .var name => !isWildcardName name
  | .ref path => (Ref.headVar? path).all isSpeakable
  | .call terms => terms.head?.all (!·.callsResult)
  | _ => true

/-- Whether a node has a text that tells what it is, apart from its parts. -/
def Visit.isPrintable : Visit → Bool
  | .value v => v.isPrintable
  | .expr e => e.operator?.all (!·.callsResult)
  | _ => true

/-- A word that is not reserved in the current dialect. -/
def Unreserved (name : String) : Prop := KeywordTable.current.get? name = none

/-- A node as a parser of the current dialect makes it, with a text that is read back. -/
def Visit.Printed (n : Visit) : Prop := n.Formed Unreserved ∧ n.isPrintable = true

/-- A term with all nodes printed. -/
def Term.Printed (t : Term) : Prop := ∀ n ∈ t.walk, n.Printed

/-- What an expression consists of, with all nodes printed. -/
def ExprTerms.Printed (t : ExprTerms) : Prop := ∀ n ∈ t.walkParts, n.Printed

/-- An expression with all nodes printed. -/
def Expr.Printed (e : Expr) : Prop := ∀ n ∈ e.walk, n.Printed

/-- A term that stands for a value, with all nodes printed. -/
def Term.Plain (t : Term) : Prop := t.Printed ∧ t.value.Stands Unreserved

/-! ## Parts of printed trees -/

section parts

variable {t : Term} {e : Expr} {l : Option Location} {ts : List Term} {b : List Expr}

/-- A term is printed if it is formed and all below it is printed. -/
theorem Term.printed_iff : t.Printed ↔
    t.value.Formed Unreserved ∧ t.value.isPrintable = true ∧ ∀ n ∈ t.value.walkParts, n.Printed := by
  simp [Term.Printed, walk_eq, Visit.Printed, Visit.Formed, Visit.isPrintable, and_assoc]

/-- Terms are printed one by one. -/
theorem forall_printed : (∀ n ∈ walkTerms ts, n.Printed) ↔ ∀ t ∈ ts, t.Printed := by
  simp only [mem_walkTerms, Term.Printed]
  grind

/-- An expression is printed if it is formed and all parts of it are printed. -/
theorem Expr.printed_iff : e.Printed ↔
    e.Formed Unreserved ∧ Visit.isPrintable (.expr e) = true ∧ e.terms.Printed ∧
      ∀ w ∈ e.withs, w.target.Printed ∧ w.value.Printed := by
  simp only [Expr.Printed, expr_walk_eq, List.mem_cons, List.mem_append, mem_walkWiths, Term.Printed,
    ExprTerms.Printed]
  constructor
  · intro printed
    have self := printed _ (.inl rfl)
    exact ⟨self.1, self.2, fun n hn => printed n (.inr (.inl hn)), fun w hw =>
      ⟨fun n hn => printed n (.inr (.inr ⟨w, hw, .inl hn⟩)),
        fun n hn => printed n (.inr (.inr ⟨w, hw, .inr hn⟩))⟩⟩
  · rintro ⟨formed, printable, terms, withs⟩ n (rfl | hn | ⟨w, hw, hn | hn⟩)
    · exact ⟨formed, printable⟩
    · exact terms n hn
    · exact (withs w hw).1 n hn
    · exact (withs w hw).2 n hn

/-- The expressions of a query, of which there is one at least. -/
theorem printed_body (h : ∀ n ∈ walkBody b, n.Printed) : b ≠ [] ∧ ∀ e ∈ b, e.Printed := by
  simp only [walkBody_eq, List.mem_cons, mem_walkExprs] at h
  exact ⟨(h _ (.inl rfl)).1.1, fun e he n hn => h n (.inr ⟨e, he, hn⟩)⟩

/-- The elements of an array stand for values. -/
theorem printed_array (h : Term.Printed ⟨.array ts, l⟩) : ∀ t ∈ ts, t.Plain := fun t ht =>
  ⟨forall_printed.1 (Term.printed_iff.1 h).2.2 t ht, (Term.printed_iff.1 h).1 t ht⟩

/-- The elements of a set stand for values. -/
theorem printed_set (h : Term.Printed ⟨.set ts, l⟩) : ∀ t ∈ ts, t.Plain := fun t ht =>
  ⟨forall_printed.1 (Term.printed_iff.1 h).2.2 t ht, (Term.printed_iff.1 h).1 t ht⟩

/-- The keys and values of an object stand for values. -/
theorem printed_object {ps : List (Term × Term)} (h : Term.Printed ⟨.object ps, l⟩) :
    ∀ p ∈ ps, p.1.Plain ∧ p.2.Plain := by
  obtain ⟨formed, -, below⟩ := Term.printed_iff.1 h
  intro p hp
  exact ⟨⟨fun n hn => below n (mem_walkPairs.2 ⟨p, hp, .inl hn⟩), (formed p hp).1⟩,
    fun n hn => below n (mem_walkPairs.2 ⟨p, hp, .inr hn⟩), (formed p hp).2⟩

/-- The parts of an array comprehension. -/
theorem printed_arrayComprehension (h : Term.Printed ⟨.arrayComprehension t b, l⟩) :
    t.Plain ∧ b ≠ [] ∧ ∀ e ∈ b, e.Printed := by
  obtain ⟨formed, -, below⟩ := Term.printed_iff.1 h
  obtain ⟨element, body⟩ := List.forall_mem_append.1 below
  exact ⟨⟨element, formed⟩, printed_body body⟩

/-- The parts of a set comprehension. -/
theorem printed_setComprehension (h : Term.Printed ⟨.setComprehension t b, l⟩) :
    t.Plain ∧ b ≠ [] ∧ ∀ e ∈ b, e.Printed := by
  obtain ⟨formed, -, below⟩ := Term.printed_iff.1 h
  obtain ⟨element, body⟩ := List.forall_mem_append.1 below
  exact ⟨⟨element, formed⟩, printed_body body⟩

/-- The parts of an object comprehension. -/
theorem printed_objectComprehension {k v : Term} (h : Term.Printed ⟨.objectComprehension k v b, l⟩) :
    (k.Plain ∧ v.Plain) ∧ b ≠ [] ∧ ∀ e ∈ b, e.Printed := by
  obtain ⟨formed, -, below⟩ := Term.printed_iff.1 h
  obtain ⟨entry, body⟩ := List.forall_mem_append.1 below
  obtain ⟨key, value⟩ := List.forall_mem_append.1 entry
  exact ⟨⟨⟨key, formed.1⟩, value, formed.2⟩, printed_body body⟩

end parts

/-! ## Words -/

/-- A word that may be a variable where it is read. -/
structure Speakable (name : String) : Prop where
  word : IsWord name.toList
  named : name ≠ wildcard
  free : Unreserved name ∨ name = Token.containsKw.name

/-- A word is no wildcard. -/
theorem Speakable.tame {name : String} (h : Speakable name) : isWildcardName name = false := by
  obtain ⟨c, t, cons, letter, -⟩ := h.word
  rw [isWildcardName, cons, List.head?_cons, beq_eq_false_iff_ne]
  intro mark
  rw [Option.some.inj mark] at letter
  exact absurd letter (by decide)

/-- A name can be read where it is not reserved, or is the one that may be a variable. -/
theorem isSpeakable_iff (name : String) :
    isSpeakable name = true ↔ Unreserved name ∨ name = Token.containsKw.name := by
  simp [isSpeakable, ← KeywordTable.current_get?_isSome, Unreserved]

/-- A variable that is no wildcard is a word. -/
theorem speakable_var {name : String} {l : Option Location} (h : Term.Printed ⟨.var name, l⟩)
    (free : Unreserved name ∨ name = Token.containsKw.name) : Speakable name := by
  obtain ⟨named, printable, -⟩ := Term.printed_iff.1 h
  have tame : isWildcardName name = false := by simpa [Value.isPrintable] using printable
  rcases named with wild | ⟨word, other⟩
  · rw [wild] at tame
    cases tame
  · exact ⟨word, other, free⟩

/-- A variable that stands for a value. -/
theorem Term.Plain.speakable {name : String} {l : Option Location} (h : Term.Plain ⟨.var name, l⟩) :
    Speakable name := by
  obtain ⟨printed, -, free⟩ := h
  have printable := (Term.printed_iff.1 printed).2.1
  refine speakable_var printed (free.imp_left fun free => ?_)
  rcases free with wild | free
  · simp [Value.isPrintable, wild] at printable
  · exact free

/-- What a word that may be a variable is taken for. -/
theorem Speakable.shown {name : String} (h : Speakable name) {r : List Char} (apart : Apart r) :
    Lexeme.shown (name.toList ++ r) = .ident ∨
      (name = Token.containsKw.name ∧ Lexeme.shown (name.toList ++ r) = .containsKw) := by
  rw [shown_word h.word apart, String.ofList_toList]
  rcases h.free with free | rfl
  · exact .inl (by rw [free]; rfl)
  · exact .inr ⟨rfl, by decide +kernel⟩

/-! ## Paths and calls -/

/-- The head of a path, and its segments. -/
structure Term.Heads (head : Term) : Prop where
  printed : head.Printed
  heads : canHeadRef head.value = true
  speakable : ∀ name, head.value = .var name → Speakable name

/-- A path has a head that may be one, and segments that stand for values. -/
theorem printed_ref {path : List Term} {l : Option Location} (h : Term.Printed ⟨.ref path, l⟩) :
    ∃ head segments, path = head :: segments ∧ head.Heads ∧ ∀ t ∈ segments, t.Plain := by
  obtain ⟨⟨head, segments, rfl, heads, stand⟩, printable, below⟩ := Term.printed_iff.1 h
  have parts := forall_printed.1 below
  refine ⟨head, segments, rfl, ⟨parts _ List.mem_cons_self, heads, fun name var => ?_⟩,
    fun t ht => ⟨parts t (List.mem_cons_of_mem _ ht), stand t ht⟩⟩
  obtain ⟨v, m⟩ := head
  obtain rfl : v = .var name := var
  exact speakable_var (parts _ List.mem_cons_self) ((isSpeakable_iff name).1 printable)

/-- An operator that is read as one: a path, but not one of a single call. -/
structure Term.Operates (op : Term) : Prop where
  printed : op.Printed
  path : ∃ head segments, op.value = .ref (head :: segments) ∧ head.Heads ∧
    (∀ t ∈ segments, t.Plain) ∧ (segments = [] → head.isResult = false)

/-- The operator of a call, and its arguments. -/
theorem printed_applies {terms : List Term} (applies : Applies Unreserved terms)
    (printable : terms.head?.all (!·.callsResult) = true) (parts : ∀ t ∈ terms, t.Printed) :
    ∃ op args, terms = op :: args ∧ op.Operates ∧ (∀ t ∈ args, t.Plain) ∧
      (args = [] → isSetConstructor op = false) := by
  obtain ⟨op, path, args, rfl, operator, stand, filled⟩ := applies
  have printed := parts op List.mem_cons_self
  refine ⟨op, args, rfl, ⟨printed, ?_⟩, fun t ht => ⟨parts t (List.mem_cons_of_mem _ ht), stand t ht⟩,
    filled⟩
  obtain ⟨v, l⟩ := op
  obtain rfl : v = .ref path := operator
  obtain ⟨head, segments, rfl, heads, plain⟩ := printed_ref printed
  refine ⟨head, segments, rfl, heads, plain, ?_⟩
  rintro rfl
  simpa [Term.callsResult] using printable

/-- A call has an operator that may be one, and arguments that stand for values. -/
theorem printed_call {terms : List Term} {l : Option Location} (h : Term.Printed ⟨.call terms, l⟩) :
    ∃ op args, terms = op :: args ∧ op.Operates ∧ (∀ t ∈ args, t.Plain) ∧
      (args = [] → isSetConstructor op = false) := by
  obtain ⟨formed, printable, below⟩ := Term.printed_iff.1 h
  exact printed_applies formed printable (forall_printed.1 below)

/-! ## How a text starts -/

/-- How the text of a term starts. -/
inductive Term.Opening (t : Term) : Prop where
  | bracket {c : Char} {s : List Char} : c ∈ ['[', '{'] → t.lead = none → t.text = c :: s → Opening t
  | quoted {s : String} : t.value = .string s → Opening t
  | number {s : String} : t.value = .number s → Opening t
  | constant : (t.value = .null ∨ ∃ b, t.value = .boolean b) → Opening t
  | word {name : String} {s : List Char} : t.lead = some name → Speakable name →
      t.text = name.toList ++ s → (s = [] ∨ Opens s) → Opening t

/-- The word that makes the empty set can be read. -/
theorem speakable_set : Speakable setConstructor :=
  ⟨by decide +kernel, by decide, .inl (by unfold Unreserved; decide +kernel)⟩

/-- What goes on behind the head of a text leaves its start alone. -/
theorem Term.Opening.goes_on {t u : Term} {r : List Char} (h : t.Opening)
    (heads : canHeadRef t.value = true ∨ ∃ path, t.value = .ref path) (lead : u.lead = t.lead)
    (text : u.text = t.text ++ r) (opens : r = [] ∨ Opens r) : u.Opening := by
  cases h with
  | @bracket c s listed bare start =>
      exact .bracket (s := s ++ r) listed (lead.trans bare) (by rw [text, start]; rfl)
  | quoted same | number same => rcases heads with heads | ⟨path, heads⟩ <;> rw [same] at heads <;> cases heads
  | constant same =>
      rcases same with same | ⟨b, same⟩ <;> rcases heads with heads | ⟨path, heads⟩ <;>
        rw [same] at heads <;> cases heads
  | @word name s leads speakable start behind =>
      refine .word (s := s ++ r) (lead.trans leads) speakable (by rw [text, start, List.append_assoc]) ?_
      rcases behind with rfl | behind
      · exact opens
      · exact .inr (behind.append r)

/-- What the text of a printed term starts with. -/
theorem Term.opening : (t : Term) → t.Printed → (∀ name, t.value = .var name → Speakable name) → t.Opening
  | ⟨.null, _⟩, _, _ => .constant (.inl rfl)
  | ⟨.boolean b, _⟩, _, _ => .constant (.inr ⟨b, rfl⟩)
  | ⟨.number _, _⟩, _, _ => .number rfl
  | ⟨.string _, _⟩, _, _ => .quoted rfl
  | ⟨.var name, _⟩, _, speakable =>
    .word (s := []) rfl (speakable name rfl) (by simp [Term.text, Term.render, Value.render]) (.inl rfl)
  | ⟨.ref [], _⟩, h, _ => by obtain ⟨_, _, cons, _⟩ := printed_ref h; cases cons
  | ⟨.ref (head :: segments), _⟩, h, _ => by
    obtain ⟨_, _, cons, heads, _⟩ := printed_ref h
    obtain ⟨rfl, rfl⟩ := List.cons.inj cons
    -- what the head opens with, the path opens with; its segments go on with a dot or a bracket
    refine (head.opening heads.printed heads.speakable).goes_on (.inl heads.heads) rfl (text_ref _ _) ?_
    cases segments with
    | nil => exact .inl (by simp [renderSegments])
    | cons t ts =>
        obtain ⟨rest, start | start⟩ := renderSegments_cons t ts
        · exact .inr (start ▸ .point)
        · exact .inr (start ▸ .bracket)
  | ⟨.call [], _⟩, h, _ => by obtain ⟨_, _, cons, _⟩ := printed_call h; cases cons
  | ⟨.call (op :: args), _⟩, h, _ => by
    obtain ⟨_, _, cons, operates, _⟩ := printed_call h
    obtain ⟨rfl, rfl⟩ := List.cons.inj cons
    obtain ⟨head, segments, path, _⟩ := operates.path
    have opening := op.opening operates.printed fun name var => by rw [path] at var; cases var
    cases args with
    | nil => exact opening.goes_on (.inr ⟨_, path⟩) rfl (text_call_nil op) (.inr .call)
    | cons t ts => exact opening.goes_on (.inr ⟨_, path⟩) rfl (text_call_cons op t ts) (.inr .call)
  | ⟨.array [], _⟩, _, _ => .bracket (by decide) rfl text_array_nil
  | ⟨.array (_ :: _), _⟩, _, _ => .bracket (by decide) rfl (text_array_cons _ _)
  | ⟨.object [], _⟩, _, _ => .bracket (by decide) rfl text_object_nil
  | ⟨.object (_ :: _), _⟩, _, _ => .bracket (by decide) rfl (text_object_cons _ _)
  | ⟨.set [], _⟩, _, _ => .word (s := ['(', ')']) rfl speakable_set text_set_nil (.inr .call)
  | ⟨.set (_ :: _), _⟩, _, _ => .bracket (by decide) rfl (text_set_cons _ _)
  | ⟨.arrayComprehension _ [], _⟩, h, _ => absurd rfl (printed_arrayComprehension h).2.1
  | ⟨.arrayComprehension _ (_ :: _), _⟩, _, _ => .bracket (by decide) rfl (text_arrayComprehension _ _ _)
  | ⟨.setComprehension _ [], _⟩, h, _ => absurd rfl (printed_setComprehension h).2.1
  | ⟨.setComprehension _ (_ :: _), _⟩, _, _ => .bracket (by decide) rfl (text_setComprehension _ _ _)
  | ⟨.objectComprehension _ _ [], _⟩, h, _ => absurd rfl (printed_objectComprehension h).2.1
  | ⟨.objectComprehension _ _ (_ :: _), _⟩, _, _ =>
    .bracket (by decide) rfl (text_objectComprehension _ _ _ _)

theorem Term.Plain.opening {t : Term} (h : t.Plain) : t.Opening := by
  refine t.opening h.1 fun name var => ?_
  obtain ⟨v, l⟩ := t
  obtain rfl : v = .var name := var
  exact h.speakable

/-- A term that a word leads starts with that word. -/
theorem Term.Opening.lead {t : Term} (h : t.Opening) {name : String} (lead : t.lead = some name) :
    Speakable name ∧ ∃ s, t.text = name.toList ++ s ∧ (s = [] ∨ Opens s) := by
  cases h with
  | bracket _ bare => rw [bare] at lead; cases lead
  | quoted same | number same => rw [Term.lead_eq, same] at lead; cases lead
  | constant same =>
      rcases same with same | ⟨b, same⟩ <;> rw [Term.lead_eq, same] at lead <;> cases lead
  | @word other s leads speakable start behind =>
      obtain rfl : name = other := Option.some.inj (lead.symm.trans leads)
      exact ⟨speakable, s, start, behind⟩

/-! ## The first token -/

/-- The tokens that the text of a term starts with. -/
def openingTokens : List Token :=
  [.nullKw, .trueKw, .falseKw, .minus, .dot, .number, .string, .ident, .containsKw, .lbrack, .lbrace]

/-- The word that a constant is written as, and its token. -/
def constants : List (Value × String × Token) :=
  [(.null, "null", .nullKw), (.boolean true, "true", .trueKw), (.boolean false, "false", .falseKw)]

/-- The words of constants are reserved. -/
theorem constants_reserved : ∀ e ∈ constants, IsWord e.2.1.toList ∧
    KeywordTable.current.get? e.2.1 = some e.2.2 ∧ e.2.2 ∈ openingTokens ∧
    e.2.2 ∉ [Token.notKw, .someKw, .everyKw] := by
  simp only [constants, List.forall_mem_cons]
  decide +kernel

/-- A constant is written as a word. -/
theorem text_constant {t : Term} (h : t.value = .null ∨ ∃ b, t.value = .boolean b) :
    ∃ word kind, (t.value, word, kind) ∈ constants ∧ t.text = word.toList := by
  obtain ⟨v, l⟩ := t
  rcases h with h | ⟨b, h⟩
  · obtain rfl : v = .null := h
    exact ⟨_, _, .head _, by rw [Term.text, Term.render, Value.render]⟩
  · obtain rfl : v = .boolean b := h
    cases b
    · exact ⟨_, _, .tail _ (.tail _ (.head _)), by rw [Term.text, Term.render, Value.render]; rfl⟩
    · exact ⟨_, _, .tail _ (.head _), by rw [Term.text, Term.render, Value.render]; rfl⟩

/-- The token of a constant. -/
theorem shown_constant {v : Value} {word : String} {kind : Token} (listed : (v, word, kind) ∈ constants)
    {r : List Char} (apart : Apart r) :
    shown (word.toList ++ r) = kind ∧ behind (word.toList ++ r) = r := by
  obtain ⟨isWord, reserved, -⟩ := constants_reserved _ listed
  rw [shown_word isWord apart, behind_word isWord apart, String.ofList_toList, reserved]
  exact ⟨rfl, rfl⟩

/-- A text that starts with a word is legal. -/
theorem legal_of_word {w : List Char} (word : IsWord w) (r : List Char) : Legal (w ++ r) := by
  obtain ⟨c, t, rfl, letter, -⟩ := word
  exact legal_letter letter _

/-- The literal of a number is a token where nothing goes on with it. -/
theorem next_literal {literal behind r : List Char}
    (whole : next (literal ++ behind) = ⟨.number, literal.length, []⟩) (closes : Closes r) :
    Legal (literal ++ r) ∧ shown (literal ++ r) = .number ∧ Lexeme.behind (literal ++ r) = r ∧
      (literal ++ r).take (next (literal ++ r)).size = literal := by
  have token := next_number whole closes.apart closes.head
  refine ⟨legal_of_next token nofun nofun, shown_of_next token nofun, ?_, ?_⟩
  · rw [Lexeme.behind, token, List.drop_left]
  · rw [token, List.take_left]

/-- The text of a number starts with a sign, a point or digits. -/
theorem Spelled.first {spelling : String} (h : Spelled spelling) {r : List Char} (closes : Closes r) :
    Legal (spelling.toList ++ r) ∧ shown (spelling.toList ++ r) ∈ [Token.minus, .dot, .number] := by
  obtain ⟨negative, pointed, literal, behind, rfl, whole, -⟩ := h
  obtain ⟨legal, token, -⟩ := next_literal whole closes
  rcases negative with _ | _ <;> rcases pointed with _ | _ <;>
    simp only [Bool.false_eq_true, if_false, if_true, String.empty_append, String.append_empty,
      String.toList_append]
  · exact ⟨legal, by rw [token]; decide⟩
  all_goals exact ⟨⟨⟨rfl, nofun⟩, nofun⟩, List.contains_iff_mem.1 rfl⟩

/-- The text of a term starts with a legal token, of one of the kinds that a term starts with. -/
theorem Term.Opening.first {t : Term} (h : t.Opening) (printed : t.Printed) {r : List Char}
    (closes : Closes r) : Legal (t.text ++ r) ∧ shown (t.text ++ r) ∈ openingTokens := by
  cases h with
  | @bracket c s listed _ start =>
      rw [start]
      simp only [List.mem_cons, List.not_mem_nil, or_false] at listed
      rcases listed with rfl | rfl <;> exact ⟨⟨⟨rfl, nofun⟩, nofun⟩, List.contains_iff_mem.1 rfl⟩
  -- -- a string opens with its quote
  | @quoted s same =>
      obtain ⟨v, l⟩ := t
      obtain rfl : v = .string s := same
      have token := next_json s r
      rw [text_string]
      exact ⟨legal_of_next token nofun nofun, by rw [shown_of_next token nofun]; decide⟩
  -- -- a number opens with a digit, a minus or a point
  | @number s same =>
      obtain ⟨v, l⟩ := t
      obtain rfl : v = .number s := same
      obtain ⟨legal, token⟩ := Spelled.first (Term.printed_iff.1 printed).1 closes
      rw [text_number]
      refine ⟨legal, ?_⟩
      have listed : ∀ kind ∈ [Token.minus, .dot, .number], kind ∈ openingTokens := by decide
      exact listed _ token
  | constant same =>
      obtain ⟨word, kind, listed, text⟩ := text_constant same
      obtain ⟨isWord, -, opens, -⟩ := constants_reserved _ listed
      rw [text, (shown_constant listed closes.apart).1]
      exact ⟨legal_of_word isWord r, opens⟩
  -- -- a variable opens with a word: what stands behind it in the text keeps it apart
  | @word name s leads speakable start behind =>
      have apart : Apart (s ++ r) := by
        rcases behind with rfl | behind
        · exact closes.apart
        · exact (behind.append r).apart
      rw [start, List.append_assoc]
      refine ⟨legal_of_word speakable.word _, ?_⟩
      rcases speakable.shown apart with token | ⟨-, token⟩ <;> rw [token] <;> decide

/-- A word that stands for a constant is all that a term consists of. -/
theorem Term.Opening.alone {t : Term} (h : t.Opening) (printed : t.Printed) {r : List Char}
    (closes : Closes r) (word : (shown (t.text ++ r)).isKeyword ∨ (shown (t.text ++ r)).isFutureKeyword)
    (other : shown (t.text ++ r) ≠ .containsKw) : behind (t.text ++ r) = r := by
  -- -- only a constant and `contains` show as keywords, and a constant is the whole of its text
  cases h with
  | @bracket c s listed _ start =>
      rw [start] at word
      simp only [List.mem_cons, List.not_mem_nil, or_false] at listed
      rcases listed with rfl | rfl <;> rcases word with word | word <;> cases word
  | @quoted s same =>
      obtain ⟨v, l⟩ := t
      obtain rfl : v = .string s := same
      rw [text_string, shown_of_next (next_json s r) nofun] at word
      rcases word with word | word <;> cases word
  | @number s same =>
      obtain ⟨v, l⟩ := t
      obtain rfl : v = .number s := same
      obtain ⟨-, token⟩ := Spelled.first (Term.printed_iff.1 printed).1 closes
      rw [text_number] at word
      have plain : ∀ kind ∈ [Token.minus, .dot, .number], ¬ (kind.isKeyword ∨ kind.isFutureKeyword) := by
        decide
      exact absurd word (plain _ token)
  | constant same =>
      obtain ⟨word, kind, listed, text⟩ := text_constant same
      rw [text]
      exact (shown_constant listed closes.apart).2
  | @word name s leads speakable start behind =>
      have apart : Apart (s ++ r) := by
        rcases behind with rfl | behind
        · exact closes.apart
        · exact (behind.append r).apart
      rw [start, List.append_assoc] at word other
      rcases speakable.shown apart with token | ⟨-, token⟩
      · rw [token] at word
        rcases word with word | word <;> cases word
      · exact absurd token other

/-- A printed term has text. -/
theorem Term.Opening.filled {t : Term} (h : t.Opening) (printed : t.Printed) : t.text ≠ [] := by
  intro none
  have first := (h.first printed .atEnd).2
  rw [none] at first
  exact absurd first (by decide)

theorem Term.Plain.first {t : Term} (h : t.Plain) {r : List Char} (closes : Closes r) :
    Legal (t.text ++ r) ∧ shown (t.text ++ r) ∈ openingTokens := h.opening.first h.1 closes

theorem Term.Heads.opening {t : Term} (h : t.Heads) : t.Opening := t.opening h.printed h.speakable

end RegoSyntax
