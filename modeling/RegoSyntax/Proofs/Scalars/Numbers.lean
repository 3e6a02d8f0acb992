/-
# RegoSyntax.Proofs.Scalars.Numbers — exactly the legal numbers are terms.

A number is a literal behind a sign and a point, of which both may be missing.  Whatever literal the scanner
takes for one token without a fault, the text is a term if and only if no zero in front could be left out,
there is one point at most, and the magnitude is within bounds; each of the three is told apart by the error
that is reported.  The term keeps the spelling of the text.

The magnitude is within bounds if the first significant digit stands close to the point once the exponent is
applied.  The reader computes this in words of 64 bits, so the exponent has to be above the one where the
binary exponent is no word, and the text no longer than the memory of a machine.
-/
import RegoSyntax.Proofs.Scalars.Answers
import RegoSyntax.Proofs.Scalars.Literals

namespace RegoSyntax

open Parse Lexeme
open Page (Given)

/-! ## What reading a number comes to

A number has a verdict: the term of its spelling, or one of three errors.  The reader passes the sign and
the point if they are there, and then the literal, so it comes to this verdict wherever a literal stands
behind them with the end of the source behind it. -/

namespace Numeral

/-- What reading a literal behind a sign and a point comes to. -/
def verdict (negative pointed : Bool) (literal : String) : Except Problem Value :=
  let spelling := (if negative then "-" else "") ++ (if pointed then "." else "") ++ literal
  if !pointed && hasLeadingZero literal.toList then
    .error (.unexpectedToken .number .numberWithoutLeadingZero)
  else
    match ofText? spelling with
    | none => .error (.unexpectedToken .number .invalidFloat)
    | some n => if n.inBounds then .ok (.number spelling) else .error .numberTooBig

end Numeral

namespace Sheet

variable {d : Sheet} {g : Grammar} {r s : List Char} {u : Reading} {room : Nat}

/-- A mark in front of a number, if it is there. -/
theorem runs_signMark {mark : Token} {following : List Token} {marked : Bool} {c : Char}
    (h : d.Sees ((if marked then [c] else []) ++ s) u) (shows : d.shows (c :: s) = mark)
    (left : behind (c :: s) = s) (legal : Legal s) (follows : d.shows s ∈ following)
    (other : mark ∉ following) :
    d.Runs room (signMark mark following) u <| Given fun b v => b = marked ∧ d.Sees s v := by
  unfold signMark
  refine runs_act rfl ?_
  cases marked with
  | false =>
      have absent : (u.look.token == mark) = false := by
        rw [h.token, beq_eq_false_iff_ne]
        exact fun same => other (same ▸ follows)
      rw [absent]
      exact gives_pure ⟨rfl, h⟩
  | true =>
      have last : d.Last s u := left ▸ h.toStands.last (List.cons_ne_nil c s)
      rw [show u.look.token = mark from h.token.trans shows, beq_self_eq_true, if_pos rfl]
      refine gives_bind (last.scan legal) fun _ v sees => ?_
      refine runs_act rfl ?_
      rw [sees.token, if_pos (List.contains_iff_mem.2 follows)]
      exact gives_pure ⟨rfl, sees⟩

/-- An error is reported where no advice is pending. -/
theorem Stands.reports {α : Type} {verdict : Value → α → Prop} {there : Reading → Prop}
    (h : d.Stands s u) (problem : Problem) (l : Location) :
    d.Runs room (report l problem >>= fun _ => (fail : Parse α)) u
      (Answers (.error problem) verdict there) := by
  intro o depth journal _
  refine ⟨rfl, ?_⟩
  show ((u.failures.push ⟨problem, l, u.look.hints⟩).toList.map fun f => (f.problem, f.hints)) = _
  rw [h.clean, h.quiet]
  rfl

/-- A literal behind a sign and a point is what the verdict says. -/
theorem runs_number {negative pointed : Bool} {literal : String}
    (token : next (literal.toList ++ r) = ⟨.number, literal.toList.length, []⟩)
    (h : d.Sees ((if negative then ['-'] else []) ++
      ((if pointed then ['.'] else []) ++ (literal.toList ++ r))) u) :
    d.Runs room (head g) u (Answers (Numeral.verdict negative pointed literal) Has (d.Last r)) := by
  have legal : Legal (literal.toList ++ r) := legal_of_next token nofun nofun
  have shows : d.shows (literal.toList ++ r) = .number := shows_of_next token nofun
  have filled : literal.toList ++ r ≠ [] := by
    intro none
    rw [none] at token
    cases token
  have pointLegal : Legal ((if pointed then ['.'] else []) ++ (literal.toList ++ r)) ∧
      d.shows ((if pointed then ['.'] else []) ++ (literal.toList ++ r)) ∈ [Token.number, .dot] := by
    cases pointed
    · exact ⟨legal, shows ▸ .head _⟩
    · refine ⟨⟨⟨rfl, nofun⟩, nofun⟩, ?_⟩
      rw [show d.shows ((if true = true then ['.'] else []) ++ _) = .dot from
        shows_of_next (k := .dot) (n := 1) rfl nofun]
      decide
  have read : d.Runs room Parse.number u
      (Answers (Numeral.verdict negative pointed literal) Has (d.Last r)) := by
    unfold Parse.number
    refine runs_act rfl ?_
    refine gives_bind (runs_signMark h (shows_of_next (n := 1) rfl nofun) rfl pointLegal.1 pointLegal.2
      (by decide)) ?_
    rintro sign v ⟨signed, behind⟩
    refine gives_bind (runs_signMark behind (shows_of_next (n := 1) rfl nofun) rfl legal
      (shows ▸ .head _) (by decide)) ?_
    rintro point w ⟨dotted, here⟩
    have current : w.look.token = .number := here.token.trans shows
    have text : w.look.literal = literal := by
      rw [here.literal_eq legal.solid filled, token, List.take_left, String.ofList_toList]
    have last : d.Last r w := by
      have last := here.toStands.last filled
      rwa [Lexeme.behind, token, List.drop_left] at last
    -- what does not belong here is the number, whatever stood in front of it
    have refused (note : Note) : d.Runs room (unexpected note >>= fun _ => (fail : Parse Term)) w
        (Answers (.error (.unexpectedToken .number note)) Has (d.Last r)) := by
      unfold unexpected
      rw [bind_assoc]
      refine runs_act rfl ?_
      rw [current]
      exact here.toStands.reports _ w.look.location
    refine runs_act rfl ?_
    rw [text, signed, dotted]
    dsimp only
    unfold Numeral.verdict
    dsimp only
    by_cases padded : (!pointed && Numeral.hasLeadingZero literal.toList) = true
    · rw [if_pos padded, if_pos padded]
      exact refused _
    rw [if_neg padded, if_neg padded]
    generalize Numeral.ofText? ((if negative = true then "-" else "") ++
      (if pointed = true then "." else "") ++ literal) = numeral
    rcases numeral with _ | n
    · exact refused _
    · dsimp only
      split
      · exact gives_pure (Q := fun t v => Has _ t ∧ d.Last r v) ⟨rfl, last⟩
      · exact here.toStands.reports _ w.look.location
  unfold head
  refine runs_act rfl ?_
  have dispatch : u.look.token ∈ [Token.minus, .number, .dot] := by
    rw [h.token]
    cases negative
    · exact .tail _ pointLegal.2
    · rw [show d.shows ((if true = true then ['-'] else []) ++ _) = .minus from
        shows_of_next (k := .minus) (n := 1) rfl nofun]
      exact .head _
  simp only [List.mem_cons, List.not_mem_nil, or_false] at dispatch
  rcases dispatch with same | same | same <;> rw [same] <;> exact read

end Sheet

/-! ## Legal numbers

What the reader refuses is told in its own terms first: a check on characters, and a search for digits in
the text.  Each of them is put in terms of the parts that a legal literal is made of. -/

namespace Numeral

/-- A zero in front that could be left out is one that the reader refuses. -/
theorem hasLeadingZero_iff {s : List Char} (token : next s = ⟨.number, s.length, []⟩) :
    hasLeadingZero s = false ↔ Unpadded s := by
  rcases s with _ | ⟨z, _ | ⟨c, rest⟩⟩
  · exact ⟨fun _ _ _ other => (nomatch other), fun _ => rfl⟩
  · refine ⟨fun _ c rest other => ?_, fun _ => ?_⟩
    · cases other
    · unfold hasLeadingZero
      split
      · next other => cases other
      · rfl
  · by_cases zero : z = '0'
    · subst zero
      -- an exponent has digits, so something stands behind its mark
      have digits : isExponentMark c = true → rest ≠ [] := by
        rintro mark rfl
        rcases Bool.or_eq_true _ _ ▸ mark with e | e <;> rw [beq_iff_eq.1 e] at token <;>
          exact absurd token (by decide)
      have mark : isExponentMark c = true ↔ c = 'e' ∨ c = 'E' := by simp [isExponentMark]
      simp only [hasLeadingZero, Bool.not_eq_false', Bool.or_eq_true, Bool.and_eq_true, beq_iff_eq,
        Bool.not_eq_true', List.isEmpty_eq_false_iff, mark]
      constructor
      · rintro legal _ _ same
        obtain ⟨rfl, -⟩ := List.cons.inj (List.cons.inj same).2
        exact legal.imp id And.left
      · intro legal
        refine (legal c rest rfl).imp id fun e => ⟨e, digits (mark.2 e)⟩
    · refine ⟨fun _ _ _ same => absurd (List.cons.inj same).1 zero, fun _ => ?_⟩
      unfold hasLeadingZero
      split
      · next same => exact absurd (List.cons.inj same).1 zero
      · rfl

/-- What the reader takes a literal behind a point for, if there is no second point. -/
theorem ofDigits?_literal {pointed : Bool} {s : List Char} (literal : Literal s) :
    let t := (if pointed then ['.'] else []) ++ s
    ofDigits? t = if pointed = true ∧ '.' ∈ s then none
      else some ⟨wholeDigits t, fractionDigits t, wordOfExponent (exponentValue t)⟩ := by
  obtain @⟨whole, fraction, exponent, filled, digits, point, scaled⟩ := literal
  have noPoint : '.' ∉ whole := fun inside => point_of_digit (digits '.' inside) rfl
  have noPoint' : '.' ∉ exponent := by
    cases scaled with
    | absent => exact List.not_mem_nil
    | @exponent mark sign ds marked signed filled digits =>
        have signs : ∀ sign ∈ [[], ['+'], ['-']], '.' ∉ sign := by decide
        intro inside
        rcases List.mem_cons.1 inside with rfl | inside
        · exact absurd marked (by decide)
        · exact (List.mem_append.1 inside).elim (signs sign signed)
            fun inside => point_of_digit (digits '.' inside) rfl
  -- the mark of an exponent stands nowhere but at the head of the exponent
  have unmarked : ∀ c ∈ fraction, isExponentMark c = false := by
    rcases point with rfl | ⟨ds, rfl, digits⟩
    · exact List.forall_mem_nil _
    · exact List.forall_mem_cons.2 ⟨by decide, fun c hc => mark_of_digit (digits c hc)⟩
  intro t
  cases pointed with
  | false =>
      have shape : t = whole ++ fraction ++ exponent := rfl
      have all : (fraction.drop 1).all Char.isDigit = true := by
        rcases point with rfl | ⟨ds, rfl, digits⟩
        · rfl
        · exact List.all_eq_true.2 digits
      -- without a point in front the fraction of the literal is that of the numeral
      rw [shape, ofDigits?_eq digits (point.imp id fun ⟨ds, same, _⟩ => ⟨ds, same⟩) unmarked
        (by simp [filled]) scaled, if_pos all, if_neg (by simp)]
  | true =>
      have shape : t = [] ++ '.' :: (whole ++ fraction) ++ exponent := by
        show '.' :: (whole ++ fraction ++ exponent) = _
        rfl
      have plain : ∀ c ∈ '.' :: (whole ++ fraction), isExponentMark c = false := by
        refine List.forall_mem_cons.2 ⟨by decide, fun c hc => ?_⟩
        exact (List.mem_append.1 hc).elim (fun hc => mark_of_digit (digits c hc)) (unmarked c)
      -- behind a point the whole literal is the fraction, and a second point is no digit of it
      rw [shape, ofDigits?_eq (List.forall_mem_nil _) (.inr ⟨_, rfl⟩) plain (by simp [filled]) scaled]
      rcases point with rfl | ⟨ds, rfl, -⟩
      · have single : ¬ (true = true ∧ '.' ∈ whole ++ [] ++ exponent) := by simp [noPoint, noPoint']
        have all : (('.' :: (whole ++ [])).drop 1).all Char.isDigit = true := by
          rw [List.append_nil]
          exact List.all_eq_true.2 digits
        rw [if_pos all, if_neg single]
      · have double : true = true ∧ '.' ∈ whole ++ '.' :: ds ++ exponent := by simp
        have other : ¬ (('.' :: (whole ++ '.' :: ds)).drop 1).all Char.isDigit = true := by
          intro all
          have digit := List.all_eq_true.1 all '.' (by simp)
          exact absurd digit (by decide)
        rw [if_neg other, if_pos double]

end Numeral

/-! ## Sources that are numbers

A source that holds the marks and one literal, and nothing else, is read as one statement, which is the
number.  So the theorem is about whole sources, and asks nothing of what a parser has been through. -/

namespace Fragment

open Numeral

/-- The marks in front of a literal, as they are written. -/
theorem toList_marks {mark : String} {c : Char} (h : mark = "" ∨ mark = c.toString) :
    mark.toList = if (!mark.isEmpty) = true then [c] else [] := by
  rcases h with rfl | rfl
  · rfl
  · simp [Char.toString]

variable {sign dot literal : String}

/-- A source that is a number is what the verdict on its literal says. -/
theorem value_numeral (signed : sign = "" ∨ sign = "-") (dotted : dot = "" ∨ dot = ".")
    (token : next literal.toList = ⟨.number, literal.toList.length, []⟩) :
    value (sign ++ dot ++ literal) =
      (verdict (!sign.isEmpty) (!dot.isEmpty) literal).mapError fun problem => [problem.message] := by
  have chars : (sign ++ dot ++ literal).toList = (if (!sign.isEmpty) = true then ['-'] else []) ++
      ((if (!dot.isEmpty) = true then ['.'] else []) ++ (literal.toList ++ [])) := by
    rw [String.toList_append, String.toList_append, toList_marks (c := '-') signed,
      toList_marks (c := '.') dotted, List.append_nil, List.append_assoc]
  have token' : next (literal.toList ++ []) = ⟨.number, literal.toList.length, []⟩ := by
    rwa [List.append_nil]
  -- the source is legal, shows a scalar, and its verdict is one; then the head reads the number
  refine value_of_head ?_ ?_ ?_ fun g u sees => ?_
  · rw [chars]
    rcases signed with rfl | rfl
    · rcases dotted with rfl | rfl
      · exact legal_of_next token' nofun nofun
      · exact ⟨⟨rfl, nofun⟩, nofun⟩
    · exact ⟨⟨rfl, nofun⟩, nofun⟩
  · rw [chars]
    rcases signed with rfl | rfl
    · rcases dotted with rfl | rfl
      · rw [show (queryTask _).sheet.shows ((if (!"".isEmpty) = true then ['-'] else []) ++
          ((if (!"".isEmpty) = true then ['.'] else []) ++ (literal.toList ++ []))) = .number from
            Sheet.shows_of_next token' nofun]
        decide
      · rw [Sheet.shows_of_next (k := .dot) (n := 1) rfl nofun]
        decide
    · rw [Sheet.shows_of_next (k := .minus) (n := 1) rfl nofun]
      decide
  · intro v same
    unfold verdict at same
    dsimp only at same
    split at same
    · cases same
    · split at same
      · cases same
      · split at same
        · obtain rfl := Except.ok.inj same
          rfl
        · cases same
  · exact Sheet.runs_number token' (chars ▸ sees)

/-- No numeral starts with a sign once its sign is taken off. -/
theorem ofText?_eq (signed : sign = "" ∨ sign = "-") (dotted : dot = "" ∨ dot = ".")
    (token : next literal.toList = ⟨.number, literal.toList.length, []⟩) :
    ofText? (sign ++ dot ++ literal) =
      ofDigits? ((if (!dot.isEmpty) = true then ['.'] else []) ++ literal.toList) := by
  have chars : (dot ++ literal).toList = (if (!dot.isEmpty) = true then ['.'] else []) ++ literal.toList := by
    rw [String.toList_append, toList_marks (c := '.') dotted]
  -- without its sign a numeral starts with a point or with a digit
  have unsigned : ∀ t, (dot ++ literal).toList ≠ '-' :: t := by
    intro t same
    rcases dotted with rfl | rfl
    · rw [String.empty_append] at same
      rw [same] at token
      cases token
    · have first : '.' :: literal.toList = '-' :: t := by rwa [String.toList_append] at same
      exact absurd (List.cons.inj first).1 (by decide)
  rw [← chars]
  rcases signed with rfl | rfl
  · rw [String.empty_append]
    unfold ofText?
    split
    · next t same => exact absurd same (unsigned t)
    · rfl
  · have whole : ("-" ++ (dot ++ literal)).toList = '-' :: (dot ++ literal).toList := by
      rw [String.toList_append]
      rfl
    rw [String.append_assoc, ofText?, whole]
    split
    · next same => rw [(List.cons.inj same).2]
    · next other => exact absurd rfl (other _)

/-- A point in front of a literal makes it longer by one character at most. -/
theorem length_marked (dotted : dot = "" ∨ dot = ".") (literal : String) :
    (dot ++ literal).toList.length ≤ literal.length + 1 := by
  rw [String.toList_append, List.length_append, String.length_toList]
  rcases dotted with rfl | rfl
  · exact (Nat.zero_add _).trans_le (Nat.le_succ _)
  · exact (Nat.add_comm _ _).le

/-- A number is refused for a zero in front, for a second point or for its magnitude, in this order; else it
is the term of its spelling. -/
theorem value_number (signed : sign = "" ∨ sign = "-") (dotted : dot = "" ∨ dot = ".")
    (token : next literal.toList = ⟨.number, literal.toList.length, []⟩)
    (low : -2700000000000000000 < exponentValue (dot ++ literal).toList)
    (short : literal.length < 2 ^ 56) :
    (¬ (dot = "." ∨ Unpadded literal.toList) → value (sign ++ dot ++ literal) =
      .error ["unexpected number token: expected number without leading zero"]) ∧
    ((dot = "." ∨ Unpadded literal.toList) → ¬ (dot = "" ∨ '.' ∉ literal.toList) →
      value (sign ++ dot ++ literal) = .error ["unexpected number token: invalid float"]) ∧
    ((dot = "." ∨ Unpadded literal.toList) → (dot = "" ∨ '.' ∉ literal.toList) →
      ¬ InReach (dot ++ literal).toList → value (sign ++ dot ++ literal) = .error ["number too big"]) ∧
    ((dot = "." ∨ Unpadded literal.toList) → (dot = "" ∨ '.' ∉ literal.toList) →
      InReach (dot ++ literal).toList →
        value (sign ++ dot ++ literal) = .ok (.number (sign ++ dot ++ literal))) := by
  have zero := hasLeadingZero_iff token
  have cut := @ofDigits?_literal (!dot.isEmpty) _ (literal_of_next token)
  have chars : (if (!dot.isEmpty) = true then ['.'] else []) ++ literal.toList = (dot ++ literal).toList := by
    rw [String.toList_append, toList_marks (c := '.') dotted]
  have spelling : (if (!sign.isEmpty) = true then "-" else "") ++
      (if (!dot.isEmpty) = true then "." else "") ++ literal = sign ++ dot ++ literal := by
    rcases signed with rfl | rfl <;> rcases dotted with rfl | rfl <;> rfl
  have pointed : (!dot.isEmpty) = true ↔ dot = "." := by rcases dotted with rfl | rfl <;> decide
  have pointless : (!dot.isEmpty) = true ↔ ¬ dot = "" := by rcases dotted with rfl | rfl <;> decide
  have bounds := inBounds_iff low (by have := length_marked dotted literal; omega)
  have padded : (!(!dot.isEmpty) && hasLeadingZero literal.toList) = true ↔
      ¬ (dot = "." ∨ Unpadded literal.toList) := by
    rw [← zero, ← pointed, not_or, Bool.and_eq_true, Bool.not_eq_true', Bool.not_eq_true,
      Bool.not_eq_false]
  -- the verdict tests the three conditions in the order of the four cases
  rw [value_numeral signed dotted token, verdict, spelling, ofText?_eq signed dotted token, cut, chars]
  refine ⟨fun first => ?_, fun first second => ?_, fun first second third => ?_,
    fun first second third => ?_⟩
  · rw [if_pos (padded.2 first)]
    rfl
  · rw [if_neg fun zero => padded.1 zero first, if_pos ?_]
    · rfl
    · rw [not_or, not_not] at second
      exact ⟨pointless.2 second.1, second.2⟩
  · rw [if_neg fun zero => padded.1 zero first, if_neg ?_]
    · dsimp only
      rw [if_neg fun near => third (bounds.1 near)]
      rfl
    · rintro ⟨mark, point⟩
      exact second.elim (pointless.1 mark) fun none => none point
  · rw [if_neg fun zero => padded.1 zero first, if_neg ?_]
    · dsimp only
      rw [if_pos (bounds.2 third)]
      rfl
    · rintro ⟨mark, point⟩
      exact second.elim (pointless.1 mark) fun none => none point

/-- Exactly the legal numbers are terms.  Behind a sign and a point, of which both may be missing, a literal
that is one token without a fault is a term if and only if no zero in front could be left out, there is one
point at most, and the magnitude is within bounds; the term keeps its spelling.  A float is called invalid
only for a second point, and an exponent too long for 64 bits is out of bounds.  No machine addresses a text
of `2 ^ 56` characters. -/
theorem term_number (signed : sign = "" ∨ sign = "-") (dotted : dot = "" ∨ dot = ".")
    (token : next literal.toList = ⟨.number, literal.toList.length, []⟩)
    (low : -2700000000000000000 < exponentValue (dot ++ literal).toList)
    (short : literal.length < 2 ^ 56) :
    ((∃ t, term (sign ++ dot ++ literal) = .ok t) ↔
      (dot = "." ∨ Unpadded literal.toList) ∧ (dot = "" ∨ '.' ∉ literal.toList) ∧
        InReach (dot ++ literal).toList) ∧
    (∀ t, term (sign ++ dot ++ literal) = .ok t → t.value = .number (sign ++ dot ++ literal)) ∧
    (∀ es, term (sign ++ dot ++ literal) = .error es →
      (∃ e ∈ es, e.message = "unexpected number token: invalid float") →
        ¬ (dot = "" ∨ '.' ∉ literal.toList)) ∧
    (¬ IsZero (dot ++ literal).toList → 2 ^ 63 ≤ |exponentValue (dot ++ literal).toList| →
      ∃ es, term (sign ++ dot ++ literal) = .error es) := by
  obtain ⟨padded, doubled, far, legal⟩ := value_number signed dotted token low short
  -- whatever is wrong, there is exactly one error
  have outcome : ((dot = "." ∨ Unpadded literal.toList) ∧ (dot = "" ∨ '.' ∉ literal.toList) ∧
        InReach (dot ++ literal).toList ∧
        value (sign ++ dot ++ literal) = .ok (.number (sign ++ dot ++ literal))) ∨
      ¬ ((dot = "." ∨ Unpadded literal.toList) ∧ (dot = "" ∨ '.' ∉ literal.toList) ∧
        InReach (dot ++ literal).toList) ∧
        ∃ m, value (sign ++ dot ++ literal) = .error [m] ∧
          (m = "unexpected number token: invalid float" → ¬ (dot = "" ∨ '.' ∉ literal.toList)) := by
    by_cases first : dot = "." ∨ Unpadded literal.toList
    · by_cases second : dot = "" ∨ '.' ∉ literal.toList
      · by_cases third : InReach (dot ++ literal).toList
        · exact .inl ⟨first, second, third, legal first second third⟩
        · exact .inr ⟨fun h => third h.2.2, _, far first second third, fun same => absurd same (by decide)⟩
      · exact .inr ⟨fun h => second h.2.1, _, doubled first second, fun _ => second⟩
    · exact .inr ⟨fun h => first h.1, _, padded first, fun same => absurd same (by decide)⟩
  rcases outcome with ⟨first, second, third, read⟩ | ⟨illegal, m, failed, reason⟩
  · obtain ⟨t, given, has⟩ := value_eq_ok.1 read
    rw [given]
    refine ⟨⟨fun _ => ⟨first, second, third⟩, fun _ => ⟨t, rfl⟩⟩, ?_, nofun, fun other long => ?_⟩
    · intro u same
      rw [← Except.ok.inj same, has]
    · exfalso
      have near := third.resolve_left other
      have place := firstPlace_le (dot ++ literal).toList
      have length := length_marked dotted literal
      rw [abs_le] at near place
      rw [abs_of_pos] at long
      · omega
      · rcases abs_cases (exponentValue (dot ++ literal).toList) with ⟨same, pos⟩ | ⟨same, neg⟩ <;> omega
  · obtain ⟨es, given, messages⟩ := value_eq_error.1 failed
    rw [given]
    refine ⟨⟨nofun, fun legal => absurd legal illegal⟩, nofun, ?_, fun _ _ => ⟨es, rfl⟩⟩
    rintro _ same ⟨e, listed, message⟩
    obtain rfl := Except.error.inj same
    refine reason ?_
    have mem : e.message ∈ es.map (·.message) := List.mem_map_of_mem listed
    rw [messages, List.mem_singleton] at mem
    exact mem.symm.trans message

/-- A number just within reach. -/
theorem term_number_reach :
    next "0.05e30104".toList = ⟨.number, "0.05e30104".toList.length, []⟩ ∧
      ∃ t, term ("-" ++ "" ++ "0.05e30104") = .ok t ∧ t.value = .number "-0.05e30104" := by
  have token : next "0.05e30104".toList = ⟨.number, "0.05e30104".toList.length, []⟩ := by decide +kernel
  have low : -2700000000000000000 < exponentValue ("" ++ "0.05e30104").toList := by decide +kernel
  obtain ⟨accepted, spelled, -, -⟩ := term_number (.inr rfl) (.inl rfl) token low (by decide +kernel)
  have padded : Unpadded "0.05e30104".toList := by
    intro c rest same
    exact .inl (List.cons.inj (List.cons.inj same).2).1.symm
  obtain ⟨t, read⟩ := accepted.2 ⟨.inr padded, .inl rfl, .inr (by decide +kernel)⟩
  exact ⟨token, t, read, spelled t read⟩

end Fragment

end RegoSyntax
