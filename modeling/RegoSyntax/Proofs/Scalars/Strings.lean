/-
# RegoSyntax.Proofs.Scalars.Strings — every text is a string, quoted or raw.

A text between quotes, as it is shown, and a text between backticks, if it has none inside, are one token
each.  The first denotes the text because all that it writes differently is read back; the second because
nothing between the backticks is looked at.  So line breaks, control characters and quotes pass through
both, and the two spellings of a text are the same term.
-/
import RegoSyntax.Proofs.Scalars.Answers

namespace RegoSyntax

open Parse Lexeme
open Page (Given)

/-! ## Raw strings

Between backticks every character stands for itself, so such a text is one token if it has no backtick in
it. -/

/-- A text between backticks. -/
def Quoted.raw (s : String) : String := "`" ++ s ++ "`"

theorem Quoted.raw_toList (s : String) : (Quoted.raw s).toList = '`' :: (s.toList ++ ['`']) := by
  rw [Quoted.raw, String.toList_append, String.toList_append]
  rfl

namespace Lexeme

/-- A text between backticks is one token, if it has no backtick inside. -/
theorem next_raw {s : String} (inside : '`' ∉ s.toList) (t : List Char) :
    next ((Quoted.raw s).toList ++ t) = ⟨.string, (Quoted.raw s).toList.length, []⟩ := by
  have body : run (· != '`') (s.toList ++ '`' :: t) = s.toList.length := by
    refine run_append_all (fun c hc => ?_) fun c hc => ?_
    · rw [bne_iff_ne]
      rintro rfl
      exact inside hc
    · obtain rfl := Option.some.inj hc
      rfl
  have shape : (Quoted.raw s).toList ++ t = '`' :: (s.toList ++ '`' :: t) := by
    rw [Quoted.raw_toList, List.cons_append, List.append_assoc]
    rfl
  have lexeme : next ('`' :: (s.toList ++ '`' :: t)) = raw (s.toList ++ '`' :: t) := rfl
  have ends : s.toList.length < (s.toList ++ '`' :: t).length := by
    rw [List.length_append, List.length_cons]
    omega
  rw [shape, lexeme, raw, body, if_pos ends, Quoted.raw_toList, List.length_cons, List.length_append]
  rfl

end Lexeme

/-- What is between the backticks is the text. -/
theorem Parse.rawText_raw (s : String) : rawText? (Quoted.raw s).toList = some s := by
  rw [Quoted.raw_toList, rawText?, List.getLast?_concat, if_pos (beq_self_eq_true _),
    List.dropLast_concat, String.ofList_toList]

/-! ## Reading strings

What a string denotes is told by its token, in either spelling. -/

namespace Sheet

variable {d : Sheet} {g : Grammar} {r : List Char} {u : Reading} {room : Nat}

/-- A token that has the spelling of a string is that string. -/
theorem runs_spelled {spelling text : String} (sees : d.Sees (spelling.toList ++ r) u)
    (token : next (spelling.toList ++ r) = ⟨.string, spelling.toList.length, []⟩)
    (denotes : ∀ u : Reading, u.look.literal = spelling →
      d.Runs room Parse.string u (Given fun t v => t.value = .string text ∧ v = u)) :
    d.Runs room (head g) u (Answers (.ok (.string text)) Has (d.Last r)) := by
  have current : u.look.token = .string := sees.token.trans (shows_of_next token nofun)
  have filled : spelling.toList ++ r ≠ [] := by
    intro none
    rw [none] at token
    cases token
  have literal : u.look.literal = spelling := by
    rw [sees.literal_eq (by rw [token]; nofun) filled, token, List.take_left, String.ofList_toList]
  have last : d.Last r u := by
    have last := sees.toStands.last filled
    rwa [behind, token, List.drop_left] at last
  unfold head
  refine runs_act rfl ?_
  rw [current]
  refine (denotes u literal).imp fun a v found => ?_
  obtain ⟨t, rfl, value, rfl⟩ := found
  exact ⟨t, rfl, value, last⟩

/-- A quoted string. -/
theorem runs_quoted {text : String} (sees : d.Sees ((Quoted.json text).toList ++ r) u) :
    d.Runs room (head g) u (Answers (.ok (.string text)) Has (d.Last r)) := by
  refine runs_spelled sees (next_json text r) fun u literal => ?_
  unfold Parse.string
  refine runs_act rfl ?_
  rw [literal]
  dsimp only
  split
  · next raw =>
      rw [Quoted.json_toList] at raw
      cases raw
  split
  · next empty =>
      -- the empty string is not handed to the reader of JSON
      have same : some text = some "" := by
        rw [← JsonText.stringOf_json text, beq_iff_eq.1 empty]
        decide +kernel
      rw [Option.some.inj same]
      exact runs_act rfl (gives_pure ⟨rfl, rfl⟩)
  · rw [JsonText.stringOf_json]
    exact runs_act rfl (gives_pure ⟨rfl, rfl⟩)

/-- A raw string. -/
theorem runs_raw {text : String} (inside : '`' ∉ text.toList)
    (sees : d.Sees ((Quoted.raw text).toList ++ r) u) :
    d.Runs room (head g) u (Answers (.ok (.string text)) Has (d.Last r)) := by
  refine runs_spelled sees (next_raw inside r) fun u literal => ?_
  have starts : ((Quoted.raw text).toList.head? == some '`') = true := by
    rw [Quoted.raw_toList]
    rfl
  unfold Parse.string
  refine runs_act rfl ?_
  rw [literal]
  dsimp only
  rw [if_pos starts, rawText_raw]
  show d.Runs room (here (.string text)) u _
  exact runs_act rfl (gives_pure ⟨rfl, rfl⟩)

end Sheet

/-! ## Sources that are strings

A source that is one string is the string, which both spellings give. -/

namespace Fragment

/-- A source that is one token for a string, and denotes a text, is that string. -/
theorem value_of_string {source text : String}
    (token : next source.toList = ⟨.string, source.toList.length, []⟩)
    (leaf : ∀ (d : Sheet) g u, d.Sees (source.toList ++ []) u →
      d.Runs 0 (head g) u (Sheet.Answers (.ok (.string text)) Sheet.Has (d.Last []))) :
    value source = .ok (.string text) := by
  have shows : (queryTask source).sheet.shows source.toList = .string := Sheet.shows_of_next token nofun
  refine @value_of_head source (.ok (.string text)) (legal_of_next token nofun nofun) ?_ ?_ ?_
  · rw [shows]
    decide
  · intro v same
    obtain rfl := Except.ok.inj same
    rfl
  · intro g u sees
    refine leaf _ g u ?_
    rwa [List.append_nil]

/-- Every text is the string that its quoted form denotes, as strings are shown; and the string between
backticks, if it has none.  So both spellings are the same term. -/
theorem term_string (s : String) (l : Option Location) :
    ∃ t, term (Term.render ⟨.string s, l⟩) = .ok t ∧ t.value = .string s ∧
      ('`' ∉ s.toList →
        ∃ u, term ("`" ++ s ++ "`") = .ok u ∧ u.value = .string s ∧ t.same u = true) := by
  have quoted : value (Term.render ⟨.string s, l⟩) = .ok (.string s) := by
    rw [Term.render_string]
    refine value_of_string ?_ fun d g u sees => Sheet.runs_quoted sees
    have token := next_json s []
    rwa [List.append_nil] at token
  obtain ⟨t, read, has⟩ := value_eq_ok.1 quoted
  refine ⟨t, read, has, fun inside => ?_⟩
  have raw : value (Quoted.raw s) = .ok (.string s) := by
    refine value_of_string ?_ fun d g u sees => Sheet.runs_raw inside sees
    have token := next_raw inside []
    rwa [List.append_nil] at token
  obtain ⟨u, readRaw, hasRaw⟩ := value_eq_ok.1 raw
  refine ⟨u, readRaw, hasRaw, ?_⟩
  rw [Term.same_eq, has, hasRaw, Value.same, beq_self_eq_true]

/-- Two lines, with a quote, a backslash, a null and a character of four bytes. -/
theorem term_string_lines :
    ∃ t, term (Term.render ⟨.string "\"\r\n\\𝄞\x00", none⟩) = .ok t ∧
      '`' ∉ "\"\r\n\\𝄞\x00".toList ∧
      ∃ u, term ("`" ++ "\"\r\n\\𝄞\x00" ++ "`") = .ok u ∧
        u.value = .string "\"\r\n\\𝄞\x00" ∧ t.same u = true := by
  obtain ⟨t, read, -, raw⟩ := term_string "\"\r\n\\𝄞\x00" none
  have inside : '`' ∉ "\"\r\n\\𝄞\x00".toList := by decide
  exact ⟨t, read, inside, raw inside⟩

end Fragment

end RegoSyntax
