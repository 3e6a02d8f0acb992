/-
# RegoSyntax.Proofs.Placement — where nodes stand, and where wildcards were drawn.

Every node of a tree stands at a token of its source.  Literals, rules and clauses cover a stretch from
the start of one token up to the end of another one (`Survey.Spanned`).

The place of a term and the text of a term are taken at different moments.  The place is that of the token
with which the head of the term starts; the text is cut from the token at which the parser rested when it was
about to read on: the parenthesis before the head, the last token of the head if a path goes on behind it, or
the key of a membership of which the term is the value.  `Survey.Begins` lists these cases, and says how each
of these tokens stands to the term: only parentheses that open are passed over on the way to the term, and
only the head of a path is left out of its text.

A wildcard has the name that was drawn for it at its offset.  `Survey.Spans` says of the nodes that were
read between two offsets that they are placed, and that their wildcards were drawn between these offsets,
one behind the other; so no two of them can have the same name.
-/
import RegoSyntax.Proofs.Courses
import RegoSyntax.Proofs.RuleForms

namespace RegoSyntax

/-! ## Walks through lists -/

theorem walkTerms_append (ts us : List Term) :
    walkTerms (ts ++ us) = walkTerms ts ++ walkTerms us := by
  induction ts with
  | nil => rfl
  | cons t ts ih => rw [List.cons_append, walkTerms, walkTerms, ih, List.append_assoc]

theorem walkPairs_append (ps qs : List (Term × Term)) :
    walkPairs (ps ++ qs) = walkPairs ps ++ walkPairs qs := by
  induction ps with
  | nil => rfl
  | cons p ps ih =>
      obtain ⟨k, v⟩ := p
      rw [List.cons_append, walkPairs, walkPairs, ih, List.append_assoc, List.append_assoc,
        List.append_assoc]

theorem walkExprs_append (es fs : List Expr) :
    walkExprs (es ++ fs) = walkExprs es ++ walkExprs fs := by
  induction es with
  | nil => rfl
  | cons e es ih => rw [List.cons_append, walkExprs, walkExprs, ih, List.append_assoc]

theorem walkWiths_append (ws xs : List With) :
    walkWiths (ws ++ xs) = walkWiths ws ++ walkWiths xs := by
  induction ws with
  | nil => rfl
  | cons w ws ih =>
      obtain ⟨t, v, l⟩ := w
      rw [List.cons_append, walkWiths, walkWiths, ih, List.append_assoc, List.append_assoc,
        List.append_assoc]

theorem walkTerms_single (t : Term) : walkTerms [t] = t.walk := List.append_nil _

/-! ## Wildcards of a tree -/

/-- The name of a wildcard, if a node is one. -/
def Visit.wildcard? : Visit → Option String
  | .term ⟨.var name, _⟩ => if isWildcardName name then some name else none
  | _ => none

/-- The names of the wildcards among nodes. -/
def wildcardsOf (ns : List Visit) : List String := ns.filterMap Visit.wildcard?

@[simp] theorem wildcardsOf_nil : wildcardsOf [] = [] := rfl

@[simp] theorem wildcardsOf_append (ns ms : List Visit) :
    wildcardsOf (ns ++ ms) = wildcardsOf ns ++ wildcardsOf ms := List.filterMap_append

theorem Visit.wildcard?_relocate (l : Location) (n : Visit) : (n.relocate l).wildcard? = n.wildcard? := by
  cases n with
  | term t =>
      rw [Visit.relocate, Relocation.term]
      obtain ⟨v, m⟩ := t
      cases v <;> rfl
  | _ => rfl

theorem wildcardsOf_relocate (l : Location) (ns : List Visit) :
    wildcardsOf (ns.map (Visit.relocate l)) = wildcardsOf ns := by
  rw [wildcardsOf, List.filterMap_map]
  exact List.filterMap_congr fun n _ => n.wildcard?_relocate l

/-- The wildcards of a term that is no variable are those below. -/
theorem wildcardsOf_walk {t : Term} (other : t.value.isVar = false) :
    wildcardsOf t.walk = wildcardsOf t.value.walkParts := by
  obtain ⟨v, l⟩ := t
  rw [walk_eq]
  cases v <;> first
    | rfl
    | cases other

/-- Where a term stands does not matter to its wildcards. -/
theorem wildcardsOf_moved (t : Term) (l : Option Location) :
    wildcardsOf { t with location := l }.walk = wildcardsOf t.walk := by
  obtain ⟨v, m⟩ := t
  rw [walk_eq, walk_eq]
  cases v <;> rfl

theorem wildcardsOf_walkBody (b : Body) : wildcardsOf (walkBody b) = wildcardsOf (walkExprs b) := by
  rw [walkBody_eq]
  rfl

theorem wildcardsOf_expr (e : Expr) :
    wildcardsOf e.walk = wildcardsOf (e.terms.walkParts ++ walkWiths e.withs) := by
  rw [expr_walk_eq]
  rfl

theorem wildcardName_inj {i j : Nat} (h : Parse.wildcardName i = Parse.wildcardName j) : i = j := by
  have digits (n : Nat) : (toString n).toList = Nat.toDigits 10 n := by
    rw [Nat.toString_eq_repr, Nat.repr_eq_ofList_toDigits, String.toList_ofList]
  have chars := congrArg String.toList h
  rw [Parse.wildcardName, Parse.wildcardName, String.toList_append, String.toList_append,
    List.append_cancel_left_eq, digits, digits] at chars
  rw [← Nat.ofDigitChars_ten_toDigits (n := i), chars, Nat.ofDigitChars_ten_toDigits]

/-- A wildcard has the name that was drawn at an offset. -/
def Drawn (drawn : Array Nat) (name : String) (n : Nat) : Prop :=
  ∃ i, name = Parse.wildcardName i ∧ drawn[i]? = some n

namespace Drawn

variable {W W' : Array Nat} {x y : String} {n n' : Nat}

theorem unique (h : Drawn W x n) (h' : Drawn W x n') : n = n' := by
  obtain ⟨i, rfl, here⟩ := h
  obtain ⟨j, same, there⟩ := h'
  rw [← wildcardName_inj same, here] at there
  exact Option.some.inj there

theorem grow (h : Drawn W x n) (grows : Grows W W') : Drawn W' x n := by
  obtain ⟨i, rfl, here⟩ := h
  obtain ⟨more, rfl⟩ := grows
  obtain ⟨lt, -⟩ := Array.getElem?_eq_some_iff.1 here
  exact ⟨i, rfl, by rw [Array.getElem?_append_left lt, here]⟩

/-- The name that is drawn next. -/
theorem next (W : Array Nat) (n : Nat) : Drawn (W.push n) (Parse.wildcardName W.size) n :=
  ⟨W.size, rfl, Array.getElem?_push_size⟩

end Drawn

/-- One wildcard was drawn at an earlier offset than another one. -/
def Earlier (drawn : Array Nat) (x y : String) : Prop :=
  ∃ n n', Drawn drawn x n ∧ Drawn drawn y n' ∧ n < n'

/-! ## Places -/

namespace Cursor

/-- A token of a source that is neither a blank nor a comment, nor its end. -/
structure Proper (source : String) (c : Cursor) : Prop where
  starts : c.Starts source
  major : c.Significant
  filled : c.rest ≠ []

end Cursor

/-- The tokens that a path may go on behind, if they are not where its head stands: those that close its
head, and digits behind a sign. -/
def Token.isJoint : Token → Bool
  | .rparen | .rbrack | .rbrace | .number => true
  | _ => false

/-- The tokens that a path goes on with: a point, a bracket, or the parenthesis of a call. -/
def Token.goesOn : Token → Bool
  | .dot | .lbrack | .lparen => true
  | _ => false

/-- What the places of a tree are places in: a source that is read for a task. -/
structure Survey where
  source : String
  env : Env

namespace Survey

/-- The place of the token at a cursor, with some text. -/
def spot (m : Survey) (c : Cursor) (text : String) : Location :=
  { c.place m.source m.env.file with text }

/-- A place is that of a token. -/
def Located (m : Survey) (l : Location) : Prop :=
  ∃ (c : Cursor) (text : String), c.Starts m.source ∧ l = m.spot c text

/-- A place covers what is from one token up to the end of another one. -/
def Spanned (m : Survey) (l : Location) : Prop :=
  ∃ c e : Cursor, c.Proper m.source ∧ e.Proper m.source ∧ c.offset ≤ e.offset ∧
    l = m.spot c (textBetween m.source c.offset e.skip.offset)

/-- Nothing but parentheses that open, blanks and comments stands between two offsets. -/
structure Opened (m : Survey) (start stop : Nat) : Prop where
  le : start ≤ stop
  only : ∀ d : Cursor, d.Starts m.source → start ≤ d.offset → d.offset < stop → d.Significant →
    d.lexeme.kind = .lparen

/-- Where the text of a term may start that stands at an offset: at the token there; at a parenthesis, with
nothing but more of them before the term; at the last token of the head of its path, right before the path
goes on; or at the key of a membership of which the term, in parentheses or not, is the value. -/
def Begins (m : Survey) (a : Cursor) (n : Nat) : Prop :=
  a.offset = n ∨ (a.lexeme.kind = .lparen ∧ m.Opened a.offset n) ∨
    (a.lexeme.kind.isJoint = true ∧ n ≤ a.offset ∧
      ∃ d : Cursor, a.Precedes m.source d ∧ d.lexeme.kind.goesOn = true) ∨
    ∃ q : Cursor, q.Starts m.source ∧ q.lexeme.kind = .comma ∧ a.offset < q.offset ∧ q.offset < n ∧
      m.Opened q.skip.offset n

/-- The text of a term that stands at an offset may start at another one. -/
def Opens (m : Survey) (start n : Nat) : Prop :=
  ∃ a : Cursor, a.Starts m.source ∧ a.offset = start ∧ m.Begins a n

/-- The text of a term may end at an offset: a token does, or the parenthesis of a call starts there. -/
def Bounds (m : Survey) (n : Nat) : Prop :=
  ∃ e : Cursor, e.Starts m.source ∧ (e.skip.offset = n ∨ e.lexeme.kind = .lparen ∧ e.offset = n)

/-- The place of a term. -/
def Anchored (m : Survey) (l : Location) : Prop :=
  m.Located l ∧ ∃ start stop, m.Opens start l.offset ∧ m.Bounds stop ∧
    l.text = textBetween m.source start stop

/-- A declaration and a quantified query have places of their own. -/
def Declares (m : Survey) : ExprTerms → Prop
  | .some _ l | .every _ _ _ _ l => ∃ p, l = some p ∧ m.Spanned p
  | _ => True

/-- A replacement has a place of its own. -/
def Replaces (m : Survey) (w : With) : Prop := ∃ l, w.location = some l ∧ m.Spanned l

/-- The parts of a literal that have places and are no nodes. -/
structure Fitted (m : Survey) (e : Expr) : Prop where
  terms : m.Declares e.terms
  withs : ∀ w ∈ e.withs, m.Replaces w

/-- A node has a place, and one of its kind. -/
def Placed (m : Survey) : Visit → Prop
  | .term t => ∃ l, t.location = some l ∧ m.Anchored l
  | .expr e => (∃ l, e.location = some l ∧ m.Spanned l) ∧ m.Fitted e
  | _ => True

variable {m : Survey} {c : Cursor} {l : Location} {n n' : Nat}

@[simp] theorem spot_offset (m : Survey) (c : Cursor) (text : String) :
    (m.spot c text).offset = c.offset := rfl

namespace Opened

theorem refl (m : Survey) (n : Nat) : m.Opened n n := ⟨Nat.le_refl n, fun _ _ le lt => by omega⟩

theorem trans {k : Nat} (first : m.Opened n n') (second : m.Opened n' k) : m.Opened n k where
  le := first.le.trans second.le
  only d starts le lt major := by
    rcases Nat.lt_or_ge d.offset n' with before | behind
    · exact first.only d starts le before major
    · exact second.only d starts behind lt major

/-- There is nothing from the end of a token up to the next one. -/
theorem behind {c d : Cursor} (h : c.Precedes m.source d) : m.Opened c.skip.offset d.offset where
  le := h.before.skip_le h.behind h.lt
  only e starts le lt major := absurd major (h.gap e starts (by
    have filled := h.before.filled h.behind h.lt
    exact (Cursor.offset_lt_skip filled).trans_le le) lt)

/-- From a parenthesis up to the next token there is the parenthesis. -/
theorem paren {c d : Cursor} (h : c.Precedes m.source d) (kind : c.lexeme.kind = .lparen) :
    m.Opened c.offset d.offset where
  le := h.lt.le
  only e starts le lt major := by
    rcases Nat.eq_or_lt_of_le le with same | later
    · exact h.before.eq_of_offset starts same ▸ kind
    · exact absurd major (h.gap e starts later lt)

end Opened

/-- The place of a token is one for a term. -/
theorem anchored_token (starts : c.Starts m.source) : m.Anchored (c.place m.source m.env.file) :=
  ⟨⟨c, _, starts, rfl⟩, c.offset, c.skip.offset, ⟨c, starts, rfl, .inl rfl⟩, ⟨c, starts, .inl rfl⟩, rfl⟩

/-- The place of a token covers the token. -/
theorem spanned_token (proper : c.Proper m.source) : m.Spanned (c.place m.source m.env.file) :=
  ⟨c, c, proper, proper, Nat.le_refl _, rfl⟩

theorem Spanned.anchored (h : m.Spanned l) : m.Anchored l := by
  obtain ⟨c, e, proper, ends, -, rfl⟩ := h
  exact ⟨⟨c, _, proper.starts, rfl⟩, c.offset, e.skip.offset, ⟨c, proper.starts, rfl, .inl rfl⟩,
    ⟨e, ends.starts, .inl rfl⟩, rfl⟩

theorem Anchored.located (h : m.Anchored l) : m.Located l := h.1

/-- The place of a term with the text between two other offsets. -/
theorem Located.anchored {start stop : Nat} (h : m.Located l) (opens : m.Opens start l.offset)
    (bounds : m.Bounds stop) : m.Anchored { l with text := textBetween m.source start stop } := by
  obtain ⟨c, text, starts, rfl⟩ := h
  exact ⟨⟨c, _, starts, rfl⟩, start, stop, opens, bounds, rfl⟩

/-- A node that is moved to the place of a literal or a rule. -/
theorem Placed.relocate {n : Visit} (spanned : m.Spanned l) (h : m.Placed n) :
    m.Placed (n.relocate l) := by
  cases n with
  | term t =>
      rw [Visit.relocate, Relocation.term]
      exact ⟨l, rfl, spanned.anchored⟩
  | expr e =>
      obtain ⟨-, terms, withs⟩ := h
      rw [Visit.relocate, Relocation.expr]
      refine ⟨⟨l, rfl, spanned⟩, ?_, fun w hw => ?_⟩
      · rcases e.terms with t | ts | ⟨ts, p⟩ | ⟨k, v, d, b, p⟩
        · trivial
        · rw [ExprTerms.relocate_call]
          trivial
        · rw [ExprTerms.relocate_some]
          exact ⟨l, rfl, spanned⟩
        · rw [ExprTerms.relocate_every]
          exact ⟨l, rfl, spanned⟩
      · obtain ⟨x, -, rfl⟩ := List.mem_map.1 hw
        exact ⟨l, rfl, spanned⟩
  | _ => trivial

/-! ## What was read between two offsets -/

/-- The token at an offset is a wildcard. -/
def Blank (m : Survey) (n : Nat) : Prop :=
  ∃ c : Cursor, c.Starts m.source ∧ c.offset = n ∧ c.word = "_"

/-- Nodes that were read between two offsets, where their wildcards were drawn, in this order. -/
structure Spans (m : Survey) (drawn : Array Nat) (start stop : Nat) (ns : List Visit) : Prop where
  le : start ≤ stop
  placed : ∀ n ∈ ns, m.Placed n
  born : ∀ x ∈ wildcardsOf ns, ∃ n, Drawn drawn x n ∧ m.Blank n ∧ start ≤ n ∧ n < stop
  ordered : (wildcardsOf ns).Pairwise (Earlier drawn)

namespace Spans

variable {W W' : Array Nat} {a b a' b' : Nat} {ns ms : List Visit} {t : Term}

/-- Nodes of which the wildcards are among those of other nodes. -/
theorem sub (h : m.Spans W a b ns) (placed : ∀ n ∈ ms, m.Placed n)
    (among : (wildcardsOf ms).Sublist (wildcardsOf ns)) : m.Spans W a b ms :=
  ⟨h.le, placed, fun x hx => h.born x (among.subset hx), h.ordered.sublist among⟩

/-- Nodes without wildcards. -/
theorem plain (le : a ≤ b) (placed : ∀ n ∈ ns, m.Placed n) (none : wildcardsOf ns = []) :
    m.Spans W a b ns :=
  ⟨le, placed, fun _ hx => absurd (none ▸ hx) List.not_mem_nil, none ▸ .nil⟩

theorem nil (le : a ≤ b) : m.Spans W a b [] := plain le (List.forall_mem_nil _) rfl

theorem mono (h : m.Spans W a b ns) (grows : Grows W W') (starts : a' ≤ a) (stops : b ≤ b') :
    m.Spans W' a' b' ns where
  le := starts.trans (h.le.trans stops)
  placed := h.placed
  born x hx := by
    obtain ⟨n, drawn, blank, from', upTo⟩ := h.born x hx
    exact ⟨n, drawn.grow grows, blank, starts.trans from', upTo.trans_le stops⟩
  ordered := h.ordered.imp fun ⟨n, n', hn, hn', lt⟩ => ⟨n, n', hn.grow grows, hn'.grow grows, lt⟩

theorem append (h : m.Spans W a n ns) (h' : m.Spans W n b ms) : m.Spans W a b (ns ++ ms) where
  le := h.le.trans h'.le
  placed x hx := (List.mem_append.1 hx).elim (h.placed x) (h'.placed x)
  born x hx := by
    rw [wildcardsOf_append] at hx
    rcases List.mem_append.1 hx with hx | hx
    · obtain ⟨i, drawn, blank, from', upTo⟩ := h.born x hx
      exact ⟨i, drawn, blank, from', upTo.trans_le h'.le⟩
    · obtain ⟨i, drawn, blank, from', upTo⟩ := h'.born x hx
      exact ⟨i, drawn, blank, h.le.trans from', upTo⟩
  ordered := by
    rw [wildcardsOf_append]
    refine List.pairwise_append.2 ⟨h.ordered, h'.ordered, fun x hx y hy => ?_⟩
    obtain ⟨i, drawn, -, -, upTo⟩ := h.born x hx
    obtain ⟨j, drawn', -, from', -⟩ := h'.born y hy
    exact ⟨i, j, drawn, drawn', upTo.trans_le from'⟩

/-- Of nodes of which the wildcards were drawn one behind the other, no two have the same name. -/
theorem nodup (h : m.Spans W a b ns) : (wildcardsOf ns).Nodup :=
  h.ordered.imp fun ⟨n, n', hn, hn', lt⟩ same => by
    subst same
    exact absurd (hn.unique hn') lt.ne

/-! ### Trees by their parts -/

/-- A term that is no variable, by what is below. -/
theorem term {v : Value} (h : m.Spans W a b v.walkParts) (anchored : m.Anchored l)
    (other : v.isVar = false) : m.Spans W a b (Term.mk v (some l)).walk := by
  refine h.sub (fun n hn => ?_) (wildcardsOf_walk (t := ⟨v, some l⟩) other ▸ List.Sublist.refl _)
  rw [walk_eq] at hn
  rcases List.mem_cons.1 hn with rfl | hn
  · exact ⟨l, rfl, anchored⟩
  rcases List.mem_cons.1 hn with rfl | hn
  · trivial
  · exact h.placed n hn

theorem anchored (h : m.Spans W a b t.walk) : ∃ l, t.location = some l ∧ m.Anchored l :=
  h.placed (.term t) (by rw [walk_eq]; exact List.mem_cons_self)

/-- What is below a term. -/
theorem parts (h : m.Spans W a b t.walk) : m.Spans W a b t.value.walkParts := by
  refine h.sub (fun n hn => h.placed n ?_) ?_
  · rw [walk_eq]
    exact List.mem_cons_of_mem _ (List.mem_cons_of_mem _ hn)
  · rw [walk_eq]
    exact ((List.sublist_cons_self _ _).trans (List.sublist_cons_self _ _)).filterMap _

/-- A term at another place. -/
theorem moved (h : m.Spans W a b t.walk) (anchored : m.Anchored l) :
    m.Spans W a b { t with location := some l }.walk := by
  refine h.sub (fun n hn => ?_) (wildcardsOf_moved t _ ▸ List.Sublist.refl _)
  rw [walk_eq] at hn
  rcases List.mem_cons.1 hn with rfl | hn
  · exact ⟨l, rfl, anchored⟩
  · exact h.placed n (by rw [walk_eq]; exact List.mem_cons_of_mem _ hn)

theorem body {es : List Expr} (h : m.Spans W a b (walkExprs es)) : m.Spans W a b (walkBody es) := by
  refine h.sub (fun n hn => ?_) (wildcardsOf_walkBody es ▸ List.Sublist.refl _)
  rw [walkBody_eq] at hn
  rcases List.mem_cons.1 hn with rfl | hn
  · trivial
  · exact h.placed n hn

/-- A literal at its place. -/
theorem expr {e : Expr} (h : m.Spans W a b (e.terms.walkParts ++ walkWiths e.withs)) (fitted : m.Fitted e)
    (located : e.location = some l) (spanned : m.Spanned l) : m.Spans W a b e.walk := by
  refine h.sub (fun n hn => ?_) (wildcardsOf_expr e ▸ List.Sublist.refl _)
  rw [expr_walk_eq] at hn
  rcases List.mem_cons.1 hn with rfl | hn
  · exact ⟨⟨l, located, spanned⟩, fitted⟩
  · exact h.placed n hn

theorem relocate (h : m.Spans W a b ns) (spanned : m.Spanned l) :
    m.Spans W a b (ns.map (Visit.relocate l)) := by
  refine h.sub (fun n hn => ?_) (wildcardsOf_relocate l ns ▸ List.Sublist.refl _)
  obtain ⟨x, hx, rfl⟩ := List.mem_map.1 hn
  exact (h.placed x hx).relocate spanned

end Spans

end Survey

/-! ## Rules -/

/-- The nodes of a head. -/
def Head.nodes (h : Head) : List Visit :=
  walkTerms h.reference ++ walkTerms h.args ++ walkKey h.key ++ walkKey h.value

/-- The nodes in the heads of a rule and of its alternatives. -/
def Rule.inHeads (r : Rule) : List Visit := r.links.flatMap (·.head.nodes)

/-- The nodes outside of the heads of a rule and of its alternatives. -/
def Rule.inBodies (r : Rule) : List Visit := r.links.flatMap (·.body.walk)

theorem Rule.links_eq (r : Rule) : r.links = r :: r.elseRule.toList.flatMap Rule.links := by
  rw [Rule.links, Rule.alternatives_eq]
  cases r.elseRule with
  | none => rfl
  | some r' => exact congrArg (r :: ·) (List.append_nil _).symm

theorem Rule.inHeads_eq (r : Rule) :
    r.inHeads = r.head.nodes ++ r.elseRule.toList.flatMap Rule.inHeads := by
  rw [Rule.inHeads, Rule.links_eq, List.flatMap_cons, List.flatMap_assoc]
  rfl

theorem Rule.inBodies_eq (r : Rule) :
    r.inBodies = r.body.walk ++ r.elseRule.toList.flatMap Rule.inBodies := by
  rw [Rule.inBodies, Rule.links_eq, List.flatMap_cons, List.flatMap_assoc]
  rfl

namespace Survey

variable {m : Survey} {W W' : Array Nat} {H K : Nat → Prop} {a b x y : Nat}
  {ns ms bodies heads bodies' heads' : List Visit}

/-- Nodes whose wildcards were drawn at offsets of some kind, in any order. -/
structure Strewn (m : Survey) (drawn : Array Nat) (H : Nat → Prop) (ns : List Visit) : Prop where
  placed : ∀ n ∈ ns, m.Placed n
  born : ∀ x ∈ wildcardsOf ns, ∃ n, Drawn drawn x n ∧ H n

namespace Strewn

theorem mono (h : m.Strewn W H ns) (grows : Grows W W') (imp : ∀ n, H n → K n) : m.Strewn W' K ns :=
  ⟨h.placed, fun x hx => by
    obtain ⟨n, drawn, holds⟩ := h.born x hx
    exact ⟨n, drawn.grow grows, imp n holds⟩⟩

theorem append (h : m.Strewn W H ns) (h' : m.Strewn W H ms) : m.Strewn W H (ns ++ ms) where
  placed n hn := (List.mem_append.1 hn).elim (h.placed n) (h'.placed n)
  born x hx := by
    rw [wildcardsOf_append] at hx
    exact (List.mem_append.1 hx).elim (h.born x) (h'.born x)

theorem nil : m.Strewn W H [] := ⟨List.forall_mem_nil _, List.forall_mem_nil _⟩

/-- Some of the nodes. -/
theorem sub (h : m.Strewn W H ns) (some : ∀ n ∈ ms, n ∈ ns) : m.Strewn W H ms :=
  ⟨fun n hn => h.placed n (some n hn), fun x hx => by
    obtain ⟨n, hn, wild⟩ := List.mem_filterMap.1 hx
    exact h.born x (List.mem_filterMap.2 ⟨n, some n hn, wild⟩)⟩

theorem of_spans (h : m.Spans W a b ns) : m.Strewn W (fun n => a ≤ n ∧ n < b) ns :=
  ⟨h.placed, fun x hx => by
    obtain ⟨n, drawn, -, range⟩ := h.born x hx
    exact ⟨n, drawn, range⟩⟩

/-- Nodes whose wildcards were drawn elsewhere have none of the same names. -/
theorem apart (h : m.Strewn W H ns) (spans : m.Spans W a b ms) (elsewhere : ∀ n, H n → n < a ∨ b ≤ n) :
    ∀ x ∈ wildcardsOf ns, x ∉ wildcardsOf ms := fun x hx there => by
  obtain ⟨n, drawn, holds⟩ := h.born x hx
  obtain ⟨n', drawn', -, from', upTo⟩ := spans.born x there
  obtain rfl := drawn.unique drawn'
  rcases elsewhere n holds with lt | le <;> omega

theorem relocate {l : Location} (h : m.Strewn W H ns) (spanned : m.Spanned l) :
    m.Strewn W H (ns.map (Visit.relocate l)) where
  placed n hn := by
    obtain ⟨y, hy, rfl⟩ := List.mem_map.1 hn
    exact (h.placed y hy).relocate spanned
  born := wildcardsOf_relocate l ns ▸ h.born

end Strewn

/-- What was read of rules between two offsets: nodes of bodies, and nodes of heads that have no wildcard
with them in common.  Wildcards of heads may have been drawn before. -/
structure Clear (m : Survey) (drawn : Array Nat) (H : Nat → Prop) (start stop : Nat)
    (inBodies inHeads : List Visit) : Prop where
  bodies : m.Spans drawn start stop inBodies
  heads : m.Strewn drawn (fun n => H n ∨ start ≤ n ∧ n < stop) inHeads
  apart : ∀ x ∈ wildcardsOf inHeads, x ∉ wildcardsOf inBodies

namespace Clear

theorem nil (le : a ≤ b) : m.Clear W H a b [] [] :=
  ⟨.nil le, .nil, fun _ hx => absurd hx List.not_mem_nil⟩

theorem mono (h : m.Clear W H a b bodies heads) (grows : Grows W W') (le : b ≤ y) :
    m.Clear W' H a y bodies heads :=
  ⟨h.bodies.mono grows (Nat.le_refl _) le, h.heads.mono grows fun _ => .imp id fun ⟨from', upTo⟩ =>
    ⟨from', upTo.trans_le le⟩, h.apart⟩

/-- What was read of rules one behind the other. -/
theorem append (h : m.Clear W H a x bodies heads) (h' : m.Clear W H x b bodies' heads')
    (before : ∀ n, H n → n < a) : m.Clear W H a b (bodies ++ bodies') (heads ++ heads') where
  bodies := h.bodies.append h'.bodies
  heads := by
    have le := h.bodies.le
    have le' := h'.bodies.le
    refine (h.heads.mono (.refl _) fun n => .imp id fun range => ?_).append
      (h'.heads.mono (.refl _) fun n => .imp id fun range => ?_) <;> omega
  apart := by
    have le := h.bodies.le
    -- what the heads have is from before, or from between the bodies
    have behind : ∀ n, H n ∨ a ≤ n ∧ n < x → n < x ∨ b ≤ n := fun n hn => by
      rcases hn with hn | ⟨-, lt⟩
      · exact .inl ((before n hn).trans_le le)
      · exact .inl lt
    have ahead : ∀ n, H n ∨ x ≤ n ∧ n < b → n < a ∨ x ≤ n := fun n hn => by
      rcases hn with hn | ⟨from', -⟩
      · exact .inl (before n hn)
      · exact .inr from'
    intro z hz there
    rw [wildcardsOf_append] at hz there
    -- the bodies on either side against the heads on either side
    rcases List.mem_append.1 hz with hz | hz <;> rcases List.mem_append.1 there with there | there
    · exact h.apart z hz there
    · exact h.heads.apart h'.bodies behind z hz there
    · exact h'.heads.apart h.bodies ahead z hz there
    · exact h'.apart z hz there

/-- A head, and what was read behind it. -/
theorem behind (head : m.Strewn W (fun n => H n ∨ a ≤ n ∧ n < x) heads) (body : m.Spans W x b bodies)
    (before : ∀ n, H n → n < a) (le : a ≤ x) : m.Clear W H a b bodies heads where
  bodies := body.mono (.refl _) le (Nat.le_refl _)
  heads := by
    have le' := body.le
    refine head.mono (.refl _) fun n => .imp id fun range => ?_
    omega
  apart := head.apart body fun n hn => by
    rcases hn with hn | ⟨-, lt⟩
    · exact .inl ((before n hn).trans_le le)
    · exact .inl lt

/-- What was read with a head that was drawn just before. -/
theorem close (h : m.Clear W (fun n => a ≤ n ∧ n < x) x b bodies heads) (le : a ≤ x) :
    m.Clear W (fun _ => False) a b bodies heads where
  bodies := h.bodies.mono (.refl _) le (Nat.le_refl _)
  heads := by
    have le' := h.bodies.le
    refine h.heads.mono (.refl _) fun n range => .inr ?_
    omega
  apart := h.apart

end Clear

/-- Every link of a rule has a place, and so has its head. -/
def Laid (m : Survey) (r : Rule) : Prop :=
  ∀ link ∈ r.links, (∃ l, link.location = some l ∧ m.Spanned l) ∧
    ∃ l, link.head.location = some l ∧ m.Spanned l

end Survey

end RegoSyntax
