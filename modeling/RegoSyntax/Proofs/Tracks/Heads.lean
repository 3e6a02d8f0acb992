/-
# RegoSyntax.Proofs.Tracks.Heads — heads of rules, and where their wildcards were drawn.

A head is taken apart and put together anew: arguments get new names, a segment becomes the key, a value is
made up.  So the nodes of a head do not follow one another as they were read; what is known is that each
stands at a token, and where its wildcards were drawn.

`Strewn` says of nodes that each has a place, and that their wildcards were drawn at offsets that a
predicate allows; `Bears` says so of each part of a head.  Whatever is done with a head then is a matter
of predicates: to renew the arguments at an offset adds that offset, to read a value adds the offsets that
were passed (`From`), and to move nodes from one part to another adds none.
-/
import RegoSyntax.Proofs.Tracks.Literals

namespace RegoSyntax

open Parse

/-- A head that is moved has the nodes that it had, moved. -/
theorem Head.nodes_relocate (l : Location) (h : Head) :
    (h.relocate l).nodes = h.nodes.map (Visit.relocate l) := by
  rw [Head.nodes, Head.nodes, List.map_append, List.map_append, List.map_append]
  exact congrArg₂ _ (congrArg₂ _ (congrArg₂ _ (walkTerms_relocate _) (walkTerms_relocate _))
    (walkKey_relocate _)) (walkKey_relocate _)

namespace Survey

variable {m : Survey} {c d : Cursor} {r u v w t : Reading} {W W' : Array Nat} {H K : Nat → Prop} {a b : Nat}

/-! ## Heads by their parts

What is known of a head is known of its parts, so a head that is put together anew is known by the parts
it has. -/

/-- An offset lies between another one and where a parser has come to. -/
def From (a : Nat) (u : Reading) (n : Nat) : Prop := a ≤ n ∧ n < u.look.offset

/-- The nodes of a head have places, and its wildcards were drawn at offsets of some kind. -/
structure Bears (m : Survey) (drawn : Array Nat) (H : Nat → Prop) (h : Head) : Prop where
  reference : m.Strewn drawn H (walkTerms h.reference)
  args : m.Strewn drawn H (walkTerms h.args)
  key : m.Strewn drawn H (walkKey h.key)
  value : m.Strewn drawn H (walkKey h.value)

namespace Bears

variable {h : Head}

/-- The nodes of a head are those of its parts. -/
theorem nodes (bears : m.Bears W H h) : m.Strewn W H h.nodes :=
  ((bears.reference.append bears.args).append bears.key).append bears.value

/-- What is known of all nodes is known of each part. -/
theorem of_nodes (strewn : m.Strewn W H h.nodes) : m.Bears W H h := by
  refine ⟨strewn.sub fun n hn => ?_, strewn.sub fun n hn => ?_, strewn.sub fun n hn => ?_,
    strewn.sub fun n hn => ?_⟩ <;> simp [Head.nodes, hn]

/-- More names may have been drawn since, and more offsets allowed. -/
theorem mono (bears : m.Bears W H h) (grows : Grows W W') (imp : ∀ n, H n → K n) : m.Bears W' K h :=
  of_nodes (bears.nodes.mono grows imp)

/-- Offsets that the parser has passed stay passed. -/
theorem later (bears : m.Bears u.wildcards (From a u) h) (later : m.Later u v) :
    m.Bears v.wildcards (From a v) h :=
  bears.mono later.drawn fun _ ⟨from', upTo⟩ => ⟨from', upTo.trans_le later.ahead⟩

/-- Offsets from a later one on are offsets from an earlier one on. -/
theorem since (bears : m.Bears u.wildcards (From b u) h) (le : a ≤ b) :
    m.Bears u.wildcards (From a u) h :=
  bears.mono (.refl _) fun _ ⟨from', upTo⟩ => ⟨le.trans from', upTo⟩

/-- A path with arguments, and nothing else. -/
theorem of_path {path args : List Term} (reference : m.Strewn W H (walkTerms path))
    (args' : m.Strewn W H (walkTerms args)) : m.Bears W H { Head.ofRef path with args } :=
  ⟨reference, args', .nil, .nil⟩

end Bears

/-- What was read from an offset on. -/
theorem Strewn.of_covers {ns : List Visit} (h : m.Covers u b ns) (le : a ≤ b) :
    m.Strewn u.wildcards (From a u) ns :=
  (Strewn.of_spans h).mono (.refl _) fun _ ⟨from', upTo⟩ => ⟨le.trans from', upTo⟩

/-- The value `true` has a place and no wildcard. -/
theorem strewn_trueTerm {place : Location} (anchored : m.Anchored place) :
    m.Strewn W H (walkKey (some (trueTerm place))) := by
  refine ⟨fun n hn => ?_, List.forall_mem_nil _⟩
  rcases List.mem_cons.1 hn with rfl | hn
  · exact ⟨place, rfl, anchored⟩
  · exact List.mem_singleton.1 hn ▸ trivial

/-- The body that is made up at a place. -/
theorem spans_trueBody {place : Location} (spanned : m.Spanned place) (le : a ≤ b) :
    m.Spans W a b (Body.walk (trueBody place)) := by
  refine .body ?_
  show m.Spans W a b (Expr.walk _ ++ [])
  rw [List.append_nil]
  refine .expr ?_ ⟨trivial, List.forall_mem_nil _⟩ rfl spanned
  show m.Spans W a b ((trueTerm place).walk ++ [])
  rw [List.append_nil]
  exact .term (.nil le) spanned.anchored rfl

namespace Keeps

variable {g : Grammar}

open Tracks

/-! ## Arguments

A renamed argument has a name that was drawn where the head is taken over. -/

/-- Terms of which the wildcards have got new names that were drawn at an offset. -/
structure Renews (m : Survey) (c : Cursor) (stands : Nat) (u v : Reading) (ts ts' : List Term) : Prop where
  sound : m.Sound c v
  token : v.look.token = u.look.token
  strewn : ∀ H : Nat → Prop, m.Strewn u.wildcards H (walkTerms ts) →
    m.Strewn v.wildcards (fun n => H n ∨ n = stands) (walkTerms ts')

/-- A variable with a name that was drawn for it. -/
theorem strewn_drawn {x : String} {n : Nat} {l : Option Location} (drawn : Drawn W x n)
    (located : ∃ p, l = some p ∧ m.Anchored p) : m.Strewn W (fun i => H i ∨ i = n) (Term.mk (.var x) l).walk := by
  refine ⟨fun y hy => ?_, fun y hy => ?_⟩
  · rcases List.mem_cons.1 hy with rfl | hy
    · exact located
    · exact List.mem_singleton.1 hy ▸ trivial
  · rw [wildcardsOf_var] at hy
    split at hy
    · exact List.mem_singleton.1 hy ▸ ⟨n, drawn, .inr rfl⟩
    · cases hy

/-- An argument that is a wildcard gets a name that is drawn at the offset. -/
theorem renewedTerm (sound : m.Sound c u) (stands : Nat) (t : Term) :
    m.Tracks (m.Later u) (match t.value with
      | .var name =>
        if isWildcardName name then do return { t with value := .var (← freshWildcard stands) }
        else return t
      | _ => return t) u fun t' v => Renews m c stands u v [t] [t'] := by
  have kept : Renews m c stands u u [t] [t] :=
    ⟨sound, rfl, fun _ strewn => strewn.mono (.refl _) fun _ => .inl⟩
  split
  · split
    · refine .step (.refl sound) (.freshWildcard sound) fun x v _ _ l _ ⟨stays, drawn⟩ => .pure l ?_
      refine ⟨stays.sound, stays.token, fun H strewn => ?_⟩
      rw [walkTerms_single] at strewn ⊢
      exact strewn_drawn drawn (strewn.placed (.term t) (by rw [walk_eq]; exact List.mem_cons_self))
    · exact .pure (.refl sound) kept
  · exact .pure (.refl sound) kept

/-- Arguments are renewed one after the other, and all else of the head stays. -/
theorem renewed (sound : m.Sound c u) (h : Head) (stands : Nat) :
    m.Tracks (m.Later u) (Parse.renewed h stands) u fun h' v => ∃ args, h' = { h with args } ∧
      Renews m c stands u v h.args args := by
  have all (ts : List Term) {u : Reading} (sound : m.Sound c u) :
      m.Tracks (m.Later u) (ts.mapM fun t => match t.value with
        | .var name =>
          if isWildcardName name then do return { t with value := .var (← freshWildcard stands) }
          else return t
        | _ => return t) u fun ts' v => Renews m c stands u v ts ts' := by
    -- -- each argument draws behind those before it, so the names stay apart along the list
    induction ts generalizing u with
    | nil => exact .pure (.refl sound) ⟨sound, rfl, fun _ _ => .nil⟩
    | cons t ts ih =>
        rw [List.mapM_cons]
        refine .step (.refl sound) (renewedTerm sound stands t) fun t' t₁ _ _ l₁ _ first => ?_
        refine .step l₁ (ih first.sound) fun ts' t₂ _ _ l₂ n₂ rest => .pure l₂ ?_
        refine ⟨rest.sound, rest.token.trans first.token, fun H strewn => ?_⟩
        have head := first.strewn H (strewn.sub fun n hn => List.mem_append_left _ (by rwa [walkTerms_single] at hn))
        have tail := rest.strewn H ((strewn.sub fun n hn => List.mem_append_right _ hn).mono l₁.drawn fun _ => id)
        rw [walkTerms_single] at head
        exact (head.mono n₂.drawn fun _ => id).append tail
  unfold Parse.renewed
  refine .step (.refl sound) (all h.args sound) fun args t _ _ l _ renews => .pure l ⟨args, rfl, renews⟩

/-- A head of which the arguments have been renewed. -/
theorem Renews.bears {h : Head} {stands : Nat} {args : List Term}
    (renews : Renews m c stands u v h.args args) (grows : Grows u.wildcards v.wildcards)
    (bears : m.Bears u.wildcards H h) : m.Bears v.wildcards (fun n => H n ∨ n = stands) { h with args } :=
  ⟨bears.reference.mono grows fun _ => .inl, renews.strewn H bears.args,
    bears.key.mono grows fun _ => .inl, bears.value.mono grows fun _ => .inl⟩

/-! ## Heads

The parts of a head are read behind one another, and only the terms in them have nodes. -/

/-- The head that a term stands for has no nodes but those of the term. -/
theorem headOf (sound : m.Sound c u) (t : Term) :
    m.Tracks (m.Later u) (Parse.headOf t) u fun h v => v = u ∧
      (m.Strewn u.wildcards H t.walk → m.Bears u.wildcards H h) := by
  unfold Parse.headOf
  -- a head of a name has the name only, one of a path its path, one of a call both parts
  split
  · next name var =>
      refine .pure (.refl sound) ⟨rfl, fun strewn => ⟨strewn.sub fun n hn => ?_, .nil, .nil, .nil⟩⟩
      obtain ⟨_, l⟩ := t
      cases var
      exact walkTerms_single _ ▸ hn
  · next path ref =>
      refine .pure (.refl sound) ⟨rfl, fun strewn => ⟨strewn.sub fun n hn => ?_, .nil, .nil, .nil⟩⟩
      rw [walk_eq, ref]
      exact List.mem_cons_of_mem _ (List.mem_cons_of_mem _ hn)
  · next op args call =>
      have below (n : Visit) (hn : n ∈ op.walk ∨ n ∈ walkTerms args) : n ∈ t.walk := by
        rw [walk_eq, call]
        exact List.mem_cons_of_mem _ (List.mem_cons_of_mem _ (List.mem_append.2 hn))
      split
      · refine .pure (.refl sound) ⟨rfl, fun strewn => .of_path (strewn.sub fun n hn => ?_)
          (strewn.sub fun n hn => below n (.inr hn))⟩
        rw [walkTerms_single] at hn
        exact below n (.inl hn)
      · next path ref =>
          split
          · refine .pure (.refl sound) ⟨rfl, fun strewn => .of_path (strewn.sub fun n hn => ?_)
              (strewn.sub fun n hn => below n (.inr hn))⟩
            refine below n (.inl ?_)
            rw [walk_eq, ref]
            exact List.mem_cons_of_mem _ (List.mem_cons_of_mem _ hn)
          · exact .unexpected_fail (.refl sound) sound
      · exact .fail (.refl sound)
  · exact .fail (.refl sound)

/-- The part of a head behind its sign was read from there. -/
theorem headPart (h : m.Keeps g) (sound : m.Sound c u) (more : u.look.token ≠ .eof) (le : a ≤ c.offset)
    (note : Note) :
    m.Tracks (m.Later u) (Parse.headPart g note) u fun x v => m.Strewn v.wildcards (From a v) (walkKey x) := by
  unfold Parse.headPart
  refine .step (.refl sound) (.scan sound more) fun _ t₁ d₁ s₁ l₁ _ _ => ?_
  refine .step l₁ (.attempt (h (.compound true) d₁ t₁ s₁ trivial)) fun x t₂ d₂ s₂ l₂ _ read => ?_
  cases x with
  | none => exact .step l₂ (.unexpected s₂) fun _ _ _ _ l _ _ => .pure l .nil
  | some t =>
      have le : a ≤ d₁.offset := by
        rw [← s₁.offset]
        exact (le.trans sound.offset.ge).trans l₁.ahead
      exact .pure l₂ (.of_covers (read t rfl).spans le)

/-- A value that is made up has the place of the head. -/
theorem bears_valued {place : Location} {own : Head} (anchored : m.Anchored place) (bears : m.Bears W H own) :
    m.Bears W H (valued own place) := by
  unfold valued
  split
  · exact { bears with value := strewn_trueTerm anchored }
  · exact bears

/-- The parts behind the path and the arguments of a head. -/
theorem headRest (h : m.Keeps g) (sound : m.Sound c u) (isDefault : Bool) {place : Location} {own : Head}
    (anchored : m.Anchored place) (le : a ≤ c.offset) (bears : m.Bears u.wildcards (From a u) own) :
    m.Tracks (m.Later u) (Parse.headRest g isDefault place own) u
      fun h' v => m.Bears v.wildcards (From a v) h' := by
  unfold Parse.headRest
  rw [token_iff]
  dsimp only
  split
  · next contains =>
      -- the same part is read whether or not the word was due
      have keyed {t : Reading} {d : Cursor} (s : m.Sound d t) (l : m.Later u t)
          (token : t.look.token = .containsKw) : m.Tracks (m.Later u) (do
            return { own with
              key := ← Parse.headPart g (.ruleKey (Ref.render own.reference))
              keywords := [.containsKw] }) t fun h' v => m.Bears v.wildcards (From a v) h' := by
        have le : a ≤ d.offset := by
          rw [← s.offset]
          exact (le.trans sound.offset.ge).trans l.ahead
        refine .step l (headPart h s (by rw [token]; decide) le _) fun x t₁ _ _ l₁ n₁ part => .pure l₁ ?_
        exact { (bears.later l).later n₁ with key := part }
      split
      · exact .step (.refl sound) (.unexpected sound) fun _ t d s l _ stays =>
          keyed s l (stays.token.trans contains)
      · exact keyed sound (.refl sound) contains
  · next unify =>
      refine .step (.refl sound) (headPart h sound (by rw [unify]; decide) le _) fun x t _ _ l _ part =>
        .pure l (bears_valued anchored ?_)
      exact { bears.later l with value := part }
  · next assign =>
      refine .step (.refl sound) (headPart h sound (by rw [assign]; decide) le _) fun x t _ _ l _ part =>
        .pure l (bears_valued anchored ?_)
      exact { bears.later l with value := part }
  · exact .pure (.refl sound) (bears_valued anchored bears)

/-- A head bears what was read from its first token on. -/
theorem ruleHead (h : m.Keeps g) (sound : m.Sound c u) (isDefault : Bool) (ident : u.look.token = .ident) :
    m.Tracks (m.Later u) (Parse.ruleHead g isDefault) u fun own v =>
      u.look.offset < v.look.offset ∧ m.Bears v.wildcards (From c.offset v) own ∧
        ∃ l, own.location = some l ∧ m.Spanned l := by
  unfold Parse.ruleHead
  rw [location_iff]
  refine .step (.refl sound) (variableHere sound (.inl ident)) fun name t₁ d₁ s₁ l₁ _ names => ?_
  refine .step l₁ (.attempt (finish h names.sound name true (names.heads (.inl ident))))
    fun x t₂ d₂ s₂ l₂ _ read => ?_
  split
  · exact .unexpected_fail l₂ s₂
  -- -- the head spans from its first token; what follows only adds to its marks
  · next t =>
      have read := read t rfl
      refine .step l₂ (headOf (H := From c.offset t₂) s₂ t) fun bare t₃ d₃ s₃ l₃ _ own => ?_
      obtain ⟨rfl, bears⟩ := own
      have le : c.offset ≤ d₃.offset := by
        rw [← s₃.offset]
        exact read.root.lt.le
      have bears := bears (.of_covers read.spans (Nat.le_refl _))
      refine .step l₃ (headRest h s₃ isDefault sound.rests.anchored le bears)
        fun own t₄ d₄ s₄ l₄ n₄ bears => ?_
      rw [upToLastStop_iff]
      have lt : u.look.offset < t₄.look.offset := by
        rw [sound.offset]
        exact read.root.lt.trans_le n₄.ahead
      exact .pure l₄ ⟨lt, ⟨bears.reference, bears.args, bears.key, bears.value⟩, _, rfl,
        sound.spanned_up s₄ (sound.rests.proper_of_word (.inl ident)) lt⟩

/-- To name a head moves nothing. -/
theorem headName (sound : m.Sound c u) (path : Ref) :
    m.Tracks (m.Later u) (Parse.headName path) u fun _ v => v = u := .ofOption (.refl sound) fun _ _ => rfl

/-- The parts of a head are put in order, and none is added but `true`. -/
theorem resolved (sound : m.Sound c u) {own : Head} {place : Location} (anchored : m.Anchored place)
    (hasIf : Bool) (bears : m.Bears u.wildcards H own) :
    m.Tracks (m.Later u) (Parse.resolved own place hasIf) u fun h' v =>
      v = u ∧ m.Bears u.wildcards H h' ∧ h'.location = own.location := by
  have kept : m.Tracks (m.Later u) (Pure.pure own) u fun h' v =>
      v = u ∧ m.Bears u.wildcards H h' ∧ h'.location = own.location :=
    .pure (.refl sound) ⟨rfl, bears, rfl⟩
  unfold Parse.resolved
  split
  -- the path has two segments, so its nodes are those of the base and those of the key
  · next base key reference =>
      have parts := bears.reference
      rw [reference, walkTerms, walkTerms_single] at parts
      split
      · exact kept
      · split
        · split
          · exact .pure (.refl sound) ⟨rfl, { bears with value := strewn_trueTerm anchored }, rfl⟩
          · refine .bind (headName sound _) (fun _ later => later) fun name t later same => .pure later ?_
            exact ⟨same, ⟨bears.reference, bears.args, bears.key, bears.value⟩, rfl⟩
        · split
          · refine .bind (headName sound _) (fun _ later => later) fun name t later same => .pure later ?_
            refine ⟨same, ⟨?_, bears.args, parts.sub fun n hn => List.mem_append_right _ hn, bears.value⟩, rfl⟩
            dsimp only
            split
            · rw [walkTerms_single]
              exact parts.sub fun n hn => List.mem_append_left _ hn
            · exact bears.reference
          · exact kept
  · exact kept

end Keeps

end Survey

end RegoSyntax
