/-
# RegoSyntax.Proofs.Renaming.Pairing — two parses of one source, state against state.

Two parsers of one source may take a different number of turns on the way to one token, and draw a
different number of wildcards.  A `Pairing` says which wildcards of the two sides stand for each other.  It
only grows: names that are drawn on both sides at once become a new pair, and names that one side has drawn
alone are in no pair.

`Twins.Meets` says that two states are the same up to a pairing and the advice that is pending.  It also
says what there was at an earlier place, the `Floor`: a parser only returns to a place with the errors and
comments that it had there.
-/
import RegoSyntax.Proofs.Renaming.Wording
import RegoSyntax.Proofs.Moves.Takes

namespace RegoSyntax

open Parse

/-! ## Pairs of wildcards

Each side draws wildcards with numbers of its own, and those that were drawn at the same place are paired.
The pairing is one to one, so names that differ on one side differ on the other. -/

/-- A relation between numbers is one to one. -/
def OneToOne (N : Nat → Nat → Prop) : Prop := ∀ l r l' r', N l r → N l' r' → (l = l' ↔ r = r')

/-- Which wildcards stand for each other, out of those that each side has drawn. -/
structure Pairing where
  pairs : Nat → Nat → Prop
  left : Nat
  right : Nat
  bounded : ∀ l r, pairs l r → l < left ∧ r < right
  one : OneToOne pairs

namespace Pairing

/-- No wildcard has been drawn. -/
def none : Pairing where
  pairs _ _ := False
  left := 0
  right := 0
  bounded _ _ h := h.elim
  one _ _ _ _ h := h.elim

/-- A pairing grows: pairs stay pairs. -/
structure Grown (N M : Pairing) : Prop where
  more : ∀ l r, N.pairs l r → M.pairs l r
  left : N.left ≤ M.left
  right : N.right ≤ M.right

instance : Preorder Pairing where
  le := Grown
  le_refl _ := ⟨fun _ _ h => h, Nat.le_refl _, Nat.le_refl _⟩
  le_trans _ _ _ first second :=
    ⟨fun l r h => second.more l r (first.more l r h), first.left.trans second.left,
      first.right.trans second.right⟩

/-- A wildcard is drawn on both sides. -/
def draw (N : Pairing) : Pairing where
  pairs l r := N.pairs l r ∨ (l = N.left ∧ r = N.right)
  left := N.left + 1
  right := N.right + 1
  bounded l r h := by
    rcases h with h | ⟨rfl, rfl⟩
    · exact ⟨(N.bounded l r h).1.trans (Nat.lt_succ_self _),
        (N.bounded l r h).2.trans (Nat.lt_succ_self _)⟩
    · exact ⟨Nat.lt_succ_self _, Nat.lt_succ_self _⟩
  one l r l' r' h h' := by
    -- the names of older pairs are smaller than those that are drawn
    rcases h with h | ⟨rfl, rfl⟩ <;> rcases h' with h' | ⟨rfl, rfl⟩
    · exact N.one l r l' r' h h'
    · have := N.bounded l r h
      omega
    · have := N.bounded l' r' h'
      omega
    · exact iff_of_true rfl rfl

theorem le_draw (N : Pairing) : N ≤ N.draw :=
  ⟨fun _ _ => .inl, Nat.le_succ _, Nat.le_succ _⟩

theorem draw_pairs (N : Pairing) : N.draw.pairs N.left N.right := .inr ⟨rfl, rfl⟩

/-- The sides have drawn more wildcards, each for itself. -/
def widen (N : Pairing) {l r : Nat} (left : N.left ≤ l) (right : N.right ≤ r) : Pairing where
  pairs := N.pairs
  left := l
  right := r
  bounded a b h := ⟨(N.bounded a b h).1.trans_le left, (N.bounded a b h).2.trans_le right⟩
  one := N.one

theorem le_widen (N : Pairing) {l r : Nat} (left : N.left ≤ l) (right : N.right ≤ r) :
    N ≤ N.widen left right :=
  ⟨fun _ _ h => h, left, right⟩

end Pairing

/-! ## What a parser sees and remembers

What is seen and what is remembered correspond.  Where one side remembers nothing of a place, the other
one does not either. -/

/-- The same token, whatever advice is pending. -/
def Look.Same (l l' : Look) : Prop := ∃ hints, l' = { l with hints }

namespace Look.Same

variable {l l' l'' : Look}

theorem refl (l : Look) : l.Same l := ⟨l.hints, rfl⟩

theorem trans (first : l.Same l') (second : l'.Same l'') : l.Same l'' := by
  obtain ⟨_, rfl⟩ := first
  obtain ⟨hints, rfl⟩ := second
  exact ⟨hints, rfl⟩

theorem symm (h : l.Same l') : l'.Same l := by
  obtain ⟨_, rfl⟩ := h
  exact ⟨l.hints, rfl⟩

theorem offset (h : l.Same l') : l'.offset = l.offset := by
  obtain ⟨_, rfl⟩ := h
  rfl

theorem hinted (h : l.Same l') (hints hints' : List Hint) :
    Look.Same { l with hints } { l' with hints := hints' } := by
  obtain ⟨_, rfl⟩ := h
  exact ⟨hints', rfl⟩

end Look.Same

theorem Look.literal_hints (l : Look) (hints : List Hint) :
    Look.literal { l with hints } = l.literal := rfl

/-- The advice that is pending says nothing about the token. -/
theorem Look.Ok.hints {source : String} {l : Look} (ok : l.Ok source) (hints : List Hint) :
    Look.Ok source { l with hints } := by
  obtain ⟨c, at', solid⟩ := ok
  exact ⟨c, { at' with }, solid⟩

/-- Errors that are alike one by one. -/
def AlikeFailures (N : Nat → Nat → Prop) (a b : Array Failure) : Prop :=
  List.Forall₂ (Failure.Alike N) a.toList b.toList

namespace AlikeFailures

variable {N M : Nat → Nat → Prop} {a b c d : Array Failure}

theorem mono (h : ∀ l r, N l r → M l r) (alike : AlikeFailures N a b) : AlikeFailures M a b :=
  List.Forall₂.imp (fun _ _ => Failure.Alike.mono h) alike

theorem size (alike : AlikeFailures N a b) : a.size = b.size := alike.length_eq

theorem isEmpty (alike : AlikeFailures N a b) : a.isEmpty = b.isEmpty := by
  rw [Array.isEmpty, Array.isEmpty, alike.size]

theorem append (first : AlikeFailures N a b) (second : AlikeFailures N c d) :
    AlikeFailures N (a ++ c) (b ++ d) := by
  unfold AlikeFailures at *
  rw [Array.toList_append, Array.toList_append]
  exact List.rel_append first second

theorem push (alike : AlikeFailures N a b) {f g : Failure} (last : f.Alike N g) :
    AlikeFailures N (a.push f) (b.push g) := by
  rw [Array.push_eq_append, Array.push_eq_append]
  exact alike.append (.cons last .nil)

/-- What was added behind places with as many errors is alike. -/
theorem extract (alike : AlikeFailures N a b) (n : Nat) :
    AlikeFailures N (a.extract n a.size) (b.extract n b.size) := by
  unfold AlikeFailures at *
  rw [Array.toList_extract, Array.toList_extract, List.extract_eq_take_drop,
    List.extract_eq_take_drop, show b.size = a.size from alike.length_eq.symm]
  exact List.forall₂_take _ (List.forall₂_drop _ alike)

end AlikeFailures

/-- Alike readings of one term from one token, and a token is come to. -/
structure MemoEntry.Alike (source : String) (N : Nat → Nat → Prop) (e e' : MemoEntry) : Prop where
  before : e.before.Same e'.before
  clean : e'.clean = e.clean
  term : Option.Rel (Term.Alike N) e.term e'.term
  after : e.after.Same e'.after
  ok : e.after.Ok source
  failures : AlikeFailures N e.failures e'.failures
  comments : e'.comments = e.comments

/-- What is remembered is alike, entry by entry. -/
def Memo.Alike (source : String) (N : Nat → Nat → Prop) (m m' : Memo) : Prop :=
  List.Forall₂ (MemoEntry.Alike source N) m.entries m'.entries

namespace Memo.Alike

variable {source : String} {N M : Nat → Nat → Prop} {m m' : Memo} {e e' : MemoEntry}

theorem empty : Memo.Alike source N .empty .empty := .nil

theorem mono (h : ∀ l r, N l r → M l r) (alike : Memo.Alike source N m m') :
    Memo.Alike source M m m' :=
  List.Forall₂.imp (fun _ _ e =>
    { e with
      term := rel_mono (fun _ _ => Term.Alike.mono h) e.term
      failures := e.failures.mono h }) alike

theorem offset (alike : e.Alike source N e') : e'.offset = e.offset := alike.before.offset

/-- The entries at an offset correspond. -/
theorem lookup (alike : Memo.Alike source N m m') (offset : Nat) :
    Option.Rel (MemoEntry.Alike source N) (m.lookup offset) (m'.lookup offset) := by
  unfold Memo.lookup
  unfold Memo.Alike at alike
  generalize m.entries = es at alike ⊢
  generalize m'.entries = es' at alike ⊢
  induction alike with
  | nil => exact .none
  | @cons e e' _ _ first _ ih =>
      have same := Memo.Alike.offset first
      rw [List.takeWhile_cons, List.takeWhile_cons, same]
      split
      · rw [List.find?_cons, List.find?_cons, same]
        split
        · exact .some first
        · exact ih
      · exact .none

theorem push (alike : Memo.Alike source N m m') (first : e.Alike source N e') :
    Memo.Alike source N (m.push e) (m'.push e') := by
  refine .cons first ?_
  have same := Memo.Alike.offset first
  unfold Memo.Alike at alike
  generalize m.entries = es at alike ⊢
  generalize m'.entries = es' at alike ⊢
  induction alike with
  | nil => exact .nil
  | @cons d d' _ _ first' rest ih =>
      rw [List.dropWhile_cons, List.dropWhile_cons, same, Memo.Alike.offset first']
      rw [same] at ih
      split
      · exact ih
      · exact .cons first' rest

end Memo.Alike

/-! ## States in step -/

/-- Two parsers of one source, under the same settings.  They may differ in whether they look for words
that should have been imported. -/
structure Twins where
  source : String
  env : Env
  suggests : Bool
  maxDepth : Nat

namespace Twins

/-- What the other parser knows of its task. -/
def env' (τ : Twins) : Env := { τ.env with suggestImports := τ.suggests }

/-- The settings of both sides. -/
def settings (τ : Twins) : Settings := ⟨τ.maxDepth, fun _ => true⟩

end Twins

/-- The errors and comments that there were on both sides at an earlier place. -/
structure Floor where
  failures : Array Failure
  failures' : Array Failure
  comments : Array Comment

/-- The present place as a floor. -/
def Floor.at (s s' : ParseState) : Floor := ⟨s.failures, s'.failures, s.comments⟩

/-- Two states are the same up to a pairing and the advice that is pending, and reached from a floor. -/
structure Twins.Meets (τ : Twins) (F : Floor) (N : Pairing) (s s' : ParseState) : Prop where
  look : s.look.Same s'.look
  ok : s.look.Ok τ.source
  failures : AlikeFailures N.pairs s.failures s'.failures
  comments : s'.comments = s.comments
  memo : Memo.Alike τ.source N.pairs s.memo s'.memo
  depth : s'.depth = s.depth
  left : s.wildcards.size = N.left
  right : s'.wildcards.size = N.right
  above : Grows F.failures s.failures
  above' : Grows F.failures' s'.failures
  behind : Grows F.comments s.comments

/-- Places to return to, at the floor. -/
structure Twins.Saved (τ : Twins) (F : Floor) (N : Pairing) (p p' : Snapshot) : Prop where
  look : p.look.Same p'.look
  ok : p.look.Ok τ.source
  failures : AlikeFailures N.pairs F.failures F.failures'
  size : p.failures = F.failures.size
  size' : p'.failures = F.failures'.size
  comments : p.comments = F.comments.size
  comments' : p'.comments = F.comments.size

namespace Twins

variable {τ : Twins} {F G : Floor} {N M : Pairing} {s s' t t' : ParseState} {p p' : Snapshot}

theorem Saved.mono (h : τ.Saved F N p p') (le : N ≤ M) : τ.Saved F M p p' :=
  { h with failures := h.failures.mono le.more }

end Twins

end RegoSyntax
