/-
# RegoSyntax.Proofs.Snippets — the line that an error shows.

An error at an offset points at the last byte up to there which is no blank (`Pointed`), and shows the line
around that byte (`Line`).  Both are told by indexes into the source here.  There is one such byte and one such
line, and `find?` answers with them (`find?_line`).

`locate` is the same search with indexes: it goes back over blanks, back to the start of the line and on to its
end, and it fails where it would read outside of the source.  It never does, and answers what `find?` answers.
-/
import RegoSyntax.Diagnostic
import Mathlib.Data.List.TakeWhile
import Mathlib.Tactic.ByContra

namespace RegoSyntax.Snippet

/-! ## What is shown

Both notions are told by indexes, and each of them fixes one byte or one run of bytes: so a search that
meets them is the search. -/

section shown

variable (source : List UInt8)

/-- There is a byte of a kind at an index. -/
def Has (kind : UInt8 → Bool) (i : Nat) : Prop := ∃ b, source[i]? = some b ∧ kind b = true

/-- The byte that an error at an offset points at: the last one up to the offset, or up to the end, that is no
blank; the first one if there is none. -/
structure Pointed (offset p : Nat) : Prop where
  le : p ≤ min offset (source.length - 1)
  solid : p = 0 ∨ ¬Has source isBlankByte p
  blanks : ∀ i, p < i → i ≤ min offset (source.length - 1) → Has source isBlankByte i

/-- The line around a byte: the longest run of bytes around it without the end of a line, and nothing if the
byte is one. -/
inductive Line (p : Nat) : Nat → Nat → Prop where
  | blank (ends : Has source isLineEnd p) : Line p p p
  | run {start stop : Nat} (start_le : start ≤ p) (lt_stop : p < stop) (stop_le : stop ≤ source.length)
      (unbroken : ∀ i, start ≤ i → i < stop → ¬Has source isLineEnd i)
      (opens : start = 0 ∨ Has source isLineEnd (start - 1))
      (closes : stop = source.length ∨ Has source isLineEnd stop) : Line p start stop

end shown

section shown

variable {source : List UInt8} {offset p q start stop s t : Nat}

/-- Inside of the source there is a byte, and it is the one that decides. -/
theorem has_iff {kind : UInt8 → Bool} {i : Nat} (inside : i < source.length) :
    Has source kind i ↔ kind source[i] = true := by
  rw [Has, List.getElem?_eq_getElem inside]
  exact ⟨fun ⟨b, found, is_kind⟩ => Option.some.inj found ▸ is_kind, fun is_kind => ⟨_, rfl, is_kind⟩⟩

/-- A byte is of a kind or of the other one. -/
theorem has_not {kind : UInt8 → Bool} {i : Nat} (inside : i < source.length) :
    Has source (!kind ·) i ↔ ¬Has source kind i := by
  rw [has_iff inside, has_iff inside, Bool.not_eq_true', Bool.not_eq_true]

/-- The index that a search starts at is inside of the source. -/
theorem min_lt_length (filled : source ≠ []) (offset : Nat) : min offset (source.length - 1) < source.length := by
  have := List.length_pos_iff.2 filled
  omega

/-- Of two bytes that are pointed at, neither stands behind the other. -/
theorem Pointed.le_of (h : Pointed source offset p) (g : Pointed source offset q) : p ≤ q := by
  by_contra later
  rcases h.solid with first | solid
  · omega
  · exact solid (g.blanks p (by omega) h.le)

/-- One byte is pointed at. -/
theorem Pointed.unique (h : Pointed source offset p) (g : Pointed source offset q) : p = q :=
  Nat.le_antisymm (h.le_of g) (g.le_of h)

/-- The byte that is pointed at is a byte of the source. -/
theorem Pointed.lt_length (filled : source ≠ []) (h : Pointed source offset p) : p < source.length :=
  Nat.lt_of_le_of_lt h.le (min_lt_length filled offset)

/-- A line starts no later, and ends no earlier, than another one around the same byte. -/
theorem Line.contains (h : Line source p start stop) (g : Line source p s t) : start ≤ s ∧ t ≤ stop := by
  cases h with
  | blank ends =>
      cases g with
      | blank => exact ⟨Nat.le_refl p, Nat.le_refl p⟩
      | run start_le lt_stop _ unbroken => exact absurd ends (unbroken p start_le lt_stop)
  | run start_le lt_stop stop_le unbroken opens closes =>
      cases g with
      | blank ends => exact absurd ends (unbroken p start_le lt_stop)
      | run start_le' lt_stop' stop_le' unbroken' =>
          constructor
          · by_contra earlier
            rcases opens with first | ends
            · omega
            · exact unbroken' (start - 1) (by omega) (by omega) ends
          · by_contra later
            rcases closes with last | ends
            · omega
            · exact unbroken' stop (by omega) (by omega) ends

/-- There is one line around a byte. -/
theorem Line.unique (h : Line source p start stop) (g : Line source p s t) : s = start ∧ t = stop :=
  ⟨Nat.le_antisymm (g.contains h).1 (h.contains g).1, Nat.le_antisymm (h.contains g).2 (g.contains h).2⟩

/-- A line starts no later than its byte. -/
theorem Line.start_le (h : Line source p start stop) : start ≤ p := by
  cases h with
  | blank => exact Nat.le_refl p
  | run start_le => exact start_le

/-- The byte stands inside of its line, unless the line is empty. -/
theorem Line.index_lt (h : Line source p start stop) (filled : start < stop) : p - start < stop - start := by
  cases h with
  | blank => exact absurd filled (Nat.lt_irrefl p)
  | run start_le lt_stop => omega

end shown

/-! ## Lines as parts of the source

A line is also what is left of a source when its neighbours are taken off, which is how the search in
place finds it. -/

/-- What is behind all that is passed over is not passed over. -/
theorem head?_dropWhile_stops {α : Type} {p : α → Bool} {l : List α} {x : α}
    (h : x ∈ (l.dropWhile p).head?) : p x = false := by
  have stands := List.head?_dropWhile_not p l
  rwa [Option.mem_def.1 h] at stands

section parts

variable {left run right : List UInt8} {p : Nat}

/-- A byte between two indexes is in the part between them. -/
theorem has_middle {kind : UInt8 → Bool} {i : Nat} (start_le : left.length ≤ i)
    (lt_stop : i < left.length + run.length) (h : Has (left ++ run ++ right) kind i) :
    ∃ b ∈ run, kind b = true := by
  obtain ⟨b, found, is_kind⟩ := h
  rw [List.getElem?_append_left (by simpa using lt_stop), List.getElem?_append_right start_le] at found
  exact ⟨b, List.mem_of_getElem? found, is_kind⟩

/-- Bytes without the end of a line are a line if nothing but ends of lines are next to them. -/
theorem Line.of_append (start_le : left.length ≤ p) (lt_stop : p < left.length + run.length)
    (unbroken : ∀ b ∈ run, isLineEnd b = false)
    (opens : ∀ b ∈ left.getLast?, isLineEnd b = true) (closes : ∀ b ∈ right.head?, isLineEnd b = true) :
    Line (left ++ run ++ right) p left.length (left.length + run.length) := by
  refine .run start_le lt_stop (by simp) ?_ ?_ ?_
  -- -- inside the run no byte ends a line
  · intro i hi hi' ends
    obtain ⟨b, hb, is_end⟩ := has_middle hi hi' ends
    rw [unbroken b hb] at is_end
    exact absurd is_end Bool.false_ne_true
  -- -- before it the source begins, or a line end stands
  · cases last : left.getLast? with
    | none => exact .inl (List.length_eq_zero_iff.2 (List.getLast?_eq_none_iff.1 last))
    | some b =>
        refine .inr ⟨b, ?_, opens b last⟩
        rw [List.getLast?_eq_getElem?] at last
        have inside := (List.getElem?_eq_some_iff.1 last).1
        rw [List.append_assoc, List.getElem?_append_left inside, last]
  -- -- behind it the source ends, or a line end stands
  · cases first : right.head? with
    | none =>
        obtain rfl := List.head?_eq_none_iff.1 first
        exact .inl (by simp)
    | some b =>
        refine .inr ⟨b, ?_, closes b first⟩
        rw [List.getElem?_append_right (by simp), List.length_append, Nat.sub_self, ← List.head?_eq_getElem?,
          first]

/-- The part between two indexes. -/
theorem slice_append : ((left ++ run ++ right).take (left.length + run.length)).drop left.length = run := by
  rw [List.take_left' (by simp), List.drop_left]

end parts

/-! ## The search with indexes

The indexes of the program, with a read outside of the source as an outcome of its own.  The search never
has it, since it stops at the ends. -/

/-- What a read outside of the source asked for: a byte, or the bytes between two indexes. -/
inductive OutOfRange where
  | byte (i : Nat)
  | slice (start stop : Nat)
deriving DecidableEq, Repr

section search

variable (source : List UInt8)

/-- The byte at an index. -/
def byteAt (i : Nat) : Except OutOfRange UInt8 :=
  match source[i]? with
  | some b => .ok b
  | none => .error (.byte i)

/-- The bytes between two indexes. -/
def slice (start stop : Nat) : Except OutOfRange (List UInt8) :=
  if start ≤ stop ∧ stop ≤ source.length then .ok ((source.take stop).drop start)
  else .error (.slice start stop)

/-- Back from an index to a byte of a kind, or to the first one. -/
def backTo (kind : UInt8 → Bool) : Nat → Except OutOfRange Nat
  | 0 => .ok 0
  | i + 1 => do
    if kind (← byteAt source (i + 1)) then return i + 1
    backTo kind i

/-- On from an index to a byte of a kind, or to the end. -/
def onTo (kind : UInt8 → Bool) (i : Nat) : Except OutOfRange Nat :=
  if i < source.length then do
    if kind (← byteAt source i) then return i
    onTo kind (i + 1)
  else .ok i
termination_by source.length - i

/-- The line around an offset, found by indexes. -/
def locate (offset : Nat) : Except OutOfRange (Option Snippet) := do
  if source.isEmpty then return none
  let p ← backTo source (!isBlankByte ·) (min offset (source.length - 1))
  let b ← backTo source isLineEnd p
  let start := if isLineEnd (← byteAt source b) then b + 1 else b
  let stop ← onTo source isLineEnd p
  let start := min start stop
  let line ← slice source start stop
  return some ⟨Text.decodeLossy line, p - start⟩

end search

section search

variable {source : List UInt8}

/-- Inside of the source every index has a byte. -/
theorem byteAt_of_lt {i : Nat} (inside : i < source.length) : byteAt source i = .ok source[i] := by
  rw [byteAt, List.getElem?_eq_getElem inside]

/-- Going back ends at the last byte of the kind up to the index, or at the first byte of all. -/
theorem backTo_spec (kind : UInt8 → Bool) : (i : Nat) → i < source.length → ∃ k,
    backTo source kind i = .ok k ∧ k ≤ i ∧ (k = 0 ∨ Has source kind k) ∧
    ∀ j, k < j → j ≤ i → ¬Has source kind j
  | 0, _ => ⟨0, rfl, Nat.le_refl 0, .inl rfl, fun j hj hj' => by omega⟩
  | i + 1, inside => by
    have step : backTo source kind (i + 1) =
        if kind source[i + 1] then .ok (i + 1) else backTo source kind i := by
      rw [backTo, byteAt_of_lt inside]
      show (if kind source[i + 1] then _ else _) = _
      split <;> rfl
    by_cases here : kind source[i + 1] = true
    · exact ⟨i + 1, by rw [step, if_pos here], Nat.le_refl _, .inr ((has_iff inside).2 here),
        fun j hj hj' => by omega⟩
    · obtain ⟨k, found, le, stands, others⟩ := backTo_spec kind i (Nat.lt_of_succ_lt inside)
      refine ⟨k, by rw [step, if_neg here, found], Nat.le_succ_of_le le, stands, fun j hj hj' => ?_⟩
      rcases Nat.lt_or_eq_of_le hj' with less | rfl
      · exact others j hj (Nat.le_of_lt_succ less)
      · exact fun is_kind => here ((has_iff inside).1 is_kind)

/-- Going on ends at the first byte of the kind from the index on, or at the end. -/
theorem onTo_spec (kind : UInt8 → Bool) (i : Nat) (inside : i ≤ source.length) : ∃ k,
    onTo source kind i = .ok k ∧ i ≤ k ∧ k ≤ source.length ∧ (k = source.length ∨ Has source kind k) ∧
    ∀ j, i ≤ j → j < k → ¬Has source kind j := by
  by_cases more : i < source.length
  · have step : onTo source kind i = if kind source[i] then .ok i else onTo source kind (i + 1) := by
      rw [onTo, if_pos more, byteAt_of_lt more]
      show (if kind source[i] then _ else _) = _
      split <;> rfl
    by_cases here : kind source[i] = true
    · exact ⟨i, by rw [step, if_pos here], Nat.le_refl i, inside, .inr ((has_iff more).2 here),
        fun j hj hj' => by omega⟩
    · obtain ⟨k, found, le, k_le, stands, others⟩ := onTo_spec kind (i + 1) more
      refine ⟨k, by rw [step, if_neg here, found], by omega, k_le, stands, fun j hj hj' => ?_⟩
      rcases Nat.lt_or_eq_of_le hj with less | rfl
      · exact others j less hj'
      · exact fun is_kind => here ((has_iff more).1 is_kind)
  · refine ⟨i, by rw [onTo, if_neg more], Nat.le_refl i, inside, .inl (by omega), fun j hj hj' => by omega⟩
termination_by source.length - i

/-- Going back over blanks ends at the byte that an error points at. -/
theorem pointed_of_backTo (filled : source ≠ []) {offset p : Nat}
    (found : backTo source (!isBlankByte ·) (min offset (source.length - 1)) = .ok p) :
    Pointed source offset p := by
  have inside := min_lt_length filled offset
  obtain ⟨k, again, le, stands, others⟩ := backTo_spec (!isBlankByte ·) _ inside
  obtain rfl : k = p := Except.ok.inj (again.symm.trans found)
  have k_lt : k < source.length := Nat.lt_of_le_of_lt le inside
  exact ⟨le, stands.imp_right (has_not k_lt).1, fun i hi hi' =>
    Classical.not_not.1 ((has_not (Nat.lt_of_le_of_lt hi' inside)).not.1 (others i hi hi'))⟩

/-- The search with indexes ends with the line around the byte that the error points at. -/
theorem locate_line (filled : source ≠ []) (offset : Nat) : ∃ p start stop,
    Pointed source offset p ∧ Line source p start stop ∧
    locate source offset =
      .ok (some ⟨Text.decodeLossy ((source.take stop).drop start), p - start⟩) := by
  obtain ⟨p, toPoint, p_le, -⟩ := backTo_spec (!isBlankByte ·) _ (min_lt_length filled offset)
  have pointed := pointed_of_backTo filled toPoint
  have p_lt : p < source.length := pointed.lt_length filled
  obtain ⟨b, toStart, b_le, startsAt, before⟩ := backTo_spec isLineEnd p p_lt
  obtain ⟨e, toStop, p_le_e, e_le, stopsAt, behind⟩ := onTo_spec isLineEnd p (Nat.le_of_lt p_lt)
  have b_lt : b < source.length := Nat.lt_of_le_of_lt b_le p_lt
  have is_empty : source.isEmpty = false := List.isEmpty_eq_false_iff.2 filled
  -- the three searches succeed, so what is left is the slice
  have reads : locate source offset =
      (slice source (min (if isLineEnd source[b] then b + 1 else b) e) e).map fun line =>
        some ⟨Text.decodeLossy line, p - min (if isLineEnd source[b] then b + 1 else b) e⟩ := by
    simp only [locate, is_empty, Bool.false_eq_true, if_false, toPoint, toStart, byteAt_of_lt b_lt, toStop, bind,
      Except.bind]
    cases slice source (min (if isLineEnd source[b] then b + 1 else b) e) e <;> rfl
  have sliced : ∀ s, s ≤ e → slice source s e = .ok ((source.take e).drop s) := fun s hs =>
    if_pos ⟨hs, e_le⟩
  rw [sliced _ (Nat.min_le_right _ _)] at reads
  refine ⟨p, _, e, pointed, ?_, reads⟩
  by_cases ends : Has source isLineEnd p
  · -- The byte is a blank, so it is the first one of the source.
    have e_eq : e = p := by
      by_contra other
      exact behind p (Nat.le_refl p) (by omega) ends
    have b_eq : b = p := by
      by_contra other
      exact before p (by omega) (Nat.le_refl p) ends
    subst e_eq b_eq
    rw [Nat.min_eq_right (by split <;> omega)]
    exact .blank ends
  · have p_lt_e : p < e := by
      rcases stopsAt with last | stops
      · omega
      · refine Nat.lt_of_le_of_ne p_le_e fun same => ends ?_
        rwa [← same] at stops
    by_cases open_end : isLineEnd source[b] = true
    · have has_b : Has source isLineEnd b := (has_iff b_lt).2 open_end
      have b_lt_p : b < p := Nat.lt_of_le_of_ne b_le fun same => ends (same ▸ has_b)
      rw [if_pos open_end, Nat.min_eq_left (by omega)]
      refine .run b_lt_p p_lt_e e_le (fun i hi hi' => ?_) (.inr has_b) stopsAt
      rcases Nat.le_total i p with le | ge
      · exact before i hi le
      · exact behind i ge hi'
    · have no_end : ¬Has source isLineEnd b := fun is_end => open_end ((has_iff b_lt).1 is_end)
      have b_zero : b = 0 := startsAt.resolve_right no_end
      rw [if_neg open_end, Nat.min_eq_left (by omega)]
      refine .run b_le p_lt_e e_le (fun i hi hi' => ?_) (.inl b_zero) stopsAt
      rcases Nat.lt_trichotomy i p with less | rfl | more
      · by_cases first : b < i
        · exact before i first (Nat.le_of_lt less)
        · obtain rfl : i = b := by omega
          exact no_end
      · exact ends
      · exact behind i (Nat.le_of_lt more) hi'

end search

/-! ## The search in place

The search without indexes goes through the bytes before and behind a place.  It finds the same line. -/

namespace Focus

/-- All bytes around a place. -/
def bytes (f : Focus) : List UInt8 := f.before.reverse ++ f.byte :: f.after

/-- The number of bytes before a place. -/
def index (f : Focus) : Nat := f.before.length

/-- The place that is reached step by step, with all bytes still around it. -/
theorem at?_go (n : Nat) (before : List UInt8) (b : UInt8) (bs : List UInt8) :
    (at?.go n before b bs).bytes = before.reverse ++ b :: bs ∧
      (at?.go n before b bs).index = before.length + min n bs.length := by
  induction bs generalizing n before b with
  | nil => cases n <;> exact ⟨rfl, rfl⟩
  | cons c bs ih =>
      cases n with
      | zero => exact ⟨rfl, rfl⟩
      | succ n =>
          obtain ⟨whole, place⟩ := ih n (b :: before) c
          rw [at?.go, whole, place]
          constructor
          · rw [List.reverse_cons, List.append_assoc]
            rfl
          · simp only [List.length_cons]
            omega

/-- The place at an offset, or at the last byte. -/
theorem at?_spec {source : List UInt8} (filled : source ≠ []) (offset : Nat) :
    ∃ f, at? offset source = some f ∧ f.bytes = source ∧ f.index = min offset (source.length - 1) := by
  cases source with
  | nil => exact absurd rfl filled
  | cons b bs =>
      obtain ⟨whole, place⟩ := at?_go offset [] b bs
      exact ⟨_, rfl, whole, place.trans (Nat.zero_add _)⟩

/-- The byte of a place stands at its index. -/
theorem getElem?_bytes (before : List UInt8) (b : UInt8) (after : List UInt8) :
    (before.reverse ++ b :: after)[before.length]? = some b := by
  rw [← List.length_reverse, List.getElem?_append_right (Nat.le_refl _), Nat.sub_self]
  rfl

/-- Going back over blanks in place ends where going back with indexes ends. -/
theorem skipBlanks_spec (before : List UInt8) (b : UInt8) (after : List UInt8) :
    (skipBlanks before b after).bytes = before.reverse ++ b :: after ∧
      backTo (before.reverse ++ b :: after) (!isBlankByte ·) before.length =
        .ok (skipBlanks before b after).index := by
  -- -- on the bytes before the focus; each blank under it moves it one to the left
  induction before generalizing b after with
  | nil => exact ⟨rfl, rfl⟩
  | cons a before ih =>
      -- -- moving the focus changes nothing of the source
      have whole : (a :: before).reverse ++ b :: after = before.reverse ++ a :: b :: after := by
        rw [List.reverse_cons, List.append_assoc]
        rfl
      have here : byteAt ((a :: before).reverse ++ b :: after) (before.length + 1) = .ok b := by
        have found : ((a :: before).reverse ++ b :: after)[before.length + 1]? = some b :=
          getElem?_bytes (a :: before) b after
        rw [byteAt, found]
      have step : backTo ((a :: before).reverse ++ b :: after) (!isBlankByte ·) (before.length + 1) =
          if isBlankByte b then backTo ((a :: before).reverse ++ b :: after) (!isBlankByte ·) before.length
          else .ok (before.length + 1) := by
        rw [backTo, here]
        show (if (!isBlankByte b) = true then _ else _) = _
        cases isBlankByte b <;> rfl
      rw [List.length_cons, step, skipBlanks]
      split
      · rw [whole]
        exact ih a (b :: after)
      · exact ⟨rfl, rfl⟩

end Focus

/-- The search in place ends with the line around the byte that the error points at. -/
theorem find?_spec {source : List UInt8} (filled : source ≠ []) (offset : Nat) : ∃ p start stop,
    Pointed source offset p ∧ Line source p start stop ∧
    find? source offset = some ⟨Text.decodeLossy ((source.take stop).drop start), p - start⟩ := by
  obtain ⟨f, found, whole, place⟩ := Focus.at?_spec filled offset
  obtain ⟨kept, back⟩ := Focus.skipBlanks_spec f.before f.byte f.after
  rw [show f.before.reverse ++ f.byte :: f.after = source from whole] at kept back
  rw [show f.before.length = min offset (source.length - 1) from place] at back
  have pointed := pointed_of_backTo filled back
  -- -- from here on only the focus behind the skipped blanks is spoken of
  rw [find?, found, Option.map_some]
  generalize Focus.skipBlanks f.before f.byte f.after = g at kept pointed
  obtain ⟨before, b, after⟩ := g
  have here : source[before.length]? = some b := kept ▸ Focus.getElem?_bytes before b after
  by_cases ends : isLineEnd b = true
  -- -- on a line end itself nothing is shown
  · refine ⟨before.length, before.length, before.length, pointed, .blank ⟨b, here, ends⟩, ?_⟩
    simp only [ends, if_true, Nat.sub_self, List.drop_take_self]
    rfl
  · -- The line is what is taken on both sides, and the byte between.
    let head := before.takeWhile (!isLineEnd ·)
    let left := (before.dropWhile (!isLineEnd ·)).reverse
    let tail := after.takeWhile (!isLineEnd ·)
    let right := after.dropWhile (!isLineEnd ·)
    have before_eq : head ++ left.reverse = before := by
      rw [List.reverse_reverse]
      exact List.takeWhile_append_dropWhile
    have after_eq : tail ++ right = after := List.takeWhile_append_dropWhile
    have split : left ++ (head.reverse ++ b :: tail) ++ right = source := by
      rw [← kept, Focus.bytes, ← before_eq, ← after_eq]
      simp
    have length_eq : left.length + head.length = before.length := by
      rw [← before_eq]
      simp
      omega
    have unbroken : ∀ c ∈ head.reverse ++ b :: tail, isLineEnd c = false := by
      intro c hc
      rw [List.mem_append, List.mem_reverse, List.mem_cons] at hc
      rcases hc with hc | rfl | hc
      · simpa using List.mem_takeWhile_imp hc
      · exact Bool.eq_false_iff.2 ends
      · simpa using List.mem_takeWhile_imp hc
    have opens : ∀ c ∈ left.getLast?, isLineEnd c = true := by
      intro c hc
      rw [List.getLast?_reverse] at hc
      simpa using head?_dropWhile_stops hc
    have closes : ∀ c ∈ right.head?, isLineEnd c = true := by
      intro c hc
      simpa using head?_dropWhile_stops hc
    have line : Line (left ++ (head.reverse ++ b :: tail) ++ right) before.length left.length
        (left.length + (head.reverse ++ b :: tail).length) :=
      .of_append (by omega) (by simp; omega) unbroken opens closes
    have shown : ((source.take (left.length + (head.reverse ++ b :: tail).length)).drop left.length) =
        head.reverse ++ b :: tail := by
      rw [← split]
      exact slice_append
    rw [split] at line
    refine ⟨before.length, _, _, pointed, line, ?_⟩
    rw [shown, ← length_eq, Nat.add_sub_cancel_left, if_neg ends]

/-- A snippet of a source that is not empty shows the line around the last byte up to the offset which is no
blank, and points at that byte; and the search with indexes finds it without reading outside of the source. -/
theorem find?_line (source : List UInt8) (offset : Nat) (filled : source ≠ []) : ∃ p start stop,
    (∀ q, Pointed source offset q ↔ q = p) ∧ (∀ s t, Line source p s t ↔ s = start ∧ t = stop) ∧
    find? source offset = some ⟨Text.decodeLossy ((source.take stop).drop start), p - start⟩ ∧
    start ≤ p ∧ (start < stop → p - start < stop - start) ∧
    locate source offset = .ok (find? source offset) := by
  obtain ⟨p, start, stop, pointed, line, found⟩ := find?_spec filled offset
  obtain ⟨q, s, t, pointed', line', located⟩ := locate_line filled offset
  obtain rfl := pointed.unique pointed'
  obtain ⟨rfl, rfl⟩ := line.unique line'
  refine ⟨p, s, t, fun q => ⟨fun h => h.unique pointed, fun same => same ▸ pointed⟩, fun s' t' => ?_, found,
    line.start_le, line.index_lt, located.trans (congrArg _ found.symm)⟩
  constructor
  · intro other
    exact line.unique other
  · rintro ⟨rfl, rfl⟩
    exact line

/-- Two lines with a carriage return and a newline between them, the first of which is no text: an error at the
newline is shown at the end of the first line. -/
theorem find?_line_returns :
    let source : List UInt8 := [97, 255, 13, 10, 99, 100]
    source ≠ [] ∧ ∃ p start stop,
      (∀ q, Pointed source 3 q ↔ q = p) ∧ (∀ s t, Line source p s t ↔ s = start ∧ t = stop) ∧
      find? source 3 = some ⟨Text.decodeLossy ((source.take stop).drop start), p - start⟩ ∧
      start ≤ p ∧ (start < stop → p - start < stop - start) ∧
      locate source 3 = .ok (find? source 3) :=
  ⟨by decide, find?_line _ 3 (by decide)⟩

example : find? [97, 255, 13, 10, 99, 100] 3 = some ⟨"a\uFFFD", 1⟩ := by decide

end RegoSyntax.Snippet
