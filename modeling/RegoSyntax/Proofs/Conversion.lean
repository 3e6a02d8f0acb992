/-
# RegoSyntax.Proofs.Conversion — which values of a document JSON can hold, and as what.

A value converts when all keys in it are texts and all numbers in it are finite and of 64 bits
(`Convertible`).  JSON then mirrors it, without tags and with one member for each key (`Mirrors`).  If a value
does not convert, something comes first in the order of the document that JSON cannot hold (`First`), and that
is what is reported, with the steps to its place.

The steps can also be kept in one path for the whole conversion, to whose end each step down is put and from
which it is taken again (`convert`).  No step is left behind then, so no later message is wrong about its place.
-/
import Mathlib.Data.List.Nodup
import RegoSyntax.Metadata.Contents

namespace RegoSyntax

/-- To join texts is to intercalate a separator. -/
theorem joinWith_eq_intercalate (sep : String) : ∀ l, joinWith sep l = sep.intercalate l
  | [] => by simp [joinWith]
  | [s] => by simp [joinWith]
  | s :: t :: rest => by
    rw [joinWith, joinWith_eq_intercalate sep (t :: rest), String.intercalate_cons_cons]
    simp

namespace Yaml

/-! ## Values of a document

Tags may stand in front of any value, and are passed over wherever a text is asked for. -/

/-- An integer of 64 bits, with a sign or without one. -/
def Fits64 (n : Int) : Prop :=
  (-(Nat.pow 2 63 : Int) ≤ n ∧ n < Nat.pow 2 63) ∨ (0 ≤ n ∧ n < Nat.pow 2 64)

/-- The check on integers is that they have 64 bits. -/
theorem fits_iff {n : Int} : Yaml.fits 64 n = true ↔ Fits64 n := by
  have wider : (Nat.pow 2 63 : Int) ≤ Nat.pow 2 64 := by decide
  have half : (Nat.pow 2 (64 - 1) : Int) = Nat.pow 2 63 := rfl
  rw [fits, Fits64, Bool.and_eq_true, decide_eq_true_eq, decide_eq_true_eq, half]
  omega

namespace Datum

/-- A value is a text, if it is one below its tags. -/
theorem string?_eq_some {v : Datum} {s : String} : v.string? = some s ↔ v.untagged = .string s := by
  unfold Datum.string?
  split
  next t h => simp [h]
  next h => simpa using h s

/-- A value is no text, if it is none below its tags. -/
theorem string?_eq_none {v : Datum} : v.string? = none ↔ ∀ s, v.untagged ≠ .string s := by
  rw [Option.eq_none_iff_forall_ne_some]
  exact forall_congr' fun s => not_congr string?_eq_some

/-- Induction on a value goes down to the items of a sequence, to the values in a mapping but not to its keys, and
to the value under a tag. -/
@[elab_as_elim]
theorem values_induction {P : Datum → Prop} (null : P .null) (boolean : ∀ b, P (.boolean b))
    (integer : ∀ n, P (.integer n)) (real : ∀ x, P (.real x)) (string : ∀ s, P (.string s))
    (sequence : ∀ items, (∀ v ∈ items, P v) → P (.sequence items))
    (mapping : ∀ entries, (∀ e ∈ entries, P e.2) → P (.mapping entries))
    (tagged : ∀ t v, P v → P (.tagged t v)) : ∀ v, P v
  | .null => null
  | .boolean b => boolean b
  | .integer n => integer n
  | .real x => real x
  | .string s => string s
  | .sequence items => sequence items fun v hv =>
      have : sizeOf v < sizeOf items := List.sizeOf_lt_of_mem hv
      values_induction null boolean integer real string sequence mapping tagged v
  | .mapping entries => mapping entries fun e he =>
      have : sizeOf e < sizeOf entries := List.sizeOf_lt_of_mem he
      have : sizeOf e.2 < sizeOf e := by cases e; simp only [Prod.mk.sizeOf_spec]; omega
      values_induction null boolean integer real string sequence mapping tagged e.2
  | .tagged t v => tagged t v (values_induction null boolean integer real string sequence mapping tagged v)
termination_by v => sizeOf v

end Datum

end Yaml

namespace Json

/-! ## Members in the order of their keys

The members of an object are kept in the order of their keys, without a key twice: so two objects with the
same members are equal. -/

/-- A member that is put in replaces the one of its key, and all others stay. -/
theorem mem_insertMember {key : String} {j : Json} {x : String × Json} :
    ∀ {l : List (String × Json)}, l.Pairwise (·.1 < ·.1) →
      (x ∈ insertMember key j l ↔ x = (key, j) ∨ (x ∈ l ∧ x.1 ≠ key))
  | [], _ => by simp [insertMember]
  | m :: ms, h => by
    obtain ⟨above, rest⟩ := List.pairwise_cons.1 h
    unfold insertMember
    split
    next lt =>
      -- all keys behind a greater one are greater, so none of them is replaced
      have apart : ∀ y ∈ m :: ms, y.1 ≠ key := fun y hy => by
        rcases List.mem_cons.1 hy with rfl | hy
        · exact (String.ne_of_lt lt).symm
        · exact (String.ne_of_lt (String.lt_trans lt (above y hy))).symm
      rw [List.mem_cons]
      exact or_congr_right ⟨fun hx => ⟨hx, apart x hx⟩, And.left⟩
    next =>
      split
      next same =>
        subst same
        have apart : ∀ y ∈ ms, y.1 ≠ m.1 := fun y hy => (String.ne_of_lt (above y hy)).symm
        rw [List.mem_cons, List.mem_cons]
        refine or_congr_right ⟨fun hx => ⟨.inr hx, apart x hx⟩, ?_⟩
        rintro ⟨rfl | hx, hne⟩
        · exact absurd rfl hne
        · exact hx
      next other =>
        rw [List.mem_cons, mem_insertMember rest, List.mem_cons]
        constructor
        · rintro (rfl | rfl | ⟨hx, hne⟩)
          · exact .inr ⟨.inl rfl, Ne.symm other⟩
          · exact .inl rfl
          · exact .inr ⟨.inr hx, hne⟩
        · rintro (rfl | ⟨rfl | hx, hne⟩)
          · exact .inr (.inl rfl)
          · exact .inl rfl
          · exact .inr (.inr ⟨hx, hne⟩)

/-- Members stay in order when one is put in. -/
theorem pairwise_insertMember (key : String) (j : Json) :
    ∀ {l : List (String × Json)}, l.Pairwise (·.1 < ·.1) →
      (insertMember key j l).Pairwise (·.1 < ·.1)
  | [], _ => by simp [insertMember]
  | m :: ms, h => by
    obtain ⟨above, rest⟩ := List.pairwise_cons.1 h
    unfold insertMember
    split
    next lt =>
      refine List.pairwise_cons.2 ⟨fun x hx => ?_, h⟩
      rcases List.mem_cons.1 hx with rfl | hx
      · exact lt
      · exact String.lt_trans lt (above x hx)
    next notLt =>
      split
      next same => exact List.pairwise_cons.2 ⟨fun x hx => same ▸ above x hx, rest⟩
      next other =>
        refine List.pairwise_cons.2 ⟨fun x hx => ?_, pairwise_insertMember key j rest⟩
        rcases (mem_insertMember rest).1 hx with rfl | ⟨hx, -⟩
        · exact Std.lt_of_le_of_ne (Std.not_lt.1 notLt) (Ne.symm other)
        · exact above x hx

/-- Members in the order of their keys have one value for each key. -/
theorem eq_of_mem_of_mem {l : List (String × Json)} (h : l.Pairwise (·.1 < ·.1)) {key : String} {a b : Json}
    (ha : (key, a) ∈ l) (hb : (key, b) ∈ l) : a = b := by
  have nodup : (l.map (·.1)).Nodup := List.pairwise_map.2 (h.imp String.ne_of_lt)
  exact congrArg Prod.snd (List.inj_on_of_nodup_map nodup ha hb rfl)

end Json

namespace Metadata

open Yaml (Datum Fits64)

/-! ## Entries and items one by one

One equation for an item and one for an entry, out of which lists are put together. -/

/-- The entry has a text for its key, which may have tags. -/
def Keyed (e : Datum × Datum) : Prop := ∃ s, e.1.untagged = .string s

/-- Items are converted one after the other. -/
theorem itemsToJson_cons (path : List String) (index : Nat) (v : Datum) (vs : List Datum) :
    itemsToJson path index (v :: vs) = (toJson (path ++ [toString index]) v).bind fun j =>
      (itemsToJson path (index + 1) vs).map (j :: ·) := by
  rw [itemsToJson]
  cases toJson (path ++ [toString index]) v <;> rfl

/-- An entry with a text for a key is converted, and put in as a member. -/
theorem entriesToJson_cons {k : Datum} {key : String} (h : k.untagged = .string key) (path : List String)
    (done : List (String × Json)) (v : Datum) (rest : List (Datum × Datum)) :
    entriesToJson path done ((k, v) :: rest) = (toJson (path ++ [key]) v).bind fun j =>
      entriesToJson path (Json.insertMember key j done) rest := by
  simp only [entriesToJson, Datum.string?_eq_some.2 h]
  cases toJson (path ++ [key]) v <;> rfl

/-! ## Values that convert

Convertible is told by recursion on the value, and so is what the outcome looks like. -/

/-- All keys are texts and all numbers are numbers of JSON, at every depth and under all tags. -/
inductive Convertible : Datum → Prop
  | null : Convertible .null
  | boolean (b : Bool) : Convertible (.boolean b)
  | integer {n : Int} : Fits64 n → Convertible (.integer n)
  | real (x : Binary64) : Convertible (.real (.finite x))
  | string (s : String) : Convertible (.string s)
  | sequence {items : List Datum} : (∀ v ∈ items, Convertible v) → Convertible (.sequence items)
  | mapping {entries : List (Datum × Datum)} : (∀ e ∈ entries, Keyed e) → (∀ e ∈ entries, Convertible e.2) →
      Convertible (.mapping entries)
  | tagged (t : String) {v : Datum} : Convertible v → Convertible (.tagged t v)

/-- A value of JSON has the shape of a value of a document and the same scalars.  Of the entries with one key it
is the last that counts. -/
inductive Mirrors : Datum → Json → Prop
  | null : Mirrors .null .null
  | boolean (b : Bool) : Mirrors (.boolean b) (.boolean b)
  | integer (n : Int) : Mirrors (.integer n) (.integer n)
  | real (x : Binary64) : Mirrors (.real (.finite x)) (.real x)
  | string (s : String) : Mirrors (.string s) (.string s)
  | sequence {items : List Datum} {elements : List Json} : items.length = elements.length →
      (∀ i (h : i < items.length) (h' : i < elements.length), Mirrors items[i] elements[i]) →
      Mirrors (.sequence items) (.array elements)
  | mapping {entries : List (Datum × Datum)} {members : List (String × Json)} :
      members.Pairwise (·.1 < ·.1) →
      (∀ key, (∃ j, (key, j) ∈ members) ↔ ∃ e ∈ entries, e.1.untagged = .string key) →
      (∀ before k v after key j, entries = before ++ (k, v) :: after → k.untagged = .string key →
        (∀ e ∈ after, e.1.untagged ≠ .string key) → (key, j) ∈ members → Mirrors v j) →
      Mirrors (.mapping entries) (.object members)
  | tagged (t : String) {v : Datum} {j : Json} : Mirrors v j → Mirrors (.tagged t v) j

/-! ### Entries put among members

Entries are put among members one by one, and a later one with the same key takes the place of an earlier
one. -/

/-- What members are after entries have been put among members that were done before. -/
structure Gathered (done : List (String × Json)) (entries : List (Datum × Datum))
    (members : List (String × Json)) : Prop where
  once : members.Pairwise (·.1 < ·.1)
  keys : ∀ key, (∃ j, (key, j) ∈ members) ↔
    (∃ j, (key, j) ∈ done) ∨ ∃ e ∈ entries, e.1.untagged = .string key
  kept : ∀ key j, (key, j) ∈ done → (∀ e ∈ entries, e.1.untagged ≠ .string key) → (key, j) ∈ members
  last : ∀ before k v after key j, entries = before ++ (k, v) :: after → k.untagged = .string key →
    (∀ e ∈ after, e.1.untagged ≠ .string key) → (key, j) ∈ members → Mirrors v j

/-- Without entries the members stay as they are. -/
theorem Gathered.nil {done : List (String × Json)} (h : done.Pairwise (·.1 < ·.1)) : Gathered done [] done where
  once := h
  keys key := by simp
  kept key j hj _ := hj
  last before k v after key j h := by simp at h

/-- One entry more is gathered in front of those that have been. -/
theorem Gathered.cons {done members : List (String × Json)} {k v : Datum} {key : String} {j : Json}
    {rest : List (Datum × Datum)} (sorted : done.Pairwise (·.1 < ·.1)) (hk : k.untagged = .string key)
    (hj : Mirrors v j) (h : Gathered (Json.insertMember key j done) rest members) :
    Gathered done ((k, v) :: rest) members where
  once := h.once
  keys name := by
    rw [h.keys name, List.exists_mem_cons_iff, hk]
    simp only [Json.mem_insertMember sorted, Prod.mk.injEq, Datum.string.injEq]
    constructor
    · rintro (⟨i, ⟨rfl, rfl⟩ | ⟨hi, -⟩⟩ | later)
      · exact .inr (.inl rfl)
      · exact .inl ⟨i, hi⟩
      · exact .inr (.inr later)
    · rintro (⟨i, hi⟩ | rfl | later)
      · by_cases same : name = key
        · exact .inl ⟨j, .inl ⟨same, rfl⟩⟩
        · exact .inl ⟨i, .inr ⟨hi, same⟩⟩
      · exact .inl ⟨j, .inl ⟨rfl, rfl⟩⟩
      · exact .inr later
  kept name i hi others := by
    have other : name ≠ key := fun same => others (k, v) List.mem_cons_self (same ▸ hk)
    have there : (name, i) ∈ Json.insertMember key j done := (Json.mem_insertMember sorted).2 (.inr ⟨hi, other⟩)
    exact h.kept name i there fun e he => others e (List.mem_cons_of_mem _ he)
  last before k' v' after name i cut hk' others hi := by
    cases before with
    | cons e before =>
      obtain ⟨-, cut⟩ := List.cons.inj cut
      exact h.last before k' v' after name i cut hk' others hi
    | nil =>
      -- the key does not come again, so the member put for it is still there
      obtain ⟨⟨rfl, rfl⟩, rfl⟩ : (k = k' ∧ v = v') ∧ rest = after := by simpa using cut
      obtain rfl : key = name := by simpa [hk] using hk'
      have there := h.kept key j ((Json.mem_insertMember sorted).2 (.inl rfl)) others
      exact Json.eq_of_mem_of_mem h.once there hi ▸ hj

/-! ### The conversion of a value that converts

Both lists are followed from the front, with the members so far in hand. -/

/-- A value converts to one that mirrors it, wherever it is. -/
def Succeeds (v : Datum) : Prop := ∀ path, ∃ j, toJson path v = .ok j ∧ Mirrors v j

/-- Items that convert give the elements that mirror them, in their order. -/
theorem itemsToJson_succeeds : ∀ {items : List Datum}, (∀ v ∈ items, Succeeds v) → ∀ path index,
    ∃ elements, itemsToJson path index items = .ok elements ∧ items.length = elements.length ∧
      ∀ i (h : i < items.length) (h' : i < elements.length), Mirrors items[i] elements[i]
  | [], _, _, _ => ⟨[], rfl, rfl, fun i h => absurd h (Nat.not_lt_zero i)⟩
  | v :: vs, h, path, index => by
    obtain ⟨hv, hvs⟩ := List.forall_mem_cons.1 h
    obtain ⟨j, ok, mirrors⟩ := hv (path ++ [toString index])
    obtain ⟨js, oks, same, each⟩ := itemsToJson_succeeds hvs path (index + 1)
    refine ⟨j :: js, by rw [itemsToJson_cons, ok, Except.bind, oks, Except.map], congrArg (· + 1) same, ?_⟩
    rintro (_ | i) h h'
    · exact mirrors
    · exact each i (Nat.lt_of_succ_lt_succ h) (Nat.lt_of_succ_lt_succ h')

/-- Entries that convert are gathered as members. -/
theorem entriesToJson_succeeds : ∀ {entries : List (Datum × Datum)} {done : List (String × Json)},
    (∀ e ∈ entries, Keyed e) → (∀ e ∈ entries, Succeeds e.2) → done.Pairwise (·.1 < ·.1) → ∀ path,
    ∃ members, entriesToJson path done entries = .ok members ∧ Gathered done entries members
  | [], done, _, _, sorted, _ => ⟨done, rfl, .nil sorted⟩
  | (k, v) :: rest, done, keyed, h, sorted, path => by
    obtain ⟨⟨key, hk⟩, keyed⟩ := List.forall_mem_cons.1 keyed
    obtain ⟨hv, h⟩ := List.forall_mem_cons.1 h
    obtain ⟨j, ok, mirrors⟩ := hv (path ++ [key])
    obtain ⟨members, oks, gathered⟩ :=
      entriesToJson_succeeds keyed h (Json.pairwise_insertMember key j sorted) path
    exact ⟨members, by rw [entriesToJson_cons hk, ok, Except.bind, oks], .cons sorted hk mirrors gathered⟩

/-- A value that is convertible converts. -/
theorem Convertible.succeeds {v : Datum} (h : Convertible v) : Succeeds v := by
  -- the path is general, since below a child it is longer
  induction h with
  | null => exact fun _ => ⟨.null, rfl, .null⟩
  | boolean b => exact fun _ => ⟨.boolean b, rfl, .boolean b⟩
  | @integer n fits => exact fun _ => ⟨.integer n, by rw [toJson, if_pos (Yaml.fits_iff.2 fits)], .integer n⟩
  | real x => exact fun _ => ⟨.real x, rfl, .real x⟩
  | string s => exact fun _ => ⟨.string s, rfl, .string s⟩
  | sequence _ ih =>
    intro path
    obtain ⟨elements, ok, same, each⟩ := itemsToJson_succeeds ih path 0
    exact ⟨.array elements, by rw [toJson, ok]; rfl, .sequence same each⟩
  -- => a key that comes twice has the member of its last entry
  | mapping keyed _ ih =>
    intro path
    obtain ⟨members, ok, gathered⟩ := entriesToJson_succeeds keyed ih .nil path
    refine ⟨.object members, by rw [toJson, ok]; rfl, .mapping gathered.once (fun key => ?_) gathered.last⟩
    simpa using gathered.keys key
  | tagged t _ ih =>
    intro path
    obtain ⟨j, ok, mirrors⟩ := ih path
    exact ⟨j, by rw [toJson, ok], .tagged t mirrors⟩

/-! ## What comes first that does not convert

Where a value does not convert, the error is that of its first obstacle in the order of the document.
What is in front of it converts, and is dropped. -/

/-- What JSON cannot hold: a key that is no text, a wide integer, or a number that is not finite. -/
inductive Obstacle where
  | key
  | integer (n : Int)
  | real (x : Yaml.Real)

/-- The problem that an obstacle is, if these steps lead to it.  A key has the place of its mapping. -/
def Obstacle.problem (steps : List String) : Obstacle → JsonProblem
  | key => .keyNotText steps
  | integer n => .tooWide n
  | real x => .notFinite x

/-- The first obstacle of a value in the order of the document, where a key comes before its value, and the steps
from the value to its place: the numbers of items and the keys of entries. -/
inductive First : Datum → List String → Obstacle → Prop
  | integer {n : Int} : ¬Fits64 n → First (.integer n) [] (.integer n)
  | real {x : Yaml.Real} : (∀ y, x ≠ .finite y) → First (.real x) [] (.real x)
  | item {before after : List Datum} {v : Datum} {steps : List String} {o : Obstacle} :
      (∀ w ∈ before, Convertible w) → First v steps o →
      First (.sequence (before ++ v :: after)) (toString before.length :: steps) o
  | key {before after : List (Datum × Datum)} {k v : Datum} :
      (∀ e ∈ before, Keyed e ∧ Convertible e.2) → ¬Keyed (k, v) →
      First (.mapping (before ++ (k, v) :: after)) [] .key
  | value {before after : List (Datum × Datum)} {k v : Datum} {s : String} {steps : List String} {o : Obstacle} :
      (∀ e ∈ before, Keyed e ∧ Convertible e.2) → k.untagged = .string s → First v steps o →
      First (.mapping (before ++ (k, v) :: after)) (s :: steps) o
  | tagged (t : String) {v : Datum} {steps : List String} {o : Obstacle} :
      First v steps o → First (.tagged t v) steps o

/-- All members of a list are as asked for, or there is a first one that is not. -/
theorem forall_or_first {P : α → Prop} (l : List α) :
    (∀ x ∈ l, P x) ∨ ∃ before x after, l = before ++ x :: after ∧ (∀ y ∈ before, P y) ∧ ¬P x := by
  classical
  cases h : l.find? (fun x => ¬P x) with
  | none => exact .inl (by simpa using h)
  | some x =>
    obtain ⟨hx, before, after, cut, good⟩ := List.find?_eq_some_iff_append.1 h
    exact .inr ⟨before, x, after, cut, by simpa using good, by simpa using hx⟩

/-- A value that does not convert has a first obstacle. -/
theorem exists_first (v : Datum) : ¬Convertible v → ∃ steps o, First v steps o := by
  induction v using Datum.values_induction with
  | null => exact fun h => absurd .null h
  | boolean b => exact fun h => absurd (.boolean b) h
  | integer n => exact fun h => ⟨[], _, .integer fun fits => h (.integer fits)⟩
  | real x =>
    intro h
    refine ⟨[], _, .real fun y same => h ?_⟩
    rw [same]
    exact .real y
  | string s => exact fun h => absurd (.string s) h
  | sequence items ih =>
    intro h
    -- the obstacle is below the first item that does not convert
    rcases forall_or_first (P := Convertible) items with all | ⟨before, v, after, rfl, good, bad⟩
    · exact absurd (.sequence all) h
    · obtain ⟨steps, o, first⟩ := ih v (List.mem_append_right _ List.mem_cons_self) bad
      exact ⟨_, o, .item good first⟩
  | mapping entries ih =>
    intro h
    rcases forall_or_first (P := fun e => Keyed e ∧ Convertible e.2) entries with
      all | ⟨before, ⟨k, v⟩, after, rfl, good, bad⟩
    · exact absurd (.mapping (fun e he => (all e he).1) fun e he => (all e he).2) h
    -- the first entry that is not in order has no key, or its value does not convert
    · by_cases keyed : Keyed (k, v)
      · obtain ⟨steps, o, first⟩ :=
          ih (k, v) (List.mem_append_right _ List.mem_cons_self) fun conv => bad ⟨keyed, conv⟩
        obtain ⟨s, hs⟩ := keyed
        exact ⟨_, o, .value good hs first⟩
      · exact ⟨[], .key, .key good keyed⟩
  | tagged t v ih =>
    intro h
    obtain ⟨steps, o, first⟩ := ih fun conv => h (.tagged t conv)
    exact ⟨steps, o, .tagged t first⟩

/-- Items that convert are passed over. -/
theorem itemsToJson_error {e : JsonProblem} {v : Datum} {after : List Datum} {path : List String} :
    ∀ {before : List Datum} {index : Nat}, (∀ w ∈ before, Convertible w) →
      toJson (path ++ [toString (index + before.length)]) v = .error e →
      itemsToJson path index (before ++ v :: after) = .error e
  | [], index, _, h => by
    have h : toJson (path ++ [toString index]) v = .error e := h
    rw [List.nil_append, itemsToJson_cons, h, Except.bind]
  | w :: before, index, good, h => by
    obtain ⟨hw, good⟩ := List.forall_mem_cons.1 good
    obtain ⟨j, ok, -⟩ := hw.succeeds (path ++ [toString index])
    -- the number of the item stays the same: one less is before it, and they start one later
    have h : toJson (path ++ [toString (index + 1 + before.length)]) v = .error e := by
      rwa [List.length_cons, Nat.add_comm before.length, ← Nat.add_assoc] at h
    rw [List.cons_append, itemsToJson_cons, ok, Except.bind, itemsToJson_error good h, Except.map]

/-- Entries that convert are passed over. -/
theorem entriesToJson_error {e : JsonProblem} {rest : List (Datum × Datum)} {path : List String}
    (h : ∀ done, entriesToJson path done rest = .error e) :
    ∀ {before : List (Datum × Datum)} {done : List (String × Json)},
      (∀ x ∈ before, Keyed x ∧ Convertible x.2) → entriesToJson path done (before ++ rest) = .error e
  | [], done, _ => h done
  | (k, w) :: before, done, good => by
    obtain ⟨⟨⟨key, hk⟩, hw⟩, good⟩ := List.forall_mem_cons.1 good
    obtain ⟨j, ok, -⟩ := hw.succeeds (path ++ [key])
    rw [List.cons_append, entriesToJson_cons hk, ok, Except.bind]
    exact entriesToJson_error h good

/-- The first obstacle is reported, at the place where it is. -/
theorem First.toJson_eq {v : Datum} {steps : List String} {o : Obstacle} (h : First v steps o) :
    ∀ path, toJson path v = .error (o.problem (path ++ steps)) := by
  -- for all paths, since the path is longer below an item or a value
  induction h with
  | @integer n wide =>
    intro path
    rw [toJson, if_neg fun fits => wide (Yaml.fits_iff.1 fits)]
    rfl
  | @real x infinite =>
    intro path
    cases x with
    | finite y => exact absurd rfl (infinite y)
    | infinite => rfl
    | notNumber => rfl
  | @item before after v steps o good first ih =>
    intro path
    have h := ih (path ++ [toString before.length])
    rw [List.append_assoc, List.singleton_append] at h
    rw [toJson, itemsToJson_error good (by rwa [Nat.zero_add])]
    rfl
  | @key before after k v good unkeyed =>
    intro path
    have none : k.string? = none := Datum.string?_eq_none.2 fun s hs => unkeyed ⟨s, hs⟩
    have h : ∀ done, entriesToJson path done ((k, v) :: after) = .error (.keyNotText path) := fun done => by
      simp only [entriesToJson, none]
    rw [toJson, entriesToJson_error h good, List.append_nil]
    rfl
  | @value before after k v s steps o good hk first ih =>
    intro path
    have h : ∀ done, entriesToJson path done ((k, v) :: after) = .error (o.problem (path ++ s :: steps)) :=
      fun done => by
        have h := ih (path ++ [s])
        rw [List.append_assoc, List.singleton_append] at h
        rw [entriesToJson_cons hk, h, Except.bind]
    rw [toJson, entriesToJson_error h good]
    rfl
  | tagged t first ih =>
    intro path
    rw [toJson, ih path]

/-! ## One path for the whole conversion

The program has one path for the whole conversion, to which it adds a step on the way down and from which
it takes the step back on the way up.  Here that is shown to be the same as giving each value its own
path. -/

/-- A computation with a path at hand.  Where it fails, the path is left as it is then. -/
abbrev Walk := EStateM JsonProblem (List String)

/-- A computation one step further down. -/
def below (step : String) (m : Walk α) : Walk α := do
  modify (· ++ [step])
  let x ← m
  modify List.dropLast
  return x

mutual

/-- A value in JSON, with its place in the path at hand. -/
def convert : Datum → Walk Json
  | .null => return .null
  | .boolean b => return .boolean b
  | .integer n => if Yaml.fits 64 n then return .integer n else throw (.tooWide n)
  | .real (.finite x) => return .real x
  | .real x => throw (.notFinite x)
  | .string s => return .string s
  | .sequence items => return .array (← convertItems 0 items)
  | .mapping entries => return .object (← convertEntries [] entries)
  | .tagged _ v => convert v

/-- The items of a sequence in JSON, which have numbers from `index` on. -/
def convertItems (index : Nat) : List Datum → Walk (List Json)
  | [] => return []
  | v :: vs => do
    let j ← below (toString index) (convert v)
    return j :: (← convertItems (index + 1) vs)

/-- The entries of a mapping in JSON, after the members that are `done`. -/
def convertEntries (done : List (String × Json)) : List (Datum × Datum) → Walk (List (String × Json))
  | [] => return done
  | (k, v) :: rest =>
    match k.string? with
    | none => do throw (.keyNotText (← get))
    | some key => do
      let j ← below key (convert v)
      convertEntries (Json.insertMember key j done) rest

end

/-- A computation has this result, and the path is as before after a success. -/
def Follows (m : Walk α) (path : List String) : Except JsonProblem α → Prop
  | .ok x => m path = .ok x path
  | .error e => ∃ left, m path = .error e left

namespace Follows

variable {path : List String} {m : Walk α} {r : Except JsonProblem α}

/-- A result at once leaves the path alone. -/
theorem pure (x : α) : Follows (Pure.pure x : Walk α) path (.ok x) := rfl

/-- A failure has whatever path there is. -/
theorem throw (e : JsonProblem) : Follows (throw e : Walk α) path (.error e) := ⟨path, rfl⟩

/-- Computations that follow their results do so one after the other. -/
theorem bind {f : α → Walk β} {g : α → Except JsonProblem β} (h : Follows m path r)
    (hf : ∀ x, Follows (f x) path (g x)) : Follows (m >>= f) path (r.bind g) := by
  cases r with
  | ok x =>
    have step : (m >>= f) path = f x path := by
      simp only [Bind.bind, EStateM.bind, show m path = .ok x path from h]
    have hx := hf x
    unfold Follows at hx ⊢
    rw [step]
    exact hx
  | error e =>
    obtain ⟨left, h⟩ := h
    exact ⟨left, by simp only [Bind.bind, EStateM.bind, h]⟩

/-- What is made of a result follows it. -/
theorem map {f : α → β} (h : Follows m path r) : Follows (do return f (← m)) path (r.map f) := by
  have both := h.bind fun x => .pure (f x)
  cases r <;> exact both

/-- A step down is taken back after a success. -/
theorem below {step : String} (h : Follows m (path ++ [step]) r) : Follows (below step m) path r := by
  have run : Metadata.below step m path =
      EStateM.bind m (fun x p => .ok x p.dropLast) (path ++ [step]) := rfl
  cases r with
  | ok x =>
    -- the computation leaves the step at the end, which is what is taken from it
    have h : m (path ++ [step]) = .ok x (path ++ [step]) := h
    simp only [EStateM.bind, h, List.dropLast_concat] at run
    exact run
  | error e =>
    obtain ⟨left, h⟩ := h
    simp only [EStateM.bind, h] at run
    exact ⟨left, run⟩

end Follows

/-- The items follow their conversion, if each of them does. -/
theorem convertItems_follows : ∀ {items : List Datum},
    (∀ v ∈ items, ∀ path, Follows (convert v) path (toJson path v)) → ∀ path index,
    Follows (convertItems index items) path (itemsToJson path index items)
  | [], _, _, _ => .pure []
  | v :: vs, h, path, index => by
    obtain ⟨hv, hvs⟩ := List.forall_mem_cons.1 h
    have first := Follows.below (hv (path ++ [toString index]))
    have rest := convertItems_follows hvs path (index + 1)
    rw [convertItems, itemsToJson_cons]
    exact first.bind fun j => rest.map (f := (j :: ·))

/-- The entries follow their conversion, if each value does. -/
theorem convertEntries_follows : ∀ {entries : List (Datum × Datum)},
    (∀ e ∈ entries, ∀ path, Follows (convert e.2) path (toJson path e.2)) → ∀ path done,
    Follows (convertEntries done entries) path (entriesToJson path done entries)
  | [], _, _, done => .pure done
  | (k, v) :: rest, h, path, done => by
    obtain ⟨hv, h⟩ := List.forall_mem_cons.1 h
    cases hk : k.string? with
    | none =>
      simp only [convertEntries, entriesToJson, hk]
      exact ⟨path, rfl⟩
    | some key =>
      have first := Follows.below (hv (path ++ [key]))
      simp only [convertEntries, hk, entriesToJson_cons (Datum.string?_eq_some.1 hk)]
      exact first.bind fun j => convertEntries_follows h path (Json.insertMember key j done)

/-- Whether it fails or not, the conversion with one path does the same. -/
theorem convert_follows (v : Datum) : ∀ path, Follows (convert v) path (toJson path v) := by
  induction v using Datum.values_induction with
  | null => exact fun _ => .pure _
  | boolean b => exact fun _ => .pure _
  | integer n =>
    intro path
    rw [convert, toJson]
    split
    · exact .pure _
    · exact .throw _
  | real x =>
    intro path
    cases x with
    | finite y => exact .pure _
    | infinite => exact .throw _
    | notNumber => exact .throw _
  | string s => exact fun _ => .pure _
  | sequence items ih =>
    intro path
    rw [convert, toJson]
    exact (convertItems_follows ih path 0).map
  | mapping entries ih =>
    intro path
    rw [convert, toJson]
    exact (convertEntries_follows ih path []).map
  | tagged t v ih =>
    intro path
    rw [convert, toJson]
    exact ih path

/-! ## The conversion as a whole

The two are put together: one path, and the outcome or the first obstacle. -/

/-- A value converts if and only if it is convertible. -/
theorem toJson_ok_iff (v : Datum) (path : List String) : (∃ j, toJson path v = .ok j) ↔ Convertible v := by
  refine ⟨fun ⟨j, ok⟩ => Classical.byContradiction fun stuck => ?_, fun h => ?_⟩
  · obtain ⟨steps, o, first⟩ := exists_first v stuck
    rw [first.toJson_eq path] at ok
    cases ok
  · obtain ⟨j, ok, -⟩ := h.succeeds path
    exact ⟨j, ok⟩

/-- A value converts if and only if JSON can hold all that is in it, whatever tags it has.  JSON then mirrors it,
and the path is the given one again.  Otherwise the first obstacle is what is reported; a key that is no text is
reported with the steps from the start of the path to its mapping, with slashes between them. -/
theorem convert_mirrors (v : Datum) (path : List String) :
    ((∃ j, toJson path v = .ok j) ↔ Convertible v) ∧
    (∀ j, toJson path v = .ok j → Mirrors v j ∧ convert v path = .ok j path) ∧
    (∀ e, toJson path v = .error e →
      (∃ left, convert v path = .error e left) ∧
        ∃ steps o, First v steps o ∧ e = o.problem (path ++ steps)) ∧
    (∀ steps o, First v steps o → toJson path v = .error (o.problem (path ++ steps))) ∧
    ∀ steps, First v steps .key → ∃ e, toJson path v = .error e ∧ e = .keyNotText (path ++ steps) ∧
      e.message = "invalid map key type(s): " ++ "/".intercalate (path ++ steps) := by
  have follows := convert_follows v path
  refine ⟨toJson_ok_iff v path, fun j ok => ⟨?_, ?_⟩, fun e error => ⟨?_, ?_⟩,
    fun steps o first => first.toJson_eq path, fun steps first => ⟨_, first.toJson_eq path, rfl, ?_⟩⟩
  · obtain ⟨j', ok', mirrors⟩ := ((toJson_ok_iff v path).1 ⟨j, ok⟩).succeeds path
    obtain rfl : j = j' := Except.ok.inj (ok.symm.trans ok')
    exact mirrors
  · rwa [ok] at follows
  · rwa [error] at follows
  -- what fails does not convert, so there is a first obstacle, and that is what is reported
  · have stuck : ¬Convertible v := fun h => by
      obtain ⟨j, ok⟩ := (toJson_ok_iff v path).2 h
      rw [ok] at error
      cases error
    obtain ⟨steps, o, first⟩ := exists_first v stuck
    exact ⟨steps, o, first, Except.error.inj (error.symm.trans (first.toJson_eq path))⟩
  · rw [← joinWith_eq_intercalate]
    rfl

example : toJson ["a"] (.mapping [(.string "b", .mapping [(.integer 1, .string "x")])]) =
    .error (.keyNotText ["a", "b"]) := rfl

end Metadata

end RegoSyntax
