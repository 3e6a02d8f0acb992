/-
# RegoSyntax.Proofs.Memory — what is remembered, and what is found again.

What has been remembered is searched from the latest entry on, and the search gives up at the first entry of
a smaller offset (`Memo.lookup`).  It may, because offsets fall strictly from the latest entry to the earliest
(`Memo.Descending`): in such an order the entries from an offset on come first, so a search that stops and one
that goes on to the end find the same.  Remembering keeps the order whatever the offset of the new entry is,
since it drops the entries that the new one must not stand on (`Memo.Descending.push`).

So an entry is there as long as nothing was remembered at its offset or before it since then, and it is found
exactly then (`Memo.remembering_spec`).
-/
import RegoSyntax.Proofs.Visits

namespace RegoSyntax

/-! ## Descending lists -/

section descending

variable {α : Type} {key : α → Nat} {l : List α}

/-- Where keys fall, the elements from a key on are the first ones. -/
theorem takeWhile_of_descending (h : l.Pairwise fun a b => key b < key a) (n : Nat) :
    l.takeWhile (n ≤ key ·) = l.filter (n ≤ key ·) := by
  induction l with
  | nil => rfl
  | cons a l ih =>
      obtain ⟨below, rest⟩ := List.pairwise_cons.1 h
      by_cases reaches : n ≤ key a
      · rw [List.takeWhile_cons_of_pos (by simpa using reaches),
          List.filter_cons_of_pos (by simpa using reaches), ih rest]
      · have none : ∀ b ∈ l, ¬ n ≤ key b := fun b hb => by have := below b hb; omega
        rw [List.takeWhile_cons_of_neg (by simpa using reaches),
          List.filter_cons_of_neg (by simpa using reaches),
          List.filter_eq_nil_iff.2 fun b hb => by simpa using none b hb]

/-- Where keys fall, the elements below a key are the last ones. -/
theorem dropWhile_of_descending (h : l.Pairwise fun a b => key b < key a) (n : Nat) :
    l.dropWhile (n ≤ key ·) = l.filter (key · < n) := by
  induction l with
  | nil => rfl
  | cons a l ih =>
      obtain ⟨below, rest⟩ := List.pairwise_cons.1 h
      by_cases reaches : n ≤ key a
      · rw [List.dropWhile_cons_of_pos (by simpa using reaches),
          List.filter_cons_of_neg (by simpa using reaches), ih rest]
      · have all : ∀ b ∈ a :: l, key b < n := by
          rintro b (_ | ⟨_, hb⟩)
          · omega
          · have := below b hb
            omega
        rw [List.dropWhile_cons_of_neg (by simpa using reaches),
          List.filter_eq_self.2 fun b hb => by simpa using all b hb]

end descending

namespace Memo

variable {m : Memo} {e x : MemoEntry} {es : List MemoEntry} {o : Nat}

/-! ## The order of entries -/

/-- Offsets fall strictly from the latest entry to the earliest. -/
def Descending (m : Memo) : Prop :=
  m.entries.Pairwise fun later earlier => earlier.offset < later.offset

theorem descending_empty : empty.Descending := List.Pairwise.nil

/-- What is remembered beside a new entry is what stood before it in the source. -/
theorem Descending.mem_push_iff (h : m.Descending) :
    x ∈ (m.push e).entries ↔ x = e ∨ x ∈ m.entries ∧ x.offset < e.offset := by
  rw [push, List.mem_cons, dropWhile_of_descending h, List.mem_filter, decide_eq_true_iff]

/-- Remembering keeps the order, at whatever offset. -/
theorem Descending.push (h : m.Descending) (e : MemoEntry) : (m.push e).Descending := by
  refine List.pairwise_cons.2 ⟨fun x old => ?_, List.Pairwise.sublist (List.dropWhile_sublist _) h⟩
  rw [dropWhile_of_descending h] at old
  simpa using (List.mem_filter.1 old).2

/-! ## Looking up -/

/-- The search that stops at a smaller offset finds what a search through all entries finds. -/
theorem Descending.lookup_eq_find? (h : m.Descending) (o : Nat) :
    m.lookup o = m.entries.find? (·.offset == o) := by
  rw [lookup, takeWhile_of_descending h, List.find?_filter]
  congr 1
  funext x
  simp only [decide_eq_true_eq, beq_iff_eq]
  exact decide_eq_decide.2 ⟨And.right, fun same => ⟨same.ge, same⟩⟩

/-- An entry that is there is found: there is no other one at its offset. -/
theorem Descending.lookup_iff (h : m.Descending) :
    m.lookup o = some e ↔ e ∈ m.entries ∧ e.offset = o := by
  refine ⟨lookup_some, fun ⟨listed, here⟩ => ?_⟩
  obtain ⟨later, earlier, split⟩ := List.append_of_mem listed
  have above : ∀ x ∈ later, e.offset < x.offset := by
    rw [Descending, split, List.pairwise_append] at h
    exact fun x hx => h.2.2 x hx e List.mem_cons_self
  rw [h.lookup_eq_find?, List.find?_eq_some_iff_append]
  refine ⟨by simpa using here, later, earlier, split, fun x hx => ?_⟩
  have := above x hx
  simp only [Bool.not_eq_true', beq_eq_false_iff_ne]
  omega

/-- What is found behind a new entry: the entry itself, nothing behind it, and before it what was there. -/
theorem lookup_push (m : Memo) (e : MemoEntry) (o : Nat) :
    (m.push e).lookup o = if o = e.offset then some e else if e.offset < o then none else m.lookup o := by
  unfold lookup push
  by_cases reaches : o ≤ e.offset
  · rw [List.takeWhile_cons_of_pos (by simpa using reaches)]
    split
    · next here => rw [List.find?_cons_of_pos (by simpa using here.symm)]
    · next other =>
        rw [List.find?_cons_of_neg (by simpa using fun same => other same.symm), if_neg (Nat.not_lt.2 reaches)]
        -- the entries that are dropped stand behind the offset that is looked for
        have behind : ∀ x ∈ m.entries.takeWhile (e.offset ≤ ·.offset), e.offset ≤ x.offset := fun x hx => by
          simpa using List.mem_takeWhile_imp hx
        have none : (m.entries.takeWhile (e.offset ≤ ·.offset)).find? (·.offset == o) = none :=
          List.find?_eq_none.2 fun x hx => by
            have := behind x hx
            simp only [beq_iff_eq]
            omega
        conv_rhs => rw [← List.takeWhile_append_dropWhile (p := (e.offset ≤ ·.offset)) (l := m.entries),
          List.takeWhile_append_of_pos fun x hx => by simpa using reaches.trans (behind x hx),
          List.find?_append, none, Option.none_or]
  · rw [List.takeWhile_cons_of_neg (by simpa using reaches), if_neg (by omega), if_pos (by omega)]
    rfl

/-! ## One reading after the other -/

/-- What is left when readings are remembered one after the other. -/
def ofReadings (es : List MemoEntry) : Memo := es.foldl push empty

theorem ofReadings_concat (es : List MemoEntry) (e : MemoEntry) :
    ofReadings (es ++ [e]) = (ofReadings es).push e := by
  rw [ofReadings, List.foldl_concat, ofReadings]

theorem descending_ofReadings (es : List MemoEntry) : (ofReadings es).Descending := by
  induction es using List.reverseRecOn with
  | nil => exact descending_empty
  | append_singleton es e ih =>
      rw [ofReadings_concat]
      exact ih.push e

/-- A reading is the last one at its offset, and nothing before that offset was read since. -/
def Stays (es : List MemoEntry) (e : MemoEntry) : Prop :=
  ∃ before after, es = before ++ e :: after ∧ ∀ x ∈ after, e.offset < x.offset

/-- Of readings up to a new one, the new one stays and those that it does not touch. -/
theorem stays_concat : Stays (es ++ [e]) x ↔ x = e ∨ Stays es x ∧ x.offset < e.offset := by
  constructor
  · rintro ⟨before, after, split, above⟩
    rcases List.eq_nil_or_concat' after with rfl | ⟨after, last, rfl⟩
    · obtain ⟨-, same⟩ := List.append_inj' split rfl
      exact .inl (List.singleton_inj.1 same).symm
    · rw [← List.cons_append, ← List.append_assoc] at split
      obtain ⟨rfl, same⟩ := List.append_inj' split rfl
      obtain rfl := List.singleton_inj.1 same
      exact .inr ⟨⟨before, after, rfl, fun y hy => above y (List.mem_append_left _ hy)⟩,
        above e (List.mem_append_right _ List.mem_cons_self)⟩
  · rintro (rfl | ⟨⟨before, after, rfl, above⟩, lower⟩)
    · exact ⟨es, [], rfl, List.forall_mem_nil _⟩
    · refine ⟨before, after ++ [e], by simp, fun y hy => ?_⟩
      rcases List.mem_append.1 hy with old | new
      · exact above y old
      · exact List.mem_singleton.1 new ▸ lower

/-- What is remembered is what stays. -/
theorem mem_ofReadings_iff : x ∈ (ofReadings es).entries ↔ Stays es x := by
  induction es using List.reverseRecOn with
  | nil =>
      constructor
      · intro listed
        cases listed
      · rintro ⟨before, after, split, -⟩
        exact absurd split (by simp)
  | append_singleton es e ih =>
      rw [ofReadings_concat, (descending_ofReadings es).mem_push_iff, stays_concat, ih]

/-- Whatever is remembered one after the other, in whatever order of offsets: from the bottom to the top the
offsets rise strictly; what is found at an offset is the last reading there, unless an earlier place was read
since, and then nothing is found; and stopping at a smaller offset hides nothing that is there. -/
theorem remembering_spec (es : List MemoEntry) :
    ((ofReadings es).entries.reverse.map (·.offset)).Pairwise (· < ·) ∧
    (∀ o e, (ofReadings es).lookup o = some e ↔ Stays es e ∧ e.offset = o) ∧
    ∀ o, (ofReadings es).lookup o = (ofReadings es).entries.find? (·.offset == o) := by
  have order := descending_ofReadings es
  refine ⟨?_, fun o e => ?_, order.lookup_eq_find?⟩
  · rw [List.pairwise_map, List.pairwise_reverse]
    exact order
  · rw [order.lookup_iff, mem_ofReadings_iff]

end Memo

/-! ## Parses -/

/-- In whatever reading a parse comes through, remembered terms are in order, so none of them is hidden. -/
theorem Task.Visits.descending {t : Task} {u : Reading} (h : t.Visits u) : u.memo.Descending := by
  induction h with
  | start =>
      have empty : t.start.memo = .empty := by
        rw [Task.start, Parse.scan, Parse.run_advance]
        rfl
      exact empty ▸ Memo.descending_empty
  | pass _ _ ih => exact ih
  | back _ _ _ ih => exact ih
  | aside _ same ih => exact same.memo ▸ ih
  | ident _ _ ih => exact ih
  | remember term _ _ _ _ _ ih => exact ih.push _
  | replay _ _ _ ih => exact ih
  | reserve _ _ ih => exact ih
  | forget _ _ => exact Memo.descending_empty
  | regain _ _ ih _ => exact ih

end RegoSyntax
