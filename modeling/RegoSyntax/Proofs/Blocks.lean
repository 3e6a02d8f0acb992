/-
# RegoSyntax.Proofs.Blocks — which comments make a block, and what a block gives.

Whether a comment belongs to a block is said here for each comment of a list by its number: it goes on
with the block of the comment before it when it stands right below that comment in the first column, and
otherwise it opens a block when its text starts with the marker.  `Extent.Layout` says that a list of
extents is where these blocks are.  The grouping of the decoder, which walks over the comments once and
keeps the block that is open, finds exactly these extents.

From this it follows what the annotations of a source are: they come behind everything that is parsed
without them, and every block gives one statement or one error, by its own comments alone.
-/
import Mathlib.Data.List.DropRight
import RegoSyntax.Proofs.Outcome

namespace RegoSyntax

namespace Metadata

/-! ## Where blocks are

A block opens with a comment whose text is the marker, and goes on with the comments right below it.  The
notion looks at the list of comments alone. -/

/-- The text of a comment, without the blanks at its ends, starts with the marker. -/
def Marked (c : Comment) : Prop := Block.marker.toList <+: (Text.trim c.text).toList

/-- A comment stands in the first column of the line below another one. -/
def Below (a b : Comment) : Prop :=
  b.location.row = a.location.row + 1 ∧ b.location.col = 1

/-- A comment goes on with the block that the comment before it opens or goes on with. -/
def Continues (cs : List Comment) : Nat → Prop
  | 0 => False
  | i + 1 => ∃ a b, cs[i]? = some a ∧ cs[i + 1]? = some b ∧ Below a b ∧ (Marked a ∨ Continues cs i)

/-- A comment opens a block: it is marked, and goes on with no other block. -/
def Opens (cs : List Comment) (i : Nat) : Prop := (∃ c, cs[i]? = some c ∧ Marked c) ∧ ¬ Continues cs i

/-- The numbers of the comments of a block: the one that opens it, and the one behind the last. -/
structure Extent where
  start : Nat
  stop : Nat

namespace Extent

/-- The comments of a block, with the one that opens it. -/
def comments (cs : List Comment) (e : Extent) : List Comment := (cs.take e.stop).drop e.start

/-- Extents are those of the blocks among comments: they follow one another without an overlap, their
first comments are those that open a block, and their further ones those that go on with one. -/
structure Layout (cs : List Comment) (es : List Extent) : Prop where
  filled : ∀ e ∈ es, e.start < e.stop ∧ e.stop ≤ cs.length
  apart : es.Pairwise fun a b => a.stop ≤ b.start
  opens : ∀ i, (∃ e ∈ es, e.start = i) ↔ Opens cs i
  continues : ∀ i, (∃ e ∈ es, e.start < i ∧ i < e.stop) ↔ Continues cs i

end Extent

namespace Block

/-- The block of comments of which the first one opens it. -/
def ofComments : List Comment → Block
  | [] => { opener := {} }
  | c :: rest => { opener := c.location, comments := rest }

/-! ## The tests of the decoder

The tests of the decoder are the notions above, in terms of the text and the row of a comment. -/

theorem startsWith_rdropWhile {f : Char → Bool} {w s : List Char} (filled : w ≠ [])
    (solid : ∀ c ∈ w, f c = false) : w <+: s.rdropWhile f ↔ w <+: s := by
  constructor
  · intro starts
    exact starts.trans (List.rdropWhile_prefix f s)
  · rintro ⟨behind, rfl⟩
    -- the blanks at the end are taken away from what is behind the word
    induction behind using List.reverseRecOn with
    | nil =>
        have last : f (w.getLast filled) = false := solid _ (List.getLast_mem filled)
        have whole : w.rdropWhile f = w := List.rdropWhile_eq_self_iff.2 fun _ => by simp [last]
        simp [whole]
    | append_singleton behind c ih =>
        rw [← List.append_assoc, List.rdropWhile_concat]
        split
        · exact ih
        · exact ⟨behind ++ [c], (List.append_assoc _ _ _).symm⟩

/-- The decoder takes a comment for an opener when it is marked. -/
theorem isOpener_iff (c : Comment) : isOpener c = true ↔ Marked c := by
  have trimmed : (Text.trim c.text).toList = (c.text.toList.dropWhile Text.isBlank).rdropWhile Text.isBlank := by
    rw [Text.trim, String.toList_ofList, List.rdropWhile]
  have solid : ∀ c ∈ marker.toList, Text.isBlank c = false := by
    have all : (marker.toList.all fun c => !Text.isBlank c) = true := by decide
    simpa using all
  rw [isOpener, Marked, trimmed, startsWith_rdropWhile (by decide) solid, List.isPrefixOf_iff_prefix]

/-- The decoder goes on with a block when a comment stands below the last one. -/
theorem isNext_iff (a b : Comment) : isNext a b = true ↔ Below a b := by
  simp [isNext, Below]

/-! ## Grouping

The induction is on the comments that are left, with the block that is open, if any. -/

variable {cs : List Comment} {n s : Nat} {es : List Extent}

/-- Extents are those of the blocks among the comments from number `n` on. -/
structure LayoutFrom (cs : List Comment) (n : Nat) (es : List Extent) : Prop where
  filled : ∀ e ∈ es, n ≤ e.start ∧ e.start < e.stop ∧ e.stop ≤ cs.length
  apart : es.Pairwise fun a b => a.stop ≤ b.start
  opens : ∀ i, n ≤ i → ((∃ e ∈ es, e.start = i) ↔ Opens cs i)
  continues : ∀ i, n ≤ i → ((∃ e ∈ es, e.start < i ∧ i < e.stop) ↔ Continues cs i)

/-- Nothing is behind the last comment. -/
theorem LayoutFrom.nil (ended : cs.length ≤ n) : LayoutFrom cs n [] where
  filled := List.forall_mem_nil _
  apart := .nil
  opens i hi := by
    have none : cs[i]? = none := List.getElem?_eq_none (ended.trans hi)
    simp [Opens, none]
  continues i hi := by
    cases i with
    | zero => simp [Continues]
    | succ i =>
        have none : cs[i + 1]? = none := List.getElem?_eq_none (ended.trans hi)
        simp [Continues, none]

/-- A comment that is in no block. -/
theorem LayoutFrom.skip (free : ¬ Opens cs n) (loose : ¬ Continues cs n) (rest : LayoutFrom cs (n + 1) es) :
    LayoutFrom cs n es where
  filled e he := by
    obtain ⟨le, inside⟩ := rest.filled e he
    exact ⟨by omega, inside⟩
  apart := rest.apart
  opens i hi := by
    rcases Nat.eq_or_lt_of_le hi with rfl | lt
    · refine iff_of_false ?_ free
      rintro ⟨e, he, same⟩
      have := (rest.filled e he).1
      omega
    · exact rest.opens i lt
  continues i hi := by
    rcases Nat.eq_or_lt_of_le hi with rfl | lt
    · refine iff_of_false ?_ loose
      rintro ⟨e, he, lt, -⟩
      have := (rest.filled e he).1
      omega
    · exact rest.continues i lt

/-- A block, and what is behind it. -/
theorem LayoutFrom.cons {stop : Nat} (lt : n < stop) (le : stop ≤ cs.length) (opens : Opens cs n)
    (inside : ∀ i, n < i → i < stop → Continues cs i) (rest : LayoutFrom cs stop es) :
    LayoutFrom cs n (⟨n, stop⟩ :: es) where
  filled := by
    rw [List.forall_mem_cons]
    refine ⟨⟨le_rfl, lt, le⟩, fun e he => ?_⟩
    obtain ⟨le, inside⟩ := rest.filled e he
    exact ⟨by omega, inside⟩
  apart := List.pairwise_cons.2 ⟨fun e he => (rest.filled e he).1, rest.apart⟩
  opens i hi := by
    simp only [List.exists_mem_cons_iff]
    -- what is behind the block is as it was; in the block its first comment opens, and no other one
    by_cases later : stop ≤ i
    · rw [rest.opens i later]
      exact or_iff_right (by omega)
    · -- the further comments of the block open none
      have none : ¬ ∃ e ∈ es, e.start = i := by
        rintro ⟨e, he, same⟩
        have := (rest.filled e he).1
        omega
      rcases Nat.eq_or_lt_of_le hi with rfl | lt
      · exact iff_of_true (.inl rfl) opens
      · refine iff_of_false ?_ fun opensHere => opensHere.2 (inside i lt (by omega))
        rintro (same | more)
        · omega
        · exact none more
  continues i hi := by
    simp only [List.exists_mem_cons_iff]
    -- in the block all comments but the first continue
    by_cases later : stop ≤ i
    · rw [rest.continues i later]
      exact or_iff_right (by omega)
    · have none : ¬ ∃ e ∈ es, e.start < i ∧ i < e.stop := by
        rintro ⟨e, he, lt, -⟩
        have := (rest.filled e he).1
        omega
      rcases Nat.eq_or_lt_of_le hi with rfl | lt
      · refine iff_of_false ?_ opens.2
        rintro (⟨lt, -⟩ | more)
        · omega
        · exact none more
      · exact iff_of_true (.inl ⟨lt, by omega⟩) (inside i lt (by omega))

/-- The block that is open before comment number `n`, which is the one from number `s` on, with the comment
that was last. -/
structure Open (cs : List Comment) (s n : Nat) (b : Block) (before : Comment) : Prop where
  opens : Opens cs s
  inside : ∀ i, s < i → i < n → Continues cs i
  lt : s < n
  last : cs[n - 1]? = some before
  block : b = ofComments (Extent.comments cs ⟨s, n⟩)

theorem Open.le {b : Block} {before : Comment} (o : Open cs s n b before) : n ≤ cs.length := by
  obtain ⟨found, -⟩ := List.getElem?_eq_some_iff.1 o.last
  have := o.lt
  omega

/-- A block is opened by a comment that goes on with none. -/
theorem Open.one {c : Comment} (here : cs[n]? = some c) (marked : Marked c) (loose : ¬ Continues cs n) :
    Open cs n (n + 1) { opener := c.location } c where
  opens := ⟨⟨c, here, marked⟩, loose⟩
  inside i lt lt' := by omega
  lt := Nat.lt_succ_self n
  last := here
  block := by
    have own : Extent.comments cs ⟨n, n + 1⟩ = [c] := by
      obtain ⟨inside, -⟩ := List.getElem?_eq_some_iff.1 here
      simp [Extent.comments, List.take_add_one, here, Nat.min_eq_left inside.le]
    rw [own]
    rfl

/-- The next comment of a block. -/
theorem Open.add {b : Block} {before c : Comment} (o : Open cs s n b before) (here : cs[n]? = some c)
    (below : Below before c) : Open cs s (n + 1) (b.add c) c where
  opens := o.opens
  inside i lt lt' := by
    rcases Nat.lt_succ_iff_lt_or_eq.1 lt' with earlier | rfl
    · exact o.inside i lt earlier
    · obtain ⟨i, rfl⟩ : ∃ k, i = k + 1 := ⟨i - 1, by omega⟩
      refine ⟨before, c, o.last, here, below, ?_⟩
      -- the comment before is the one that opens the block, or an earlier one that goes on with it
      rcases Nat.lt_succ_iff_lt_or_eq.1 lt with inner | rfl
      · exact .inr (o.inside i inner (Nat.lt_succ_self i))
      · obtain ⟨⟨d, there, marked⟩, -⟩ := o.opens
        have same : d = before := Option.some.inj (there.symm.trans o.last)
        exact .inl (same ▸ marked)
  lt := o.lt.trans (Nat.lt_succ_self n)
  last := here
  block := by
    have le := o.le
    have lt := o.lt
    have own : Extent.comments cs ⟨s, n + 1⟩ = Extent.comments cs ⟨s, n⟩ ++ [c] := by
      have within : s - n = 0 := by omega
      simp [Extent.comments, List.take_add_one, here, List.drop_append, Nat.min_eq_left le, within]
    have filled : Extent.comments cs ⟨s, n⟩ ≠ [] := by
      apply List.ne_nil_of_length_pos
      simp [Extent.comments]
      omega
    rw [own, o.block]
    generalize Extent.comments cs ⟨s, n⟩ = own at filled
    cases own with
    | nil => exact absurd rfl filled
    | cons d rest => rfl

/-- The decoder finds the blocks among the comments that are left, whether it is in a block or in
none. -/
theorem group_layout (cs rest : List Comment) : ∀ n, cs.drop n = rest →
    (¬ Continues cs n →
      ∃ es, LayoutFrom cs n es ∧ group none rest = es.map fun e => ofComments (e.comments cs)) ∧
    (∀ s b before, Open cs s n b before →
      ∃ es, LayoutFrom cs s es ∧
        group (some (b, before)) rest = es.map fun e => ofComments (e.comments cs)) := by
  -- on the comments that are left; in a block and in none, since either state may lead to the other
  induction rest with
  | nil =>
      intro n left
      have ended : cs.length ≤ n := List.drop_eq_nil_iff.1 left
      refine ⟨fun _ => ⟨[], .nil ended, rfl⟩, fun s b before o => ?_⟩
      exact ⟨[⟨s, n⟩], .cons o.lt o.le o.opens o.inside (.nil ended), by rw [o.block]; rfl⟩
  | cons c rest ih =>
      intro n left
      have here : cs[n]? = some c := by
        rw [← List.head?_drop, left, List.head?_cons]
      obtain ⟨ihNone, ihSome⟩ := ih (n + 1) (by rw [← List.tail_drop, left, List.tail_cons])
      -- outside of a block a comment opens one, or it is skipped
      have none (loose : ¬ Continues cs n) :
          ∃ es, LayoutFrom cs n es ∧
            group (open? c) rest = es.map fun e => ofComments (e.comments cs) := by
        unfold open?
        split
        · next opener => exact ihSome _ _ _ (.one here ((isOpener_iff c).1 opener) loose)
        · next plain =>
            have unmarked : ¬ Marked c := fun marked => plain ((isOpener_iff c).2 marked)
            have looseThen : ¬ Continues cs (n + 1) := by
              rintro ⟨a, b, there, -, -, marked | continues⟩
              · exact unmarked (Option.some.inj (there.symm.trans here) ▸ marked)
              · exact loose continues
            have free : ¬ Opens cs n := by
              rintro ⟨⟨d, there, marked⟩, -⟩
              exact unmarked (Option.some.inj (there.symm.trans here) ▸ marked)
            obtain ⟨es, layout, same⟩ := ihNone looseThen
            exact ⟨es, layout.skip free loose, same⟩
      refine ⟨none, fun s b before o => ?_⟩
      unfold group
      split
      · next next => exact ihSome _ _ _ (o.add here ((isNext_iff before c).1 next))
      -- the comment does not go on with the block, so it is read like one outside
      · next apart =>
          have loose : ¬ Continues cs n := by
            obtain ⟨k, rfl⟩ : ∃ k, n = k + 1 := ⟨n - 1, by have := o.lt; omega⟩
            rintro ⟨a, d, there, herein, below, -⟩
            obtain rfl := Option.some.inj (there.symm.trans o.last)
            obtain rfl := Option.some.inj (herein.symm.trans here)
            exact apart ((isNext_iff a d).2 below)
          obtain ⟨es, layout, same⟩ := none loose
          exact ⟨⟨s, n⟩ :: es, layout.cons o.lt o.le o.opens o.inside, by rw [same, o.block]; rfl⟩

/-- The blocks that the decoder finds are those among the comments, in their order. -/
theorem all_layout (cs : List Comment) :
    ∃ es, Extent.Layout cs es ∧ all cs = es.map fun e => ofComments (e.comments cs) := by
  obtain ⟨es, layout, same⟩ := (group_layout cs cs 0 rfl).1 id
  refine ⟨es, ?_, same⟩
  exact
    { filled := fun e he => (layout.filled e he).2
      apart := layout.apart
      opens := fun i => layout.opens i (Nat.zero_le i)
      continues := fun i => layout.continues i (Nat.zero_le i) }

end Block

/-! ## What blocks give

What a block gives is asked of the reader, which is any; so all of this holds whatever it takes for a
document. -/

/-- What blocks give, in their order: each one annotations or one error, by its own comments.  An error says
what is wrong with the block and where, and may bring hints. -/
inductive Yields (read : Block.Reader) : List Block → List Annotations → List Diagnostic → Prop where
  | nil : Yields read [] [] []
  | statement {b : Block} {bs : List Block} {a : Annotations} {as : List Annotations}
      {ds : List Diagnostic} : b.decode read = .ok a →
      Yields read bs as ds → Yields read (b :: bs) (a :: as) ds
  | error {b : Block} {bs : List Block} {problem : Block.Problem} {d : Diagnostic}
      {as : List Annotations} {ds : List Diagnostic} : b.decode read = .error problem →
      d.location = some (b.place problem) →
      d.message = Diagnostic.withHints (b.message problem) d.hints → Yields read bs as ds →
      Yields read (b :: bs) as (d :: ds)

theorem Yields.count {read : Block.Reader} {bs : List Block} {as : List Annotations} {ds : List Diagnostic}
    (y : Yields read bs as ds) : as.length + ds.length = bs.length := by
  induction y with
  | nil => rfl
  | statement _ _ ih => simp only [List.length_cons]; omega
  | error _ _ _ _ ih => simp only [List.length_cons]; omega

end Metadata

namespace Parsed

open Metadata (Block Yields Extent)

variable (read : Block.Reader)

/-- What a block gives. -/
def decoded (b : Block) : Except Diagnostic Annotations := (b.decode read).mapError (blockError b)

/-- Errors as they are added to a result: the first one takes the hints that are left. -/
def shown (bytes : List UInt8) (advice : List String) : List Diagnostic → List Diagnostic
  | [] => []
  | d :: ds => (d.hinted advice :: ds).map (·.illustrated bytes)

theorem addErrors_errors (p : Parsed) (bytes : List UInt8) (ds : List Diagnostic) :
    (p.addErrors bytes ds).errors = p.errors ++ shown bytes p.advice ds := by
  cases ds with
  | nil => exact (List.append_nil _).symm
  | cons d ds => rfl

/-- Without hints that are left, all errors are added alike. -/
theorem shown_plain (bytes : List UInt8) {ds : List Diagnostic} (plain : ∀ d ∈ ds, d.hints = []) :
    shown bytes [] ds = ds.map (·.illustrated bytes) := by
  cases ds with
  | nil => rfl
  | cons d ds =>
      have same : d.hinted [] = d := by
        rw [Diagnostic.hinted, Diagnostic.withHints, ← plain d List.mem_cons_self]
      rw [shown, same]

/-- The annotations of the blocks that can be decoded. -/
def annotationsOf (bs : List Block) : List Annotations := bs.filterMap fun b => (decoded read b).toOption

/-- The errors of the blocks that cannot. -/
def errorsOf (bs : List Block) : List Diagnostic :=
  bs.filterMap fun b =>
    match decoded read b with
    | .ok _ => none
    | .error d => some d

theorem hints_errorsOf (bs : List Block) : ∀ d ∈ errorsOf read bs, d.hints = [] := by
  intro d hd
  obtain ⟨b, -, error⟩ := List.mem_filterMap.1 hd
  rcases result : b.decode read with problem | a <;> rw [decoded, result] at error
  · obtain rfl := Option.some.inj error
    rfl
  · cases error

/-- The blocks that can be decoded give their annotations, and the others their errors. -/
theorem yields_decoded (bytes : List UInt8) (bs : List Block) : ∀ advice,
    Yields read bs (annotationsOf read bs) (shown bytes advice (errorsOf read bs)) := by
  induction bs with
  | nil => intro advice; exact .nil
  | cons b bs ih =>
      intro advice
      rcases result : b.decode read with problem | a
      -- -- a block that reports gives no annotations, and the advice goes to its error
      · have gives : decoded read b = .error (blockError b problem) := by rw [decoded, result]; rfl
        have left : annotationsOf read (b :: bs) = annotationsOf read bs := by
          rw [annotationsOf, List.filterMap_cons, gives]; rfl
        have right : errorsOf read (b :: bs) = blockError b problem :: errorsOf read bs := by
          rw [errorsOf, List.filterMap_cons, gives]; rfl
        have rest := ih []
        rw [shown_plain bytes (hints_errorsOf read bs)] at rest
        rw [left, right]
        exact .error result rfl rfl rest
      -- -- a block that decodes leaves the advice to the first error behind it
      · have gives : decoded read b = .ok a := by rw [decoded, result]; rfl
        have left : annotationsOf read (b :: bs) = a :: annotationsOf read bs := by
          rw [annotationsOf, List.filterMap_cons, gives]; rfl
        have right : errorsOf read (b :: bs) = errorsOf read bs := by
          rw [errorsOf, List.filterMap_cons, gives]; rfl
        rw [left, right]
        exact .statement result (ih advice)

/-- What is decoded from the comments of a result, by its blocks. -/
theorem annotated_eq (p : Parsed) (bytes : List UInt8) :
    p.annotated bytes read =
      addErrors
        { p with statements := p.statements ++ (annotationsOf read (Block.all p.comments)).map .annotations }
        bytes (errorsOf read (Block.all p.comments)) := by
  have annotations : ((Block.all p.comments).map (decoded read)).filterMap (fun
      | .ok a => some (Statement.annotations a)
      | .error _ => none) = (annotationsOf read (Block.all p.comments)).map .annotations := by
    rw [annotationsOf, List.map_filterMap, List.filterMap_map]
    refine List.filterMap_congr fun b _ => ?_
    show _ = ((decoded read b).toOption).map Statement.annotations
    rcases result : decoded read b with d | a <;> simp [result, Except.toOption]
  have errors : ((Block.all p.comments).map (decoded read)).filterMap (fun
      | .ok _ => none
      | .error d => some d) = errorsOf read (Block.all p.comments) := by
    rw [errorsOf, List.filterMap_map]
    rfl
  unfold annotated
  rw [← annotations, ← errors]
  rfl

/-- The result `on` is the result `off` with what the blocks among its comments give: annotations behind its
statements, and errors behind its errors. -/
structure Annotates (read : Block.Reader) (off on : Parsed) (extents : List Extent) (as : List Annotations)
    (ds : List Diagnostic) : Prop where
  layout : Extent.Layout off.comments extents
  yields : Yields read (extents.map fun e => .ofComments (e.comments off.comments)) as ds
  count : as.length + ds.length = extents.length
  comments : on.comments = off.comments
  statements : on.statements = off.statements ++ as.map .annotations
  errors : on.errors = off.errors ++ ds

/-- Decoding the annotations of a result adds what its blocks give, and changes nothing else. -/
theorem annotates (p : Parsed) (bytes : List UInt8) :
    ∃ extents as ds, Annotates read p (p.annotated bytes read) extents as ds := by
  obtain ⟨extents, layout, found⟩ := Metadata.Block.all_layout p.comments
  have yields := yields_decoded read bytes (Block.all p.comments) p.advice
  have added := p.annotated_eq read bytes
  refine ⟨extents, annotationsOf read (Block.all p.comments),
    shown bytes p.advice (errorsOf read (Block.all p.comments)), layout, found ▸ yields, ?_, ?_, ?_, ?_⟩
  · rw [yields.count, found, List.length_map]
  · rw [added, addErrors_comments]
  · rw [added, addErrors_statements]
  · rw [added, addErrors_errors]

end Parsed

/-- Decoding annotations adds to what is parsed without them what the blocks among the comments give, and
changes nothing of it, however the document of a block is read. -/
theorem parse_annotations (source file : String) (o : Options) (read : Metadata.Block.Reader) :
    ∃ extents as ds, Parsed.Annotates read (parse source file { o with annotations := false } read)
      (parse source file { o with annotations := true } read) extents as ds := by
  -- what is parsed does not depend on whether annotations are decoded
  have off : parse source file { o with annotations := false } read = parseSyntax source file o := rfl
  have on : parse source file { o with annotations := true } read =
      (parseSyntax source file o).annotated source.toUTF8.toList read := rfl
  rw [off, on]
  exact Parsed.annotates _ _ _

end RegoSyntax
