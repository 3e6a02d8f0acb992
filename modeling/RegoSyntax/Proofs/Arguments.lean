/-
# RegoSyntax.Proofs.Arguments — options and files may stand in any order among each other.

A call of `parse` is read from left to right.  An option changes the options that were given before it and
looks at nothing else (`OptionGroup.apply_eq`); the name of a file is put behind the names before it and never
is an error (`ParseCommand.applyAll_file`).  So the two do not meet: a line is read by taking its options one
after the other, and its files are added at the end (`Interleaves.applyAll_eq`).  This is said of one line,
without reference to another one, and it is the same for all lines that options and files can be put together
to.
-/
import RegoSyntax.Command

namespace RegoSyntax

open ParseCommand

/-! ## Lines, argument by argument -/

/-- An argument that takes no value. -/
theorem ParseCommand.applyAll_single {arg : String} (single : takesValue arg = false) (read : FileReader)
    (decode : Decoder) (c : ParseCommand) (rest : List String) :
    applyAll read decode c (arg :: rest) = c.apply arg >>= fun c => applyAll read decode c rest := by
  rw [applyAll.eq_def]
  simp only [single, Bool.false_eq_true, if_false]
  rcases c.apply arg with e | d <;> rfl

/-- An option with its value. -/
theorem ParseCommand.applyAll_valued {flag : String} (takes : takesValue flag = true) (read : FileReader)
    (decode : Decoder) (c : ParseCommand) (value : String) (rest : List String) :
    applyAll read decode c (flag :: value :: rest) =
      c.applyValue read decode flag value >>= fun c => applyAll read decode c rest := by
  rw [applyAll, if_pos takes]
  rcases c.applyValue read decode flag value with e | d <;> rfl

/-! ## Options with their values -/

/-- Whether an argument is written like an option. -/
def IsDashed (arg : String) : Prop := arg.toList.head? = some '-'

instance (arg : String) : Decidable (IsDashed arg) := inferInstanceAs (Decidable (_ = _))

/-- An option with the value that it takes, if it takes one. -/
inductive OptionGroup where
  | alone (flag : String) (dashed : IsDashed flag) (single : takesValue flag = false)
  | valued (flag value : String) (takes : takesValue flag = true)

namespace OptionGroup

variable (read : FileReader) (decode : Decoder)

/-- The arguments of an option. -/
def args : OptionGroup → List String
  | alone flag _ _ => [flag]
  | valued flag value _ => [flag, value]

/-- What an option makes of a call. -/
def apply (c : ParseCommand) : OptionGroup → Except CommandError ParseCommand
  | alone flag _ _ => c.apply flag
  | valued flag value _ => c.applyValue read decode flag value

/-- What it makes of the options before it. -/
def change (o : Options) (g : OptionGroup) : Except CommandError Options :=
  (g.apply read decode { options := o }).map (·.options)

/-- An option looks at the options before it only, and changes nothing else. -/
theorem apply_eq (c : ParseCommand) (g : OptionGroup) :
    g.apply read decode c = (g.change read decode c.options).map fun o => { c with options := o } := by
  cases g with
  | alone flag dashed single =>
      rw [IsDashed] at dashed
      simp only [change, apply, ParseCommand.apply]
      split <;> try rfl
      rcases futureWord? flag with _ | word
      · simp only [dashed, BEq.rfl, if_true]
        rfl
      · rfl
  | valued flag value takes =>
      simp only [change, apply, applyValue]
      split
      · rfl
      · rcases loadCapabilities read decode value with e | capabilities <;> rfl
      · rcases depth? value with _ | n <;> rfl

/-- On a line it is read with its value, and what follows is read behind it. -/
theorem applyAll_args (c : ParseCommand) (g : OptionGroup) (rest : List String) :
    applyAll read decode c (g.args ++ rest) =
      g.change read decode c.options >>= fun o => applyAll read decode { c with options := o } rest := by
  have whole : applyAll read decode c (g.args ++ rest) =
      g.apply read decode c >>= fun c => applyAll read decode c rest := by
    cases g with
    | alone flag dashed single => exact applyAll_single single read decode c rest
    | valued flag value takes => exact applyAll_valued takes read decode c value rest
  rw [whole, apply_eq]
  rcases g.change read decode c.options with e | o <;> rfl

end OptionGroup

/-! ## Files -/

namespace ParseCommand

/-- What is not written like an option takes no value. -/
theorem takesValue_plain {arg : String} (plain : ¬ IsDashed arg) : takesValue arg = false := by
  refine Bool.eq_false_iff.2 fun takes => ?_
  have listed : arg = "--future" ∨ arg = "--capabilities" ∨ arg = "--max-depth" := by
    simpa [takesValue] using takes
  rcases listed with rfl | rfl | rfl <;> exact plain (by decide)

/-- Nor does it hold one. -/
theorem futureWord?_plain {arg : String} (plain : ¬ IsDashed arg) : futureWord? arg = none := by
  refine if_neg fun starts => plain ?_
  obtain ⟨rest, whole⟩ := List.isPrefixOf_iff_prefix.1 starts
  rw [IsDashed, ← whole]
  rfl

/-- A name is put behind the names before it. -/
theorem applyAll_plain {file : String} (plain : ¬ IsDashed file) (read : FileReader) (decode : Decoder)
    (c : ParseCommand) (rest : List String) :
    applyAll read decode c (file :: rest) = applyAll read decode { c with files := c.files ++ [file] } rest := by
  have applied : c.apply file = .ok { c with files := c.files ++ [file] } := by
    unfold apply
    split <;> first
      | exact absurd (by decide) plain
      | (rw [futureWord?_plain plain]
         exact if_neg fun dashed => plain (beq_iff_eq.1 dashed))
  rw [applyAll_single (takesValue_plain plain), applied]
  rfl

end ParseCommand

/-! ## Lines -/

/-- A line that options and files are put together to: every option has its value right behind it, and both
keep their order. -/
inductive Interleaves : List OptionGroup → List String → List String → Prop
  | nil : Interleaves [] [] []
  | option {groups : List OptionGroup} {files args : List String} (g : OptionGroup) :
      Interleaves groups files args → Interleaves (g :: groups) files (g.args ++ args)
  | file {groups : List OptionGroup} {files args : List String} (f : String) :
      Interleaves groups files args → Interleaves groups (f :: files) (f :: args)

/-- What options make of those before them, one after the other. -/
def changes (read : FileReader) (decode : Decoder) :
    Options → List OptionGroup → Except CommandError Options :=
  List.foldlM (OptionGroup.change read decode)

variable {read : FileReader} {decode : Decoder} {groups : List OptionGroup} {files args args' : List String}

/-- A line is read by taking its options one after the other, and its files are added at the end. -/
theorem Interleaves.applyAll_eq (line : Interleaves groups files args) (plain : ∀ f ∈ files, ¬ IsDashed f)
    (c : ParseCommand) :
    applyAll read decode c args =
      (changes read decode c.options groups).map fun o => { options := o, files := c.files ++ files } := by
  induction line generalizing c with
  | nil =>
      rw [List.append_nil]
      rfl
  | option g _ ih =>
      rw [OptionGroup.applyAll_args, changes, List.foldlM_cons]
      rcases g.change read decode c.options with e | o
      · rfl
      · exact ih plain { c with options := o }
  | file f _ ih =>
      obtain ⟨here, rest⟩ := List.forall_mem_cons.1 plain
      rw [applyAll_plain here, ih rest, List.append_assoc]
      rfl

/-- Options and files on two lines that they are put together to in any way, the options in their order and
with their values, the files in their order: the lines stand for the same call, with the files in that order,
or have the same error.  This is so however files are read, and whatever their text is taken for. -/
theorem ofArgs_interleaved (read : FileReader) (decode : Decoder) (plain : ∀ f ∈ files, ¬ IsDashed f)
    (line : Interleaves groups files args) (other : Interleaves groups files args') :
    ofArgs read args decode = ofArgs read args' decode ∧
      ∀ c, ofArgs read args decode = .ok c → c.files = files := by
  have reads {args : List String} (line : Interleaves groups files args) :
      applyAll read decode {} args = (changes read decode {} groups).map fun o => { options := o, files } :=
    line.applyAll_eq plain {}
  refine ⟨by rw [ofArgs, ofArgs, reads line, reads other], fun c result => ?_⟩
  rw [ofArgs, reads line] at result
  rcases changed : changes read decode {} groups with e | o <;> rw [changed] at result
  · cases result
  · rcases files with _ | ⟨f, files⟩
    · cases result
    · cases result
      rfl

/-- Two options between two files, and behind them. -/
theorem ofArgs_interleaved_policies :
    Interleaves [.valued "--future" "in" rfl, .alone "--v0" rfl rfl] ["p.rego", "q.rego"]
      ["--future", "in", "p.rego", "--v0", "q.rego"] ∧
    Interleaves [.valued "--future" "in" rfl, .alone "--v0" rfl rfl] ["p.rego", "q.rego"]
      ["p.rego", "q.rego", "--future", "in", "--v0"] ∧
    ofArgs (fun _ => .error .notFound) ["--future", "in", "p.rego", "--v0", "q.rego"] =
      ofArgs (fun _ => .error .notFound) ["p.rego", "q.rego", "--future", "in", "--v0"] := by
  have between : Interleaves [.valued "--future" "in" rfl, .alone "--v0" rfl rfl] ["p.rego", "q.rego"]
      ["--future", "in", "p.rego", "--v0", "q.rego"] :=
    .option _ (.file _ (.option _ (.file _ .nil)))
  have behind : Interleaves [.valued "--future" "in" rfl, .alone "--v0" rfl rfl] ["p.rego", "q.rego"]
      ["p.rego", "q.rego", "--future", "in", "--v0"] :=
    .file _ (.file _ (.option _ (.option _ .nil)))
  exact ⟨between, behind, (ofArgs_interleaved _ _ (by decide) between behind).1⟩

end RegoSyntax
