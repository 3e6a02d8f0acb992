/-
# RegoSyntax.Proofs.Renaming.Alike — trees that are the same up to the names of wildcards.

Wildcards are numbered as they are met, so two readings of one text that take a different number of
turns give different names to the same wildcard.  Relative to a relation between numbers, two trees
are *alike* when they are equal but for the names of their wildcards, and the numbers of wildcards at
the same place are related.  Places count here, unlike in `Term.same`.

Whatever the parser asks about a tree has one answer for alike trees, and what it builds from alike
trees is alike.
-/
import Mathlib.Data.Option.Basic
import RegoSyntax.Parse.Definition

namespace RegoSyntax

/-! ## Names

A relation between numbers tells which wildcards stand for one another.  Texts are told by how they are
put together, since the name of a wildcard may stand in the middle of one. -/

theorem isWildcardName_wildcardName (n : Nat) :
    isWildcardName (Parse.wildcardName n) = true := by
  rw [isWildcardName, Parse.wildcardName, String.toList_append]
  rfl

section

variable (N : Nat → Nat → Prop)

/-- Names are alike: equal, or those of related wildcards. -/
inductive AlikeName : String → String → Prop where
  | plain {name : String} : isWildcardName name = false → AlikeName name name
  | wildcard {l r : Nat} : N l r → AlikeName (Parse.wildcardName l) (Parse.wildcardName r)

/-- Texts are alike: put together from equal texts and alike names. -/
inductive AlikeText : String → String → Prop where
  | same (s : String) : AlikeText s s
  | name {a b : String} : AlikeName N a b → AlikeText a b
  | append {a b c d : String} : AlikeText a b → AlikeText c d → AlikeText (a ++ c) (b ++ d)

/-! ## Trees

One inductive definition for each sort of node, over all of them at once.  Places are the same on both
sides. -/

mutual

/-- Alike terms stand at the same place and have alike values. -/
inductive Term.Alike : Term → Term → Prop where
  | mk {v w : Value} {l : Option Location} : Value.Alike v w → Term.Alike ⟨v, l⟩ ⟨w, l⟩

/-- Alike values have one shape, with alike parts. -/
inductive Value.Alike : Value → Value → Prop where
  | null : Value.Alike .null .null
  | boolean (b : Bool) : Value.Alike (.boolean b) (.boolean b)
  | number (spelling : String) : Value.Alike (.number spelling) (.number spelling)
  | string (s : String) : Value.Alike (.string s) (.string s)
  | var {a b : String} : AlikeName N a b → Value.Alike (.var a) (.var b)
  | ref {ts us : List Term} : AlikeTerms ts us → Value.Alike (.ref ts) (.ref us)
  | array {ts us : List Term} : AlikeTerms ts us → Value.Alike (.array ts) (.array us)
  | object {ps qs : List (Term × Term)} : AlikePairs ps qs → Value.Alike (.object ps) (.object qs)
  | set {ts us : List Term} : AlikeTerms ts us → Value.Alike (.set ts) (.set us)
  | call {ts us : List Term} : AlikeTerms ts us → Value.Alike (.call ts) (.call us)
  | arrayComprehension {t u : Term} {b c : List Expr} : Term.Alike t u → AlikeBodies b c →
      Value.Alike (.arrayComprehension t b) (.arrayComprehension u c)
  | objectComprehension {k l v w : Term} {b c : List Expr} : Term.Alike k l → Term.Alike v w →
      AlikeBodies b c → Value.Alike (.objectComprehension k v b) (.objectComprehension l w c)
  | setComprehension {t u : Term} {b c : List Expr} : Term.Alike t u → AlikeBodies b c →
      Value.Alike (.setComprehension t b) (.setComprehension u c)

/-- Lists of terms that are alike one by one. -/
inductive AlikeTerms : List Term → List Term → Prop where
  | nil : AlikeTerms [] []
  | cons {t u : Term} {ts us : List Term} : Term.Alike t u → AlikeTerms ts us →
      AlikeTerms (t :: ts) (u :: us)

/-- Entries of objects that are alike one by one. -/
inductive AlikePairs : List (Term × Term) → List (Term × Term) → Prop where
  | nil : AlikePairs [] []
  | cons {k l v w : Term} {ps qs : List (Term × Term)} : Term.Alike k l → Term.Alike v w →
      AlikePairs ps qs → AlikePairs ((k, v) :: ps) ((l, w) :: qs)

/-- Queries that are alike expression by expression. -/
inductive AlikeBodies : List Expr → List Expr → Prop where
  | nil : AlikeBodies [] []
  | cons {e f : Expr} {es fs : List Expr} : Expr.Alike e f → AlikeBodies es fs →
      AlikeBodies (e :: es) (f :: fs)

/-- Alike expressions. -/
inductive Expr.Alike : Expr → Expr → Prop where
  | mk {i : Nat} {g n : Bool} {t u : ExprTerms} {w x : List With} {l : Option Location} :
      ExprTerms.Alike t u → AlikeWiths w x → Expr.Alike ⟨i, g, n, t, w, l⟩ ⟨i, g, n, u, x, l⟩

/-- What alike expressions consist of. -/
inductive ExprTerms.Alike : ExprTerms → ExprTerms → Prop where
  | term {t u : Term} : Term.Alike t u → ExprTerms.Alike (.term t) (.term u)
  | call {ts us : List Term} : AlikeTerms ts us → ExprTerms.Alike (.call ts) (.call us)
  | some {ts us : List Term} (l : Option Location) : AlikeTerms ts us →
      ExprTerms.Alike (.some ts l) (.some us l)
  | every {j k : Option Term} {v w d e : Term} {b c : List Expr} (l : Option Location) :
      AlikeKeys j k → Term.Alike v w → Term.Alike d e → AlikeBodies b c →
      ExprTerms.Alike (.every j v d b l) (.every k w e c l)

/-- Keys that are both absent, or alike. -/
inductive AlikeKeys : Option Term → Option Term → Prop where
  | none : AlikeKeys none none
  | some {t u : Term} : Term.Alike t u → AlikeKeys (some t) (some u)

/-- Replacements that are alike one by one. -/
inductive AlikeWiths : List With → List With → Prop where
  | nil : AlikeWiths [] []
  | cons {t u v w : Term} {l : Option Location} {ws xs : List With} : Term.Alike t u →
      Term.Alike v w → AlikeWiths ws xs → AlikeWiths (⟨t, v, l⟩ :: ws) (⟨u, w, l⟩ :: xs)

end

/-! ## Errors

The errors of alike readings are at the same places and quote alike texts; advice may differ. -/

/-- Notes that quote alike texts. -/
inductive Note.Alike : Note → Note → Prop where
  | same (n : Note) : Note.Alike n n
  | invalidHead {a b : String} : AlikeText N a b → Note.Alike (.invalidHead a) (.invalidHead b)
  | containsOnFunction {a b : String} : AlikeText N a b →
      Note.Alike (.containsOnFunction a) (.containsOnFunction b)
  | ruleKey {a b : String} : AlikeText N a b → Note.Alike (.ruleKey a) (.ruleKey b)
  | ruleValue {a b : String} : AlikeText N a b → Note.Alike (.ruleValue a) (.ruleValue b)
  | assignedRuleValue {a b : String} : AlikeText N a b →
      Note.Alike (.assignedRuleValue a) (.assignedRuleValue b)
  | functionValue {a b : String} : AlikeText N a b →
      Note.Alike (.functionValue a) (.functionValue b)
  | partialRuleValue {a b : String} : AlikeText N a b →
      Note.Alike (.partialRuleValue a) (.partialRuleValue b)
  | defaultRuleValue {a b : String} : AlikeText N a b →
      Note.Alike (.defaultRuleValue a) (.defaultRuleValue b)

/-- Problems that quote alike texts. -/
inductive Problem.Alike : Problem → Problem → Prop where
  | same (p : Problem) : Problem.Alike p p
  | unexpectedToken (kind : Token) {m n : Note} : Note.Alike N m n →
      Problem.Alike (.unexpectedToken kind m) (.unexpectedToken kind n)
  | importRoot {a b : String} : AlikeText N a b → Problem.Alike (.importRoot a) (.importRoot b)
  | importEndsInKeyword {a b : String} : AlikeText N a b →
      Problem.Alike (.importEndsInKeyword a) (.importEndsInKeyword b)
  | regoImportPath {a b : String} : AlikeText N a b →
      Problem.Alike (.regoImportPath a) (.regoImportPath b)

/-- Errors at one place, whatever advice goes with them. -/
inductive Failure.Alike : Failure → Failure → Prop where
  | mk {p q : Problem} {l : Location} {hints hints' : List Hint} : Problem.Alike N p q →
      Failure.Alike ⟨p, l, hints⟩ ⟨q, l, hints'⟩

/-! ## Rules and statements

Rules are alike with their alternatives, and statements by their kind. -/

/-- Alike heads. -/
structure Head.Alike (h k : Head) : Prop where
  name : Option.Rel (AlikeName N) h.name k.name
  reference : AlikeTerms N h.reference k.reference
  args : AlikeTerms N h.args k.args
  key : AlikeKeys N h.key k.key
  value : AlikeKeys N h.value k.value
  assign : h.assign = k.assign
  generatedValue : h.generatedValue = k.generatedValue
  keywords : h.keywords = k.keywords
  location : h.location = k.location

/-- Alike rules have alike alternatives. -/
inductive Rule.Alike : Rule → Rule → Prop where
  | last {d g : Bool} {h k : Head} {b c : Body} {l : Option Location} : h.Alike N k →
      AlikeBodies N b c → Rule.Alike ⟨d, h, b, none, g, l⟩ ⟨d, k, c, none, g, l⟩
  | orElse {d g : Bool} {h k : Head} {b c : Body} {r s : Rule} {l : Option Location} :
      h.Alike N k → AlikeBodies N b c → Rule.Alike r s →
      Rule.Alike ⟨d, h, b, some r, g, l⟩ ⟨d, k, c, some s, g, l⟩

/-- Alike statements.  A package that is called by a wildcard has the name of the wildcard, as a string, in
its path. -/
inductive Statement.Alike : Statement → Statement → Prop where
  | package {root : Term} {m l : Option Location} {a b : String} {p q : Ref} : AlikeName N a b →
      AlikeTerms N p q →
      Statement.Alike (.package ⟨root :: ⟨.string a, m⟩ :: p, l⟩)
        (.package ⟨root :: ⟨.string b, m⟩ :: q, l⟩)
  | importClause {t u : Term} {a b : Option String} (l : Option Location) : t.Alike N u →
      Option.Rel (AlikeName N) a b → Statement.Alike (.importClause ⟨t, a, l⟩) (.importClause ⟨u, b, l⟩)
  | rule {r s : Rule} : r.Alike N s → Statement.Alike (.rule r) (.rule s)
  | body {b c : Body} : AlikeBodies N b c → Statement.Alike (.body b) (.body c)
  | annotations (a : Annotations) : Statement.Alike (.annotations a) (.annotations a)

end

/-! ## More related wildcards

As more wildcards are met, more of them are related.  What is alike stays so, by the same recursion as the
definitions. -/

section

variable {N M : Nat → Nat → Prop}

theorem AlikeName.mono (h : ∀ l r, N l r → M l r) {a b : String} :
    AlikeName N a b → AlikeName M a b
  | .plain p => .plain p
  | .wildcard n => .wildcard (h _ _ n)

/-- Optional values that are related stay so under a weaker relation. -/
theorem rel_mono {α : Type} {R S : α → α → Prop} (h : ∀ a b, R a b → S a b) {x y : Option α} :
    Option.Rel R x y → Option.Rel S x y
  | .some r => .some (h _ _ r)
  | .none => .none

theorem AlikeText.mono (h : ∀ l r, N l r → M l r) {a b : String} (alike : AlikeText N a b) :
    AlikeText M a b := by
  induction alike with
  | same s => exact .same s
  | name n => exact .name (n.mono h)
  | append _ _ first second => exact .append first second

mutual

theorem Term.Alike.mono (h : ∀ l r, N l r → M l r) :
    ∀ {t u : Term}, Term.Alike N t u → Term.Alike M t u
  | _, _, .mk v => .mk (v.mono h)

theorem Value.Alike.mono (h : ∀ l r, N l r → M l r) :
    ∀ {v w : Value}, Value.Alike N v w → Value.Alike M v w
  | _, _, .null => .null
  | _, _, .boolean b => .boolean b
  | _, _, .number s => .number s
  | _, _, .string s => .string s
  | _, _, .var n => .var (n.mono h)
  | _, _, .ref ts => .ref (ts.mono h)
  | _, _, .array ts => .array (ts.mono h)
  | _, _, .object ps => .object (ps.mono h)
  | _, _, .set ts => .set (ts.mono h)
  | _, _, .call ts => .call (ts.mono h)
  | _, _, .arrayComprehension t b => .arrayComprehension (t.mono h) (b.mono h)
  | _, _, .objectComprehension k v b => .objectComprehension (k.mono h) (v.mono h) (b.mono h)
  | _, _, .setComprehension t b => .setComprehension (t.mono h) (b.mono h)

theorem AlikeTerms.mono (h : ∀ l r, N l r → M l r) :
    ∀ {ts us : List Term}, AlikeTerms N ts us → AlikeTerms M ts us
  | _, _, .nil => .nil
  | _, _, .cons t ts => .cons (t.mono h) (ts.mono h)

theorem AlikePairs.mono (h : ∀ l r, N l r → M l r) :
    ∀ {ps qs : List (Term × Term)}, AlikePairs N ps qs → AlikePairs M ps qs
  | _, _, .nil => .nil
  | _, _, .cons k v ps => .cons (k.mono h) (v.mono h) (ps.mono h)

theorem AlikeBodies.mono (h : ∀ l r, N l r → M l r) :
    ∀ {b c : List Expr}, AlikeBodies N b c → AlikeBodies M b c
  | _, _, .nil => .nil
  | _, _, .cons e es => .cons (e.mono h) (es.mono h)

theorem Expr.Alike.mono (h : ∀ l r, N l r → M l r) :
    ∀ {e f : Expr}, Expr.Alike N e f → Expr.Alike M e f
  | _, _, .mk ts ws => .mk (ts.mono h) (ws.mono h)

theorem ExprTerms.Alike.mono (h : ∀ l r, N l r → M l r) :
    ∀ {t u : ExprTerms}, ExprTerms.Alike N t u → ExprTerms.Alike M t u
  | _, _, .term t => .term (t.mono h)
  | _, _, .call ts => .call (ts.mono h)
  | _, _, .some l ts => .some l (ts.mono h)
  | _, _, .every l k v d b => .every l (k.mono h) (v.mono h) (d.mono h) (b.mono h)

theorem AlikeKeys.mono (h : ∀ l r, N l r → M l r) :
    ∀ {j k : Option Term}, AlikeKeys N j k → AlikeKeys M j k
  | _, _, .none => .none
  | _, _, .some t => .some (t.mono h)

theorem AlikeWiths.mono (h : ∀ l r, N l r → M l r) :
    ∀ {ws xs : List With}, AlikeWiths N ws xs → AlikeWiths M ws xs
  | _, _, .nil => .nil
  | _, _, .cons t v ws => .cons (t.mono h) (v.mono h) (ws.mono h)

end

theorem Note.Alike.mono (h : ∀ l r, N l r → M l r) {m n : Note} : m.Alike N n → m.Alike M n
  | .same n => .same n
  | .invalidHead t => .invalidHead (t.mono h)
  | .containsOnFunction t => .containsOnFunction (t.mono h)
  | .ruleKey t => .ruleKey (t.mono h)
  | .ruleValue t => .ruleValue (t.mono h)
  | .assignedRuleValue t => .assignedRuleValue (t.mono h)
  | .functionValue t => .functionValue (t.mono h)
  | .partialRuleValue t => .partialRuleValue (t.mono h)
  | .defaultRuleValue t => .defaultRuleValue (t.mono h)

theorem Problem.Alike.mono (h : ∀ l r, N l r → M l r) {p q : Problem} : p.Alike N q → p.Alike M q
  | .same p => .same p
  | .unexpectedToken kind n => .unexpectedToken kind (n.mono h)
  | .importRoot t => .importRoot (t.mono h)
  | .importEndsInKeyword t => .importEndsInKeyword (t.mono h)
  | .regoImportPath t => .regoImportPath (t.mono h)

theorem Failure.Alike.mono (h : ∀ l r, N l r → M l r) {f g : Failure} : f.Alike N g → f.Alike M g
  | .mk p => .mk (p.mono h)

theorem Head.Alike.mono (h : ∀ l r, N l r → M l r) {a b : Head} (alike : a.Alike N b) :
    a.Alike M b where
  name := rel_mono (fun _ _ => AlikeName.mono h) alike.name
  reference := alike.reference.mono h
  args := alike.args.mono h
  key := alike.key.mono h
  value := alike.value.mono h
  assign := alike.assign
  generatedValue := alike.generatedValue
  keywords := alike.keywords
  location := alike.location

theorem Rule.Alike.mono (h : ∀ l r, N l r → M l r) :
    ∀ {r s : Rule}, r.Alike N s → r.Alike M s
  | _, _, .last k b => .last (k.mono h) (b.mono h)
  | _, _, .orElse k b r => .orElse (k.mono h) (b.mono h) (r.mono h)

theorem Statement.Alike.mono (h : ∀ l r, N l r → M l r) {a b : Statement} :
    a.Alike N b → a.Alike M b
  | .package n p => .package (n.mono h) (p.mono h)
  | .importClause l t n => .importClause l (t.mono h) (rel_mono (fun _ _ => AlikeName.mono h) n)
  | .rule r => .rule (r.mono h)
  | .body b => .body (b.mono h)
  | .annotations a => .annotations a

end

end RegoSyntax
