import WatchView.Proofs.Catalogue.Aliases
import WatchView.Proofs.Display.OwnRow
import WatchView.Proofs.Template
/-!
# Strings by the built-in rule

The built-in rule for strings has a template for the line of text and one for the string
view. Both name the call that returns the characters, but only the first has it between
braces. A template is evaluated between its braces and nowhere else. So the line of text
shows the characters, while the string view of every string is the text of the call, and
nothing is evaluated for it (`ShownAsString.texts`).
-/

namespace WatchView

/-! ## Filling templates -/

namespace Template

variable {m : Type → Type} [Monad m] [LawfulMonad m] {ε : Type}
  (hole : String → m (Except ε String))

/-- **A text without braces is shown as it is.** -/
theorem fill_of_no_brace (template : String) (nonblank : Text.isBlankText template = false)
    (left : '\x7b' ∉ template.toList) (right : '\x7d' ∉ template.toList) :
    fill hole template = pure (.ok template) := by
  have nonempty : template.toList ≠ [] := by
    intro empty
    rw [Text.isBlankText, empty] at nonblank
    cases nonblank
  have same : ∀ c ∈ template.toList, (if c = '\x7b' ∨ c = '\x7d' then [c, c] else [c]) = [c] := by
    intro c mem
    refine if_neg (not_or.mpr ⟨?_, ?_⟩)
    · exact fun h => left (h ▸ mem)
    · exact fun h => right (h ▸ mem)
  have written : write [.literal template.toList] = template.toList := by
    rw [write, List.flatMap_singleton, Part.write, escape, List.flatMap_congr same,
      List.flatMap_singleton']
  have read := (parts_write_iff [.literal template.toList]).mpr
    (isTemplate_cons_iff.mpr ⟨nonempty, by simp, isTemplate_nil⟩)
  rw [written, String.ofList_toList] at read
  rw [fill, nonblank, if_neg Bool.false_ne_true, read, fillParts, fillParts, pure_bind]
  dsimp only
  rw [String.ofList_toList, String.append_empty]

/-- A template that is one expression shows what the expression does. -/
theorem fill_braced (expression : String) (h : IsExpression expression.toList) :
    fill hole (EvalError.braced expression) = hole expression := by
  have written : String.ofList (write [.placeholder expression.toList]) =
      EvalError.braced expression := by
    refine String.toList_injective ?_
    simp [write, Part.write, EvalError.braced]
  have read := (parts_write_iff [.placeholder expression.toList]).mpr
    (isTemplate_cons_iff.mpr ⟨h, fun literal => absurd literal Bool.false_ne_true, isTemplate_nil⟩)
  rw [written] at read
  have nonblank : Text.isBlankText (EvalError.braced expression) = false := by
    rw [← written, Text.isBlankText, String.toList_ofList]
    rfl
  rw [fill, nonblank, if_neg Bool.false_ne_true, read, fillParts, fillParts,
    String.ofList_toList]
  refine (bind_congr fun result => ?_).trans (bind_pure _)
  cases result with
  | error e => rfl
  | ok text =>
    dsimp only
    rw [pure_bind]
    dsimp only
    rw [String.append_empty]

end Template

/-! ## The rule that is found -/

/-- A pattern that is written out covers types of its own base name only. -/
theorem TypeTree.baseName_of_covers {pattern type : TypeTree} (written : pattern.isWildcard = false)
    (covers : pattern.covers type = true) : pattern.baseName = type.baseName := by
  cases pattern with
  | wildcard => cases written
  | named full base qualifiers args parameters extent =>
    simp only [TypeTree.covers, Bool.and_eq_true, beq_iff_eq] at covers
    obtain ⟨⟨⟨⟨⟨-, same⟩, -⟩, -⟩, -⟩, -⟩ := covers
    exact same

namespace Builtin

/-- Whether a type is one of the strings the built-in rule is for. -/
def IsStringType (type : TypeTree) : Prop :=
  ∃ pattern, TypeTree.parse? stringType = some pattern ∧ pattern.covers type = true

/-- Whether a text is read as a name, written out, with this base name. -/
def readsAs (base text : String) : Bool :=
  (TypeTree.parse? text).all fun pattern => !pattern.isWildcard && pattern.baseName == base

theorem baseName_of_readsAs {base text : String} {pattern type : TypeTree}
    (reads : readsAs base text = true) (read : TypeTree.parse? text = some pattern)
    (covers : pattern.covers type = true) : type.baseName = base := by
  rw [readsAs, read, Option.all_some, Bool.and_eq_true, Bool.not_eq_true', beq_iff_eq] at reads
  rw [← TypeTree.baseName_of_covers reads.1 covers, reads.2]

theorem IsStringType.baseName {type : TypeTree} (h : IsStringType type) :
    type.baseName = "basic_string" := by
  obtain ⟨pattern, read, covers⟩ := h
  exact baseName_of_readsAs (by decide +kernel) read covers

end Builtin

namespace Catalogue

variable {files : List RuleFile} {type : TypeTree}

/-- What an entry stands for: a rule under one of its patterns. -/
theorem entryAt?_eq_some_iff {p : Place} {e : Entry} :
    entryAt? files p = some e ↔
      ∃ file text, files[p.file]? = some file ∧ file.visualizers[p.rule]? = some e.visualizer ∧
        e.visualizer.patterns[p.pattern]? = some text ∧ TypeTree.parse? text = some e.pattern := by
  simp only [entryAt?, Option.bind_eq_bind, Option.pure_def, Option.bind_eq_some_iff,
    Option.some.injEq]
  constructor
  · rintro ⟨file, at_file, v, at_rule, text, at_pattern, pattern, read, rfl⟩
    exact ⟨file, text, at_file, at_rule, at_pattern, read⟩
  · rintro ⟨file, text, at_file, at_rule, at_pattern, read⟩
    exact ⟨file, at_file, _, at_rule, text, at_pattern, _, read, rfl⟩

/-- A rule that has only a name of another kind does not cover the type of a string. -/
theorem not_covers_string {name : String} (isString : Builtin.IsStringType type)
    (reads : Builtin.readsAs name name = true) (other : "basic_string" ≠ name) {v : Visualizer}
    (alone : v.patterns = [name]) {i : Nat} {text : String} (at_pattern : v.patterns[i]? = some text)
    {pattern : TypeTree} (read : TypeTree.parse? text = some pattern) :
    ¬ pattern.covers type = true := by
  intro covers
  rw [alone] at at_pattern
  obtain rfl := List.mem_singleton.mp (List.mem_of_getElem? at_pattern)
  exact other (isString.baseName.symm.trans (Builtin.baseName_of_readsAs reads read covers))

/-- Of the entries of the built-in file and of further ones, only that of the rule for
strings covers the type of a string, unless some of the further ones do. -/
theorem visualizer_of_covers_string (isString : Builtin.IsStringType type)
    (uncovered : ¬ Covers files type) {p : Place} {e : Entry}
    (here : entryAt? (Builtin.file true :: files) p = some e) (covers : e.pattern.covers type) :
    e.visualizer = Builtin.string := by
  obtain ⟨i, rule, pattern⟩ := p
  obtain ⟨file, text, at_file, at_rule, at_pattern, read⟩ := entryAt?_eq_some_iff.mp here
  cases i with
  | succ i =>
    have further : entryAt? files ⟨i, rule, pattern⟩ = some e :=
      entryAt?_eq_some_iff.mpr ⟨file, text, at_file, at_rule, at_pattern, read⟩
    exact absurd ⟨_, e, further, covers⟩ uncovered
  | zero =>
    obtain rfl := Option.some.inj at_file
    have mem : e.visualizer ∈ [Builtin.sse, Builtin.sse2, Builtin.string] :=
      List.mem_of_getElem? at_rule
    simp only [List.mem_cons, List.not_mem_nil, or_false] at mem
    -- the other two rules are for registers, which have names of their own
    rcases mem with same | same | same
    · have alone : e.visualizer.patterns = ["$SSE"] := congrArg Visualizer.patterns same
      exact absurd covers
        (not_covers_string isString (by decide +kernel) (by decide) alone at_pattern read)
    · have alone : e.visualizer.patterns = ["$SSE2"] := congrArg Visualizer.patterns same
      exact absurd covers
        (not_covers_string isString (by decide +kernel) (by decide) alone at_pattern read)
    · exact same

/-- **The rule for strings is chosen** for the type of a string if no entry of a further
file covers it. -/
theorem choose_string (isString : Builtin.IsStringType type) (uncovered : ¬ Covers files type)
    (ranked : Bool) :
    (append {} (Builtin.file true :: files)).choose ranked type = some ⟨Builtin.string, type⟩ := by
  have covered : Covers (Builtin.file true :: files) type := by
    obtain ⟨pattern, read, covers⟩ := isString
    have here : entryAt? (Builtin.file true :: files) ⟨0, 2, 0⟩ =
        some ⟨pattern, Builtin.string⟩ :=
      entryAt?_eq_some_iff.mpr ⟨Builtin.file true, Builtin.stringType, rfl, rfl, rfl, read⟩
    exact ⟨_, _, here, covers⟩
  obtain ⟨m, chosen⟩ := Option.isSome_iff_exists.mp (isSome_choose_iff.mpr covered)
  obtain ⟨p, e, best, rfl⟩ := chosen_of_choose chosen
  rw [chosen, visualizer_of_covers_string isString uncovered best.here best.covers]

end Catalogue

/-- **A value shown by the built-in rule for strings**: the rule is loaded, the type of the
value is one it is for, and no entry of the other files covers that type. The answers that
are kept are those of the catalogue. -/
structure ShownAsString {σ ν : Type} (engine : Engine σ ν) (files : List RuleFile)
    (v : Variable ν) (s : Session σ ν) (type : TypeTree) : Prop where
  enabled : engine.options.flag .stringRule = true
  loaded : s.book.catalogue =
    Catalogue.append {} (Builtin.file (engine.options.flag .stringRule) :: files)
  faithful : s.book.Faithful engine.options (· = (v.facts engine.inspector s.target).subject)
  ruled : Specifier.isRaw (v.facts engine.inspector s.target).spec = false
  untagged : (v.facts engine.inspector s.target).tag = none
  /-- The type is the one the nearest record names. -/
  named : ∃ record further, (v.facts engine.inspector s.target).hierarchy = record :: further ∧
    TypeTree.parse? record.name = some type
  isString : Builtin.IsStringType type
  uncovered : ¬ Catalogue.Covers files type

section

variable {σ ν : Type} {engine : Engine σ ν} {files : List RuleFile} {v : Variable ν}
  {s : Session σ ν} {type : TypeTree}

theorem ShownAsString.walk_eq (shown : ShownAsString engine files v s type) (ranked : Bool)
    (bound : Nat) :
    s.book.catalogue.walk ranked bound (v.facts engine.inspector s.target).hierarchy =
      some ⟨Builtin.string, type⟩ := by
  obtain ⟨record, further, hierarchy, read⟩ := shown.named
  have chosen : s.book.catalogue.chooseFor ranked record = some ⟨Builtin.string, type⟩ := by
    have best := Catalogue.choose_string shown.isString shown.uncovered ranked
    rw [shown.loaded, shown.enabled, Catalogue.chooseFor, read, Option.bind_eq_bind,
      Option.bind_some, best]
  rw [hierarchy, ← List.nil_append (record :: further),
    Catalogue.walk_append_cons (Nat.zero_le bound) (List.forall_mem_nil _), chosen, Option.some_or]

/-- **The rule that is found** is the one for strings. -/
theorem ShownAsString.findRule_eq (shown : ShownAsString engine files v s type) :
    (engine.findRule v s).1 = some ⟨Builtin.string, type⟩ := by
  have found : (engine.findRule v s).1 =
      (s.book.find engine.options (v.facts engine.inspector s.target).subject).1 := rfl
  have untagged : (v.facts engine.inspector s.target).subject.tag = none := shown.untagged
  rw [found, RuleBook.find, untagged]
  dsimp only
  rw [RuleBook.findUntagged,
    RuleBook.answerFor_eq fun a kept => shown.faithful.untagged _ a rfl kept]
  exact shown.walk_eq _ _

end

/-! ## Texts of a rule without guards -/

namespace Engine

open Bounded

variable {σ ν : Type} (engine : Engine σ ν) (kind : TextKind) {v : Variable ν} {s : Session σ ν}

/-- The first template is the one that counts, if it has no guard and can be filled. -/
theorem firstText_unguarded {hole : Answer ν → Run σ ν String} {scope : Scope (Variable ν)}
    {template text : String} {t : Session σ ν}
    (filled : Template.fill (engine.holeText hole v scope) template s = (.ok text, t))
    (rest : List GuardedText) :
    engine.firstText hole v scope ({ value := template } :: rest) s = (.ok (some text), t) := by
  have guard : (liftM (engine.evaluator.applies {} v scope) : Run σ ν (Except EvalError Bool)) s =
      (.ok true, s) := rfl
  rw [firstText, bind_apply, guard]
  change (Template.fill (engine.holeText hole v scope) template >>= _) s = _
  rw [bind_apply, filled]
  rfl

/-- What fills the template of its rule is the text of a value that is not nested too
deep. -/
theorem display_unguarded {m : RuleMatch} {template text : String} {rest : List GuardedText}
    {levels : Nat} {t : Session σ ν}
    (ruled : Specifier.isRaw (v.facts engine.inspector s.target).spec = false)
    (found : (engine.findRule v s).1 = some m)
    (front : templates m.visualizer kind = { value := template } :: rest)
    (left : engine.options.get .maxFormatDepth - s.depth = levels + 1)
    (filled : Template.fill (engine.holeText (engine.valueText kind levels) v (scopeOf m)) template
      { (engine.findRule v s).2 with depth := s.depth + 1 } = (.ok text, t))
    (bound : Nat) :
    engine.display bound kind v s = .ok (text, { t with depth := s.depth }) := by
  have looked := engine.templatesFor_apply kind ruled
  rw [found] at looked
  dsimp only at looked
  rw [front] at looked
  refine bind_eq_ok_iff.mpr ⟨_, congrArg Except.ok looked, ?_⟩
  refine bind_eq_ok_iff.mpr ⟨(.ok text, { t with depth := s.depth }), ?_, rfl⟩
  exact engine.format_of_firstText kind _ v (scopeOf m) (s := (engine.findRule v s).2) left ""
    (engine.firstText_unguarded filled rest)
    fun unmade => (Option.some_ne_none text (Except.ok.inj unmade)).elim

/-- A value of which too many are being shown is shown as three dots. -/
theorem display_tooDeep
    (ruled : Specifier.isRaw (v.facts engine.inspector s.target).spec = false)
    (beyond : engine.options.get .maxFormatDepth ≤ s.depth) (bound : Nat) :
    engine.display bound kind v s = .ok (tooDeep, (engine.findRule v s).2) := by
  have none_left : engine.options.get .maxFormatDepth - (engine.findRule v s).2.depth = 0 :=
    Nat.sub_eq_zero_of_le beyond
  refine bind_eq_ok_iff.mpr ⟨_, congrArg Except.ok (engine.templatesFor_apply kind ruled), ?_⟩
  exact bind_eq_ok_iff.mpr ⟨_, engine.format_beyond kind _ _ _ none_left, rfl⟩

/-- Whether a value has no rule of its own that it could be shown by. -/
def IsUnruled (v : Variable ν) (s : Session σ ν) : Prop :=
  Specifier.isRaw (v.facts engine.inspector s.target).spec = true ∨ (engine.findRule v s).1 = none

/-- A value without a rule has the debugger's text in a template. -/
theorem valueText_of_unruled {c : Answer ν} (unruled : engine.IsUnruled c.toVariable s)
    (levels : Nat) :
    ∃ s', engine.valueText kind (levels + 1) c s = (c.text engine.inspector s.target kind, s') ∧
      s'.target = s.target := by
  obtain ⟨s', found, same⟩ := engine.templatesFor_of_no_rule kind unruled
  have made : engine.firstText (engine.valueText kind levels) c.toVariable default [] s' =
      (.ok none, s') := rfl
  have shown := engine.valueText_succ kind c found made
  refine ⟨s', shown.trans ?_, same⟩
  rw [← same]
  rfl

/-- An expression that evaluates shows the text of its value. -/
theorem holeText_of_evaluate {hole : Answer ν → Run σ ν String} {scope : Scope (Variable ν)}
    {expression text : String} {c : Answer ν} {t : σ} {s' : Session σ ν}
    (evaluated : engine.evaluator.evaluate expression v scope none s.target = (.ok c, t))
    (made : hole c { s with target := t } = (text, s')) :
    engine.holeText hole v scope expression s = (.ok text, s') := by
  have lifted : (liftM (engine.evaluator.evaluate expression v scope none) :
      Run σ ν (Except EvalError (Answer ν))) s =
        ((engine.evaluator.evaluate expression v scope none s.target).1,
          { s with target := (engine.evaluator.evaluate expression v scope none s.target).2 }) := rfl
  rw [evaluated] at lifted
  rw [holeText, bind_apply, lifted]
  dsimp only
  rw [bind_apply, made]
  rfl

end Engine

/-! ## What is shown of a string -/

namespace ShownAsString

open Engine

variable {σ ν : Type} {engine : Engine σ ν} {files : List RuleFile} {v : Variable ν}
  {s : Session σ ν} {type : TypeTree}

/-- **The string view of a string** is the text of the call, or three dots if it is nested
too deep. Nothing is evaluated. -/
theorem display_stringView (shown : ShownAsString engine files v s type) (bound : Nat) :
    ∃ t, engine.display bound .stringView v s =
        .ok (if s.depth < engine.options.get .maxFormatDepth then "this->c_str()" else tooDeep,
          t) ∧
      t.target = s.target := by
  by_cases within : s.depth < engine.options.get .maxFormatDepth
  · obtain ⟨levels, left⟩ : ∃ n, engine.options.get .maxFormatDepth - s.depth = n + 1 :=
      ⟨engine.options.get .maxFormatDepth - s.depth - 1, by omega⟩
    have filled := congrFun (Template.fill_of_no_brace
      (engine.holeText (engine.valueText .stringView levels) v (scopeOf ⟨Builtin.string, type⟩))
      "this->c_str()" (by decide) (by decide) (by decide))
      { (engine.findRule v s).2 with depth := s.depth + 1 }
    rw [if_pos within]
    exact ⟨_, engine.display_unguarded .stringView shown.ruled shown.findRule_eq rfl left filled
      bound, rfl⟩
  · rw [if_neg within]
    exact ⟨_, engine.display_tooDeep .stringView shown.ruled (Nat.le_of_not_lt within) bound, rfl⟩

/-- **The line of text of a string** is the debugger's text for its characters, if they
have no rule of their own. -/
theorem display_value (shown : ShownAsString engine files v s type)
    (within : s.depth + 1 < engine.options.get .maxFormatDepth) {c : Answer ν} {t : σ}
    (evaluated : engine.evaluator.evaluate "this->c_str(),s" v (scopeOf ⟨Builtin.string, type⟩)
      none s.target = (.ok c, t))
    (unruled : engine.IsUnruled c.toVariable { (engine.findRule v s).2 with target := t })
    (bound : Nat) :
    ∃ t', engine.display bound .value v s = .ok (c.text engine.inspector t .value, t') ∧
      t'.target = t := by
  obtain ⟨levels, left⟩ : ∃ n, engine.options.get .maxFormatDepth - s.depth = n + 1 + 1 :=
    ⟨engine.options.get .maxFormatDepth - s.depth - 2, by omega⟩
  -- the counter makes no difference to whether the characters have a rule
  have unruled : engine.IsUnruled c.toVariable
      { (engine.findRule v s).2 with depth := s.depth + 1, target := t } := unruled
  obtain ⟨s', made, same⟩ := engine.valueText_of_unruled .value unruled levels
  have hole := engine.holeText_of_evaluate
    (s := { (engine.findRule v s).2 with depth := s.depth + 1 }) evaluated made
  have filled := (congrFun (Template.fill_braced
    (engine.holeText (engine.valueText .value (levels + 1)) v (scopeOf ⟨Builtin.string, type⟩))
    "this->c_str(),s" ⟨by decide, by decide⟩) _).trans hole
  exact ⟨_, engine.display_unguarded .value shown.ruled shown.findRule_eq rfl left filled bound,
    same⟩

/-- **What is shown of a string.** If the call for its characters evaluates, the line of
text is the debugger's text for them. The string view is not: it is the text of the call,
whatever the debugger has, and nothing is evaluated for it. So it is that of the characters
only if these look like the call. -/
theorem texts (shown : ShownAsString engine files v s type) (bound : Nat) :
    let text := if s.depth < engine.options.get .maxFormatDepth then "this->c_str()" else tooDeep
    let scope := scopeOf ⟨Builtin.string, type⟩
    (∃ t', engine.display bound .stringView v s = .ok (text, t') ∧ t'.target = s.target) ∧
    (∀ c t, s.depth + 1 < engine.options.get .maxFormatDepth →
      engine.evaluator.evaluate "this->c_str(),s" v scope none s.target = (.ok c, t) →
      engine.IsUnruled c.toVariable { (engine.findRule v s).2 with target := t } →
      ∃ t', engine.display bound .value v s = .ok (c.text engine.inspector t .value, t') ∧
        t'.target = t) ∧
    ∀ c t, engine.evaluator.evaluate "this->c_str()" v scope none s.target = (.ok c, t) →
      ((∃ t', engine.display bound .stringView v s =
          .ok (c.text engine.inspector t .stringView, t')) ↔
        c.text engine.inspector t .stringView = text) := by
  intro text scope
  obtain ⟨t', viewed, same⟩ := shown.display_stringView bound
  refine ⟨⟨t', viewed, same⟩, ?_, fun c t _ => ?_⟩
  · intro c t within evaluated unruled
    exact shown.display_value within evaluated unruled bound
  · rw [viewed]
    constructor
    · rintro ⟨t', same⟩
      exact (congrArg Prod.fst (Except.ok.inj same)).symm
    · intro same
      exact ⟨t', congrArg (fun view => Except.ok (view, _)) same.symm⟩

end ShownAsString

/-! ## A string and its characters -/

namespace Letters

/-- A debugger with a string and its characters. All expressions evaluate to the
characters, and the state counts them. -/
def debugger : Debugger Nat Bool where
  facts _ isString :=
    if isString then
      { name := "s", typeName := Builtin.stringType, isTruthy := true,
        hierarchy := [⟨Builtin.stringType, Builtin.stringType⟩] }
    else
      { name := "c", typeName := "char *", isPointer := true, isTruthy := true,
        hierarchy := [⟨"char", "char"⟩] }
  pointee? _ _ := none
  snapshot? _ _ _ := none
  text _ kind isString :=
    if isString then "plain"
    else match kind with
      | .value => "\"hi\""
      | .stringView => "hi"
  mightHaveChildren _ _ := false
  children _ _ := []
  fast _ _ _ _ := modifyGet fun asked => (.ok false, asked + 1)
  full _ _ _ := modifyGet fun asked => (.ok false, asked + 1)
  path _ _ := modifyGet fun asked => (some false, asked + 1)

/-- The engine with the rule for strings. -/
def engine : Engine Nat Bool := ⟨debugger, Options.set {} .stringRule 1⟩

/-- A session with the built-in rules. -/
def session : Session Nat Bool where
  target := 0
  book := .builtin engine.options

/-- The type of the string. -/
def type : TypeTree := (TypeTree.parse? Builtin.stringType).getD .wildcard

theorem parse?_stringType : TypeTree.parse? Builtin.stringType = some type := by
  have read : (TypeTree.parse? Builtin.stringType).isSome = true := by decide +kernel
  obtain ⟨tree, same⟩ := Option.isSome_iff_exists.mp read
  rw [type, same]
  rfl

theorem shownAsString : ShownAsString engine [] (.debugger true) session type where
  enabled := rfl
  loaded := rfl
  faithful := RuleBook.faithful_of_forgotten _
  ruled := by decide +kernel
  untagged := rfl
  named := ⟨_, _, rfl, parse?_stringType⟩
  isString := ⟨type, parse?_stringType, by decide +kernel⟩
  uncovered := by
    rintro ⟨p, e, here, -⟩
    cases here

/-- The scope of the rule. -/
def scope : Scope (Variable Bool) := Engine.scopeOf ⟨Builtin.string, type⟩

/-- Both calls evaluate to the characters. -/
theorem evaluate_call :
    ∀ expression ∈ ["this->c_str(),s", "this->c_str()"],
      engine.evaluator.evaluate expression (.debugger true) scope none session.target =
        (.ok ⟨false, none⟩, 1) := by
  intro expression mem
  have parts : ∀ expression ∈ ["this->c_str(),s", "this->c_str()"],
      let r := engine.evaluator.evaluate expression (.debugger true) scope none session.target
      r.1.toOption.map (fun c => (c.handle, c.shownAs)) = some (false, none) ∧ r.2 = 1 := by
    decide +kernel
  specialize parts expression mem
  revert parts
  rcases engine.evaluator.evaluate expression (.debugger true) scope none session.target with
    ⟨e | ⟨handle, shownAs⟩, asked⟩
  · rintro ⟨⟨⟩, -⟩
  · rintro ⟨⟨⟩, rfl⟩
    rfl

theorem characters_unruled : engine.IsUnruled (.debugger false)
    { (engine.findRule (.debugger true) session).2 with target := 1 } :=
  .inr (by decide +kernel)

/-- The line of text is that of the characters. -/
theorem display_of_characters :
    ShownAsString engine [] (.debugger true) session type ∧
      engine.evaluator.evaluate "this->c_str(),s" (.debugger true) scope none session.target =
        (.ok ⟨false, none⟩, 1) ∧
      ∃ t, engine.display 1 .value (.debugger true) session = .ok ("\"hi\"", t) ∧ t.target = 1 := by
  have evaluated := evaluate_call "this->c_str(),s" (by decide)
  exact ⟨shownAsString, evaluated,
    (shownAsString.texts 1).2.1 _ _ (by decide) evaluated characters_unruled⟩

/-- **The string view is not that of the characters**, although the call evaluates to them
and they have no rule. Nothing was evaluated for it. -/
theorem stringView_of_call :
    ShownAsString engine [] (.debugger true) session type ∧
      engine.evaluator.evaluate "this->c_str()" (.debugger true) scope none session.target =
        (.ok ⟨false, none⟩, 1) ∧
      engine.IsUnruled (.debugger false)
        { (engine.findRule (.debugger true) session).2 with target := 1 } ∧
      (⟨false, none⟩ : Answer Bool).text engine.inspector 1 .stringView = "hi" ∧
      (engine.display 1 .stringView (.debugger true) session).map (fun r => (r.1, r.2.target)) =
        .ok ("this->c_str()", 0) := by
  refine ⟨shownAsString, evaluate_call _ (by decide), characters_unruled, rfl, ?_⟩
  decide +kernel

end Letters

end WatchView
