import WatchView.Proofs.Catalogue.KeptAnswers
import WatchView.Proofs.Display.Levels
/-!
# A value in a template and in its own row

The text of a value is made in two places. A placeholder of a template shows the value by
its rule, and so does the row of the value once it is decorated. Both look the rule up, and
each decides on its own whether it applies. The row asks more: the views of the rule have to
admit the specifier of the value, and the value must not be a failure. `showsAlike` tells
when that makes no difference, and `text_decorated` what the row shows in any case.

The row looks its rule up twice. The rule book keeps the first answer, and the second is the
same (`RuleBook.find_find`).
-/

namespace WatchView

namespace RuleBook

/-! ## Asking twice -/

variable {options : Options} {b : RuleBook}

theorem answerFor_of_get? {name : String} {kept : Option RuleMatch}
    (h : b.answers.get? name = some kept) (answer : Option RuleMatch) :
    b.answerFor name answer = (kept, b) := by
  unfold answerFor
  rw [h]

/-- An answer is kept. -/
theorem get?_answerFor_self (name : String) (answer : Option RuleMatch) :
    (b.answerFor name answer).2.answers.get? name = some (b.answerFor name answer).1 := by
  cases kept : b.answers.get? name with
  | some a =>
    rw [answerFor_of_get? kept]
    exact kept
  | none =>
    unfold answerFor
    rw [kept]
    exact Bindings.get?_bind_self ..

/-- The answers kept before stay. -/
theorem get?_answerFor_of_get? {name other : String} {answer a : Option RuleMatch}
    (h : b.answers.get? other = some a) :
    (b.answerFor name answer).2.answers.get? other = some a := by
  cases kept : b.answers.get? name with
  | some a =>
    rw [answerFor_of_get? kept]
    exact h
  | none =>
    have apart : other ≠ name := by
      rintro rfl
      rw [h] at kept
      cases kept
    unfold answerFor
    rw [kept]
    exact (Bindings.get?_bind_of_ne _ _ apart).trans h

/-- An answer is given again, and nothing more is kept. -/
theorem answerFor_answerFor (name : String) (answer again : Option RuleMatch) :
    (b.answerFor name answer).2.answerFor name again = b.answerFor name answer :=
  answerFor_of_get? (get?_answerFor_self name answer) again

/-- **A rule that was looked up is found again**, and nothing more is kept. -/
theorem find_find (s : Subject) : (b.find options s).2.find options s = b.find options s := by
  unfold find
  cases s.tag with
  | none => exact answerFor_answerFor ..
  | some tag =>
    have again : (b.findTagged options tag).2.findTagged options tag = b.findTagged options tag :=
      answerFor_answerFor ..
    have kept : (b.findTagged options tag).2.answers.get? tag.typeName =
        some (b.findTagged options tag).1 := get?_answerFor_self ..
    dsimp only
    rcases first : b.findTagged options tag with ⟨_ | m, tagged⟩
    · -- the answer for the tag stays while the one for the type is kept
      rw [first] at kept
      have found : (tagged.findUntagged options s).2.findTagged options tag =
          (none, (tagged.findUntagged options s).2) :=
        answerFor_of_get? (get?_answerFor_of_get? kept) _
      dsimp only
      rw [found]
      exact answerFor_answerFor ..
    · rw [first] at again
      dsimp only at again ⊢
      rw [again]

end RuleBook

namespace Engine

open Bounded

variable {σ ν α β : Type} (engine : Engine σ ν) (kind : TextKind)

theorem findRule_findRule (v : Variable ν) (s : Session σ ν) :
    engine.findRule v (engine.findRule v s).2 = engine.findRule v s := by
  have found (s : Session σ ν) : engine.findRule v s =
      ((s.book.find engine.options (v.facts engine.inspector s.target).subject).1,
        { s with book :=
          (s.book.find engine.options (v.facts engine.inspector s.target).subject).2 }) := rfl
  rw [found s, found]
  dsimp only
  rw [RuleBook.find_find]

theorem target_findRule (v : Variable ν) (s : Session σ ν) :
    (engine.findRule v s).2.target = s.target := rfl

/-- Whether a rule applies to a row is read off the rule that is found. -/
theorem isRuled_apply (v : Variable ν) (s : Session σ ν) :
    engine.isRuled v s =
      ((engine.findRule v s).1.any fun m =>
          Specifier.admitsView (v.facts engine.inspector s.target).spec m.visualizer.includeView
            m.visualizer.excludeView,
        (engine.findRule v s).2) := by
  rw [isRuled, bind_apply]
  cases (engine.findRule v s).1 with
  | none => rfl
  | some m => rfl

/-- The templates of a value that is not raw are those of the rule that is found. -/
theorem templatesFor_apply {v : Variable ν} {s : Session σ ν}
    (ruled : Specifier.isRaw (v.facts engine.inspector s.target).spec = false) :
    engine.templatesFor kind v s =
      (match (engine.findRule v s).1 with
        | none => ([], default)
        | some m => (templates m.visualizer kind, scopeOf m),
        (engine.findRule v s).2) := by
  have raw : Specifier.isRaw (engine.facts v s).1.spec = false := ruled
  rw [templatesFor, bind_apply, raw, if_neg Bool.false_ne_true, bind_apply]
  -- looking at the facts leaves the session as it is
  have same : (engine.facts v s).2 = s := rfl
  rw [same]
  cases (engine.findRule v s).1 with
  | none => rfl
  | some m => rfl

/-- A text by the rule is the same after the rule was looked up. -/
theorem ruleText_findRule (plain : Search σ ν String) {v : Variable ν} {s : Session σ ν}
    (ruled : Specifier.isRaw (v.facts engine.inspector s.target).spec = false) :
    engine.ruleText kind plain v (engine.findRule v s).2 = engine.ruleText kind plain v s := by
  have templates : engine.templatesFor kind v (engine.findRule v s).2 =
      engine.templatesFor kind v s := by
    rw [engine.templatesFor_apply kind ruled,
      engine.templatesFor_apply kind (s := (engine.findRule v s).2) ruled, engine.findRule_findRule]
  unfold ruleText
  rw [lift_bind_apply, lift_bind_apply, templates]

/-! ## Without templates -/

/-- Without templates a value has the debugger's text. -/
theorem valueText_of_no_templates (levels : Nat) (answer : Answer ν) {scope : Scope (Variable ν)}
    {s s' : Session σ ν}
    (found : engine.templatesFor kind answer.toVariable s = (([], scope), s'))
    (same : s'.target = s.target) :
    (engine.valueText kind (levels + 1) answer s).1 = (engine.plainText kind answer s).1 := by
  rw [engine.valueText_succ kind answer found rfl]
  exact congrArg (answer.text engine.inspector · kind) same

/-! ## Both texts -/

/-- Whether a value of the debugger looks the same in a template as in its own row: it is raw,
or has no rule, or it is no failure and the views of its rule admit its specifier. -/
def showsAlike (v : Variable ν) (s : Session σ ν) : Bool :=
  let f := v.facts engine.inspector s.target
  Specifier.isRaw f.spec || (engine.findRule v s).1.all fun m =>
    f.error.isNone &&
      Specifier.admitsView f.spec m.visualizer.includeView m.visualizer.excludeView

/-- A raw variable has no templates, and no rule is looked up for it. -/
theorem templatesFor_raw {v : Variable ν} {s : Session σ ν}
    (raw : Specifier.isRaw (v.facts engine.inspector s.target).spec = true) :
    engine.templatesFor kind v s = (([], default), s) := by
  have raw : Specifier.isRaw (engine.facts v s).1.spec = true := raw
  rw [templatesFor, bind_apply, raw]
  rfl

/-- What is raw, or has no rule, has no templates. -/
theorem templatesFor_of_no_rule {v : Variable ν} {s : Session σ ν}
    (plain : Specifier.isRaw (v.facts engine.inspector s.target).spec = true ∨
      (engine.findRule v s).1 = none) :
    ∃ s', engine.templatesFor kind v s = (([], default), s') ∧ s'.target = s.target := by
  cases raw : Specifier.isRaw (v.facts engine.inspector s.target).spec with
  | true => exact ⟨s, engine.templatesFor_raw kind raw, rfl⟩
  | false =>
    rw [raw] at plain
    refine ⟨(engine.findRule v s).2, ?_, engine.target_findRule v s⟩
    rw [engine.templatesFor_apply kind raw, plain.resolve_left Bool.false_ne_true]

variable (handle : ν) {s : Session σ ν}

/-- What is not shown by a rule has the debugger's text. -/
theorem display_of_no_rule (bound : Nat)
    (within : s.depth < engine.options.get .maxFormatDepth)
    (plain : Specifier.isRaw ((Variable.debugger handle).facts engine.inspector s.target).spec =
      true ∨ (engine.findRule (.debugger handle) s).1 = none) :
    ∃ t, engine.display (bound + 1) kind (.debugger handle) s =
      .ok (engine.debugger.text s.target kind handle, t) := by
  obtain ⟨levels, left⟩ : ∃ n, engine.options.get .maxFormatDepth - s.depth = n + 1 :=
    ⟨engine.options.get .maxFormatDepth - s.depth - 1, by omega⟩
  obtain ⟨s', found, same⟩ := engine.templatesFor_of_no_rule kind plain
  have shown := engine.display_debugger kind bound handle s
  have text := engine.valueText_of_no_templates kind levels ⟨handle, none⟩ found same
  rw [left] at shown
  dsimp only at shown
  rw [text] at shown
  exact ⟨_, shown⟩

theorem text_debugger (bound : Nat) (s : Session σ ν) :
    engine.text (bound + 1) kind (.debugger handle) s =
      .ok (engine.debugger.text s.target kind handle, s) := rfl

/-- A row shown by a rule has the text of the rule if the rule applies, and else the
debugger's. -/
theorem text_ruled (bound : Nat)
    (ruled : Specifier.isRaw ((Variable.debugger handle).facts engine.inspector s.target).spec =
      false) :
    engine.text (bound + 1) kind (.ruled (.debugger handle)) s =
      if (engine.isRuled (.debugger handle) s).1 then
        engine.display (bound + 1) kind (.debugger handle) s
      else .ok (engine.debugger.text s.target kind handle, (engine.isRuled (.debugger handle) s).2) := by
  have begun : engine.text (bound + 1) kind (.ruled (.debugger handle)) s =
      (if (engine.isRuled (.debugger handle) s).1 then
        engine.display (bound + 1) kind (.debugger handle)
      else engine.text (bound + 1) kind (.debugger handle)) (engine.isRuled (.debugger handle) s).2 :=
    rfl
  have after : (engine.isRuled (.debugger handle) s).2 =
      (engine.findRule (.debugger handle) s).2 := congrArg Prod.snd (engine.isRuled_apply _ s)
  rw [begun]
  split
  · rw [after]
    exact engine.ruleText_findRule kind _ ruled
  · rw [after]
    rfl

/-- A raw value and a failed one are shown as they are in their own row, and any other by
its rule. -/
theorem decorated_debugger
    (own : Specifier.expandIndex? ((Variable.debugger handle).facts engine.inspector s.target).spec =
      none) :
    let f := (Variable.debugger handle).facts engine.inspector s.target
    (Variable.debugger handle).decorated engine.inspector s.target =
      if Specifier.isRaw f.spec || f.error.isSome then .debugger handle
      else .ruled (.debugger handle) := by
  intro f
  unfold Variable.decorated
  dsimp only
  rw [own]

/-- **What a value looks like inside a template and in its own row.** Any value of the
debugger has a text inside a template, which is the one a placeholder contributes on this
level; and its row, which shows it decorated, has a text. If both places agree that a rule
applies, or that none does, the texts are the same. Otherwise the rule is used inside the
template only: the row has the debugger's text. -/
theorem text_decorated (bound : Nat)
    (own : Specifier.expandIndex? ((Variable.debugger handle).facts engine.inspector s.target).spec =
      none)
    (within : s.depth < engine.options.get .maxFormatDepth) :
    ∃ inside row t t',
      engine.display (bound + 1) kind (.debugger handle) s = .ok (inside, t) ∧
      (engine.valueText kind (engine.options.get .maxFormatDepth - s.depth) ⟨handle, none⟩ s).1 =
        inside ∧
      engine.text (bound + 1) kind
        ((Variable.debugger handle).decorated engine.inspector s.target) s = .ok (row, t') ∧
      row = if engine.showsAlike (.debugger handle) s then inside
        else engine.debugger.text s.target kind handle := by
  have shown := engine.display_debugger kind bound handle s
  have plainly := engine.text_debugger kind handle bound s
  have byRule (raw) := engine.text_ruled kind handle (s := s) bound raw
  have decorated := engine.decorated_debugger handle own
  have noRule (h) := engine.display_of_no_rule kind handle (s := s) bound within h
  rw [engine.isRuled_apply] at byRule
  rw [decorated, showsAlike]
  dsimp only at shown byRule ⊢
  generalize engine.valueText kind _ ⟨handle, none⟩ s = r at shown ⊢
  generalize (Variable.debugger handle).facts engine.inspector s.target = f at *
  -- without a rule the text inside a template is that of the debugger
  have inside_of_no_rule (h : Specifier.isRaw f.spec = true ∨
      (engine.findRule (.debugger handle) s).1 = none) :
      r.1 = engine.debugger.text s.target kind handle := by
    obtain ⟨t, same⟩ := noRule h
    rw [shown] at same
    exact congrArg Prod.fst (Except.ok.inj same)
  refine ⟨r.1, ?_⟩
  cases raw : Specifier.isRaw f.spec with
  | true => exact ⟨_, _, _, shown, rfl, plainly, (inside_of_no_rule (.inl raw)).symm⟩
  | false =>
    specialize byRule raw
    cases f.error with
    | some message =>
      refine ⟨_, _, _, shown, rfl, plainly, ?_⟩
      cases found : (engine.findRule (.debugger handle) s).1 with
      | none => exact (inside_of_no_rule (.inr found)).symm
      | some m => rfl
    | none =>
      cases found : (engine.findRule (.debugger handle) s).1 with
      | none =>
        rw [found] at byRule
        exact ⟨_, _, _, shown, rfl, byRule, (inside_of_no_rule (.inr found)).symm⟩
      | some m =>
        rw [found] at byRule
        dsimp only [Option.any, Option.all] at byRule ⊢
        -- the rule may be for other views; a row minds that, and a template does not
        by_cases admits : Specifier.admitsView f.spec m.visualizer.includeView
            m.visualizer.excludeView = true
        · rw [if_pos admits] at byRule
          exact ⟨_, _, _, shown, rfl, byRule.trans shown, (if_pos admits).symm⟩
        · rw [if_neg admits] at byRule
          exact ⟨_, _, _, shown, rfl, byRule, (if_neg admits).symm⟩

end Engine

/-! ## A view the rule is not for -/

namespace Wide

/-- A debugger with two rows. The one is looked at in the view of their rule, the other is
not. -/
def debugger : Debugger Unit Bool where
  facts _ wide :=
    { name := "row", typeName := "Row", spec := if wide then "view(wide)" else "",
      isTruthy := true, hierarchy := [⟨"Row", "Row"⟩] }
  pointee? _ _ := none
  snapshot? _ _ _ := none
  text _ _ _ := "plain"
  mightHaveChildren _ _ := false
  children _ _ := []
  fast _ _ _ _ := pure (.error ⟨.other, ""⟩)
  full _ _ _ := pure (.error "")
  path _ _ := pure none

/-- The engine. -/
def engine : Engine Unit Bool := ⟨debugger, {}⟩

/-- The rule of the rows, for one view only. -/
def rule : Visualizer where
  name := "Row"
  includeView := some "wide"
  display := [{ value := "templated" }]

/-- A session with the rule. -/
def session : Session Unit Bool where
  target := ()
  book := { catalogue := Catalogue.append {} [{ origin := "rows", visualizers := [rule] }] }

/-- In the view of the rule both texts are made by the rule. -/
theorem text_of_admitted :
    engine.showsAlike (.debugger true) session = true ∧ ∃ inside row t t',
      engine.display 1 .value (.debugger true) session = .ok (inside, t) ∧
      (engine.valueText .value (engine.options.get .maxFormatDepth - session.depth) ⟨true, none⟩
        session).1 = inside ∧
      engine.text 1 .value ((Variable.debugger true).decorated engine.inspector session.target)
        session = .ok (row, t') ∧
      row = if engine.showsAlike (.debugger true) session then inside else "plain" :=
  ⟨by decide +kernel, engine.text_decorated .value true 0 (by decide +kernel) (by decide +kernel)⟩

/-- **In another view the texts differ.** -/
theorem text_of_not_admitted :
    Specifier.expandIndex? (engine.debugger.facts session.target false).spec = none ∧
      1 ≤ engine.options.get .maxFormatDepth ∧
      (engine.display 1 .value (.debugger false) session).map Prod.fst = .ok "templated" ∧
      (engine.text 1 .value ((Variable.debugger false).decorated engine.inspector session.target)
        session).map Prod.fst = .ok "plain" := by
  refine ⟨?_, ?_, ?_, ?_⟩ <;> decide +kernel

end Wide

end WatchView
