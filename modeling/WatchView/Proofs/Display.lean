import WatchView.Display
import WatchView.Proofs.Ensures
/-!
# Texts are light work

Finding a rule and filling its templates evaluates expressions and keeps
answers of the rule book. Nothing else of the session is touched (`Run.Light`),
and so neither are the listings that pages share.
-/

namespace WatchView

open Run

variable {σ ν : Type}

namespace Engine

variable (engine : Engine σ ν)

theorem light_facts (v : Variable ν) : Light (engine.facts v) := fun _ => ⟨_, _, rfl⟩

theorem light_decorate (v : Variable ν) : Light (engine.decorate v) := fun _ => ⟨_, _, rfl⟩

theorem light_rawView (v : Variable ν) : Light (engine.rawView v) := fun _ => ⟨_, _, rfl⟩

theorem light_findRule (v : Variable ν) : Light (engine.findRule v) := fun _ => ⟨_, _, rfl⟩

theorem light_isRuled (v : Variable ν) : Light (engine.isRuled v) := by
  refine (engine.light_findRule v).bind fun found => ?_
  cases found with
  | none => exact light_pure _
  | some m => exact (engine.light_facts v).bind fun f => light_pure _

theorem light_templatesFor (kind : TextKind) (v : Variable ν) :
    Light (engine.templatesFor kind v) := by
  refine (engine.light_facts v).bind fun f => ?_
  split
  · exact light_pure _
  · refine (engine.light_findRule v).bind fun found => ?_
    cases found with
    | none => exact light_pure _
    | some m => exact light_pure _

end Engine

theorem Template.light_joined {ε : Type} {act : Run σ ν (Except ε String)} (h : Light act)
    (text : String) :
    Light (do
      match ← act with
      | .error e => pure (.error e)
      | .ok rest => pure (.ok (text ++ rest)) : Run σ ν (Except ε String)) := by
  refine h.bind fun rest => ?_
  cases rest with
  | error e => exact light_pure _
  | ok rest => exact light_pure _

theorem Template.light_fill {ε : Type} {hole : String → Run σ ν (Except ε String)}
    (h : ∀ expression, Light (hole expression)) (template : String) :
    Light (fill hole template) := by
  have filled (pieces : List Part) : Light (fillParts hole pieces) := by
    induction pieces with
    | nil => exact light_pure _
    | cons piece pieces ih =>
      cases piece with
      | literal text => exact light_joined ih _
      | placeholder expression =>
        refine (h _).bind fun text => ?_
        cases text with
        | error e => exact light_pure _
        | ok text => exact light_joined ih text
  unfold fill
  split
  · exact light_pure _
  · exact filled _

namespace Engine

variable (engine : Engine σ ν)

omit engine in
theorem light_decided {rest : Run σ ν (Except EvalError (Option String))} (h : Light rest)
    (optional : Bool) (text : Except EvalError (Option String)) :
    Light (do
      match text with
      | .ok none => rest
      | .ok (some text) => return .ok (some text)
      | .error e =>
        if optional then rest else return .error e :
          Run σ ν (Except EvalError (Option String))) := by
  rcases text with e | _ | text
  · dsimp only
    split
    · exact h
    · exact light_pure _
  · exact h
  · exact light_pure _

theorem light_firstText {hole : Answer ν → Run σ ν String} (h : ∀ answer, Light (hole answer))
    (v : Variable ν) (scope : Scope (Variable ν)) (templates : List GuardedText) :
    Light (engine.firstText hole v scope templates) := by
  induction templates with
  | nil => exact light_pure _
  | cons template rest ih =>
    have go := light_decided ih template.guard.optional
    unfold firstText
    refine (light_target _).bind fun applies => ?_
    rcases applies with e | _ | _
    · exact (light_pure _).bind go
    · exact (light_pure _).bind go
    · refine (Template.light_fill (fun expression => ?_) template.value).bind fun filled =>
        (light_pure _).bind go
      refine (light_target _).bind fun result => ?_
      cases result with
      | error e => exact light_pure _
      | ok answer => exact (h answer).bind fun text => light_pure _

theorem light_plainText (kind : TextKind) (answer : Answer ν) :
    Light (engine.plainText kind answer) := fun _ => ⟨_, _, rfl⟩

theorem light_valueText (kind : TextKind) (levels : Nat) (answer : Answer ν) :
    Light (engine.valueText kind levels answer) := by
  induction levels generalizing answer with
  | zero => exact (engine.light_templatesFor kind _).bind fun _ => light_pure _
  | succ levels ih =>
    refine (engine.light_templatesFor kind _).bind fun found => ?_
    refine (engine.light_firstText ih _ _ _).bind fun text => ?_
    rcases text with e | _ | text
    · exact engine.light_plainText kind answer
    · exact engine.light_plainText kind answer
    · exact light_pure _

end Engine

end WatchView
