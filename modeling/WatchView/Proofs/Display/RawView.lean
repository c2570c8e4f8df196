import WatchView.Proofs.Display.OwnRow
import WatchView.Proofs.Text
/-!
# The row of the raw value

The row of the raw value has the mark `!` put in front of the specifier of the variable,
whatever that is: a size, a view, a mark that was there before, or no specifier at all. The
specifier of the row is read anew, and what is read starts with the mark, so it is raw
(`Variable.isRaw_rawView`). No rule shows such a row in another way than the debugger does,
and nothing is evaluated for it (`Engine.rawView_plain`).
-/

namespace WatchView

variable {σ ν : Type}

namespace Specifier

open Text

/-- **What starts with the mark is raw**, with parts of a specifier behind the mark or not. -/
theorem isRaw_of_head? {s : String} (h : (trim s.toList).head? = some '!') : isRaw s = true := by
  obtain ⟨cs, marked⟩ := List.head?_eq_some_iff.mp h
  have size : cutSize ('!' :: cs) = ([], '!' :: cs) := rfl
  have raw : (cutRaw ('!' :: cs)).1.isEmpty = false := by
    unfold cutRaw
    split
    · rfl
    · rfl
    · rename_i single
      exact absurd rfl (single cs)
  unfold isRaw
  rw [h, parts?, marked, size]
  dsimp only
  split
  · rename_i parts found
    split at found
    · rw [← Option.some.inj found, raw]
      rfl
    · cases found
  · rfl

/-- Trimming leaves the mark in front. -/
theorem isRaw_rawMark_append (cs : List Char) : isRaw (rawMark ++ String.ofList cs) = true := by
  refine isRaw_of_head? ?_
  have solid : ('!' :: cs).head?.any isBlank = false := rfl
  rw [String.toList_append, String.toList_ofList,
    show rawMark.toList ++ cs = '!' :: cs from rfl, trim, trimStart_of_head solid,
    head?_trimEnd solid]
  rfl

/-- Behind the mark there may be a size, and a text that is no specifier. -/
example : isRaw (rawMark ++ "[n]s") = true ∧ isRaw (rawMark ++ "view(a) [") = true := by
  decide +kernel

end Specifier

namespace Variable

variable (d : Inspector σ ν) (s₀ s : σ) (v : Variable ν)

/-- **The row of the raw value is raw**, whatever the specifier of the variable was. -/
theorem isRaw_rawView : Specifier.isRaw ((v.rawView d s₀).facts d s).spec = true :=
  Specifier.isRaw_rawMark_append _

/-- It is not shown by a rule. -/
theorem decorated_rawView : (v.rawView d s₀).decorated d s = v.rawView d s₀ := by
  unfold decorated
  dsimp only
  rw [isRaw_rawView, Bool.true_or, if_pos rfl]

end Variable

namespace Engine

open Bounded

variable (engine : Engine σ ν) (kind : TextKind)

/-- What is raw has its plain text by any rule, if that is found without a trace; beyond
the limit it has three dots. -/
theorem ruleText_raw {plain : Search σ ν String} {v : Variable ν} {s : Session σ ν}
    {text : String} (raw : Specifier.isRaw (v.facts engine.inspector s.target).spec = true)
    (ends : ∀ depth, plain { s with depth } = .ok (text, { s with depth })) :
    engine.ruleText kind plain v s =
      .ok (if s.depth < engine.options.get .maxFormatDepth then text else tooDeep, s) := by
  refine bind_eq_ok_iff.mpr ⟨_, congrArg Except.ok (engine.templatesFor_raw kind raw), ?_⟩
  split
  · rename_i within
    obtain ⟨levels, left⟩ : ∃ n, engine.options.get .maxFormatDepth - s.depth = n + 1 :=
      ⟨engine.options.get .maxFormatDepth - s.depth - 1, by omega⟩
    exact bind_eq_ok_iff.mpr
      ⟨_, engine.format_of_firstText kind [] v default left text rfl fun _ => ends _, rfl⟩
  · rename_i beyond
    have none : engine.options.get .maxFormatDepth - s.depth = 0 := by omega
    exact bind_eq_ok_iff.mpr ⟨_, engine.format_beyond kind [] v default none, rfl⟩

/-- The row of the raw value of a variable of the debugger, made in a session. -/
def rawRow (handle : ν) (s : Session σ ν) : Variable ν :=
  (Variable.debugger handle).rawView engine.inspector s.target

/-- The children that the debugger has for a variable. -/
def plainChildren (handle : ν) (s : Session σ ν) : List (Variable ν) :=
  (engine.debugger.children s.target handle).map .debugger

variable (handle : ν) (s₀ s : Session σ ν) (bound : Nat)

/-- **The raw view is never visualized again.** Once the row of the raw value of a variable
of the debugger was made, whatever specifier the variable had then, this is so at any later
time and with any rules: the row is raw, and it is not decorated; the line of text and the
string that rules would give it, its own line of text and its own string, and its children
are those that the debugger has for the variable. All is found without evaluating anything:
the session stays as it is, with the state of the debugger. Only while more texts are being
formatted than are allowed, the texts by rules are three dots, as for all variables. -/
theorem rawView_plain :
    Specifier.isRaw ((engine.rawRow handle s₀).facts engine.inspector s.target).spec = true ∧
      engine.decorate (engine.rawRow handle s₀) s = (engine.rawRow handle s₀, s) ∧
      engine.display (bound + 1) kind (engine.rawRow handle s₀) s =
        .ok (if s.depth < engine.options.get .maxFormatDepth
          then engine.debugger.text s.target kind handle else tooDeep, s) ∧
      engine.text (bound + 1) kind (engine.rawRow handle s₀) s =
        .ok (engine.debugger.text s.target kind handle, s) ∧
      engine.childListing (engine.rawRow handle s₀) s =
        (.fixed (engine.plainChildren handle s), s) ∧
      engine.count (bound + 1) (.fixed (engine.plainChildren handle s)) s =
        .ok (((engine.plainChildren handle s).length,
          .fixed (engine.plainChildren handle s)), s) ∧
      ∀ start count, engine.rows (bound + 1) (.fixed (engine.plainChildren handle s)) start count
          s =
        .ok ((clip start count (engine.plainChildren handle s),
          .fixed (engine.plainChildren handle s)), s) := by
  have raw := (Variable.debugger handle).isRaw_rawView engine.inspector s₀.target s.target
  have plain := (Variable.debugger handle).decorated_rawView engine.inspector s₀.target s.target
  have shown : engine.display (bound + 1) kind (engine.rawRow handle s₀) s =
      .ok (if s.depth < engine.options.get .maxFormatDepth
        then engine.debugger.text s.target kind handle else tooDeep, s) :=
    engine.ruleText_raw kind raw fun _ => rfl
  exact ⟨raw, congrArg (·, s) plain, shown, rfl, rfl, rfl, fun _ _ => rfl⟩

end Engine

end WatchView
