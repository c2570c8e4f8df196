import WatchView.Proofs.Evaluation.Attempts
import WatchView.Proofs.WatchExpr.Split
/-!
# Sizes in sizes

The size of a specifier is an expression, and may have a size of its own, as in
`a,[b,[c]]`. Its text is taken as it stands, with no token replaced, and it is shorter
than the whole by the comma and the two brackets at least (`pending_shorter`). So how
deep sizes are nested can be told from the text (`sizeDepth`), whatever the scope
replaces and the debugger answers, and is at most a third of its bytes.

`evaluateWithin` is an evaluation that is allowed so many levels of sizes below it and
gives up if it comes to need more. **It needs the depth of the text and no more, and
then does what an evaluation does** (`evaluateWithin_sizeDepth`).
-/

namespace WatchView

open Text

/-! ## The text of a size -/

namespace WatchExpr

theorem byteLength_prepare_le (s : String) : byteLength (prepare s) ≤ s.utf8ByteSize := by
  have trimmed := byteLength_trim_le s.toList
  rw [byteLength_toList] at trimmed
  unfold prepare
  dsimp only
  cases comma : dropTail? [','] (trim s.toList) with
  | none => exact trimmed
  | some rest =>
    have total := congrArg byteLength (dropTail?_eq_some_iff.mp comma)
    rw [byteLength_append] at total
    rw [Option.getD_some]
    omega

/-- **The text of a size is shorter than the whole by three bytes at least**: a comma
stands in front of its brackets. -/
theorem pending_shorter {s size suffix : String} (h : (parse s).spec = .pending size suffix) :
    size.utf8ByteSize + 3 ≤ s.utf8ByteSize := by
  have whole := byteLength_prepare_le s
  have splits := splits_parse s
  generalize prepare s = cs at whole splits
  rcases splits with same | splits
  · rw [same] at h
    cases h
  generalize parse s = e at h splits
  cases splits with
  | plain => cases h
  | @sized front value size' suffix' _ _ comma _ _ =>
    cases h
    have before := byteLength_trim_le front
    rw [comma, byteLength_append] at before
    have marks : byteLength [','] = 1 ∧ '['.utf8Size = 1 ∧ ']'.utf8Size = 1 := by decide
    simp only [byteLength_append, byteLength] at whole
    rw [utf8ByteSize_ofList]
    omega

/-- How deep sizes are nested in an expression. -/
def sizeDepth (s : String) : Nat :=
  match _h : (parse s).spec with
  | .pending size _ => sizeDepth size + 1
  | _ => 0
termination_by s.length
decreasing_by exact length_pending_lt _h

theorem sizeDepth_of_pending {s size suffix : String}
    (h : (parse s).spec = .pending size suffix) : sizeDepth s = sizeDepth size + 1 := by
  rw [sizeDepth]
  split
  · rename_i size' suffix' h'
    rw [h] at h'
    cases h'
    rfl
  · rename_i other
    exact absurd h (other size suffix)

theorem exists_pending_of_sizeDepth_pos {s : String} (h : 0 < sizeDepth s) :
    ∃ size suffix, (parse s).spec = .pending size suffix ∧ sizeDepth s = sizeDepth size + 1 := by
  unfold sizeDepth at h
  split at h
  · rename_i size suffix pending
    exact ⟨size, suffix, pending, sizeDepth_of_pending pending⟩
  · omega

/-- Every level takes three bytes. -/
theorem three_mul_sizeDepth_le (s : String) : 3 * sizeDepth s ≤ s.utf8ByteSize := by
  fun_induction sizeDepth s with
  | case1 s size suffix pending ih =>
    have shorter := pending_shorter pending
    omega
  | case2 s other => omega

example : sizeDepth "a,[b,[c]]" = 2 := by
  decide +kernel

end WatchExpr

/-! ## A bounded number of levels -/

namespace Evaluator

variable {σ ν : Type} (ev : Evaluator σ ν) (v : Variable ν) (scope : Scope (Variable ν))

/-- The specifier with its pending size put in, if it has one; `sizes` evaluates it or
gives up. -/
def resolvedBy (sizes : String → OptionT (StateM σ) (Except EvalError (Answer ν))) :
    FormatSpec → OptionT (StateM σ) FormatSpec
  | .pending size suffix => do
    match ← sizes size with
    | .error _ => pure (.pending size suffix)
    | .ok answer =>
      pure (resized (.pending size suffix) (answer.text ev.debugger.toInspector (← get) .value))
  | spec => pure spec

/-- An evaluation in which `sizes` evaluates the size of the expression or gives up. -/
def evaluateBy (sizes : String → OptionT (StateM σ) (Except EvalError (Answer ν)))
    (expression : String) (name : Option String) :
    OptionT (StateM σ) (Except EvalError (Answer ν)) := do
  let parsed := WatchExpr.parse expression
  let spec ← ev.resolvedBy sizes parsed.spec
  OptionT.lift (ev.evaluateAs ⟨Substitution.substitute scope parsed.value, spec⟩
    (Substitution.usesScratch scope parsed.value) v scope name)

/-- **An evaluation with so many levels of sizes below it.** It gives up when it comes
to a size and there is no level left. -/
def evaluateWithin : Nat → String → Option String →
    OptionT (StateM σ) (Except EvalError (Answer ν))
  | 0 => ev.evaluateBy v scope fun _ => failure
  | levels + 1 => ev.evaluateBy v scope fun size => evaluateWithin levels size none

variable {ev v scope}

theorem resolvedBy_eq {sizes : String → OptionT (StateM σ) (Except EvalError (Answer ν))}
    {spec : FormatSpec} (h : ∀ size suffix, spec = .pending size suffix →
      sizes size = OptionT.lift (ev.evaluate size v scope none)) :
    ev.resolvedBy sizes spec = OptionT.lift (ev.resolvedSpec v scope spec) := by
  cases spec with
  | plain text => rfl
  | sized n suffix => rfl
  | pending size suffix =>
    rw [resolvedBy, resolvedSpec, h size suffix rfl, OptionT.lift_bind]
    refine bind_congr fun result => ?_
    cases result with
    | error e => rfl
    | ok answer => rfl

theorem evaluateBy_eq {sizes : String → OptionT (StateM σ) (Except EvalError (Answer ν))}
    {expression : String} (name : Option String)
    (h : ∀ size suffix, (WatchExpr.parse expression).spec = .pending size suffix →
      sizes size = OptionT.lift (ev.evaluate size v scope none)) :
    ev.evaluateBy v scope sizes expression name =
      OptionT.lift (ev.evaluate expression v scope name) := by
  rw [evaluateBy, resolvedBy_eq h, evaluate_eq]
  exact (OptionT.lift_bind _ _).symm

theorem evaluateBy_eq_failure
    {sizes : String → OptionT (StateM σ) (Except EvalError (Answer ν))}
    {expression size suffix : String} (name : Option String)
    (pending : (WatchExpr.parse expression).spec = .pending size suffix)
    (given_up : sizes size = failure) : ev.evaluateBy v scope sizes expression name = failure := by
  have resolved : ev.resolvedBy sizes (.pending size suffix) = failure := by
    rw [resolvedBy, given_up]
    rfl
  rw [evaluateBy, pending, resolved]
  rfl

theorem evaluateWithin_of_le {levels : Nat} {expression : String}
    (h : WatchExpr.sizeDepth expression ≤ levels) (name : Option String) :
    ev.evaluateWithin v scope levels expression name =
      OptionT.lift (ev.evaluate expression v scope name) := by
  induction levels generalizing expression name with
  | zero =>
    refine evaluateBy_eq name fun size suffix pending => ?_
    have deeper := WatchExpr.sizeDepth_of_pending pending
    omega
  | succ levels ih =>
    refine evaluateBy_eq name fun size suffix pending => ?_
    have deeper := WatchExpr.sizeDepth_of_pending pending
    have fits : WatchExpr.sizeDepth size ≤ levels := by omega
    exact ih fits none

/-- Where a size is missing a level, nothing was asked yet: the size of an
expression is evaluated before the rest of it. -/
theorem evaluateWithin_of_lt {levels : Nat} {expression : String}
    (h : levels < WatchExpr.sizeDepth expression) (name : Option String) :
    ev.evaluateWithin v scope levels expression name = failure := by
  have nested : 0 < WatchExpr.sizeDepth expression := by omega
  obtain ⟨size, suffix, pending, deeper⟩ := WatchExpr.exists_pending_of_sizeDepth_pos nested
  cases levels with
  | zero => exact evaluateBy_eq_failure name pending rfl
  | succ levels =>
    have short : levels < WatchExpr.sizeDepth size := by omega
    exact evaluateBy_eq_failure name pending (evaluateWithin_of_lt short none)

/-- **Nested sizes end.** The text of a size is shorter than its expression by three
bytes, so sizes are nested no deeper than a third of its bytes. An evaluation needs
that many levels, whatever the scope replaces and however the debugger answers: with
fewer it gives up before it has asked for anything, and with any more it does what it
does without a bound. -/
theorem evaluateWithin_sizeDepth (ev : Evaluator σ ν) (v : Variable ν)
    (scope : Scope (Variable ν)) (expression : String) (name : Option String) :
    (∀ size suffix, (WatchExpr.parse expression).spec = .pending size suffix →
      size.utf8ByteSize + 3 ≤ expression.utf8ByteSize) ∧
    WatchExpr.sizeDepth expression ≤ expression.utf8ByteSize / 3 ∧
    ∀ levels, (ev.evaluateWithin v scope levels expression name).run =
      if WatchExpr.sizeDepth expression ≤ levels then some <$> ev.evaluate expression v scope name
      else pure none := by
  refine ⟨fun size suffix pending => WatchExpr.pending_shorter pending, ?_, fun levels => ?_⟩
  · have depth := WatchExpr.three_mul_sizeDepth_le expression
    omega
  · by_cases fits : WatchExpr.sizeDepth expression ≤ levels
    · rw [if_pos fits, evaluateWithin_of_le fits, OptionT.run_lift]
      rfl
    · have short : levels < WatchExpr.sizeDepth expression := Nat.lt_of_not_le fits
      rw [if_neg fits, evaluateWithin_of_lt short, OptionT.run_failure]

end Evaluator

end WatchView
