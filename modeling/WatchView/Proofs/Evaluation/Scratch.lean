import WatchView.Proofs.Evaluation.Attempts
/-!
# Expressions with scratch variables

A scratch variable is known to full evaluation only, as far as the debugger's means go. So an
expression in which a token was replaced by one leaves out the fast evaluator, whatever the
strategy, and what full evaluation says should be all that counts (`InFullAlone`).

The name of a scratch variable has the shape of a member's name, though, and the strategy
that follows member paths does not leave them out. `evaluate_scratch` tells the two cases
apart. Where the expression is a path, it is followed first, and a member that bears the
name of the scratch variable is taken for it (`Shadow.path_before_full`).
-/

namespace WatchView

variable {σ ν : Type}

namespace Call

/-- What a call amounts to as an attempt. -/
def attempt (d : Inspector σ ν) (c : Call σ ν) : Attempt ν :=
  match c.handle?, c.reason? d with
  | some handle, none => .found ⟨handle, none⟩
  | _, reason => .missed (reason.getD "")

theorem attempt_of_handle? {d : Inspector σ ν} {c : Call σ ν} {handle : ν}
    (handed : c.handle? = some handle) :
    c.attempt d =
      match (d.facts c.after handle).error with
      | none => .found ⟨handle, none⟩
      | some message => .missed message := by
  have reason : c.reason? d = (d.facts c.after handle).error := by
    unfold reason?
    rw [handed]
  unfold attempt
  rw [handed, reason]
  cases (d.facts c.after handle).error with
  | none => rfl
  | some message => rfl

/-- Only the fast evaluator refuses. -/
theorem isFinal_eq_false {c : Call σ ν} (slow : c.way ≠ .fast) : c.isFinal = false := by
  obtain ⟨exchange, before, after⟩ := c
  cases exchange with
  | fast => exact absurd rfl slow
  | path => rfl
  | full => rfl

end Call

/-- What an attempt comes to if no other is made. -/
def Attempt.alone : Attempt ν → Except (List String) (Answer ν)
  | found answer => .ok answer
  | missed reason => .error [reason]
  | refused reason => .error [reason]

namespace Evaluator

/-! ## What a single call decides -/

/-- What an evaluation comes to if a single call decides it: the variable that was handed
out, or a snapshot of it if the expression is nothing but a scratch variable, and otherwise
the words for why there is none. -/
def decided (d : Inspector σ ν) (scope : Scope (Variable ν)) (e : WatchExpr)
    (name : Option String) (c : Call σ ν) : Except String (Answer ν) :=
  match c.handle?, c.reason? d with
  | some handle, none =>
    .ok (if scope.isScratchName e.value then detached d c.after e.spec.text ⟨handle, none⟩
      else ⟨handle, none⟩)
  | _, reason => .error (failureMessage name e (inWords reason.toList))

variable (ev : Evaluator σ ν) (e : WatchExpr) (v : Variable ν) (scope : Scope (Variable ν))
  (name : Option String)

/-- **Full evaluation alone decides.** It is the one call that is made, and what it says is
what the expression comes to. -/
def InFullAlone (made : List (Call σ ν)) (result : Except EvalError (Answer ν)) (t : σ) : Prop :=
  ∃ c, made = [c] ∧ c.way = .full ∧ AskedFor ev.debugger.toInspector e v scope name c ∧
    c.after = t ∧ result.mapError EvalError.message = decided ev.debugger.toInspector scope e name c

/-- Full evaluation is one call, and amounts to what the call does. -/
theorem tryFull_apply (s : σ) :
    ∃ c, c.way = .full ∧ AskedFor ev.debugger.toInspector e v scope name c ∧
      ev.tryFull e v name s = (c.attempt ev.debugger.toInspector, c.after) ∧
      ∀ log, ev.recording.tryFull e v name (s, log) =
        (c.attempt ev.debugger.toInspector, c.after, log ++ [c]) := by
  let target := v.followed ev.debugger.toInspector s
  rcases said : ev.debugger.full target e name s with ⟨said', t⟩
  refine ⟨⟨.full target e name said', s, t⟩, rfl, ⟨rfl, rfl, rfl⟩, ?_, fun log => ?_⟩
  · rw [tryFull, bind_apply, get_apply, bind_apply, said]
    cases said' with
    | error message => rfl
    | ok handle =>
      rw [Call.attempt_of_handle? rfl]
      exact ev.accept_eq ⟨handle, none⟩ t
  · rw [tryFull, bind_apply, get_apply, bind_apply, full_recording, Debugger.noted_apply, said]
    cases said' with
    | error message => rfl
    | ok handle =>
      rw [Call.attempt_of_handle? rfl]
      refine (ev.accept_recording ⟨handle, none⟩ _).trans ?_
      exact congrArg (fun r => (r.1, t, log ++ _)) (ev.accept_eq ⟨handle, none⟩ t)

theorem tryEach_singleton_apply (act : StateM σ (Attempt ν)) (s : σ) :
    tryEach [act] s = ((act s).1.alone, (act s).2) := by
  rw [tryEach_cons_apply]
  rcases act s with ⟨answer | reason | reason, t⟩
  · rfl
  · rfl
  · rfl

section

variable {e scope name} {d : Inspector σ ν}

/-- A call that is made alone decides. -/
theorem message_concluded_attempt (c : Call σ ν) :
    (concluded scope d c.after e name (c.attempt d).alone).mapError EvalError.message =
      decided d scope e name c := by
  unfold Call.attempt decided
  cases handed : c.handle? with
  | none =>
    have reason : c.reason? d = some c.complaint := by
      unfold Call.reason?
      rw [handed]
    rw [reason]
    rfl
  | some handle =>
    cases c.reason? d with
    | none => rfl
    | some reason => rfl

/-- A reason without words is left out. -/
theorem message_concluded_silent (t : σ) (tried : Except (List String) (Answer ν)) :
    (concluded scope d t e name (orReason "" tried)).mapError EvalError.message =
      (concluded scope d t e name tried).mapError EvalError.message := by
  cases tried with
  | ok answer => rfl
  | error reasons =>
    have silent : inWords ("" :: reasons) = inWords reasons := rfl
    exact congrArg (fun reasons => Except.error (failureMessage name e reasons)) silent

end

/-! ## An expression with a scratch variable -/

/-- Without a path to follow the attempts are full evaluation, which may come after an
attempt that makes no call. -/
theorem tryEach_scratch {s : σ}
    (apart : ¬ (ev.strategy = .pathThenFull ∧
      MemberPath.isPath (pathFrom ev.debugger.toInspector s v e).value = true)) :
    ∃ c tried, c.way = .full ∧ AskedFor ev.debugger.toInspector e v scope name c ∧
      (tried = (c.attempt ev.debugger.toInspector).alone ∨
        tried = orReason "" (c.attempt ev.debugger.toInspector).alone) ∧
      tryEach (ev.attempts true e v scope name) s = (tried, c.after) ∧
      ∀ log, tryEach (ev.recording.attempts true e v scope name) (s, log) =
        (tried, c.after, log ++ [c]) := by
  obtain ⟨c, way, asked, plain, noted⟩ := ev.tryFull_apply e v scope name s
  have plain' : tryEach [ev.tryFull e v name] s =
      ((c.attempt ev.debugger.toInspector).alone, c.after) := by
    rw [tryEach_singleton_apply, plain]
  have noted' (log : List (Call σ ν)) : tryEach [ev.recording.tryFull e v name] (s, log) =
      ((c.attempt ev.debugger.toInspector).alone, c.after, log ++ [c]) := by
    rw [tryEach_singleton_apply, noted]
  unfold attempts
  rw [show ev.recording.strategy = ev.strategy from rfl]
  cases strategy : ev.strategy with
  | pathThenFull =>
    have other : MemberPath.isPath (asPath ev.debugger.toInspector s v e).value = false := by
      rw [asPath_eq]
      exact Bool.eq_false_iff.mpr fun path => apart ⟨strategy, path⟩
    obtain ⟨silent, silent'⟩ := ev.tryPath_of_not_isPath e v name other
    refine ⟨c, _, way, asked, .inr rfl, ?_, fun log => ?_⟩
    · refine (tryEach_cons_apply _ _ s).trans ?_
      rw [silent]
      exact congrArg (fun r => (orReason "" r.1, r.2)) plain'
    · refine (tryEach_cons_apply _ _ _).trans ?_
      rw [silent']
      exact congrArg (fun r => (orReason "" r.1, r.2)) (noted' log)
  | fastOnly => exact ⟨c, _, way, asked, .inl rfl, plain', noted'⟩
  | fastThenFull => exact ⟨c, _, way, asked, .inl rfl, plain', noted'⟩

/-- So full evaluation alone decides. -/
theorem evaluateAs_inFullAlone {s : σ}
    (apart : ¬ (ev.strategy = .pathThenFull ∧
      MemberPath.isPath (pathFrom ev.debugger.toInspector s v e).value = true)) :
    ∃ made result t, ev.evaluateAs e true v scope name s = (result, t) ∧
      (∀ log, ev.recording.evaluateAs e true v scope name (s, log) = (result, t, log ++ made)) ∧
      ev.InFullAlone e v scope name made result t := by
  obtain ⟨c, tried, way, asked, same, plain, noted⟩ := ev.tryEach_scratch e v scope name apart
  refine ⟨[c], concluded scope ev.debugger.toInspector c.after e name tried, c.after, ?_,
    fun log => ?_, c, rfl, way, asked, rfl, ?_⟩
  · rw [evaluateAs_apply, plain]
  · rw [evaluateAs_apply, noted]
    rcases same with rfl | rfl
    all_goals
      generalize (c.attempt ev.debugger.toInspector).alone = tried
      cases tried <;> rfl
  · rcases same with rfl | rfl
    · exact message_concluded_attempt c
    · rw [message_concluded_silent]
      exact message_concluded_attempt c

/-- A path is followed first, and full evaluation is asked if that came to nothing. -/
theorem exists_path_of_made {d : Inspector σ ν} {asked : Call σ ν → Prop}
    {made : List (Call σ ν)} (h : Made d asked [.path, .full] made) :
    ∃ p, made.head? = some p ∧ p.way = .path ∧ asked p ∧
      ((∃ c ∈ made, c.way = .full) ↔ p.reason? d ≠ none) := by
  match made with
  | [] =>
    rcases h.stops with all | ⟨c, last, -⟩
    · cases all
    · cases last
  | [p] =>
    have way : p.way = .path := (List.cons_prefix_cons.mp h.inOrder).1
    refine ⟨p, rfl, way, h.asked p List.mem_cons_self, ?_⟩
    -- only a path that was found leaves full evaluation undone
    have found : p.reason? d = none := by
      rcases h.stops with all | ⟨c, last, ended⟩
      · simp at all
      · obtain rfl : p = c := Option.some.inj last
        have goesOn : p.isFinal = false := Call.isFinal_eq_false (by simp [way])
        exact ended.resolve_right (by simp [goesOn])
    simp [way, found]
  | p :: c :: more =>
    obtain ⟨way, behind⟩ := List.cons_prefix_cons.mp h.inOrder
    have full : c.way = .full := (List.cons_prefix_cons.mp behind).1
    have missed := (h.goesOn p (by simp)).1
    exact ⟨p, rfl, way, h.asked p List.mem_cons_self,
      iff_of_true ⟨c, by simp, full⟩ missed⟩

/-- **What is called to evaluate an expression with a scratch variable.** After the calls for
its size the fast evaluator is never asked. Full evaluation alone decides, unless the strategy
follows member paths and the expression is one. Then that path is followed first, and full
evaluation is asked only if there was no such member. -/
theorem evaluate_scratch (expression : String) (s : σ)
    (uses : Substitution.usesScratch scope (WatchExpr.parse expression).value = true) :
    ∃ spec s₁ sized made result t,
      let d := ev.debugger.toInspector
      let parsed := WatchExpr.parse expression
      let e : WatchExpr := ⟨Substitution.substitute scope parsed.value, spec⟩
      let isPath := ev.strategy = .pathThenFull ∧ MemberPath.isPath (pathFrom d s₁ v e).value = true
      (∀ log, ev.recording.resolvedSpec v scope parsed.spec (s, log) = (spec, s₁, log ++ sized)) ∧
      (∀ log, ev.recording.evaluate expression v scope name (s, log) =
        (result, t, log ++ sized ++ made)) ∧
      ev.evaluate expression v scope name s = (result, t) ∧
      (∀ c ∈ made, c.way ≠ .fast) ∧
      (ev.InFullAlone e v scope name made result t ↔ ¬ isPath) ∧
      (isPath → ∃ p, made.head? = some p ∧ p.way = .path ∧ AskedFor d e v scope name p ∧
        ((∃ c ∈ made, c.way = .full) ↔ p.reason? d ≠ none)) := by
  have sizes (size suffix : String)
      (_ : (WatchExpr.parse expression).spec = .pending size suffix) :=
    ev.evaluate_isRecorded v scope size none
  obtain ⟨sized, resolved⟩ := ev.resolvedSpec_isRecorded v scope sizes s
  let r := ev.resolvedSpec v scope (WatchExpr.parse expression).spec s
  let e : WatchExpr := ⟨Substitution.substitute scope (WatchExpr.parse expression).value, r.1⟩
  have inParts : ev.evaluate expression v scope name s = ev.evaluateAs e true v scope name r.2 := by
    rw [evaluate_eq, bind_apply, uses]
  have inParts' (log : List (Call σ ν)) : ev.recording.evaluate expression v scope name (s, log) =
      ev.recording.evaluateAs e true v scope name (r.2, log ++ sized) := by
    rw [evaluate_eq, bind_apply, resolved, uses]
  -- full evaluation is the only attempt, unless a member path comes before it
  by_cases isPath : ev.strategy = .pathThenFull ∧
    MemberPath.isPath (pathFrom ev.debugger.toInspector r.2 v e).value = true
  · obtain ⟨made, tried, t, h, plain, noted⟩ := ev.evaluateAs_calls v scope e true name r.2
    have planned : plan ev.strategy true
        (MemberPath.isPath (pathFrom ev.debugger.toInspector r.2 v e).value) = [.path, .full] := by
      rw [isPath.1, isPath.2]
      rfl
    rw [planned] at h
    obtain ⟨p, first, way, asked, full⟩ := exists_path_of_made h.toMade
    refine ⟨r.1, r.2, sized, made, _, t, resolved, fun log => ?_, inParts.trans plain,
      fun c mem fast => ?_, ?_, fun _ => ⟨p, first, way, asked, full⟩⟩
    · rw [inParts', noted]
    · have planned := h.inOrder.subset (List.mem_map_of_mem mem)
      rw [fast] at planned
      simp at planned
    · refine iff_of_false ?_ (not_not_intro isPath)
      rintro ⟨c, rfl, full, -⟩
      cases first
      rw [way] at full
      cases full
  · obtain ⟨made, result, t, plain, noted, alone⟩ := ev.evaluateAs_inFullAlone e v scope name isPath
    refine ⟨r.1, r.2, sized, made, result, t, resolved, fun log => ?_, inParts.trans plain,
      fun c mem fast => ?_, iff_of_true alone isPath, fun path => absurd path isPath⟩
    · rw [inParts', noted]
    · obtain ⟨c', rfl, full, -⟩ := alone
      obtain rfl := List.mem_singleton.mp mem
      rw [full] at fast
      cases fast

end Evaluator

/-! ## A member that bears the name of a scratch variable -/

namespace Shadow

/-- A debugger whose variables have a member `$i_0`, and that has a scratch variable of this
name with another value. -/
def debugger : Debugger Unit Nat where
  facts _ _ := { name := "it", typeName := "int", isTruthy := true, hierarchy := [] }
  pointee? _ _ := none
  snapshot? _ _ _ := none
  text _ _ n := toString n
  mightHaveChildren _ _ := false
  children _ _ := []
  fast _ _ _ _ := pure (.error ⟨.other, "no"⟩)
  full _ e _ := pure (if e.value = "$i_0" then .ok 7 else .error "no")
  path _ e := pure (if e.value = ".$i_0" then some 5 else none)

/-- An evaluator with a strategy. -/
def evaluator (strategy : Strategy) : Evaluator Unit Nat := ⟨debugger, strategy⟩

/-- The token `i` stands for the scratch variable. -/
def scope : Scope (Variable Nat) := ({} : Scope (Variable Nat)).bindToken "i" "$i_0"

/-- The variable in whose context the expression is evaluated. -/
def row : Variable Nat := .debugger 0

/-- Where the fast evaluator is asked otherwise, full evaluation decides alone. -/
theorem inFullAlone :
    Substitution.usesScratch scope (WatchExpr.parse "i").value = true ∧
      ∃ e made result t,
        (∃ sized, ∀ log, (evaluator .fastThenFull).recording.evaluate "i" row scope none ((), log) =
          (result, t, log ++ sized ++ made)) ∧
        (evaluator .fastThenFull).InFullAlone e row scope none made result t := by
  have uses : Substitution.usesScratch scope (WatchExpr.parse "i").value = true := by
    decide +kernel
  obtain ⟨spec, s₁, sized, made, result, t, -, noted, -, -, alone, -⟩ :=
    (evaluator .fastThenFull).evaluate_scratch row scope none "i" () uses
  exact ⟨uses, _, made, result, t, ⟨sized, noted⟩, alone.mpr fun h => nomatch h.1⟩

/-- **The path is followed first, and the member is taken for the scratch variable.** Full
evaluation, which knows the scratch variable, is not asked. -/
theorem path_before_full :
    Substitution.usesScratch scope (WatchExpr.parse "i").value = true ∧
      (let r := (evaluator .pathThenFull).recording.evaluate "i" row scope none ((), [])
      r.1.toOption.map Answer.handle = some 5 ∧ r.2.2.map Call.way = [.path]) := by
  refine ⟨by decide +kernel, ?_⟩
  rw [Evaluator.evaluate_eq]
  decide +kernel

end Shadow

end WatchView
