import WatchView.Proofs.Evaluation.Attempts
/-!
# Snapshots of scratch variables

A scratch variable goes on changing after an expression was evaluated that is nothing but its
name. So the result is a snapshot, taken when the evaluators have handed the variable out and
with the specifier of the expression. Only a result under a name of its own is left as it is,
and such a one is reached by a member path alone: if the variable in whose context the
expression is evaluated has a member of that name, the member is the result
(`Evaluator.evaluate_scratchName`).
-/

namespace WatchView

variable {σ ν : Type}

/-- A variable as it is at a moment, with a specifier: the copy the debugger makes of it, or
itself if it never changes. -/
def Inspector.snapshot (d : Inspector σ ν) (s : σ) (handle : ν) (spec : String) : ν :=
  (d.snapshot? s handle spec).getD handle

theorem Evaluator.detached_unnamed (d : Inspector σ ν) (s : σ) (spec : String) (handle : ν) :
    detached d s spec ⟨handle, none⟩ = ⟨d.snapshot s handle spec, none⟩ := by
  unfold detached Inspector.snapshot
  cases d.snapshot? s handle spec with
  | none => rfl
  | some copy => rfl

namespace Evaluator

variable (ev : Evaluator σ ν) (e : WatchExpr) (v : Variable ν) (scope : Scope (Variable ν))
  (name : Option String)

/-! ## Where a result comes from -/

/-- What attempts have in common that is so of all their results is so of the result of
trying them. -/
theorem of_tryEach_eq_ok {acts : List (StateM σ (Attempt ν))} {P : Answer ν → σ → Prop}
    (each : ∀ act ∈ acts, ∀ s answer t, act s = (.found answer, t) → P answer t) {s t : σ}
    {answer : Answer ν} (found : tryEach acts s = (.ok answer, t)) : P answer t := by
  induction acts generalizing s answer with
  | nil => cases found
  | cons act acts ih =>
    obtain ⟨here, others⟩ := List.forall_mem_cons.mp each
    rw [tryEach_cons_apply] at found
    rcases tried : act s with ⟨answer' | reason | reason, s'⟩
    · rw [tried] at found
      cases found
      exact here _ _ _ tried
    · rw [tried] at found
      dsimp only at found
      rcases more : tryEach acts s' with ⟨reasons | answer', s''⟩
      · rw [more] at found
        cases found
      · rw [more] at found
        cases found
        exact ih others more
    · rw [tried] at found
      cases found

theorem eq_of_accept_eq_found {answer answer' : Answer ν} {s t : σ}
    (found : ev.accept answer s = (.found answer', t)) : answer' = answer := by
  rw [accept_eq] at found
  split at found
  · cases found
    rfl
  · cases found

/-- The evaluators give their results no name of their own. -/
theorem shownAs_of_tryFast {s t : σ} {answer : Answer ν}
    (found : ev.tryFast e v scope name s = (.found answer, t)) : answer.shownAs = none := by
  rw [tryFast, bind_apply, get_apply, bind_apply] at found
  rcases said : ev.debugger.fast (v.followed ev.debugger.toInspector s) e name scope.scratch s with
    ⟨failure | handle, t'⟩
  · rw [said] at found
    dsimp only at found
    split at found <;> cases found
  · rw [said] at found
    rw [ev.eq_of_accept_eq_found found]

theorem shownAs_of_tryFull {s t : σ} {answer : Answer ν}
    (found : ev.tryFull e v name s = (.found answer, t)) : answer.shownAs = none := by
  rw [tryFull, bind_apply, get_apply, bind_apply] at found
  rcases said : ev.debugger.full (v.followed ev.debugger.toInspector s) e name s with
    ⟨message | handle, t'⟩
  · rw [said] at found
    cases found
  · rw [said] at found
    rw [ev.eq_of_accept_eq_found found]

/-- Nor does a path, if the result is to have none. -/
theorem shownAs_of_tryPath {s t : σ} {answer : Answer ν}
    (found : ev.tryPath e v none s = (.found answer, t)) : answer.shownAs = none := by
  rw [tryPath, bind_apply, get_apply] at found
  dsimp only at found
  split at found
  · rw [bind_apply] at found
    rcases said : ev.debugger.path v (asPath ev.debugger.toInspector s v e) s with ⟨_ | handle, t'⟩
    · rw [said] at found
      cases found
    · rw [said] at found
      rw [ev.eq_of_accept_eq_found found]
      rfl
  · cases found

/-- Without a name to show it under, a result has none. -/
theorem shownAs_of_evaluate {expression : String} {s t : σ} {answer : Answer ν}
    (found : ev.evaluate expression v scope none s = (.ok answer, t)) : answer.shownAs = none := by
  rw [evaluate_eq, bind_apply, evaluateAs_apply] at found
  generalize Substitution.usesScratch scope (WatchExpr.parse expression).value = scratch at found
  generalize WatchExpr.mk _ _ = e at found
  generalize (ev.resolvedSpec v scope (WatchExpr.parse expression).spec s).2 = s₁ at found
  rcases tried : tryEach (ev.attempts scratch e v scope none) s₁ with ⟨reasons | first, s₂⟩
  · rw [tried] at found
    cases found
  · rw [tried] at found
    obtain ⟨taken, rfl⟩ := Prod.mk.inj found
    have unnamed : first.shownAs = none := by
      refine of_tryEach_eq_ok (P := fun answer _ => answer.shownAs = none) ?_ tried
      intro act mem s answer t
      unfold attempts at mem
      simp only [List.mem_append, List.mem_ite_nil_right, List.mem_singleton] at mem
      rcases mem with (⟨-, rfl⟩ | ⟨-, rfl⟩) | ⟨-, rfl⟩
      · exact ev.shownAs_of_tryFast e v scope none
      · exact ev.shownAs_of_tryPath e v
      · exact ev.shownAs_of_tryFull e v none
    obtain ⟨handle, _⟩ := first
    obtain rfl : _ = none := unnamed
    dsimp only [concluded] at taken
    rw [detached_unnamed] at taken
    obtain rfl := Except.ok.inj taken
    split <;> rfl

/-! ## A member that is taken for the value -/

/-- The member that is taken for the value of an expression: the one its path leads to, if
the strategy follows member paths and the member is no failure. -/
def member? (s : σ) : Option ν :=
  let path := pathFrom ev.debugger.toInspector s v e
  if ev.strategy = .pathThenFull ∧ MemberPath.isPath path.value = true then
    match ev.debugger.path v path s with
    | (some handle, t) => if (ev.debugger.facts t handle).error.isNone then some handle else none
    | (none, _) => none
  else none

/-- Where no member paths are followed, none is taken. -/
theorem member?_eq_none (unfollowed : ev.strategy ≠ .pathThenFull) (s : σ) :
    ev.member? e v s = none :=
  if_neg fun follows => unfollowed follows.1

/-- The variable that an evaluator handed out for an expression. -/
def HandedOut (handle : ν) (t : σ) : Prop :=
  ∃ c, c.way ≠ .path ∧ AskedFor ev.debugger.toInspector e v scope name c ∧ c.after = t ∧
    c.handle? = some handle ∧ c.reason? ev.debugger.toInspector = none

variable {ev e v scope name}

theorem IsCall.handedOut {w : Way} {act : StateM σ (Attempt ν)}
    {recorded : StateM (σ × List (Call σ ν)) (Attempt ν)} {s t : σ} {answer : Answer ν}
    (h : ev.IsCall e v scope name w recorded act s) (evaluator : w ≠ .path)
    (found : act s = (.found answer, t)) : ev.HandedOut e v scope name answer.handle t := by
  obtain ⟨c, attempt, t', way, asked, came, plain, -⟩ := h
  rw [found] at plain
  obtain ⟨rfl, rfl⟩ := Prod.mk.inj plain
  obtain ⟨free, handed, after⟩ := came
  exact ⟨c, way ▸ evaluator, asked, after, handed, free⟩

variable (ev e v scope name)

/-- The result of full evaluation has no name of its own and was handed out. -/
theorem handedOut_of_tryFull {s t : σ} {answer : Answer ν}
    (found : ev.tryFull e v name s = (.found answer, t)) :
    answer.shownAs = none ∧ ev.HandedOut e v scope name answer.handle t :=
  ⟨ev.shownAs_of_tryFull e v name found,
    (ev.tryFull_isCall e v scope name s).handedOut (by decide) found⟩

/-- So has a result of the fast evaluator. -/
theorem handedOut_of_tryFast {s t : σ} {answer : Answer ν}
    (found : ev.tryFast e v scope name s = (.found answer, t)) :
    answer.shownAs = none ∧ ev.HandedOut e v scope name answer.handle t :=
  ⟨ev.shownAs_of_tryFast e v scope name found,
    (ev.tryFast_isCall e v scope name s).handedOut (by decide) found⟩

/-- A path leads to the member, under the name asked for. -/
theorem tryPath_eq (s : σ) :
    match ev.member? e v s with
    | some handle => ∃ t, ev.tryPath e v name s =
        (.found ⟨handle, name.map fun n => (n, e.spec.text)⟩, t)
    | none => ev.strategy = .pathThenFull →
        ∃ reason t, ev.tryPath e v name s = (.missed reason, t) := by
  rw [tryPath, bind_apply, get_apply, asPath_eq, member?]
  dsimp only
  by_cases isPath : MemberPath.isPath (pathFrom ev.debugger.toInspector s v e).value = true
  · rw [if_pos isPath, bind_apply]
    rcases ev.debugger.path v (pathFrom ev.debugger.toInspector s v e) s with ⟨_ | handle, t⟩
    · dsimp only
      rw [ite_self]
      exact fun _ => ⟨_, _, rfl⟩
    · dsimp only
      rw [accept_eq]
      dsimp only
      by_cases follows : ev.strategy = .pathThenFull
      · rw [if_pos ⟨follows, isPath⟩]
        cases (ev.debugger.facts t handle).error with
        | none => exact ⟨t, rfl⟩
        | some message => exact fun _ => ⟨message, t, rfl⟩
      · rw [if_neg fun h => follows h.1]
        exact fun h => absurd h follows
  · rw [if_neg isPath, if_neg fun h => isPath h.2]
    exact fun _ => ⟨_, _, rfl⟩

/-- **The attempts find a member, or what an evaluator hands out.** -/
theorem tryEach_attempts (scratch : Bool) {s t : σ} {answer : Answer ν}
    (found : tryEach (ev.attempts scratch e v scope name) s = (.ok answer, t)) :
    match ev.member? e v s with
    | some handle => answer = ⟨handle, name.map fun n => (n, e.spec.text)⟩
    | none => answer.shownAs = none ∧ ev.HandedOut e v scope name answer.handle t := by
  -- where only the evaluators are tried, what is found was handed out by one of them
  have evaluators {acts : List (StateM σ (Attempt ν))}
      (known : ∀ act ∈ acts, act = ev.tryFast e v scope name ∨ act = ev.tryFull e v name)
      {s : σ} (found : tryEach acts s = (.ok answer, t)) :
      answer.shownAs = none ∧ ev.HandedOut e v scope name answer.handle t := by
    refine of_tryEach_eq_ok (P := fun answer t => answer.shownAs = none ∧
      ev.HandedOut e v scope name answer.handle t) (fun act mem s answer t => ?_) found
    rcases known act mem with rfl | rfl
    · exact ev.handedOut_of_tryFast e v scope name
    · exact ev.handedOut_of_tryFull e v scope name
  have path := ev.tryPath_eq e v name s
  unfold attempts at found
  by_cases follows : ev.strategy = .pathThenFull
  · -- the path comes first, and full evaluation if it led nowhere
    have first : tryEach [ev.tryPath e v name, ev.tryFull e v name] s = (.ok answer, t) := by
      rw [follows] at found
      cases scratch <;> exact found
    rw [tryEach_cons_apply] at first
    split
    · rename_i handle member
      rw [member] at path
      obtain ⟨t', led⟩ := path
      rw [led] at first
      exact (Except.ok.inj (congrArg Prod.fst first)).symm
    · rename_i member
      rw [member] at path
      obtain ⟨reason, t', missed⟩ := path follows
      rw [missed] at first
      dsimp only at first
      rcases full : tryEach [ev.tryFull e v name] t' with ⟨reasons | answer', t''⟩
      · rw [full] at first
        cases first
      · rw [full] at first
        cases first
        exact evaluators (fun act mem => .inr (List.mem_singleton.mp mem)) full
  · rw [ev.member?_eq_none e v follows]
    refine evaluators (fun act mem => ?_) found
    simp only [if_neg follows, List.append_nil, List.mem_append, List.mem_ite_nil_right,
      List.mem_singleton] at mem
    exact mem.imp And.right And.right

/-- An expression as it is evaluated, with its tokens replaced and its size put in, and the
state in which it is. -/
def prepared (expression : String) (s : σ) : WatchExpr × σ :=
  let r := ev.resolvedSpec v scope (WatchExpr.parse expression).spec s
  (⟨Substitution.substitute scope (WatchExpr.parse expression).value, r.1⟩, r.2)

theorem evaluate_apply (expression : String) (s : σ) :
    ev.evaluate expression v scope name s =
      let e := ev.prepared v scope expression s
      let r := tryEach (ev.attempts
        (Substitution.usesScratch scope (WatchExpr.parse expression).value) e.1 v scope name) e.2
      (concluded scope ev.debugger.toInspector r.2 e.1 name r.1, r.2) := by
  rw [evaluate_eq, bind_apply, evaluateAs_apply]
  rfl

/-- **What the name of a scratch variable evaluates to**, if it is to be shown under a name:
the member that is taken for it, live and under that name, and else the snapshot of what an
evaluator handed out, taken at that moment and with the specifier of the expression. -/
theorem evaluate_scratchName {expression shown : String} {s t : σ} {answer : Answer ν}
    (whole : scope.isScratchName (ev.prepared v scope expression s).1.value = true)
    (found : ev.evaluate expression v scope (some shown) s = (.ok answer, t)) :
    let e := ev.prepared v scope expression s
    match ev.member? e.1 v e.2 with
    | some handle => answer = ⟨handle, some (shown, e.1.spec.text)⟩
    | none => ∃ live, ev.HandedOut e.1 v scope (some shown) live t ∧
        answer = ⟨ev.debugger.toInspector.snapshot t live e.1.spec.text, none⟩ := by
  rw [evaluate_apply] at found
  generalize ev.prepared v scope expression s = e at whole found ⊢
  dsimp only at found
  obtain ⟨taken, rfl⟩ := Prod.mk.inj found
  rcases tried : tryEach (ev.attempts (Substitution.usesScratch scope
    (WatchExpr.parse expression).value) e.1 v scope (some shown)) e.2 with ⟨reasons | first, t⟩
  · rw [tried] at taken
    cases taken
  · rw [tried] at taken
    -- what the attempts found is a member or was handed out; only that is taken a snapshot of
    have source := ev.tryEach_attempts e.1 v scope (some shown) _ tried
    have taken : (if scope.isScratchName e.1.value then
        detached ev.debugger.toInspector t e.1.spec.text first else first) = answer :=
      Except.ok.inj taken
    rw [if_pos whole] at taken
    subst taken
    dsimp only
    split
    · rename_i handle member
      rw [member] at source
      obtain rfl := source
      rfl
    · rename_i member
      rw [member] at source
      obtain ⟨unnamed, handed⟩ := source
      obtain ⟨live, _⟩ := first
      obtain rfl : _ = none := unnamed
      exact ⟨live, handed, detached_unnamed _ _ _ _⟩

end Evaluator

end WatchView
