import WatchView.Evaluation.Evaluator
/-!
# Attempts to evaluate

An evaluation asks the debugger by one means after the other. To tell which,
the debugger is watched (`Debugger.recording`): it answers as it does and
keeps a record of the calls. They are those the strategy plans, in order, up
to the first that finds a result or refuses (`evaluate_calls`). A result that
carries an error is no result, and the error of an evaluation that failed
lists what each call said.
-/

namespace WatchView

variable {σ ν α β : Type}

/-! ## Work on a state -/

theorem bind_apply (act : StateM σ α) (next : α → StateM σ β) (s : σ) :
    (act >>= next) s = next (act s).1 (act s).2 := rfl

theorem get_apply (s : σ) : (get : StateM σ σ) s = (s, s) := rfl

/-! ## A record of calls -/

/-- The means of evaluation. -/
inductive Way where
  | fast
  | path
  | full
deriving DecidableEq

/-- What the debugger was asked to evaluate, and what it said. -/
inductive Exchange (ν : Type) where
  | fast (target : Variable ν) (e : WatchExpr) (name : Option String)
      (scratch : Bindings (Variable ν)) (said : Except FastError ν)
  | path (v : Variable ν) (path : WatchExpr) (said : Option ν)
  | full (target : Variable ν) (e : WatchExpr) (name : Option String) (said : Except String ν)

/-- A call of the debugger, with its states before and after. -/
structure Call (σ ν : Type) where
  exchange : Exchange ν
  before : σ
  after : σ

namespace Call

/-- The means that was called. -/
def way (c : Call σ ν) : Way :=
  match c.exchange with
  | .fast .. => .fast
  | .path .. => .path
  | .full .. => .full

/-- The variable that was handed out, if there was one. -/
def handle? (c : Call σ ν) : Option ν :=
  match c.exchange with
  | .fast _ _ _ _ said => said.toOption
  | .path _ _ said => said
  | .full _ _ _ said => said.toOption

/-- What was said for want of a variable. -/
def complaint (c : Call σ ν) : String :=
  match c.exchange with
  | .fast _ _ _ _ (.error failure) => failure.message
  | .full _ _ _ (.error message) => message
  | _ => ""

/-- Why a call found no result; none if it did. A variable that carries an
error is no result. -/
def reason? (d : Inspector σ ν) (c : Call σ ν) : Option String :=
  match c.handle? with
  | some handle => (d.facts c.after handle).error
  | none => some c.complaint

/-- Whether a call failed in a way that the others would share. -/
def isFinal (c : Call σ ν) : Bool :=
  match c.exchange with
  | .fast _ _ _ _ (.error failure) => failure.code.isFinal
  | _ => false

end Call

namespace Debugger

/-- Work that is noted down as a call. -/
def noted (exchange : α → Exchange ν) (act : StateM σ α) :
    StateM (σ × List (Call σ ν)) α := fun p =>
  ((act p.1).1, (act p.1).2, p.2 ++ [⟨exchange (act p.1).1, p.1, (act p.1).2⟩])

/-- The debugger with a record of the calls in its state. -/
def recording (d : Debugger σ ν) : Debugger (σ × List (Call σ ν)) ν where
  facts p := d.facts p.1
  pointee? p := d.pointee? p.1
  snapshot? p := d.snapshot? p.1
  text p := d.text p.1
  mightHaveChildren p := d.mightHaveChildren p.1
  children p := d.children p.1
  fast v e name scratch := noted (.fast v e name scratch) (d.fast v e name scratch)
  full v e name := noted (.full v e name) (d.full v e name)
  path v e := noted (.path v e) (d.path v e)

/-- What is noted down is done as it is without a record. -/
theorem noted_apply (exchange : α → Exchange ν) (act : StateM σ α) (p : σ × List (Call σ ν)) :
    noted exchange act p =
      ((act p.1).1, (act p.1).2, p.2 ++ [⟨exchange (act p.1).1, p.1, (act p.1).2⟩]) := rfl

end Debugger

namespace Variable

variable (d : Debugger σ ν) (p : σ × List (Call σ ν))

@[simp] theorem facts_recording :
    ∀ v : Variable ν, v.facts d.recording.toInspector p = v.facts d.toInspector p.1
  | debugger _ => rfl
  | failure .. => rfl
  | renamed inner .. => by simp only [facts, facts_recording inner]
  | ruled inner => by simp only [facts, facts_recording inner]
  | asChild inner _ => by simp only [facts, facts_recording inner]
  | more .. => rfl
  | synthetic owner .. => by simp only [facts, facts_recording owner]

@[simp] theorem followed_recording (v : Variable ν) :
    v.followed d.recording.toInspector p = v.followed d.toInspector p.1 := by
  simp only [followed, isIndirect, facts_recording]
  rfl

end Variable

namespace Evaluator

/-- The evaluator with a record of the calls in the debugger's state. -/
def recording (ev : Evaluator σ ν) : Evaluator (σ × List (Call σ ν)) ν :=
  ⟨ev.debugger.recording, ev.strategy⟩

theorem debugger_recording (ev : Evaluator σ ν) :
    ev.recording.debugger = ev.debugger.recording := rfl

/-! ## The parts of an evaluation -/

/-- The specifier with its pending size put in, if it has one. -/
def resolvedSpec (ev : Evaluator σ ν) (v : Variable ν) (scope : Scope (Variable ν)) :
    FormatSpec → StateM σ FormatSpec
  | .pending size suffix => do
    match ← ev.evaluate size v scope none with
    | .error _ => pure (.pending size suffix)
    | .ok answer =>
      pure (resized (.pending size suffix) (answer.text ev.debugger.toInspector (← get) .value))
  | spec => pure spec

/-- Evaluate an expression whose tokens are replaced and whose size is put in. -/
def evaluateAs (ev : Evaluator σ ν) (e : WatchExpr) (scratch : Bool) (v : Variable ν)
    (scope : Scope (Variable ν)) (name : Option String) :
    StateM σ (Except EvalError (Answer ν)) := do
  match ← tryEach (ev.attempts scratch e v scope name) with
  | .error reasons => pure (.error (.failed name e.display reasons))
  | .ok answer =>
    if scope.isScratchName e.value then
      pure (.ok (detached ev.debugger.toInspector (← get) e.spec.text answer))
    else pure (.ok answer)

/-- An expression is evaluated in two parts. -/
theorem evaluate_eq (ev : Evaluator σ ν) (expression : String) (v : Variable ν)
    (scope : Scope (Variable ν)) (name : Option String) :
    ev.evaluate expression v scope name = (do
      let spec ← ev.resolvedSpec v scope (WatchExpr.parse expression).spec
      ev.evaluateAs ⟨Substitution.substitute scope (WatchExpr.parse expression).value, spec⟩
        (Substitution.usesScratch scope (WatchExpr.parse expression).value) v scope name) := by
  rw [evaluate]
  dsimp only
  cases (WatchExpr.parse expression).spec with
  | plain text => rfl
  | sized n suffix => rfl
  | pending size suffix =>
    simp only [resolvedSpec, bind_assoc]
    congr 1
    funext answer
    cases answer with
    | error e => rfl
    | ok answer => rfl

/-! ## What is planned, and what is asked -/

/-- The means a strategy plans, in order. -/
def plan (strategy : Strategy) (scratch isPath : Bool) : List Way :=
  (if strategy ≠ .pathThenFull ∧ scratch = false then [.fast] else []) ++
  (if strategy = .pathThenFull ∧ isPath = true then [.path] else []) ++
  (if strategy ≠ .fastOnly ∨ scratch = true then [.full] else [])

/-- What leads from a variable to the member that an expression begins with. -/
def accessMark (d : Inspector σ ν) (s : σ) (v : Variable ν) (e : WatchExpr) : String :=
  if e.value.toList.head? = some '[' then ""
  else if (v.facts d s).isPointer then "->" else "."

/-- The expression as a path from a variable. -/
def pathFrom (d : Inspector σ ν) (s : σ) (v : Variable ν) (e : WatchExpr) : WatchExpr :=
  e.withValue (accessMark d s v e ++ e.value)

/-- A call for an expression: a member path is followed from the variable as it
is, and anything else is evaluated with the pointer followed. -/
def AskedFor (d : Inspector σ ν) (e : WatchExpr) (v : Variable ν) (scope : Scope (Variable ν))
    (name : Option String) (c : Call σ ν) : Prop :=
  match c.exchange with
  | .fast target e' name' scratch _ =>
    target = v.followed d c.before ∧ e' = e ∧ name' = name ∧ scratch = scope.scratch
  | .path v' path _ => v' = v ∧ path = pathFrom d c.before v e
  | .full target e' name' _ => target = v.followed d c.before ∧ e' = e ∧ name' = name

theorem asPath_eq (d : Inspector σ ν) (s : σ) (v : Variable ν) (e : WatchExpr) :
    asPath d s v e = pathFrom d s v e := by
  unfold asPath pathFrom accessMark
  by_cases h : e.value.toList.head? = some '['
  · rw [if_pos (by simpa using h), if_pos h]
    simp [WatchExpr.withValue]
  · rw [if_neg (by simpa using h), if_neg h]

/-! ## One attempt -/

/-- What a call amounts to, when it left the debugger in a state. -/
def CameTo (d : Inspector σ ν) (t : σ) (c : Call σ ν) : Attempt ν → Prop
  | .found answer => c.reason? d = none ∧ c.handle? = some answer.handle ∧ c.after = t
  | .missed reason => c.reason? d = some reason ∧ c.isFinal = false
  | .refused reason => c.reason? d = some reason ∧ c.isFinal = true

section Attempts

variable (ev : Evaluator σ ν) (e : WatchExpr) (v : Variable ν) (scope : Scope (Variable ν))
  (name : Option String)

/-- An attempt that is one call by a certain means, put as the expression asks,
with a record and without one. -/
def IsCall (w : Way) (recorded : StateM (σ × List (Call σ ν)) (Attempt ν))
    (act : StateM σ (Attempt ν)) (s : σ) : Prop :=
  ∃ c attempt t, c.way = w ∧ AskedFor ev.debugger.toInspector e v scope name c ∧
    CameTo ev.debugger.toInspector t c attempt ∧ act s = (attempt, t) ∧
    ∀ log, recorded (s, log) = (attempt, t, log ++ [c])

theorem accept_eq (answer : Answer ν) (s : σ) :
    ev.accept answer s =
      (match (ev.debugger.facts s answer.handle).error with
        | none => .found answer
        | some message => .missed message, s) := by
  unfold accept
  rw [bind_apply, get_apply]
  dsimp only
  cases (ev.debugger.facts s answer.handle).error with
  | none => rfl
  | some message => rfl

theorem accept_recording (answer : Answer ν) (p : σ × List (Call σ ν)) :
    ev.recording.accept answer p = ((ev.accept answer p.1).1, p) := by
  rw [accept_eq, accept_eq]
  rfl

theorem cameTo_accept {c : Call σ ν} {answer : Answer ν} (found : c.handle? = some answer.handle)
    (goesOn : c.isFinal = false) :
    CameTo ev.debugger.toInspector c.after c (ev.accept answer c.after).1 := by
  have reason : c.reason? ev.debugger.toInspector =
      (ev.debugger.facts c.after answer.handle).error := by
    unfold Call.reason?
    rw [found]
  rw [accept_eq]
  cases carried : (ev.debugger.facts c.after answer.handle).error with
  | none => exact ⟨reason.trans carried, found, rfl⟩
  | some message => exact ⟨reason.trans carried, goesOn⟩

theorem accept_same (answer : Answer ν) (s : σ) :
    ev.accept answer s = ((ev.accept answer s).1, s) := by
  rw [accept_eq]

/-- A call that handed out a variable amounts to what the variable does. -/
theorem isCall_of_handle (c : Call σ ν) (answer : Answer ν) {w : Way}
    {recorded : StateM (σ × List (Call σ ν)) (Attempt ν)} {act : StateM σ (Attempt ν)} {s : σ}
    (called : c.way = w) (asked : AskedFor ev.debugger.toInspector e v scope name c)
    (found : c.handle? = some answer.handle) (goesOn : c.isFinal = false)
    (plain : act s = ev.accept answer c.after)
    (noted : ∀ log, recorded (s, log) = ev.recording.accept answer (c.after, log ++ [c])) :
    ev.IsCall e v scope name w recorded act s :=
  ⟨c, (ev.accept answer c.after).1, c.after, called, asked, ev.cameTo_accept found goesOn,
    plain.trans (ev.accept_same answer c.after),
    fun log => (noted log).trans (ev.accept_recording answer _)⟩

/-- The fast evaluator is asked once. -/
theorem tryFast_isCall (s : σ) :
    ev.IsCall e v scope name .fast (ev.recording.tryFast e v scope name)
      (ev.tryFast e v scope name) s := by
  let target := v.followed ev.debugger.toInspector s
  have noted (log : List (Call σ ν)) :
      ev.recording.debugger.fast (v.followed ev.recording.debugger.toInspector (s, log)) e name
          scope.scratch (s, log) =
        Debugger.noted (.fast target e name scope.scratch)
          (ev.debugger.fast target e name scope.scratch) (s, log) := by
    rw [debugger_recording, Variable.followed_recording]
    rfl
  rcases said : ev.debugger.fast target e name scope.scratch s with ⟨failure | handle, t⟩
  · refine ⟨⟨.fast target e name scope.scratch (.error failure), s, t⟩,
      if failure.code.isFinal then .refused failure.message else .missed failure.message, t,
      rfl, ⟨rfl, rfl, rfl, rfl⟩, ?_, ?_, fun log => ?_⟩
    · cases final : failure.code.isFinal with
      | true => exact ⟨rfl, final⟩
      | false => exact ⟨rfl, final⟩
    · rw [tryFast, bind_apply, get_apply, bind_apply, said]
      rfl
    · rw [tryFast, bind_apply, get_apply, bind_apply, noted, Debugger.noted_apply, said]
      rfl
  · refine ev.isCall_of_handle e v scope name
      ⟨.fast target e name scope.scratch (.ok handle), s, t⟩ ⟨handle, none⟩ rfl
      ⟨rfl, rfl, rfl, rfl⟩ rfl rfl ?_ fun log => ?_
    · rw [tryFast, bind_apply, get_apply, bind_apply, said]
    · rw [tryFast, bind_apply, get_apply, bind_apply, noted, Debugger.noted_apply, said]

/-- Full evaluation is asked about the same variable with a record as without one, and the
call goes into the record. -/
theorem full_recording (s : σ) (log : List (Call σ ν)) :
    ev.recording.debugger.full (v.followed ev.recording.debugger.toInspector (s, log)) e name
        (s, log) =
      Debugger.noted (.full (v.followed ev.debugger.toInspector s) e name)
        (ev.debugger.full (v.followed ev.debugger.toInspector s) e name) (s, log) := by
  rw [debugger_recording, Variable.followed_recording]
  rfl

/-- Full evaluation is asked once. -/
theorem tryFull_isCall (s : σ) :
    ev.IsCall e v scope name .full (ev.recording.tryFull e v name) (ev.tryFull e v name) s := by
  let target := v.followed ev.debugger.toInspector s
  rcases said : ev.debugger.full target e name s with ⟨message | handle, t⟩
  · refine ⟨⟨.full target e name (.error message), s, t⟩, .missed message, t, rfl, ⟨rfl, rfl, rfl⟩,
      ⟨rfl, rfl⟩, ?_, fun log => ?_⟩
    · rw [tryFull, bind_apply, get_apply, bind_apply, said]
      rfl
    · rw [tryFull, bind_apply, get_apply, bind_apply, full_recording, Debugger.noted_apply, said]
      rfl
  · refine ev.isCall_of_handle e v scope name ⟨.full target e name (.ok handle), s, t⟩
      ⟨handle, none⟩ rfl ⟨rfl, rfl, rfl⟩ rfl rfl ?_ fun log => ?_
    · rw [tryFull, bind_apply, get_apply, bind_apply, said]
    · rw [tryFull, bind_apply, get_apply, bind_apply, full_recording, Debugger.noted_apply, said]

theorem asPath_recording (p : σ × List (Call σ ν)) :
    asPath ev.recording.debugger.toInspector p v e = asPath ev.debugger.toInspector p.1 v e := by
  rw [debugger_recording, asPath, asPath, Variable.facts_recording]

/-- A member path is followed once. -/
theorem tryPath_isCall {s : σ}
    (isPath : MemberPath.isPath (asPath ev.debugger.toInspector s v e).value = true) :
    ev.IsCall e v scope name .path (ev.recording.tryPath e v name) (ev.tryPath e v name) s := by
  let path := asPath ev.debugger.toInspector s v e
  have asked (said : Option ν) (t : σ) :
      AskedFor ev.debugger.toInspector e v scope name ⟨.path v path said, s, t⟩ :=
    ⟨rfl, asPath_eq ev.debugger.toInspector s v e⟩
  have noted (log : List (Call σ ν)) : ev.recording.debugger.path v path (s, log) =
      Debugger.noted (.path v path) (ev.debugger.path v path) (s, log) := rfl
  rcases said : ev.debugger.path v path s with ⟨_ | handle, t⟩
  · refine ⟨⟨.path v path none, s, t⟩, .missed "", t, rfl, asked _ _, ⟨rfl, rfl⟩, ?_, fun log => ?_⟩
    · rw [tryPath, bind_apply, get_apply, if_pos isPath, bind_apply, said]
      rfl
    · rw [tryPath, bind_apply, get_apply, asPath_recording, if_pos isPath, bind_apply, noted,
        Debugger.noted_apply, said]
      rfl
  · refine ev.isCall_of_handle e v scope name ⟨.path v path (some handle), s, t⟩
      ⟨handle, name.map fun n => (n, e.spec.text)⟩ rfl (asked _ _) rfl rfl ?_ fun log => ?_
    · rw [tryPath, bind_apply, get_apply, if_pos isPath, bind_apply, said]
    · rw [tryPath, bind_apply, get_apply, asPath_recording, if_pos isPath, bind_apply, noted,
        Debugger.noted_apply, said]

/-- What is no member path is not followed. -/
theorem tryPath_of_not_isPath {s : σ}
    (other : MemberPath.isPath (asPath ev.debugger.toInspector s v e).value = false) :
    ev.tryPath e v name s = (.missed "", s) ∧
      ∀ log, ev.recording.tryPath e v name (s, log) = (.missed "", s, log) := by
  constructor
  · rw [tryPath, bind_apply, get_apply]
    dsimp only
    rw [if_neg (by rw [other]; exact Bool.false_ne_true)]
    rfl
  · intro log
    rw [tryPath, bind_apply, get_apply, asPath_recording,
      if_neg (by rw [other]; exact Bool.false_ne_true)]
    rfl

end Attempts

/-! ## One attempt after the other -/

/-- The reasons that have words. -/
def inWords (reasons : List String) : List String := reasons.filter fun r => !r.isEmpty

/-- The calls of a plan, as far as it was followed. -/
structure Made (d : Inspector σ ν) (asked : Call σ ν → Prop) (plan : List Way)
    (made : List (Call σ ν)) : Prop where
  /-- The means are those of the plan, in order. -/
  inOrder : made.map Call.way <+: plan
  /-- Each call is put as the expression asks. -/
  asked : ∀ c ∈ made, asked c
  /-- There is no call after one that found a result or refused. -/
  goesOn : ∀ c ∈ made.dropLast, c.reason? d ≠ none ∧ c.isFinal = false
  /-- And only such a call leaves a part of the plan undone. -/
  stops : made.map Call.way = plan ∨
    ∃ c, made.getLast? = some c ∧ (c.reason? d = none ∨ c.isFinal = true)

/-- What the calls come to when they leave the debugger in a state: the result
that the last one found, or the reasons of all. -/
structure Tried (d : Inspector σ ν) (asked : Call σ ν → Prop) (plan : List Way)
    (made : List (Call σ ν)) (result : Except (List String) (Answer ν)) (t : σ) : Prop
    extends Made d asked plan made where
  found : ∀ answer, result = .ok answer →
    ∃ c, made.getLast? = some c ∧ c.reason? d = none ∧ c.handle? = some answer.handle ∧ c.after = t
  failed : ∀ reasons, result = .error reasons → (∀ c ∈ made, c.reason? d ≠ none) ∧
    inWords reasons = inWords (made.filterMap (Call.reason? d))

/-- A result, or one reason more why there is none. -/
def orReason (reason : String) : Except (List String) (Answer ν) →
    Except (List String) (Answer ν)
  | .ok answer => .ok answer
  | .error reasons => .error (reason :: reasons)

theorem tryEach_cons_apply (attempt : StateM σ (Attempt ν)) (more : List (StateM σ (Attempt ν)))
    (s : σ) :
    tryEach (attempt :: more) s =
      match attempt s with
      | (.found answer, t) => (.ok answer, t)
      | (.refused reason, t) => (.error [reason], t)
      | (.missed reason, t) => (orReason reason (tryEach more t).1, (tryEach more t).2) := by
  rw [tryEach, bind_apply]
  rcases attempt s with ⟨answer | reason | reason, t⟩
  · rfl
  · dsimp only
    rw [bind_apply]
    cases (tryEach more t).1 with
    | ok answer => rfl
    | error reasons => rfl
  · rfl

section Tried

variable {d : Inspector σ ν} {asked : Call σ ν → Prop} {w : Way} {ws : List Way} {c : Call σ ν}
  {made : List (Call σ ν)} {result : Except (List String) (Answer ν)} {reason : String} {t : σ}

theorem tried_nothing : Tried d asked [] [] (.error []) t where
  inOrder := List.prefix_refl _
  asked := List.forall_mem_nil _
  goesOn := List.forall_mem_nil _
  stops := .inl rfl
  found _ h := nomatch h
  failed _ h := by
    cases h
    exact ⟨List.forall_mem_nil _, rfl⟩

theorem tried_found {answer : Answer ν} (way : c.way = w) (here : asked c)
    (came : CameTo d t c (.found answer)) : Tried d asked (w :: ws) [c] (.ok answer) t where
  inOrder := by
    rw [List.map_singleton, way]
    exact List.prefix_append [w] ws
  asked := by simpa using here
  goesOn := List.forall_mem_nil _
  stops := .inr ⟨c, rfl, .inl came.1⟩
  found _ h := by
    cases h
    exact ⟨c, rfl, came.1, came.2.1, came.2.2⟩
  failed _ h := nomatch h

theorem tried_refused (way : c.way = w) (here : asked c) (came : CameTo d t c (.refused reason)) :
    Tried d asked (w :: ws) [c] (.error [reason]) t where
  inOrder := by
    rw [List.map_singleton, way]
    exact List.prefix_append [w] ws
  asked := by simpa using here
  goesOn := List.forall_mem_nil _
  stops := .inr ⟨c, rfl, .inr came.2⟩
  found _ h := nomatch h
  failed _ h := by
    cases h
    simp [came.1]

/-- A call that failed is followed by the others. -/
theorem Tried.cons {t' : σ} (h : Tried d asked ws made result t) (way : c.way = w) (here : asked c)
    (came : CameTo d t' c (.missed reason)) :
    Tried d asked (w :: ws) (c :: made) (orReason reason result) t := by
  obtain ⟨said, goesOn⟩ := came
  have failed : c.reason? d ≠ none := by simp [said]
  -- what was last among the others is last among all, if there are others
  refine ⟨⟨?_, List.forall_mem_cons.mpr ⟨here, h.asked⟩, ?_, ?_⟩, ?_, ?_⟩
  · rw [List.map_cons, way]
    exact (List.prefix_cons_inj w).mpr h.inOrder
  · cases made with
    | nil => exact List.forall_mem_nil _
    | cons c' made =>
      rw [List.dropLast_cons_cons]
      exact List.forall_mem_cons.mpr ⟨⟨failed, goesOn⟩, h.goesOn⟩
  · rcases h.stops with all | ⟨c', last, ends⟩
    · exact .inl (by rw [List.map_cons, way, all])
    · exact .inr ⟨c', by rw [List.getLast?_cons, last]; rfl, ends⟩
  · intro answer ok
    cases result with
    | error reasons => cases ok
    | ok answer' =>
      cases ok
      obtain ⟨c', last, found⟩ := h.found _ rfl
      exact ⟨c', by rw [List.getLast?_cons, last]; rfl, found⟩
  · intro reasons error
    cases result with
    | ok answer => cases error
    | error reasons' =>
      cases error
      obtain ⟨all, listed⟩ := h.failed _ rfl
      refine ⟨List.forall_mem_cons.mpr ⟨failed, all⟩, ?_⟩
      rw [List.filterMap_cons, said]
      unfold inWords at listed ⊢
      rw [List.filter_cons, List.filter_cons, listed]

/-- An attempt without a call says nothing. -/
theorem Tried.silent (h : Tried d asked ws made result t) :
    Tried d asked ws made (orReason "" result) t := by
  refine { h with found := fun answer ok => ?_, failed := fun reasons error => ?_ }
  · cases result with
    | error reasons => cases ok
    | ok answer' => exact h.found _ ok
  · cases result with
    | ok answer => cases error
    | error reasons' =>
      cases error
      exact h.failed reasons' rfl

end Tried

section Plans

variable (ev : Evaluator σ ν) (e : WatchExpr) (v : Variable ν) (scope : Scope (Variable ν))
  (name : Option String)

/-- Attempts that make the calls of a plan, with a record and without one. -/
def Follows (ws : List Way) (recorded : List (StateM (σ × List (Call σ ν)) (Attempt ν)))
    (acts : List (StateM σ (Attempt ν))) (s : σ) : Prop :=
  ∃ made result t,
    Tried ev.debugger.toInspector (AskedFor ev.debugger.toInspector e v scope name) ws made
      result t ∧
    tryEach acts s = (result, t) ∧
    ∀ log, tryEach recorded (s, log) = (result, t, log ++ made)

variable {ev e v scope name} {w : Way} {ws : List Way} {s : σ}
  {recorded : List (StateM (σ × List (Call σ ν)) (Attempt ν))} {acts : List (StateM σ (Attempt ν))}
  {recorded' : StateM (σ × List (Call σ ν)) (Attempt ν)} {act : StateM σ (Attempt ν)}

theorem follows_nil (s : σ) : ev.Follows e v scope name [] [] [] s :=
  ⟨[], .error [], s, tried_nothing, rfl, fun log => by rw [List.append_nil]; rfl⟩

theorem IsCall.follows (first : ev.IsCall e v scope name w recorded' act s)
    (others : ∀ t, ev.Follows e v scope name ws recorded acts t) :
    ev.Follows e v scope name (w :: ws) (recorded' :: recorded) (act :: acts) s := by
  obtain ⟨c, attempt, t, way, asked, came, plain, noted⟩ := first
  cases attempt with
  | found answer =>
    refine ⟨[c], .ok answer, t, tried_found way asked came, ?_, fun log => ?_⟩
    · rw [tryEach_cons_apply, plain]
    · rw [tryEach_cons_apply, noted]
  | refused reason =>
    refine ⟨[c], .error [reason], t, tried_refused way asked came, ?_, fun log => ?_⟩
    · rw [tryEach_cons_apply, plain]
    · rw [tryEach_cons_apply, noted]
  | missed reason =>
    obtain ⟨made, result, t', tried, plain', noted'⟩ := others t
    refine ⟨c :: made, orReason reason result, t', tried.cons way asked came, ?_, fun log => ?_⟩
    · rw [tryEach_cons_apply, plain]
      dsimp only
      rw [plain']
    · rw [tryEach_cons_apply, noted]
      dsimp only
      rw [noted', List.append_assoc]
      rfl

theorem Follows.silent (h : ev.Follows e v scope name ws recorded acts s)
    (plain : act s = (.missed "", s)) (noted : ∀ log, recorded' (s, log) = (.missed "", s, log)) :
    ev.Follows e v scope name ws (recorded' :: recorded) (act :: acts) s := by
  obtain ⟨made, result, t, tried, plain', noted'⟩ := h
  refine ⟨made, orReason "" result, t, tried.silent, ?_, fun log => ?_⟩
  · rw [tryEach_cons_apply, plain]
    dsimp only
    rw [plain']
  · rw [tryEach_cons_apply, noted]
    dsimp only
    rw [noted']

variable (ev e v scope name) in
/-- **The attempts make the calls that are planned.** -/
theorem attempts_follow (scratch : Bool) (s : σ) :
    ev.Follows e v scope name
      (plan ev.strategy scratch
        (MemberPath.isPath (pathFrom ev.debugger.toInspector s v e).value))
      (ev.recording.attempts scratch e v scope name) (ev.attempts scratch e v scope name) s := by
  have full (t : σ) : ev.Follows e v scope name [.full] [ev.recording.tryFull e v name]
      [ev.tryFull e v name] t :=
    (ev.tryFull_isCall e v scope name t).follows follows_nil
  have fast {ws : List Way} {recorded : List (StateM (σ × List (Call σ ν)) (Attempt ν))}
      {acts : List (StateM σ (Attempt ν))}
      (others : ∀ t, ev.Follows e v scope name ws recorded acts t) :=
    (ev.tryFast_isCall e v scope name s).follows others
  -- the scratch flag leaves the fast evaluator out, and a path is asked only for its own strategy
  unfold attempts plan
  rw [show ev.recording.strategy = ev.strategy from rfl]
  cases strategy : ev.strategy with
  | pathThenFull =>
    cases path : MemberPath.isPath (pathFrom ev.debugger.toInspector s v e).value with
    | true =>
      rw [← asPath_eq] at path
      have h := (ev.tryPath_isCall e v scope name path).follows full
      cases scratch with
      | true => exact h
      | false => exact h
    | false =>
      rw [← asPath_eq] at path
      obtain ⟨plain, noted⟩ := ev.tryPath_of_not_isPath e v name path
      have h := (full s).silent plain noted
      cases scratch with
      | true => exact h
      | false => exact h
  | fastOnly =>
    cases scratch with
    | true => exact full s
    | false => exact fast follows_nil
  | fastThenFull =>
    cases scratch with
    | true => exact full s
    | false => exact fast full

end Plans

/-! ## A whole evaluation -/

section Evaluations

variable (ev : Evaluator σ ν) (v : Variable ν) (scope : Scope (Variable ν))

/-- Work that is done as it is without a record, and notes its calls down. -/
def IsRecorded (recorded : StateM (σ × List (Call σ ν)) α) (act : StateM σ α) : Prop :=
  ∀ s, ∃ calls, ∀ log, recorded (s, log) = ((act s).1, (act s).2, log ++ calls)

theorem IsRecorded.bind {recorded : StateM (σ × List (Call σ ν)) α} {act : StateM σ α}
    {recorded' : α → StateM (σ × List (Call σ ν)) β} {next : α → StateM σ β}
    (first : IsRecorded recorded act) (rest : ∀ a, IsRecorded (recorded' a) (next a)) :
    IsRecorded (recorded >>= recorded') (act >>= next) := by
  intro s
  obtain ⟨calls, noted⟩ := first s
  obtain ⟨calls', noted'⟩ := rest (act s).1 (act s).2
  refine ⟨calls ++ calls', fun log => ?_⟩
  rw [bind_apply, bind_apply, noted, noted', List.append_assoc]

/-- What the attempts come to as the result of an expression. -/
def concluded (d : Inspector σ ν) (t : σ) (e : WatchExpr) (name : Option String) :
    Except (List String) (Answer ν) → Except EvalError (Answer ν)
  | .error reasons => .error (.failed name e.display reasons)
  | .ok answer =>
    .ok (if scope.isScratchName e.value then detached d t e.spec.text answer else answer)

theorem evaluateAs_apply (e : WatchExpr) (scratch : Bool) (name : Option String) (s : σ) :
    ev.evaluateAs e scratch v scope name s =
      let r := tryEach (ev.attempts scratch e v scope name) s
      (concluded scope ev.debugger.toInspector r.2 e name r.1, r.2) := by
  rw [evaluateAs, bind_apply]
  dsimp only
  cases (tryEach (ev.attempts scratch e v scope name) s).1 with
  | error reasons => rfl
  | ok answer =>
    dsimp only [concluded]
    split <;> rfl

/-- What an evaluation without a pending size comes to. -/
theorem evaluateAs_calls (e : WatchExpr) (scratch : Bool) (name : Option String) (s : σ) :
    ∃ made tried t,
      Tried ev.debugger.toInspector (AskedFor ev.debugger.toInspector e v scope name)
        (plan ev.strategy scratch
          (MemberPath.isPath (pathFrom ev.debugger.toInspector s v e).value)) made tried t ∧
      ev.evaluateAs e scratch v scope name s =
        (concluded scope ev.debugger.toInspector t e name tried, t) ∧
      ∀ log, ev.recording.evaluateAs e scratch v scope name (s, log) =
        (concluded scope ev.debugger.toInspector t e name tried, t, log ++ made) := by
  obtain ⟨made, tried, t, h, plain, noted⟩ := ev.attempts_follow e v scope name scratch s
  refine ⟨made, tried, t, h, ?_, fun log => ?_⟩
  · rw [evaluateAs_apply, plain]
  · rw [evaluateAs_apply, noted]
    cases tried with
    | error reasons => rfl
    | ok answer => rfl

theorem evaluateAs_isRecorded (e : WatchExpr) (scratch : Bool) (name : Option String) :
    IsRecorded (ev.recording.evaluateAs e scratch v scope name)
      (ev.evaluateAs e scratch v scope name) := by
  intro s
  obtain ⟨made, tried, t, -, plain, noted⟩ := ev.evaluateAs_calls v scope e scratch name s
  exact ⟨made, fun log => by rw [noted, plain]⟩

theorem resolvedSpec_isRecorded {spec : FormatSpec}
    (sizes : ∀ size suffix, spec = .pending size suffix →
      IsRecorded (ev.recording.evaluate size v scope none) (ev.evaluate size v scope none)) :
    IsRecorded (ev.recording.resolvedSpec v scope spec) (ev.resolvedSpec v scope spec) := by
  intro s
  cases spec with
  | plain text => exact ⟨[], fun log => by rw [List.append_nil]; rfl⟩
  | sized n suffix => exact ⟨[], fun log => by rw [List.append_nil]; rfl⟩
  | pending size suffix =>
    obtain ⟨calls, noted⟩ := sizes size suffix rfl s
    refine ⟨calls, fun log => ?_⟩
    rw [resolvedSpec, resolvedSpec, bind_apply, bind_apply, noted]
    dsimp only
    cases (ev.evaluate size v scope none s).1 with
    | error e => rfl
    | ok answer => rfl

/-- **A record changes nothing**: the expression is evaluated as it is without
one, the expression of its size too. -/
theorem evaluate_isRecorded (expression : String) (name : Option String) :
    IsRecorded (ev.recording.evaluate expression v scope name)
      (ev.evaluate expression v scope name) := by
  have sizes (size suffix : String)
      (_h : (WatchExpr.parse expression).spec = .pending size suffix) :=
    -- the expression of a size is a part of the whole
    evaluate_isRecorded size none
  rw [evaluate_eq, evaluate_eq]
  exact (ev.resolvedSpec_isRecorded v scope sizes).bind fun spec =>
    ev.evaluateAs_isRecorded v scope _ _ name
termination_by expression.length
decreasing_by exact WatchExpr.length_pending_lt _h

/-- The result is what was found, or a snapshot of it. -/
theorem exists_of_concluded_eq_ok {d : Inspector σ ν} {t : σ} {e : WatchExpr} {name : Option String}
    {tried : Except (List String) (Answer ν)} {answer : Answer ν}
    (h : concluded scope d t e name tried = .ok answer) :
    ∃ found, tried = .ok found ∧ (answer.handle = found.handle ∨
      d.snapshot? t found.handle e.spec.text = some answer.handle) := by
  cases tried with
  | error reasons => cases h
  | ok found =>
    refine ⟨found, rfl, ?_⟩
    cases h
    split
    · unfold detached
      split
      · exact .inl rfl
      · cases copied : d.snapshot? t found.handle e.spec.text with
        | none => exact .inl rfl
        | some copy => exact .inr rfl
    · exact .inl rfl

theorem error_toVariable (d : Inspector σ ν) (t : σ) (answer : Answer ν) :
    (answer.toVariable.facts d t).error = (d.facts t answer.handle).error := by
  unfold Answer.toVariable
  split
  · rfl
  · rfl

/-- The error of an evaluation whose calls gave these reasons. -/
def failureMessage (name : Option String) (e : WatchExpr) (reasons : List String) : String :=
  "Failed to evaluate expression, display name: " ++ name.getD "" ++
    ", expression: " ++ e.display ++
    if reasons.isEmpty then ""
    else ", info: " ++ EvalError.braced (String.intercalate "; " reasons)

section

variable {scope} {d : Inspector σ ν} {asked : Call σ ν → Prop} {ws : List Way}
  {made : List (Call σ ν)} {tried : Except (List String) (Answer ν)} {t : σ} {e : WatchExpr}
  {name : Option String}

/-- A result is what the last call handed out, or a snapshot of it. -/
theorem Tried.exists_of_eq_ok (h : Tried d asked ws made tried t) {answer : Answer ν}
    (ok : concluded scope d t e name tried = .ok answer) :
    ∃ c handle, made.getLast? = some c ∧ c.after = t ∧ c.reason? d = none ∧
      c.handle? = some handle ∧
      (answer.handle = handle ∨ d.snapshot? t handle e.spec.text = some answer.handle) := by
  obtain ⟨found, rfl, taken⟩ := exists_of_concluded_eq_ok scope ok
  obtain ⟨c, last, free, handed, after⟩ := h.found found rfl
  exact ⟨c, found.handle, last, after, free, handed, taken⟩

/-- It carries no error, if snapshots carry none of their own. -/
theorem Tried.error_eq_none (h : Tried d asked ws made tried t)
    (snapshots : ∀ s handle spec copy, d.snapshot? s handle spec = some copy →
      (d.facts s handle).error = none → (d.facts s copy).error = none)
    {answer : Answer ν} (ok : concluded scope d t e name tried = .ok answer) :
    (answer.toVariable.facts d t).error = none := by
  obtain ⟨c, handle, -, rfl, free, handed, taken⟩ := h.exists_of_eq_ok ok
  have none : (d.facts c.after handle).error = none := by
    unfold Call.reason? at free
    rwa [handed] at free
  rw [error_toVariable]
  rcases taken with same | copied
  · rw [same]
    exact none
  · exact snapshots _ _ _ _ copied none

/-- An error lists what every call gave as its reason. -/
theorem Tried.message_eq (h : Tried d asked ws made tried t) {error : EvalError}
    (failed : concluded scope d t e name tried = .error error) :
    (∀ c ∈ made, c.reason? d ≠ none) ∧
      error.message = failureMessage name e (inWords (made.filterMap (Call.reason? d))) := by
  cases tried with
  | ok found => cases failed
  | error reasons =>
    cases failed
    obtain ⟨all, listed⟩ := h.failed reasons rfl
    refine ⟨all, ?_⟩
    rw [← listed]
    rfl

end

/-- **What is called to evaluate an expression.** First the calls for its size, if
one is pending. Then those of the plan, each put as the expression asks, until
one finds a result or refuses. The result is what the last call handed out, or
a snapshot of that, and carries no error if snapshots carry none of their own.
If there is none, every call failed, and the error lists the reasons they gave
in words. -/
theorem evaluate_calls (expression : String) (name : Option String) (s : σ) :
    ∃ spec s₁ sized made result t,
      let d := ev.debugger.toInspector
      let parsed := WatchExpr.parse expression
      let e : WatchExpr := ⟨Substitution.substitute scope parsed.value, spec⟩
      let scratch := Substitution.usesScratch scope parsed.value
      (∀ log, ev.recording.resolvedSpec v scope parsed.spec (s, log) = (spec, s₁, log ++ sized)) ∧
      (∀ log, ev.recording.evaluate expression v scope name (s, log) =
        (result, t, log ++ sized ++ made)) ∧
      ev.evaluate expression v scope name s = (result, t) ∧
      Made d (AskedFor d e v scope name)
        (plan ev.strategy scratch (MemberPath.isPath (pathFrom d s₁ v e).value)) made ∧
      (∀ answer, result = .ok answer → ∃ c handle, made.getLast? = some c ∧ c.after = t ∧
        c.reason? d = none ∧ c.handle? = some handle ∧
        (answer.handle = handle ∨ d.snapshot? t handle spec.text = some answer.handle)) ∧
      (∀ error, result = .error error → (∀ c ∈ made, c.reason? d ≠ none) ∧
        error.message = failureMessage name e (inWords (made.filterMap (Call.reason? d)))) ∧
      ((∀ s handle spec copy, d.snapshot? s handle spec = some copy →
          (d.facts s handle).error = none → (d.facts s copy).error = none) →
        ∀ answer, result = .ok answer → (answer.toVariable.facts d t).error = none) := by
  -- the size is evaluated first, with calls of its own; the rest is one plan of attempts
  have sizes (size suffix : String)
      (_ : (WatchExpr.parse expression).spec = .pending size suffix) :=
    ev.evaluate_isRecorded v scope size none
  obtain ⟨sized, resolved⟩ := ev.resolvedSpec_isRecorded v scope sizes s
  let r := ev.resolvedSpec v scope (WatchExpr.parse expression).spec s
  let e : WatchExpr := ⟨Substitution.substitute scope (WatchExpr.parse expression).value, r.1⟩
  obtain ⟨made, tried, t, h, plain, noted⟩ := ev.evaluateAs_calls v scope e
    (Substitution.usesScratch scope (WatchExpr.parse expression).value) name r.2
  refine ⟨r.1, r.2, sized, made, concluded scope ev.debugger.toInspector t e name tried, t,
    resolved, fun log => ?_, ?_, h.toMade, fun answer ok => h.exists_of_eq_ok ok,
    fun error failed => h.message_eq failed,
    fun snapshots answer ok => h.error_eq_none snapshots ok⟩
  · rw [evaluate_eq, bind_apply, resolved]
    exact noted _
  · rw [evaluate_eq, bind_apply]
    exact plain

end Evaluations

/-! ## Expressions that are evaluated as they are written -/

/-- An expression without a specifier in which nothing is replaced. -/
structure AsWritten (scope : Scope (Variable ν)) (expression : String) : Prop where
  parsed : WatchExpr.parse expression = ⟨expression, .plain ""⟩
  kept : Substitution.substitute scope expression = expression
  unbound : Substitution.usesScratch scope expression = false
  unnamed : scope.isScratchName expression = false

instance (scope : Scope (Variable ν)) (expression : String) :
    Decidable (AsWritten scope expression) :=
  decidable_of_iff (WatchExpr.parse expression = ⟨expression, .plain ""⟩ ∧
      Substitution.substitute scope expression = expression ∧
      Substitution.usesScratch scope expression = false ∧ scope.isScratchName expression = false)
    ⟨fun ⟨parsed, kept, unbound, unnamed⟩ => ⟨parsed, kept, unbound, unnamed⟩,
      fun ⟨parsed, kept, unbound, unnamed⟩ => ⟨parsed, kept, unbound, unnamed⟩⟩

/-- What the fast evaluator answers is the result. -/
theorem evaluate_of_fast {ev : Evaluator σ ν} {expression : String} {v : Variable ν}
    {scope : Scope (Variable ν)} {name : Option String} {handle : ν} {s t : σ}
    (asks : ev.strategy.usesFast = true) (written : AsWritten scope expression)
    (said : ev.debugger.fast (v.followed ev.debugger.toInspector s) ⟨expression, .plain ""⟩ name
      scope.scratch s = (.ok handle, t))
    (free : (ev.debugger.facts t handle).error = none) :
    ev.evaluate expression v scope name s = (.ok ⟨handle, none⟩, t) := by
  obtain ⟨parsed, kept, unbound, unnamed⟩ := written
  have found : ev.tryFast ⟨expression, .plain ""⟩ v scope name s = (.found ⟨handle, none⟩, t) := by
    rw [tryFast, bind_apply, get_apply, bind_apply, said]
    dsimp only
    rw [accept_eq, free]
  have tried : tryEach (ev.attempts false ⟨expression, .plain ""⟩ v scope name) s =
      (.ok ⟨handle, none⟩, t) := by
    unfold attempts
    rw [asks]
    exact (tryEach_cons_apply _ _ s).trans (by rw [found])
  have resolved : ev.resolvedSpec v scope (.plain "") = pure (.plain "") := rfl
  rw [evaluate_eq, parsed]
  dsimp only
  rw [kept, unbound, resolved, pure_bind, evaluateAs_apply, tried]
  dsimp only [concluded]
  rw [unnamed, if_neg Bool.false_ne_true]

end Evaluator

end WatchView
