import WatchView.Proofs.Evaluation.Attempts
import WatchView.Proofs.Listing.CustomWindows
import WatchView.Proofs.Listing.Queries
import WatchView.Proofs.Listing.Shared
import WatchView.Proofs.Program.Failures
/-!
# What a custom list does

Asked for anything, a custom list looks at its guard, begins if it has not, and
runs its program (`Works`). It begins once, so its variables are created and its
size is evaluated at most once (`Works.declares_once`, `Works.sizes_once`), and
the program goes on from where it is, one step after the other.

What its rows are can be told from its deeds (`Works.progress`): they are the
items that were shown, and the failure behind them if there was one. After a
failure nothing but the guard is evaluated (`Works.frozen`).

As long as the guard answers the same, the rows it is known to have stay, and
their number does not shrink (`Stands.ensures_ask`).
-/

namespace WatchView.CustomListing

open Bounded

variable {σ ν : Type}

/-! ## Deeds -/

/-- What a custom list does with the debugger, and what comes of it. -/
inductive Deed (ν : Type) where
  /-- It looks at its guard. -/
  | guard (answer : Except EvalError Bool)
  /-- It creates a variable. -/
  | declare (decl : VariableDecl) (failure : Option EvalError)
  /-- It evaluates the declared size, and passes over these failures. -/
  | size (passed : List EvalError) (result : Except ExpandError Nat)
  /-- It runs its program for one step, from one position to another. -/
  | step (position : Sequence) (failures : List EvalError)
      (result : Except EvalError (Step (Variable ν))) (next : Sequence)

namespace Deed

/-- The answer of the guard, if it was looked at. -/
def answer? : Deed ν → Option (Except EvalError Bool)
  | guard answer => some answer
  | _ => none

/-- If it looks at the guard, this is the answer. -/
def Answers (answer : Except EvalError Bool) (d : Deed ν) : Prop :=
  ∀ a, d.answer? = some a → a = answer

/-- The variable that was to be created. -/
def declared? : Deed ν → Option VariableDecl
  | declare decl _ => some decl
  | _ => none

/-- Whether the size was evaluated. -/
def isSize : Deed ν → Bool
  | size _ _ => true
  | _ => false

/-- The item that was shown. -/
def item? : Deed ν → Option (Variable ν)
  | step _ _ (.ok (.item row)) _ => some row
  | _ => none

/-- The evaluations that failed, except those of optional sizes. -/
def failures : Deed ν → List EvalError
  | guard _ => []
  | declare _ failure => failure.toList
  | size _ (.error (.evaluation e)) => [e]
  | size _ _ => []
  | step _ failures _ _ => failures

/-- From where to where the program went. -/
def went? : Deed ν → Option (Sequence × Sequence)
  | step position _ _ next => some (position, next)
  | _ => none

end Deed

/-- `Resumes p steps q`: a program goes from `p` to `q` by these steps, each from
where the one before ended. -/
inductive Resumes : Option Sequence → List (Sequence × Sequence) → Option Sequence → Prop
  | rests {p : Option Sequence} : Resumes p [] p
  | step {a b : Sequence} {steps : List (Sequence × Sequence)} {q : Option Sequence}
      (others : Resumes (some b) steps q) : Resumes (some a) ((a, b) :: steps) q

/-- Where the program is, or is to begin. -/
def position (l : CustomListing ν) : Option Sequence :=
  match l.run with
  | some run => some run.program
  | none => (Program.compile l.rule.body).toOption

/-- Create a variable under a scratch name. -/
def declareNext (ev : Evaluator σ ν) (owner : Variable ν) (decl : VariableDecl)
    (scope : Scope (Variable ν)) : Run σ ν (Except EvalError (Scope (Variable ν))) := do
  let scratch ← Engine.scratchName decl.name
  ev.declare owner decl.name decl.initial (scope.bindToken decl.name scratch)

/-- `Declares ev owner decls scope s deeds result s'`: variables are created, one
after the other, until one cannot be. -/
inductive Declares (ev : Evaluator σ ν) (owner : Variable ν) :
    List VariableDecl → Scope (Variable ν) → Session σ ν → List (Deed ν) →
      Except EvalError (Scope (Variable ν)) → Session σ ν → Prop
  | all {scope : Scope (Variable ν)} {s : Session σ ν} :
      Declares ev owner [] scope s [] (.ok scope) s
  | fails {decl : VariableDecl} {decls : List VariableDecl} {scope : Scope (Variable ν)}
      {s s' : Session σ ν} {e : EvalError}
      (failed : declareNext ev owner decl scope s = (.error e, s')) :
      Declares ev owner (decl :: decls) scope s [.declare decl (some e)] (.error e) s'
  | next {decl : VariableDecl} {decls : List VariableDecl} {scope scope' : Scope (Variable ν)}
      {s s' s'' : Session σ ν} {deeds : List (Deed ν)}
      {r : Except EvalError (Scope (Variable ν))}
      (declared : declareNext ev owner decl scope s = (.ok scope', s'))
      (others : Declares ev owner decls scope' s' deeds r s'') :
      Declares ev owner (decl :: decls) scope s (.declare decl none :: deeds) r s''

/-- `Sized ev v scope sizes t passed result t'`: sizes are evaluated, one after the
other, until one applies or fails. Optional ones that fail are passed over. -/
inductive Sized (ev : Evaluator σ ν) (v : Variable ν) (scope : Scope (Variable ν)) :
    List GuardedText → σ → List EvalError → Except ExpandError Nat → σ → Prop
  | none {t : σ} : Sized ev v scope [] t [] (.error .noSize) t
  | found {size : GuardedText} {sizes : List GuardedText} {t t' : σ} {n : Nat}
      (evaluated : ev.sizeValue size v scope t = (.ok (some n), t')) :
      Sized ev v scope (size :: sizes) t [] (.ok n) t'
  | absent {size : GuardedText} {sizes : List GuardedText} {t t' t'' : σ}
      {passed : List EvalError} {r : Except ExpandError Nat}
      (evaluated : ev.sizeValue size v scope t = (.ok .none, t'))
      (others : Sized ev v scope sizes t' passed r t'') :
      Sized ev v scope (size :: sizes) t passed r t''
  | passed {size : GuardedText} {sizes : List GuardedText} {t t' t'' : σ} {e : EvalError}
      {passed : List EvalError} {r : Except ExpandError Nat} (optional : size.guard.optional = true)
      (failed : ev.sizeValue size v scope t = (.error e, t'))
      (others : Sized ev v scope sizes t' passed r t'') :
      Sized ev v scope (size :: sizes) t (e :: passed) r t''
  | fails {size : GuardedText} {sizes : List GuardedText} {t t' : σ} {e : EvalError}
      (required : size.guard.optional = false)
      (failed : ev.sizeValue size v scope t = (.error e, t')) :
      Sized ev v scope (size :: sizes) t [] (.error (.evaluation e)) t'

/-- This is how the declared size is evaluated. -/
theorem exists_sized (ev : Evaluator σ ν) (v : Variable ν) (scope : Scope (Variable ν))
    (sizes : List GuardedText) (t : σ) :
    ∃ passed, Sized ev v scope sizes t passed (ev.declaredSize v scope sizes t).1
      (ev.declaredSize v scope sizes t).2 := by
  induction sizes generalizing t with
  | nil => exact ⟨[], .none⟩
  | cons size sizes ih =>
    unfold Evaluator.declaredSize
    rw [bind_apply]
    rcases evaluated : ev.sizeValue size v scope t with ⟨e | _ | n, t'⟩
    · dsimp only
      obtain ⟨passed, others⟩ := ih t'
      by_cases optional : size.guard.optional = true
      · rw [if_pos optional]
        exact ⟨_, .passed optional evaluated others⟩
      · rw [if_neg optional]
        exact ⟨[], .fails (by simpa using optional) evaluated⟩
    · obtain ⟨passed, others⟩ := ih t'
      exact ⟨passed, .absent evaluated others⟩
    · exact ⟨[], .found evaluated⟩

/-- The list with the size that was evaluated, if it is one. -/
def withSize (l : CustomListing ν) : Except ExpandError Nat → CustomListing ν
  | .ok n => { l with size := some n }
  | .error (.evaluation e) => l.fail e
  | .error _ => l

/-- `Works ev c deeds c'`: a custom list in a session goes from `c` to `c'` by these
deeds. Its limit and its standing are only noted, and rows for missing items
evaluate nothing. -/
inductive Works (ev : Evaluator σ ν) :
    CustomListing ν × Session σ ν → List (Deed ν) → CustomListing ν × Session σ ν → Prop
  | rests {c : CustomListing ν × Session σ ν} : Works ev c [] c
  | noted {l : CustomListing ν} {s : Session σ ν} {limit : Nat} {standing : Standing ν}
      {current : Bool} {deeds : List (Deed ν)} {c : CustomListing ν × Session σ ν}
      (others : Works ev ({ l with limit, standing, current }, s) deeds c) : Works ev (l, s) deeds c
  | padded {l : CustomListing ν} {s : Session σ ν} {target : Nat} {deeds : List (Deed ν)}
      {c : CustomListing ν × Session σ ν} (others : Works ev (l.padded target, s) deeds c) :
      Works ev (l, s) deeds c
  | guard {l : CustomListing ν} {s : Session σ ν} {t : σ} {answer : Except EvalError Bool}
      {deeds : List (Deed ν)} {c : CustomListing ν × Session σ ν}
      (asked : l.context.applies ev l.rule.guard s.target = (answer, t))
      (others : Works ev (l, { s with target := t }) deeds c) :
      Works ev (l, s) (.guard answer :: deeds) c
  /-- A list that has not begun may fail to create its variables. -/
  | fails {l : CustomListing ν} {s s' : Session σ ν} {program : Sequence} {e : EvalError}
      {first deeds : List (Deed ν)} {c : CustomListing ν × Session σ ν} (fresh : l.run = none)
      (compiled : Program.compile l.rule.body = .ok program)
      (declares : Declares ev l.context.owner l.rule.declarations l.context.scope s first
        (.error e) s')
      (others : Works ev (fail { l with run := some { program, scope := l.context.scope } } e, s')
        deeds c) :
      Works ev (l, s) (first ++ deeds) c
  /-- Or it creates them, evaluates its size and begins its program. -/
  | begins {l : CustomListing ν} {s s' : Session σ ν} {t : σ} {program : Sequence}
      {scope : Scope (Variable ν)} {first deeds : List (Deed ν)} {passed : List EvalError}
      {size : Except ExpandError Nat} {c : CustomListing ν × Session σ ν} (fresh : l.run = none)
      (compiled : Program.compile l.rule.body = .ok program)
      (declares : Declares ev l.context.owner l.rule.declarations l.context.scope s first
        (.ok scope) s')
      (sized : Sized ev l.context.owner scope l.rule.sizes s'.target passed size t)
      (others : Works ev (withSize { l with run := some { program, scope } } size,
        { s' with target := t }) deeds c) :
      Works ev (l, s) (first ++ .size passed size :: deeds) c
  /-- A program goes on from where it is, unless it has ended or failed. The
  evaluations that fail on the way are noted. -/
  | step {l : CustomListing ν} {s : Session σ ν} {run : ProgramRun ν} {program : Sequence}
      {items : Nat} {t : σ} {failures : List EvalError}
      {result : Except EvalError (Step (Variable ν))} {deeds : List (Deed ν)}
      {c : CustomListing ν × Session σ ν} (here : l.run = some run) (sane : l.failed = false)
      (going : run.program.isFinished = false)
      (stepped : outcome (run.program.step (host ev { l.context with scope := run.scope }).noting)
        (run.items, s.target, []) = ((result, program), items, t, failures))
      (others : Works ev (l.afterStep { run with program, items } result, { s with target := t })
        deeds c) :
      Works ev (l, s) (.step run.program failures result program :: deeds) c

section Works

variable {ev : Evaluator σ ν} {c c' c'' : CustomListing ν × Session σ ν} {deeds deeds' : List (Deed ν)}

theorem Works.trans (h : Works ev c deeds c') (h' : Works ev c' deeds' c'') :
    Works ev c (deeds ++ deeds') c'' := by
  induction h with
  | rests => exact h'
  | noted _ ih => exact .noted (ih h')
  | padded _ ih => exact .padded (ih h')
  | guard asked _ ih => exact .guard asked (ih h')
  | fails fresh compiled declares _ ih =>
    rw [List.append_assoc]
    exact .fails fresh compiled declares (ih h')
  | begins fresh compiled declares sized _ ih =>
    rw [List.append_assoc]
    exact .begins fresh compiled declares sized (ih h')
  | step here sane going stepped _ ih => exact .step here sane going stepped (ih h')

/-! ## What is done once -/

@[simp] theorem rule_fail (l : CustomListing ν) (e : EvalError) : (l.fail e).rule = l.rule := rfl

@[simp] theorem run_fail (l : CustomListing ν) (e : EvalError) : (l.fail e).run = l.run := rfl

@[simp] theorem failed_fail (l : CustomListing ν) (e : EvalError) : (l.fail e).failed = true := rfl

@[simp] theorem rule_padded (l : CustomListing ν) (target : Nat) :
    (l.padded target).rule = l.rule := by
  obtain ⟨_, _, same⟩ := l.exists_padded_eq target
  rw [same]

@[simp] theorem context_padded (l : CustomListing ν) (target : Nat) :
    (l.padded target).context = l.context := by
  obtain ⟨_, _, same⟩ := l.exists_padded_eq target
  rw [same]

@[simp] theorem context_withSize (l : CustomListing ν) (r : Except ExpandError Nat) :
    (l.withSize r).context = l.context := by
  unfold withSize
  split <;> rfl

@[simp] theorem rule_withSize (l : CustomListing ν) (r : Except ExpandError Nat) :
    (l.withSize r).rule = l.rule := by
  unfold withSize
  split <;> rfl

@[simp] theorem run_withSize (l : CustomListing ν) (r : Except ExpandError Nat) :
    (l.withSize r).run = l.run := by
  unfold withSize
  split <;> rfl

@[simp] theorem context_afterStep (l : CustomListing ν) (run : ProgramRun ν)
    (r : Except EvalError (Step (Variable ν))) : (l.afterStep run r).context = l.context := by
  unfold afterStep
  split <;> rfl

@[simp] theorem rule_afterStep (l : CustomListing ν) (run : ProgramRun ν)
    (r : Except EvalError (Step (Variable ν))) : (l.afterStep run r).rule = l.rule := by
  unfold afterStep
  split <;> rfl

@[simp] theorem run_afterStep (l : CustomListing ν) (run : ProgramRun ν)
    (r : Except EvalError (Step (Variable ν))) : (l.afterStep run r).run = some run := by
  unfold afterStep
  split <;> rfl

/-- The rule and the context stay. -/
theorem Works.same (h : Works ev c deeds c') :
    c'.1.rule = c.1.rule ∧ c'.1.context = c.1.context := by
  induction h with
  | rests => exact ⟨rfl, rfl⟩
  | noted _ ih => exact ih
  | padded _ ih => exact ⟨ih.1.trans (rule_padded _ _), ih.2.trans (context_padded _ _)⟩
  | guard _ _ ih => exact ih
  | fails _ _ _ _ ih => exact ih
  | begins _ _ _ _ _ ih => exact ⟨ih.1.trans (rule_withSize _ _), ih.2.trans (context_withSize _ _)⟩
  | step _ _ _ _ _ ih =>
    exact ⟨ih.1.trans (rule_afterStep _ _ _), ih.2.trans (context_afterStep _ _ _)⟩

/-- The variables that are created are the first of those declared, and nothing
else is done meanwhile. -/
theorem Declares.declared {owner : Variable ν} {decls : List VariableDecl}
    {scope : Scope (Variable ν)} {s s' : Session σ ν} {r : Except EvalError (Scope (Variable ν))}
    (h : Declares ev owner decls scope s deeds r s') :
    deeds.filterMap Deed.declared? <+: decls ∧ deeds.filter Deed.isSize = [] ∧
      deeds.filterMap Deed.item? = [] ∧ deeds.filterMap Deed.answer? = [] ∧
      deeds.filterMap Deed.went? = [] ∧ deeds.flatMap Deed.failures = failureOf r := by
  induction h with
  | all => exact ⟨List.nil_prefix, rfl, rfl, rfl, rfl, rfl⟩
  | fails => exact ⟨⟨_, rfl⟩, rfl, rfl, rfl, rfl, rfl⟩
  | next _ _ ih =>
    obtain ⟨first, others⟩ := ih
    exact ⟨(List.prefix_cons_inj _).mpr first, others⟩

/-- A guard that answers the same on all states does so in all deeds. -/
theorem Works.answers (h : Works ev c deeds c') {answer : Except EvalError Bool}
    (always : ∀ t, (c.1.context.applies ev c.1.rule.guard t).1 = answer) :
    ∀ d ∈ deeds, d.Answers answer := by
  have others {deeds : List (Deed ν)} (none : deeds.filterMap Deed.answer? = []) :
      ∀ d ∈ deeds, d.Answers answer := by
    intro d here a said
    cases (List.filterMap_eq_nil_iff.mp none d here).symm.trans said
  induction h with
  | rests => exact List.forall_mem_nil _
  | noted _ ih => exact ih always
  | padded _ ih =>
    refine ih fun t => ?_
    rw [context_padded, rule_padded]
    exact always t
  | guard asked _ ih =>
    refine List.forall_mem_cons.mpr ⟨fun a said => ?_, ih always⟩
    cases said
    exact (congrArg Prod.fst asked).symm.trans (always _)
  | fails _ _ declares _ ih =>
    exact List.forall_mem_append.mpr ⟨others declares.declared.2.2.2.1, ih always⟩
  | begins _ _ declares _ _ ih =>
    refine List.forall_mem_append.mpr ⟨others declares.declared.2.2.2.1,
      List.forall_mem_cons.mpr ⟨fun a said => (nomatch said), ih fun t => ?_⟩⟩
    rw [context_withSize, rule_withSize]
    exact always t
  | step _ _ _ _ _ ih =>
    refine List.forall_mem_cons.mpr ⟨fun a said => (nomatch said), ih fun t => ?_⟩
    rw [context_afterStep, rule_afterStep]
    exact always t

/-- A list that has begun does not begin. -/
theorem Works.not_begins (h : Works ev c deeds c') (begun : c.1.run.isSome) :
    deeds.filterMap Deed.declared? = [] ∧ deeds.filter Deed.isSize = [] := by
  induction h with
  | rests => exact ⟨rfl, rfl⟩
  | noted _ ih => exact ih begun
  | padded _ ih => exact ih ((congrArg Option.isSome (run_padded _ _)).trans begun)
  | guard _ _ ih => exact ih begun
  | fails fresh | begins fresh =>
    rw [fresh] at begun
    cases begun
  | step _ _ _ _ _ ih => exact ih (congrArg Option.isSome (run_afterStep _ _ _))

/-- **Each variable is declared at most once**, in the order of the declarations. -/
theorem Works.declares_once (h : Works ev c deeds c') :
    deeds.filterMap Deed.declared? <+: c.1.rule.declarations := by
  induction h with
  | rests => exact List.nil_prefix
  | noted _ ih => exact ih
  | padded _ ih =>
    rw [rule_padded] at ih
    exact ih
  | guard _ _ ih => exact ih
  | fails _ _ declares others _ =>
    rw [List.filterMap_append, (others.not_begins rfl).1, List.append_nil]
    exact declares.declared.1
  | begins _ _ declares _ others _ =>
    rw [List.filterMap_append, List.filterMap_cons_none rfl,
      (others.not_begins (congrArg Option.isSome (run_withSize _ _))).1, List.append_nil]
    exact declares.declared.1
  | step _ _ _ _ _ ih =>
    rw [rule_afterStep] at ih
    exact ih

/-- **The size is evaluated at most once.** -/
theorem Works.sizes_once (h : Works ev c deeds c') : (deeds.filter Deed.isSize).length ≤ 1 := by
  induction h with
  | rests => exact Nat.zero_le _
  | noted _ ih => exact ih
  | padded _ ih => exact ih
  | guard _ _ ih => exact ih
  | fails _ _ declares others _ =>
    rw [List.filter_append, (others.not_begins rfl).2, declares.declared.2.1]
    exact Nat.zero_le _
  | begins _ _ declares _ others _ =>
    rw [List.filter_append, declares.declared.2.1, List.nil_append, List.filter_cons_of_pos rfl,
      (others.not_begins (congrArg Option.isSome (run_withSize _ _))).2]
    exact Nat.le_refl _
  | step _ _ _ _ _ ih => exact ih

/-- **The program goes on from where it is**, whatever is asked in between. -/
theorem Works.resumes (h : Works ev c deeds c') :
    Resumes c.1.position (deeds.filterMap Deed.went?) c'.1.position := by
  induction h with
  | rests => exact .rests
  | noted _ ih => exact ih
  | padded _ ih =>
    unfold position at ih ⊢
    rw [run_padded, rule_padded] at ih
    exact ih
  | guard _ _ ih => exact ih
  | fails fresh compiled declares _ ih =>
    rw [List.filterMap_append, declares.declared.2.2.2.2.1, List.nil_append]
    unfold position at ih ⊢
    rw [fresh, compiled]
    exact ih
  | begins fresh compiled declares _ _ ih =>
    rw [List.filterMap_append, declares.declared.2.2.2.2.1, List.nil_append]
    unfold position at ih ⊢
    rw [run_withSize] at ih
    rw [fresh, compiled]
    exact ih
  | step here _ _ _ _ ih =>
    unfold position at ih ⊢
    rw [run_afterStep] at ih
    rw [here]
    exact .step ih

/-! ## After a failure -/

/-- **A list that failed is frozen**: only its guard is looked at, and its rows, its
size and its program stay as they are. -/
theorem Works.frozen (h : Works ev c deeds c') (failed : c.1.failed = true)
    (begun : c.1.run.isSome) :
    (∀ d ∈ deeds, ∃ answer, d = .guard answer) ∧ c'.1.failed = true ∧ c'.1.shown = c.1.shown ∧
      c'.1.size = c.1.size ∧ c'.1.run = c.1.run ∧ c'.1.rule = c.1.rule ∧
      c'.1.shortfall = c.1.shortfall := by
  induction h with
  | rests => exact ⟨List.forall_mem_nil _, failed, rfl, rfl, rfl, rfl, rfl⟩
  | noted _ ih => exact ih failed begun
  | @padded l _ target _ _ _ ih =>
    have failed' : l.failed = true := failed
    rw [padded_of_not_hasEnded (l := l) (by simp [hasEnded, failed']) target] at ih
    exact ih failed begun
  | guard _ _ ih =>
    obtain ⟨guards, others⟩ := ih failed begun
    exact ⟨List.forall_mem_cons.mpr ⟨⟨_, rfl⟩, guards⟩, others⟩
  | fails fresh | begins fresh =>
    rw [fresh] at begun
    cases begun
  | step _ sane =>
    rw [sane] at failed
    cases failed

/-! ## What the rows are -/

/-- The rows behind the items after a failure: one that says why, unless the list is
optional and has no items. -/
def failureRows (optional : Bool) (items : List (Variable ν)) (e : EvalError) : List (Variable ν) :=
  if items.isEmpty && optional then [] else [.error (Variable.failureText e.message)]

/-- How a list has come along: the items it was to show, and the evaluations that
failed. -/
structure Progress (l : CustomListing ν) (items : List (Variable ν)) (failures : List EvalError) :
    Prop where
  begun : l.failed = true → l.run.isSome
  whole : l.failed = false → failures = [] ∧ (l.hasEnded = false → l.shown.toList = items)
  broken : l.failed = true → ∃ e, failures = [e] ∧
    l.shown.toList = items ++ failureRows l.rule.guard.optional items e

theorem Progress.new (ctx : Context ν) (rule : CustomListRule) :
    Progress ({ context := ctx, rule } : CustomListing ν) [] [] :=
  ⟨fun failed => (nomatch failed), fun _ => ⟨rfl, fun _ => rfl⟩, fun failed => nomatch failed⟩

theorem progress_fail {l : CustomListing ν} {items : List (Variable ν)} (begun : l.run.isSome)
    (shown : l.shown.toList = items) (e : EvalError) : (l.fail e).Progress items [e] := by
  refine ⟨fun _ => begun, fun whole => (nomatch whole), fun _ => ⟨e, rfl, ?_⟩⟩
  rw [← shown]
  unfold CustomListing.fail failureRows
  dsimp only
  rw [Array.isEmpty_toList]
  split
  · rw [List.append_nil]
  · rw [Array.toList_push]

theorem progress_whole {l : CustomListing ν} {items : List (Variable ν)}
    (shown : l.shown.toList = items) (sane : l.failed = false) : l.Progress items [] := by
  have unfailed {P : Prop} (failed : l.failed = true) : P := by
    cases sane.symm.trans failed
  exact ⟨unfailed, fun _ => ⟨rfl, fun _ => shown⟩, unfailed⟩

theorem Progress.sane_of_fresh {l : CustomListing ν} {items : List (Variable ν)}
    {failures : List EvalError} (h : l.Progress items failures) (fresh : l.run = none) :
    l.failed = false := by
  rw [Bool.eq_false_iff]
  intro failed
  have begun := h.begun failed
  rw [fresh] at begun
  cases begun

theorem hasEnded_of_fresh {l : CustomListing ν} (fresh : l.run = none) : l.hasEnded = false := by
  simp [hasEnded, fresh]

/-- A step shows an item, or fails, or leaves the rows as they are. -/
theorem progress_afterStep {l : CustomListing ν} {items : List (Variable ν)} (sane : l.failed = false)
    (shown : l.shown.toList = items) (run : ProgramRun ν) (position next : Sequence)
    (result : Except EvalError (Step (Variable ν))) :
    (l.afterStep run result).Progress
      (items ++ [.step position (failureOf result) result next].filterMap Deed.item?)
      ([] ++ [Deed.step position (failureOf result) result next].flatMap Deed.failures) := by
  have none : items ++ [] = items := List.append_nil items
  rcases result with e | _ | row | _
  · rw [← none] at shown
    exact progress_fail (l := { l with run := some run }) rfl shown e
  · rw [← none] at shown
    exact progress_whole shown sane
  · refine progress_whole ?_ sane
    rw [← shown]
    exact Array.toList_push
  · rw [← none] at shown
    exact progress_whole shown sane

/-- **The rows are told by the deeds.** -/
theorem Works.progress (h : Works ev c deeds c') {items : List (Variable ν)}
    {failures : List EvalError} (progress : c.1.Progress items failures) :
    c'.1.Progress (items ++ deeds.filterMap Deed.item?)
      (failures ++ deeds.flatMap Deed.failures) := by
  -- until the list fails or ends its rows are the items shown, and what failed is told once
  induction h generalizing items failures with
  | rests =>
    rw [List.filterMap_nil, List.flatMap_nil, List.append_nil, List.append_nil]
    exact progress
  | noted _ ih => exact ih ⟨progress.begun, progress.whole, progress.broken⟩
  | @padded l _ target _ _ _ ih =>
    refine ih ?_
    cases ended : l.hasEnded with
    | false =>
      rw [padded_of_not_hasEnded ended]
      exact progress
    | true =>
      have sane : l.failed = false := by
        unfold hasEnded at ended
        rw [Bool.and_eq_true] at ended
        simpa using ended.1
      have sane' := (failed_padded l target).trans sane
      refine ⟨fun failed => ?_, fun _ => ⟨(progress.whole sane).1, fun going => ?_⟩, fun failed => ?_⟩
      · cases sane'.symm.trans failed
      · unfold hasEnded at ended going
        rw [failed_padded, run_padded, ended] at going
        cases going
      · cases sane'.symm.trans failed
  | guard _ _ ih => exact ih progress
  | @fails l _ _ program _ _ _ _ fresh _ declares _ ih =>
    obtain ⟨-, -, item, -, -, failure⟩ := declares.declared
    obtain ⟨rfl, shown⟩ := progress.whole (progress.sane_of_fresh fresh)
    rw [List.filterMap_append, List.flatMap_append, item, failure, List.nil_append,
      ← List.append_assoc]
    exact ih (progress_fail (l := { l with run := some { program, scope := l.context.scope } }) rfl
      (shown (hasEnded_of_fresh fresh)) _)
  | @begins l _ _ _ program scope _ _ passed size _ fresh _ declares _ _ ih =>
    obtain ⟨-, -, item, -, -, failure⟩ := declares.declared
    have sane := progress.sane_of_fresh fresh
    obtain ⟨rfl, shown⟩ := progress.whole sane
    have shown := shown (hasEnded_of_fresh fresh)
    rw [List.filterMap_append, List.flatMap_append, item, failure, List.nil_append]
    have sized : (withSize { l with run := some { program, scope } } size).Progress items
        ([(.size passed size : Deed ν)].flatMap Deed.failures) := by
      rcases size with e | n
      · cases e with
        | evaluation e =>
          exact progress_fail (l := { l with run := some { program, scope } }) rfl shown e
        | missing | noSize | strayBranch | unknownInstruction => exact progress_whole shown sane
      · exact progress_whole shown sane
    rw [List.filterMap_cons_none rfl, ← List.singleton_append, List.flatMap_append]
    exact ih sized
  | @step l s run program n t noted result _ _ here sane going stepped _ ih =>
    obtain ⟨rfl, shown⟩ := progress.whole sane
    have shown := shown (by simp [hasEnded, here, going])
    obtain ⟨-, rfl⟩ := (Sequence.outcome_noting_step (p := (run.items, s.target)) (q := (n, t)) _).mp
      stepped
    rw [← List.singleton_append, List.filterMap_append, List.flatMap_append, ← List.append_assoc,
      ← List.append_assoc]
    exact ih (progress_afterStep sane shown _ _ _ _)

end Works

/-! ## What the functions do -/

section Functions

variable {ev : Evaluator σ ν}

theorem declareAll_cons (owner : Variable ν) (decl : VariableDecl) (decls : List VariableDecl)
    (scope : Scope (Variable ν)) :
    declareAll ev owner (decl :: decls) scope = declareNext ev owner decl scope >>= fun r =>
      match r with
      | .error e => return .error e
      | .ok scope => declareAll ev owner decls scope := rfl

theorem exists_declares (ev : Evaluator σ ν) (owner : Variable ν) (decls : List VariableDecl)
    (scope : Scope (Variable ν)) (s : Session σ ν) :
    ∃ deeds, Declares ev owner decls scope s deeds (declareAll ev owner decls scope s).1
      (declareAll ev owner decls scope s).2 := by
  induction decls generalizing scope s with
  | nil => exact ⟨[], .all⟩
  | cons decl decls ih =>
    rw [declareAll_cons, bind_apply]
    rcases first : declareNext ev owner decl scope s with ⟨e | scope', s'⟩
    · exact ⟨_, .fails first⟩
    · obtain ⟨deeds, others⟩ := ih scope' s'
      exact ⟨_, .next first others⟩

/-- A list that begins looks at its guard no more. -/
theorem exists_works_start (ev : Evaluator σ ν) {l : CustomListing ν} {program : Sequence}
    (fresh : l.run = none) (compiled : Program.compile l.rule.body = .ok program)
    (s : Session σ ν) :
    ∃ deeds, Works ev (l, s) deeds (l.start ev program s) ∧ deeds.filterMap Deed.answer? = [] := by
  obtain ⟨first, declares⟩ := exists_declares ev l.context.owner l.rule.declarations
    l.context.scope s
  have unasked := declares.declared.2.2.2.1
  unfold start
  rw [bind_apply]
  -- a declaration that fails is the last deed; otherwise the size is the next one
  generalize declareAll ev l.context.owner l.rule.declarations l.context.scope s = r at declares ⊢
  obtain ⟨e | scope, s₁⟩ := r
  · refine ⟨first ++ [], .fails fresh compiled declares .rests, ?_⟩
    rw [List.append_nil]
    exact unasked
  · dsimp only at declares ⊢
    rw [bind_apply]
    obtain ⟨passed, sized⟩ := exists_sized ev l.context.owner scope l.rule.sizes s₁.target
    have lifted : (liftM (ev.declaredSize l.context.owner scope l.rule.sizes) :
        Run σ ν (Except ExpandError Nat)) s₁ =
        ((ev.declaredSize l.context.owner scope l.rule.sizes s₁.target).1,
          { s₁ with target := (ev.declaredSize l.context.owner scope l.rule.sizes s₁.target).2 }) :=
      rfl
    rw [lifted]
    generalize ev.declaredSize l.context.owner scope l.rule.sizes s₁.target = r at sized ⊢
    obtain ⟨size, t⟩ := r
    refine ⟨first ++ [.size passed size], ?_, ?_⟩
    · have begins := Works.begins (c := (withSize { l with run := some { program, scope } } size,
        { s₁ with target := t })) fresh compiled declares sized .rests
      rcases size with e | n
      · cases e <;> exact begins
      · exact begins
    · rw [List.filterMap_append, unasked]
      rfl

theorem RunsOn.works {target : Nat} {p q : CustomListing ν × σ} (h : RunsOn ev target p q)
    {s : Session σ ν} (here : s.target = p.2) :
    ∃ deeds, Works ev (p.1, s) deeds (q.1, { s with target := q.2 }) ∧
      deeds.filterMap Deed.answer? = [] := by
  induction h generalizing s with
  | halted =>
    rw [← here]
    exact ⟨[], .rests, rfl⟩
  | @step p q run begun going _ ih =>
    rw [step_eq] at ih
    generalize stepped : outcome (run.program.step (host ev { p.1.context with scope := run.scope }))
      (run.items, p.2) = r at ih
    obtain ⟨⟨result, program⟩, items, t⟩ := r
    obtain ⟨deeds, works, unasked⟩ := ih (s := { s with target := t }) rfl
    have unended : run.program.isFinished = false := by
      rw [Bool.eq_false_iff]
      exact fun ended => going fun run' hr => .inr (.inl (by cases begun.symm.trans hr; exact ended))
    have sane : p.1.failed = false := by
      rw [Bool.eq_false_iff]
      exact fun failed => going fun _ _ => .inr (.inr failed)
    rw [← here] at stepped
    have noted := (Sequence.outcome_noting_step (p := (run.items, s.target)) (q := (items, t)) _).mpr
      ⟨stepped, rfl⟩
    exact ⟨_, .step begun sane unended noted works, unasked⟩

theorem RunsTo.works {target : Nat} {p q : CustomListing ν × σ} (h : RunsTo ev target p q)
    {s : Session σ ν} (here : s.target = p.2) :
    ∃ deeds, Works ev (p.1, s) deeds (q.1, { s with target := q.2 }) ∧
      deeds.filterMap Deed.answer? = [] := by
  by_cases frozen : p.1.IsFrozen
  · rw [(runsTo_of_isFrozen frozen).mp h, ← here]
    exact ⟨[], .rests, rfl⟩
  · obtain ⟨m, run, rfl⟩ := (runsTo_of_not_isFrozen frozen).mp h
    obtain ⟨deeds, works, unasked⟩ := run.works here
    exact ⟨deeds ++ [], works.trans (.padded .rests), by rw [List.append_nil, unasked]⟩

/-! ## What is known of the rows -/

/-- What is known of the rows of a list: the row of a failure, or those so far. -/
def known (l : CustomListing ν) : Known ν where
  count := l.standing.count
  row? i :=
    match l.standing with
    | .failed row => if i = 0 then some row else none
    | .counted _ => l.shown[i]?

theorem known_of_counted {l : CustomListing ν} {n : Nat} (counted : l.standing = .counted n) :
    l.known = { count := n, row? := (l.shown[·]?) } := by
  unfold known
  rw [counted]
  rfl

/-- The standing of a list that does not begin, by the answer of its guard. -/
def closedBy (answer : Except EvalError Bool) (rule : CustomListRule) : Option (Standing ν) :=
  match answer, Program.compile rule.body with
  | .error e, _ => some (.ofResult rule.guard (.error (.evaluation e)))
  | .ok false, _ => some (.counted 0)
  | .ok true, .error e => some (.ofResult rule.guard (.error e))
  | .ok true, .ok _ => none

/-- How a list stands whose guard always answers the same. -/
inductive Stands (answer : Except EvalError Bool) (l : CustomListing ν) : Prop
  /-- It has not begun, and was not counted or does not begin. -/
  | blank (fresh : l.run = none) (bare : l.shown = #[]) (undeclared : l.size = none)
      (standing : l.standing = .counted 0 ∨ closedBy answer l.rule = some l.standing)
  /-- It has begun and counts its declared size, or its rows. -/
  | begun {n : Nat} (opens : closedBy answer l.rule = (none : Option (Standing ν)))
      (run : l.run.isSome) (counted : l.standing = .counted n)
      (enough : l.size = some n ∧ l.shown.size ≤ n ∨ l.size = none ∧ n = l.shown.size)

theorem Stands.new (answer : Except EvalError Bool) (ctx : Context ν) (rule : CustomListRule) :
    Stands answer ({ context := ctx, rule } : CustomListing ν) :=
  .blank rfl rfl rfl (.inl rfl)

/-- Nothing is known of the rows of a list that was not counted. -/
theorem grows_of_blank {l : CustomListing ν} (bare : l.shown = #[])
    (standing : l.standing = .counted 0) (k : Known ν) : l.known.Grows k := by
  unfold known
  rw [standing, bare]
  exact ⟨Nat.zero_le _, fun i v h => by simp at h⟩

/-- A run leaves what is known of the rows. -/
theorem Extends.grows {l l' : CustomListing ν} (h : l.Extends l') {n n' : Nat}
    (counted : l.standing = .counted n) (le : n ≤ n') (current : Bool) :
    l.known.Grows ({ l' with standing := .counted n', current } : CustomListing ν).known := by
  rw [known_of_counted counted, known_of_counted rfl]
  refine ⟨le, fun i v here => ?_⟩
  dsimp only at here ⊢
  rw [← Array.getElem?_toList] at here ⊢
  obtain ⟨more, more_eq⟩ := h.shown
  rw [← more_eq, List.getElem?_append_left (List.getElem?_eq_some_iff.mp here).1, here]

/-- A list that runs stands as before. -/
theorem Stands.runsTo {answer : Except EvalError Bool} {target : Nat} {p q : CustomListing ν × σ}
    (h : Stands answer p.1) (run : RunsTo ev target p q)
    (few : ∀ n, p.1.standing = .counted n → target ≤ n) : Stands answer q.1 := by
  have ran := run.ranTo
  have extended := run.extended
  have rule : q.1.rule = p.1.rule := by rw [ran.same]
  cases h with
  | blank fresh bare undeclared standing =>
    refine .blank ?_ ?_ (extended.size.trans undeclared) ?_
    · have running := ran.running
      rw [fresh] at running
      exact Option.isNone_iff_eq_none.mp (by simpa using running)
    · have few := ran.idle fresh
      rw [bare] at few
      exact Array.eq_empty_of_size_eq_zero few
    · rw [extended.standing, rule]
      exact standing
  | begun opens running counted enough =>
    refine .begun (by rw [rule, opens]) (ran.running.trans running)
      (extended.standing.trans counted) ?_
    rw [extended.size]
    refine enough.imp (fun h => ⟨h.1, ?_⟩) fun h => ⟨h.1, ?_⟩
    · exact Nat.le_trans ran.shown (Nat.max_le.mpr ⟨h.2, few _ counted⟩)
    · rw [run.eq_of_enough (Nat.le_trans (few _ counted) (Nat.le_of_eq h.2))]
      exact h.2

end Functions

/-! ## Requests -/

section Requests

variable {engine : Engine σ ν} {reach : Reach σ ν} {bound : Nat}

/-- A list that begins has a run, and no rows if it has a size. -/
theorem run_start (l : CustomListing ν) (ev : Evaluator σ ν) (program : Sequence) (s : Session σ ν) :
    (l.start ev program s).1.run.isSome ∧
      ((l.start ev program s).1.size = l.size ∨ (l.start ev program s).1.shown = l.shown) := by
  unfold start
  rw [bind_apply]
  rcases declareAll ev l.context.owner l.rule.declarations l.context.scope s with ⟨e | scope, s₁⟩
  · exact ⟨rfl, .inl rfl⟩
  · dsimp only
    rw [bind_apply]
    generalize (liftM (ev.declaredSize l.context.owner scope l.rule.sizes) :
      Run σ ν (Except ExpandError Nat)) s₁ = sized
    rcases sized with ⟨e | n, _⟩
    · cases e <;> exact ⟨rfl, .inl rfl⟩
    · exact ⟨rfl, .inr rfl⟩

/-- What a list that has begun counts: its size, and its rows are as they were, or
the rows it has. -/
def Counts (l l' : CustomListing ν) (n : Nat) : Prop :=
  (l'.size = some n ∧ (l.size = none ∨ l.run.isSome → l'.shown = l.shown)) ∨
    (l'.size = none ∧ n = l'.shown.size)

/-- How a list counts, once it applies. -/
theorem ensures_count_works (l : CustomListing ν) (s : Session σ ν) :
    Ensures (l.count engine bound) s fun r s' =>
      (∃ deeds, Works engine.evaluator (l, s) deeds (r.2, s') ∧ deeds.filterMap Deed.answer? = []) ∧
      (∀ e, r.1 = .error e → r.2 = l ∧ l.run = none ∧ Program.compile l.rule.body = .error e) ∧
      ∀ n, r.1 = .ok n → r.2.run.isSome ∧
        l.Counts r.2 n ∧ (l.run.isSome → l.Extends r.2) ∧
        (l.run = none → ∃ program, Program.compile l.rule.body = .ok program) := by
  -- a list that has begun counts its size, or runs
  have begun (l₁ : CustomListing ν) (s₁ : Session σ ν) (run : l₁.run.isSome)
      (act : Search σ ν (Except ExpandError Nat × CustomListing ν))
      (declared : ∀ n, l₁.size = some n → act = pure (.ok n, l₁))
      (undeclared : l₁.size = none → act = do
        let l ← Search.ofTarget (l₁.runTo engine.evaluator bound (l₁.effectiveLimit engine.options))
        return (.ok l.shown.size, l)) :
      Ensures act s₁
        fun r s' => (∃ deeds, Works engine.evaluator (l₁, s₁) deeds (r.2, s') ∧
            deeds.filterMap Deed.answer? = []) ∧ l₁.Extends r.2 ∧
          r.2.run.isSome ∧ ∃ n, r.1 = .ok n ∧ l₁.Counts r.2 n := by
    cases size : l₁.size with
    | some n =>
      rw [declared n size]
      exact ensures_pure_iff.mpr
        ⟨⟨[], .rests, rfl⟩, .refl _, run, n, rfl, .inl ⟨size, fun _ => rfl⟩⟩
    | none =>
      rw [undeclared size]
      refine Ensures.bind (ensures_ofTarget_iff.mpr ?_) fun l₂ s₂ h => ensures_pure_iff.mpr h
      refine ensures_runTo _ _ _ _ _ fun q ran => ?_
      exact ⟨ran.works rfl, ran.extended, ran.ranTo.running.trans run, _, rfl,
        .inr ⟨ran.extended.size.trans size, rfl⟩⟩
  unfold count started
  by_cases run : l.run.isSome = true
  · rw [if_pos run]
    refine (ensures_same _ _).bind_same ((begun l s run _ (fun n size => ?_) fun size => ?_).mono ?_)
    · simp only [size]
    · simp only [size]
    rintro r s' ⟨works, extends_, run', n, counted, enough⟩
    refine ⟨works, fun e failed => ?_, fun m hm => ⟨run', ?_, fun _ => extends_, fun fresh => ?_⟩⟩
    · cases counted.symm.trans failed
    · cases counted.symm.trans hm
      exact enough
    · rw [fresh] at run
      cases run
  · rw [if_neg run]
    have fresh : l.run = none := by simpa using run
    split
    · rename_i e compiled
      refine (ensures_same _ _).bind_same (ensures_pure_iff.mpr ⟨⟨[], .rests, rfl⟩, ?_, ?_⟩)
      · intro e' same
        cases same
        exact ⟨rfl, fresh, compiled⟩
      · intro n h
        cases h
    · rename_i program compiled
      obtain ⟨first, starts, unasked⟩ := exists_works_start engine.evaluator fresh compiled s
      refine Ensures.bind (P := fun r s' => ∃ l₁, r = .ok l₁ ∧ l₁.run.isSome ∧
        (l₁.size = l.size ∨ l₁.shown = l.shown) ∧ Works engine.evaluator (l, s) first (l₁, s')) ?_ ?_
      · obtain ⟨run₁, bare⟩ := l.run_start engine.evaluator program s
        exact ensures_lift_iff.mpr ⟨_, rfl, run₁, bare, starts⟩
      · rintro _ s₁ ⟨l₁, rfl, run₁, bare, starts⟩
        refine (begun l₁ s₁ run₁ _ (fun n size => ?_) fun size => ?_).mono ?_
        · simp only [size]
        · simp only [size]
        rintro r s' ⟨⟨deeds, works, unasked'⟩, extended, run', n, counted, enough⟩
        refine ⟨⟨_, starts.trans works, ?_⟩, fun e failed => ?_, fun m hm => ⟨run', ?_, fun h => ?_, ?_⟩⟩
        · rw [List.filterMap_append, unasked, unasked']
          rfl
        · cases counted.symm.trans failed
        · cases counted.symm.trans hm
          refine enough.imp_left fun h => ⟨h.1, fun undeclared => ?_⟩
          rw [h.2 (.inr run₁)]
          have sized := extended.size.symm.trans h.1
          refine bare.resolve_left fun same => ?_
          rcases undeclared with none | run
          · cases none.symm.trans (same.symm.trans sized)
          · rw [fresh] at run
            cases run
        · exact absurd h run
        · exact fun _ => ⟨program, compiled⟩

/-- A list that does not begin has no rows, or says why. -/
theorem Stands.closed {answer : Except EvalError Bool} {l : CustomListing ν} (h : l.Stands answer)
    {st : Standing ν} (closed : closedBy answer l.rule = some st) {current : Bool} :
    ({ l with standing := st, current } : CustomListing ν).Stands answer ∧
      l.known.Grows ({ l with standing := st, current } : CustomListing ν).known := by
  cases h with
  | blank fresh bare undeclared standing =>
    refine ⟨.blank fresh bare undeclared (.inr closed), ?_⟩
    rcases standing with none | same
    · exact grows_of_blank bare none _
    · obtain rfl : l.standing = st := Option.some.inj (same.symm.trans closed)
      exact .refl _
  | begun opens => cases opens.symm.trans closed

/-- A list that was counted. -/
theorem Stands.counted {l l' : CustomListing ν} {n : Nat} (h : l.Stands (.ok true))
    (begun : l'.run.isSome) (counts : l.Counts l' n) (extended : l.run.isSome → l.Extends l')
    (rule : l'.rule = l.rule)
    (fresh : l.run = none → ∃ program, Program.compile l.rule.body = .ok program) :
    ({ l' with standing := .counted n, current := true } : CustomListing ν).Stands (.ok true) ∧
      l.known.Grows
        ({ l' with standing := .counted n, current := true } : CustomListing ν).known := by
  have stands (opens : closedBy (.ok true) l.rule = (none : Option (Standing ν)))
      (enough : l'.size = some n ∧ l'.shown.size ≤ n ∨ l'.size = none ∧ n = l'.shown.size) :
      ({ l' with standing := .counted n, current := true } : CustomListing ν).Stands (.ok true) := by
    refine .begun (n := n) ?_ begun rfl enough
    dsimp only
    rw [rule, opens]
  -- a list that was counted before has its size or its rows still, so that the count is the same or
  -- more
  cases h with
  | blank none bare undeclared standing =>
    obtain ⟨program, compiled⟩ := fresh none
    have opens : closedBy (.ok true) l.rule = (Option.none : Option (Standing ν)) := by
      unfold closedBy
      rw [compiled]
    refine ⟨stands opens (counts.imp_left fun h => ⟨h.1, ?_⟩), grows_of_blank bare ?_ _⟩
    · rw [h.2 (.inl undeclared), bare]
      exact Nat.zero_le _
    · exact standing.resolve_right fun closed => by cases opens.symm.trans closed
  | @begun m opens run before few =>
    have on := extended run
    rcases few with ⟨declared, few⟩ | ⟨undeclared, rfl⟩
    · have same := on.size.trans declared
      rcases counts with ⟨size, shown⟩ | ⟨size, -⟩
      · obtain rfl : m = n := Option.some.inj (same.symm.trans size)
        refine ⟨stands opens (.inl ⟨size, ?_⟩), on.grows before (Nat.le_refl m) _⟩
        rw [shown (.inr run)]
        exact few
      · cases same.symm.trans size
    · have same := on.size.trans undeclared
      rcases counts with ⟨size, -⟩ | ⟨size, rfl⟩
      · cases same.symm.trans size
      · exact ⟨stands opens (.inr ⟨size, rfl⟩), on.grows before on.shown.length_le _⟩

theorem ensures_settled_works (l : CustomListing ν) (s : Session σ ν) :
    Ensures (l.settled engine bound) s fun r s' =>
      ∃ deeds, Works engine.evaluator (l, s) deeds (r.2, s') ∧ r.2.standing = r.1 ∧
        ∀ answer, (∀ d ∈ deeds, d.Answers answer) → l.Stands answer →
          r.2.Stands answer ∧ l.known.Grows r.2.known := by
  unfold settled
  by_cases current : l.current = true
  · rw [if_pos current]
    exact ensures_pure_iff.mpr ⟨[], .rests, rfl, fun _ _ stands => ⟨stands, .refl _⟩⟩
  · rw [if_neg current]
    unfold Standing.settle
    rw [bind_assoc]
    refine ensures_bind_iff.mpr (ensures_target_iff.mpr (ensures_lift_iff.mpr ?_))
    rcases asked : l.context.applies engine.evaluator l.rule.guard s.target with ⟨applied, t⟩
    -- a list that does not apply counts nothing
    have closed {st : Standing ν} (hst : closedBy applied l.rule = some st) :
        Ensures (pure (st, { l with standing := st, current := true }) :
          Search σ ν (Standing ν × CustomListing ν)) { s with target := t } fun r s' =>
            ∃ deeds, Works engine.evaluator (l, s) deeds (r.2, s') ∧ r.2.standing = r.1 ∧
              ∀ answer, (∀ d ∈ deeds, d.Answers answer) → l.Stands answer →
                r.2.Stands answer ∧ l.known.Grows r.2.known := by
      refine ensures_pure_iff.mpr ⟨[.guard applied], .guard asked (.noted .rests), rfl, ?_⟩
      intro answer good stands
      obtain rfl : applied = answer := good _ List.mem_cons_self _ rfl
      exact stands.closed hst
    rcases applied with e | _ | _
    · exact closed rfl
    · exact closed rfl
    · dsimp only
      rw [bind_assoc]
      refine (l.ensures_count_works _).bind ?_
      rintro r s' ⟨⟨deeds, works, unasked⟩, closed, counted⟩
      refine ensures_pure_iff.mpr ⟨.guard (.ok true) :: (deeds ++ []),
        .guard asked (works.trans (.noted .rests)), rfl, fun answer good stands => ?_⟩
      obtain rfl : .ok true = answer := good _ List.mem_cons_self _ rfl
      obtain ⟨result, l'⟩ := r
      dsimp only at closed counted ⊢
      rcases result with e | n
      · obtain ⟨rfl, -, compiled⟩ := closed e rfl
        exact stands.closed (by unfold closedBy; rw [compiled])
      · obtain ⟨run, enough, extended, fresh⟩ := counted n rfl
        exact stands.counted run enough extended works.same.1 fresh

/-- The rows in a window, as the list is. -/
def window (l : CustomListing ν) (start many : Nat) : List (Variable ν) :=
  match l.standing with
  | .failed row => clip start many [row]
  | .counted n => clip start many (l.shown.toList.take n)

/-- What a list replies, as it is afterwards. -/
def reply (l : CustomListing ν) : Query → Query.Reply ν
  | .setLimit _ => .done
  | .count => .count l.standing.count
  | .rows start many => .rows (l.window start many)
  | .isSound => .isSound l.isSound

/-- A reply is as what is known says. -/
theorem tells_reply (l : CustomListing ν) (q : Query) : l.known.Tells q (l.reply q) := by
  cases q with
  | setLimit | isSound => trivial
  | count => rfl
  | rows start many =>
    intro i v here
    unfold window at here
    split at here
    · rename_i row standing
      obtain ⟨first, rfl⟩ := getElem?_clip_singleton here
      unfold known
      rw [standing]
      exact if_pos first
    · rename_i n standing
      have shown := getElem?_clip here
      rw [List.getElem?_take] at shown
      split at shown
      · rw [known_of_counted standing]
        exact Array.getElem?_toList.symm.trans shown
      · cases shown

theorem ensures_rows_works (l : CustomListing ν) (start many : Nat) (s : Session σ ν) :
    Ensures (l.rows engine bound start many) s fun r s' =>
      ∃ deeds, Works engine.evaluator (l, s) deeds (r.2, s') ∧ r.2.window start many = r.1 ∧
        ∀ answer, (∀ d ∈ deeds, d.Answers answer) → l.Stands answer →
          r.2.Stands answer ∧ l.known.Grows r.2.known := by
  unfold rows
  refine (l.ensures_settled_works s).bind ?_
  rintro ⟨st, l₁⟩ s₁ ⟨deeds, works, standing, settled⟩
  dsimp only at standing settled ⊢
  cases st with
  | failed row =>
    refine ensures_pure_iff.mpr ⟨deeds, works, ?_, settled⟩
    unfold window
    rw [standing]
  | counted n =>
    refine Ensures.bind (ensures_ofTarget_iff.mpr ?_) fun l₂ s₂ h => ensures_pure_iff.mpr h
    refine ensures_runTo _ _ _ _ _ fun q run => ?_
    have counted := run.extended.standing.trans standing
    obtain ⟨deeds', works', unasked⟩ := run.works (s := s₁) rfl
    refine ⟨deeds ++ deeds', works.trans works', ?_, fun answer good stands => ?_⟩
    · unfold window
      rw [counted]
      exact (filterMap_shown n (start, many) q.1).symm
    · obtain ⟨stands', grows⟩ := settled answer (List.forall_mem_append.mp good).1 stands
      have on := run.extended.grows standing (Nat.le_refl n) q.1.current
      rw [← counted] at on
      refine ⟨stands'.runsTo run fun m here => ?_, grows.trans on⟩
      cases standing.symm.trans here
      exact Nat.min_le_right _ _

/-- What a custom listing is asked is asked of the list. -/
theorem ensures_answering_works {α β : Type} {act : Search σ ν (α × CustomListing ν)}
    {answer : α → β} {s : Session σ ν} {Q : α × CustomListing ν → Session σ ν → Prop}
    (h : Ensures act s Q) :
    Ensures (Listing.answering .custom answer act) s fun r s' =>
      ∃ a l', r = (answer a, .custom l') ∧ Q (a, l') s' :=
  Listing.ensures_answering (h.mono fun r _ h => ⟨r.1, r.2, rfl, h⟩)

/-- **One request**: the list works, and while its guard answers the same nothing
that is known of its rows is taken back. -/
theorem ensures_ask (q : Query) (l : CustomListing ν) (s : Session σ ν) :
    Ensures (q.ask engine reach (.custom l)) s fun r s' => ∃ deeds l',
      r = (l'.reply q, .custom l') ∧ Works engine.evaluator (l, s) deeds (l', s') ∧
      ∀ answer, (∀ d ∈ deeds, d.Answers answer) → l.Stands answer →
        l'.Stands answer ∧ l.known.Grows l'.known := by
  -- a limit is noted only; every other request settles the list, and a window runs on as well
  cases q with
  | setLimit limit =>
    refine ensures_pure_iff.mpr ⟨[], _, rfl, .noted .rests, fun answer _ stands => ⟨?_, .refl _⟩⟩
    cases stands with
    | blank fresh bare undeclared standing => exact .blank fresh bare undeclared standing
    | begun opens run counted enough => exact .begun opens run counted enough
  | count =>
    refine (ensures_answering_works (l.ensures_settled_works s)).bind ?_
    rintro _ s' ⟨st, l', rfl, deeds, works, standing, settled⟩
    obtain rfl : l'.standing = st := standing
    exact ensures_pure_iff.mpr ⟨deeds, l', rfl, works, settled⟩
  | rows start many =>
    refine (ensures_answering_works (l.ensures_rows_works start many s)).bind ?_
    rintro _ s' ⟨shown, l', rfl, deeds, works, same, settled⟩
    obtain rfl : l'.window start many = shown := same
    exact ensures_pure_iff.mpr ⟨deeds, l', rfl, works, settled⟩
  | isSound =>
    refine Ensures.bind (P := fun r s' => ∃ l', r = (l'.isSound, .custom l') ∧ ∃ deeds,
      Works engine.evaluator (l, s) deeds (l', s') ∧
        ∀ answer, (∀ d ∈ deeds, d.Answers answer) → l.Stands answer →
          l'.Stands answer ∧ l.known.Grows l'.known) ?_ ?_
    · refine (l.ensures_settled_works s).bind ?_
      rintro ⟨st, l'⟩ s' ⟨deeds, works, -, settled⟩
      exact ensures_pure_iff.mpr ⟨l', rfl, deeds, works, settled⟩
    · rintro _ s' ⟨l', rfl, deeds, works, settled⟩
      exact ensures_pure_iff.mpr ⟨deeds, l', rfl, works, settled⟩

/-- **Any number of requests**: while the guard answers the same, nothing is taken
back. -/
theorem ensures_askAll_works (qs : List Query) (l : CustomListing ν) (s : Session σ ν) :
    Ensures (Query.askAll engine reach qs (.custom l)) s fun r s' => ∃ deeds l',
      r.2 = .custom l' ∧ Works engine.evaluator (l, s) deeds (l', s') ∧
      ∀ answer, (∀ d ∈ deeds, d.Answers answer) → l.Stands answer →
        l'.Stands answer ∧ Known.Told l.known qs r.1 l'.known := by
  refine (ensures_askAll (fun c : CustomListing ν × Session σ ν => (.custom c.1, c.2))
    (Works engine.evaluator) (fun c => c.1.known) Deed.Answers (fun answer c => c.1.Stands answer)
    (fun _ => .rests) (fun _ _ _ _ _ => Works.trans) (fun q c => ?_) qs (l, s)).mono ?_
  · refine (ensures_ask q c.1 c.2).mono ?_
    rintro _ s' ⟨deeds, l', rfl, works, told⟩
    refine ⟨deeds, (l', s'), rfl, works, fun answer good stands => ?_⟩
    obtain ⟨stands', grows⟩ := told answer good stands
    exact ⟨stands', grows, l'.tells_reply q⟩
  · rintro ⟨replies, _⟩ s' ⟨deeds, ⟨l', _⟩, placed, works, told⟩
    cases placed
    exact ⟨deeds, l', rfl, works, told⟩

/-- **Any number of requests of a new list**: what begins it is done once, and while
its guard answers the same nothing is taken back. -/
theorem ensures_askAll_new (c : Context ν) (rule : CustomListRule) (qs : List Query)
    (s : Session σ ν) :
    Ensures (Query.askAll engine reach qs (.custom { context := c, rule })) s fun r s' =>
      ∃ deeds l', r.2 = .custom l' ∧
        Works engine.evaluator ({ context := c, rule }, s) deeds (l', s') ∧
        deeds.filterMap Deed.declared? <+: rule.declarations ∧
        (deeds.filter Deed.isSize).length ≤ 1 ∧
        Resumes (Program.compile rule.body).toOption (deeds.filterMap Deed.went?) l'.position ∧
        ((∃ answer, ∀ d ∈ deeds, d.Answers answer) → Steady qs r.1) := by
  refine (ensures_askAll_works qs _ s).mono ?_
  rintro r s' ⟨deeds, l', placed, works, told⟩
  refine ⟨deeds, l', placed, works, works.declares_once, works.sizes_once, works.resumes, ?_⟩
  rintro ⟨answer, good⟩
  exact (told answer good (.new answer c rule)).2.steady

end Requests

end WatchView.CustomListing
