import WatchView.Listing.Array
import WatchView.Listing.Nodes
import WatchView.Proofs.Evaluation.Attempts
/-!
# Debuggers without state

No call of a stateless debugger changes it. Then no evaluation does, whatever it is made of
(`Evaluator.keeps_evaluate`): the debugger answers afterwards as it did before.
-/

namespace WatchView

variable {σ ν α β : Type}

/-- **A debugger without state**: no call changes it. -/
structure Debugger.Stateless (d : Debugger σ ν) : Prop where
  fast : ∀ v e name scratch s, (d.fast v e name scratch s).2 = s
  full : ∀ v e name s, (d.full v e name s).2 = s
  path : ∀ v e s, (d.path v e s).2 = s

/-- Work that leaves the state as it is. -/
def Keeps (act : StateM σ α) : Prop := ∀ s, (act s).2 = s

theorem keeps_pure (a : α) : Keeps (pure a : StateM σ α) := fun _ => rfl

theorem keeps_get : Keeps (get : StateM σ σ) := fun _ => rfl

theorem Keeps.bind {act : StateM σ α} {next : α → StateM σ β} (first : Keeps act)
    (rest : ∀ a, Keeps (next a)) : Keeps (act >>= next) :=
  fun s => (rest (act s).1 (act s).2).trans (first s)

/-- In full: its outcome, with the state it began with. -/
theorem Keeps.apply {act : StateM σ α} (keeps : Keeps act) (s : σ) : act s = ((act s).1, s) :=
  Prod.ext rfl (keeps s)

namespace Evaluator

section

variable (ev : Evaluator σ ν) (e : WatchExpr) (v : Variable ν) (scope : Scope (Variable ν))
  (name : Option String)

theorem keeps_accept (answer : Answer ν) : Keeps (ev.accept answer) := by
  refine keeps_get.bind fun s => ?_
  split
  · exact keeps_pure _
  · exact keeps_pure _

omit ev in
theorem keeps_tryEach {acts : List (StateM σ (Attempt ν))} (h : ∀ act ∈ acts, Keeps act) :
    Keeps (tryEach acts) := by
  induction acts with
  | nil => exact keeps_pure _
  | cons act acts ih =>
    obtain ⟨first, others⟩ := List.forall_mem_cons.mp h
    refine first.bind fun attempt => ?_
    cases attempt with
    | found answer => exact keeps_pure _
    | refused reason => exact keeps_pure _
    | missed reason =>
      refine (ih others).bind fun more => ?_
      cases more with
      | ok answer => exact keeps_pure _
      | error reasons => exact keeps_pure _

variable {ev} (stateless : ev.debugger.Stateless)

include stateless

theorem keeps_tryFast : Keeps (ev.tryFast e v scope name) := by
  refine keeps_get.bind fun s => Keeps.bind (stateless.fast _ _ _ _) fun said => ?_
  cases said with
  | error failure => exact keeps_pure _
  | ok handle => exact ev.keeps_accept _

theorem keeps_tryFull : Keeps (ev.tryFull e v name) := by
  refine keeps_get.bind fun s => Keeps.bind (stateless.full _ _ _) fun said => ?_
  cases said with
  | error message => exact keeps_pure _
  | ok handle => exact ev.keeps_accept _

theorem keeps_tryPath : Keeps (ev.tryPath e v name) := by
  refine keeps_get.bind fun s => ?_
  dsimp only
  split
  · refine Keeps.bind (stateless.path _ _) fun said => ?_
    cases said with
    | none => exact keeps_pure _
    | some handle => exact ev.keeps_accept _
  · exact keeps_pure _

theorem keeps_attempts (scratch : Bool) :
    ∀ act ∈ ev.attempts scratch e v scope name, Keeps act := by
  have planned {act : StateM σ (Attempt ν)} (h : Keeps act) (asked : Prop) [Decidable asked] :
      ∀ act' ∈ (if asked then [act] else []), Keeps act' := by
    split
    · exact List.forall_mem_singleton.mpr h
    · exact List.forall_mem_nil _
  refine List.forall_mem_append.mpr ⟨List.forall_mem_append.mpr ⟨?_, ?_⟩, ?_⟩
  · exact planned (keeps_tryFast e v scope name stateless) _
  · exact planned (keeps_tryPath e v name stateless) _
  · exact planned (keeps_tryFull e v name stateless) _

/-- **An evaluation leaves a stateless debugger as it is**, the evaluation of its size too. -/
theorem keeps_evaluate (expression : String) (name : Option String) :
    Keeps (ev.evaluate expression v scope name) := by
  rw [evaluate_eq]
  refine Keeps.bind ?_ fun spec => ?_
  · cases pending : (WatchExpr.parse expression).spec with
    | plain text => exact keeps_pure _
    | sized n suffix => exact keeps_pure _
    | pending size suffix =>
      -- the size is an expression of its own, and a shorter one
      refine Keeps.bind (keeps_evaluate size none) fun result => ?_
      cases result with
      | error e => exact keeps_pure _
      | ok answer => exact keeps_get.bind fun s => keeps_pure _
  · refine (keeps_tryEach (keeps_attempts _ v scope name stateless _)).bind fun tried => ?_
    cases tried with
    | error reasons => exact keeps_pure _
    | ok answer =>
      dsimp only
      split
      · exact keeps_get.bind fun s => keeps_pure _
      · exact keeps_pure _
termination_by expression.length
decreasing_by exact WatchExpr.length_pending_lt pending

theorem keeps_holds (condition : Option String) : Keeps (ev.holds condition v scope) := by
  unfold holds
  split
  · exact keeps_pure _
  · split
    · exact keeps_pure _
    · refine (keeps_evaluate v scope stateless _ none).bind fun result => ?_
      cases result with
      | error e => exact keeps_pure _
      | ok answer => exact keeps_get.bind fun s => keeps_pure _

theorem keeps_applies (guard : Guard) : Keeps (ev.applies guard v scope) := by
  refine keeps_get.bind fun s => ?_
  dsimp only
  split
  · exact keeps_holds v scope stateless _
  · exact keeps_pure _

theorem keeps_sizeValue (size : GuardedText) : Keeps (ev.sizeValue size v scope) := by
  refine (keeps_applies v scope stateless size.guard).bind fun applied => ?_
  rcases applied with e | _ | _
  · exact keeps_pure _
  · exact keeps_pure _
  · dsimp only
    split
    · exact keeps_pure _
    · refine (keeps_evaluate v scope stateless _ none).bind fun result => ?_
      cases result with
      | error e => exact keeps_pure _
      | ok answer =>
        refine keeps_get.bind fun s => ?_
        split
        · exact keeps_pure _
        · exact keeps_pure _

theorem keeps_declaredSize (sizes : List GuardedText) : Keeps (ev.declaredSize v scope sizes) := by
  induction sizes with
  | nil => exact keeps_pure _
  | cons size sizes ih =>
    refine (keeps_sizeValue v scope stateless size).bind fun result => ?_
    rcases result with e | _ | n
    · -- an optional size that fails is passed over
      dsimp only
      split
      · exact ih
      · exact keeps_pure _
    · exact ih
    · exact keeps_pure _

theorem keeps_declare (name expression : String) :
    Keeps (ev.declare v name expression scope) := by
  have step (target : Variable ν) (e : WatchExpr) : Keeps (ev.declareStep target e name) := by
    refine Keeps.bind (stateless.full _ _ _) fun said => ?_
    cases said with
    | error message => exact keeps_pure _
    | ok handle =>
      refine keeps_get.bind fun s => ?_
      split
      · exact keeps_pure _
      · exact keeps_pure _
  refine keeps_get.bind fun s => ?_
  dsimp only
  split
  · exact keeps_pure _
  · refine (step _ _).bind fun made => ?_
    cases made with
    | error reason => exact keeps_pure _
    | ok handle =>
      refine (step _ _).bind fun made => ?_
      cases made with
      | error reason => exact keeps_pure _
      | ok handle => exact keeps_pure _

end

end Evaluator

/-! ## Elements -/

variable {ev : Evaluator σ ν} (stateless : ev.debugger.Stateless)

include stateless

theorem ArrayListing.keeps_chosenPointer (c : Context ν) (pointers : List ConditionalText) :
    Keeps (chosenPointer ev c pointers) := by
  induction pointers with
  | nil => exact keeps_pure _
  | cons pointer pointers ih =>
    unfold chosenPointer
    split
    · exact ih
    · refine (Evaluator.keeps_holds _ _ stateless _).bind fun holds => ?_
      rcases holds with e | _ | _
      · exact keeps_pure _
      · exact ih
      · exact keeps_pure _

theorem NodeListing.keeps_head (l : NodeListing ν) : Keeps (l.head ev) := by
  unfold head
  dsimp only
  split
  · exact keeps_pure _
  · exact (Evaluator.keeps_evaluate _ _ stateless _ _).bind fun answer => keeps_pure _

end WatchView
