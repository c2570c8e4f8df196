import WatchView.Listing.Custom
import WatchView.Proofs.OneVariable
import WatchView.Proofs.Program.Record
/-!
# The programs of custom lists

What the program of a custom list asks to be evaluated, one thing after the
other, is what its body means. Items are numbered as they are reached: every
item whose condition held counts, whether it has a name, and whether its name
or its value could be evaluated. An item without a name is shown under its
number.
-/

namespace WatchView.CustomListing

variable {σ ν α : Type}

/-! ## A record of what is asked -/

/-- What the program of a custom list asks to be evaluated. -/
inductive Ask where
  | condition (text : Option String)
  /-- The template of the name of an item, by the number of the item. -/
  | name (index : Nat) (template : String)
  /-- The value of an item, and the name it is shown under. -/
  | value (index : Nat) (expression name : String)
  | exec (expression : String)
deriving Repr, DecidableEq

/-- Note down what is asked. -/
def note (ask : Ask) : StateT Nat (StateM (σ × List Ask)) Unit :=
  fun n p => (((), n), p.1, p.2 ++ [ask])

/-- Work that notes nothing down. -/
def beside (act : StateM σ α) : StateT Nat (StateM (σ × List Ask)) α :=
  fun n p => (((act p.1).1, n), (act p.1).2, p.2)

/-- The state without the record. -/
def unrecorded (p : Nat × σ × List Ask) : Nat × σ := (p.1, p.2.1)

@[simp] theorem outcome_note (ask : Ask) (p : Nat × σ × List Ask) :
    outcome (note ask) p = ((), p.1, p.2.1, p.2.2 ++ [ask]) := rfl

@[simp] theorem outcome_beside (act : StateM σ α) (p : Nat × σ × List Ask) :
    outcome (beside act) p = ((act p.2.1).1, p.1, (act p.2.1).2, p.2.2) := rfl

@[simp] theorem outcome_lift (act : StateM σ α) (p : Nat × σ) :
    outcome (liftM act : StateT Nat (StateM σ) α) p = ((act p.2).1, p.1, (act p.2).2) := rfl

@[simp] theorem outcome_nextItem (p : Nat × σ) :
    outcome (nextItem : StateT Nat (StateM σ) Nat) p = (p.1, p.1 + 1, p.2) := rfl

/-- The name of an item that is not shown under its number. -/
def nameTemplate? (name : Option String) : Option String :=
  name.filter fun name => !Text.isBlankText name

/-- The item with a value, shown under a name. -/
def shownItem (ev : Evaluator σ ν) (c : Context ν) (value name : String) :
    StateM σ (Except EvalError (Variable ν)) := do
  match ← ev.evaluate value c.owner c.scope (some name) with
  | .error e => pure (.error e)
  | .ok answer => return .ok (answer.toVariable.decorated ev.debugger.toInspector (← get))

/-- The host of a custom list, with a record of what it is asked. -/
def recordingHost (ev : Evaluator σ ν) (c : Context ν) :
    Host (StateT Nat (StateM (σ × List Ask))) EvalError (Variable ν) where
  holds condition := do
    note (.condition condition)
    beside (c.holds ev condition)
  item name value := do
    let index ← nextItem
    match nameTemplate? name with
    | none =>
      note (.value index value (positionName index))
      beside (shownItem ev c value (positionName index))
    | some template =>
      note (.name index template)
      match ← beside (ev.nameText template c.owner c.scope) with
      | .error e => pure (.error e)
      | .ok name =>
        note (.value index value name)
        beside (shownItem ev c value name)
  exec value := do
    note (.exec value)
    beside ((fun r => r.map fun _ => ()) <$> ev.evaluate value c.owner c.scope none)

/-- The host shows an item by evaluating its name and then its value. -/
theorem outcome_host_item (ev : Evaluator σ ν) (c : Context ν) (name : Option String)
    (value : String) (p : Nat × σ) :
    outcome ((host ev c).item name value) p =
      match itemName ev c name p.1 p.2 with
      | (.error e, s) => (.error e, p.1 + 1, s)
      | (.ok name, s) =>
        ((shownItem ev c value name s).1, p.1 + 1, (shownItem ev c value name s).2) := by
  simp only [host, outcome_bind, outcome_nextItem, outcome_lift]
  rcases itemName ev c name p.1 p.2 with ⟨_ | name, s⟩
  · rfl
  · simp only [outcome_bind, outcome_lift]
    rcases h : ev.evaluate value c.owner c.scope (some name) s with ⟨_ | answer, s'⟩ <;>
      (simp only [shownItem, bind, StateT.bind, h]; rfl)

/-- The record changes nothing. -/
theorem recordingHost_watches (ev : Evaluator σ ν) (c : Context ν) :
    (recordingHost ev c).Watches unrecorded (host ev c) where
  holds condition p := rfl
  item name value p := by
    rw [outcome_host_item]
    simp only [recordingHost, itemName, nameTemplate?, outcome_bind, outcome_nextItem]
    cases name.filter fun name => !Text.isBlankText name with
    | none => rfl
    | some template =>
      simp only [outcome_bind, outcome_note, outcome_beside, unrecorded]
      rcases ev.nameText template c.owner c.scope p.2.1 with ⟨_ | _, s⟩ <;> rfl
  exec value p := rfl

/-! ## Numbers of items -/

/-- A record in which the items are numbered from `0` and so many of them were
reached. The items without a name are shown under their numbers. -/
inductive IsNumbered : List Ask → Nat → Prop
  | nil : IsNumbered [] 0
  | condition {asks : List Ask} {n : Nat} (text : Option String) (before : IsNumbered asks n) :
      IsNumbered (asks ++ [.condition text]) n
  | exec {asks : List Ask} {n : Nat} (expression : String) (before : IsNumbered asks n) :
      IsNumbered (asks ++ [.exec expression]) n
  | unnamed {asks : List Ask} {n : Nat} (expression : String) (before : IsNumbered asks n) :
      IsNumbered (asks ++ [.value n expression (positionName n)]) (n + 1)
  | nameFails {asks : List Ask} {n : Nat} (template : String) (before : IsNumbered asks n) :
      IsNumbered (asks ++ [.name n template]) (n + 1)
  | named {asks : List Ask} {n : Nat} (template expression name : String)
      (before : IsNumbered asks n) :
      IsNumbered (asks ++ [.name n template, .value n expression name]) (n + 1)

/-- Whatever is asked, the items stay numbered. -/
theorem recordingHost_preserves (ev : Evaluator σ ν) (c : Context ν) :
    (recordingHost ev c).Preserves fun p => IsNumbered p.2.2 p.1 where
  holds condition p hp := .condition condition hp
  item name value p hp := by
    simp only [recordingHost, outcome_bind, outcome_nextItem]
    cases nameTemplate? name with
    | none => exact .unnamed value hp
    | some template =>
      simp only [outcome_bind, outcome_note, outcome_beside]
      rcases ev.nameText template c.owner c.scope p.2.1 with ⟨_ | name, s⟩
      · exact .nameFails template hp
      · simp only [outcome_bind, outcome_note, outcome_beside, List.append_assoc]
        exact .named template value name hp
  exec value p hp := .exec value hp

/-! ## What programs do -/

/-- **The program of a custom list does what its body means**: it asks the
same in the same order, shows the same items and ends by the same failure, if
any, with a record of what is asked and without one. And its items are
numbered. As the debugger may be any, also one that fails from some question
on, this covers what a program asks that never ends. -/
theorem drives_program_iff (ev : Evaluator σ ν) (c : Context ν) {body : List Instruction}
    {program : Sequence} (compiled : Program.compile body = .ok program) (s s' : σ) (n : Nat)
    (items : List (Variable ν)) (result : Except EvalError Unit) :
    (Drives (host ev c) program (0, s) items result (n, s') ↔
      ∃ asks, Drives (recordingHost ev c) program (0, s, []) items result (n, s', asks)) ∧
    ∀ asks,
      (Drives (recordingHost ev c) program (0, s, []) items result (n, s', asks) ↔
        ∃ e, e.result = result ∧
          Means (recordingHost ev c) (.list body) (0, s, []) items e (n, s', asks)) ∧
      (Drives (recordingHost ev c) program (0, s, []) items result (n, s', asks) →
        IsNumbered asks n) := by
  refine ⟨?_, fun asks => ⟨drives_iff_means compiled, fun run => ?_⟩⟩
  · rw [drives_iff_means compiled]
    constructor
    · rintro ⟨e, hr, run⟩
      have watched := (means_iff_watched (recordingHost_watches ev c) (p := (0, s, []))).mp run
      obtain ⟨⟨_, _, asks⟩, hq, watched⟩ := watched
      cases hq
      exact ⟨asks, (drives_iff_means compiled).mpr ⟨e, hr, watched⟩⟩
    · rintro ⟨asks, run⟩
      obtain ⟨e, hr, run⟩ := (drives_iff_means compiled).mp run
      exact ⟨e, hr, run.unwatched (recordingHost_watches ev c)⟩
  · obtain ⟨e, -, run⟩ := (drives_iff_means compiled).mp run
    exact run.preserves (recordingHost_preserves ev c) .nil

/-- So does a loop with a conditional in it, whose `leave` ends the loop but
not the item behind it: two items are shown, and asked for in their order. -/
theorem drives_program_leave :
    ∃ program, Program.compile
        [.loop none [.item none none "x", .ifThen "x" [.leave none], .otherwise []],
          .item none (some "y") "x"] = .ok program ∧
      Drives (recordingHost ⟨OneVariable.debugger, .fastOnly⟩ OneVariable.context) program
        (0, (), []) [.ruled OneVariable.it, .ruled OneVariable.it] (.ok ())
        (2, (), [.condition none, .condition none, .value 0 "x" "[0]", .condition (some "x"),
          .condition none, .condition none, .name 1 "y", .value 1 "x" "y"]) := by
  have compiled : Program.compile
      [.loop none [.item none none "x", .ifThen "x" [.leave none], .otherwise []],
        .item none (some "y") "x"] = .ok _ := rfl
  let host := recordingHost ⟨OneVariable.debugger, .fastOnly⟩ OneVariable.context
  -- what the debugger answers, whatever it was asked before
  have always (n : Nat) (asks : List Ask) : outcome (host.holds none) (n, (), asks) =
      (.ok true, n, (), asks ++ [.condition none]) := rfl
  have holds (n : Nat) (asks : List Ask) : outcome (host.holds (some "x")) (n, (), asks) =
      (.ok true, n, (), asks ++ [.condition (some "x")]) := by
    with_unfolding_all rfl
  have unnamed (asks : List Ask) : outcome (host.item none "x") (0, (), asks) =
      (.ok (.ruled OneVariable.it), 1, (), asks ++ [.value 0 "x" "[0]"]) := by
    with_unfolding_all rfl
  have named (asks : List Ask) : outcome (host.item (some "y") "x") (1, (), asks) =
      (.ok (.ruled OneVariable.it), 2, (), asks ++ [.name 1 "y"] ++ [.value 1 "x" "y"]) := by
    with_unfolding_all rfl
  -- the pass is left behind its item, and the other item follows
  have left : Means host
      (.loop none [.item none none "x", .ifThen "x" [.leave none], .otherwise []]) (0, (), [])
      [.ruled OneVariable.it] .done _ :=
    .passLeft (always ..) (.cons (.item (always ..) (unnamed _))
      (.stop (.chosen (.branch (holds ..) (.stop (.leave (always ..)) nofun))) nofun))
  have run : Means host
      (.list [.loop none [.item none none "x", .ifThen "x" [.leave none], .otherwise []],
        .item none (some "y") "x"]) (0, (), [])
      [.ruled OneVariable.it, .ruled OneVariable.it] .done _ :=
    .cons (.repeated left) (.cons (.item (always ..) (named _)) .nil)
  exact ⟨_, compiled, ((drives_program_iff _ _ compiled _ _ _ _ _).2 _).1.mpr ⟨.done, rfl, run⟩⟩

end WatchView.CustomListing
