import WatchView.Listing.Element
import WatchView.Proofs.Ensures
/-!
# Where variables lead

A variable may lead to pages of kept listings: the row that leads on does, and
so does what is made from it. `Within` says that all of these are among some
pages. What the debugger evaluates leads nowhere (`Answer.within_toVariable`),
so the rows of an expansion lead only where the variable it expands leads.
-/

namespace WatchView

open Bounded

variable {σ ν : Type} {P Q : Nat → Prop}

/-- **All kept listings a variable leads to** are so. -/
def Variable.Within (P : Nat → Prop) : Variable ν → Prop
  | .debugger _ => True
  | .failure .. => True
  | .renamed inner .. => inner.Within P
  | .ruled inner => inner.Within P
  | .asChild inner _ => inner.Within P
  | .more id .. => P id
  | .synthetic owner .. => owner.Within P

namespace Variable

theorem Within.mono (h : ∀ id, P id → Q id) : {v : Variable ν} → v.Within P → v.Within Q
  | .debugger _, _ => trivial
  | .failure .., _ => trivial
  | .renamed inner .., led => Within.mono (v := inner) h led
  | .ruled inner, led => Within.mono (v := inner) h led
  | .asChild inner _, led => Within.mono (v := inner) h led
  | .more id .., led => h id led
  | .synthetic owner .., led => Within.mono (v := owner) h led

theorem within_error (message : String) : (error message : Variable ν).Within P := trivial

theorem within_warning (message : String) : (warning message : Variable ν).Within P := trivial

theorem Within.rawView {v : Variable ν} (h : v.Within P) (d : Inspector σ ν) (t : σ) :
    (v.rawView d t).Within P := h

theorem Within.decorated {v : Variable ν} (h : v.Within P) (d : Inspector σ ν) (t : σ) :
    (v.decorated d t).Within P := by
  unfold Variable.decorated
  dsimp only
  split
  · exact h
  · split
    · exact h
    · exact h

end Variable

/-- What the debugger evaluates leads nowhere. -/
theorem Answer.within_toVariable (answer : Answer ν) : answer.toVariable.Within P := by
  unfold toVariable
  split <;> trivial

theorem Evaluator.within_failureRow (name : String) (e : EvalError) :
    (failureRow name e : Variable ν).Within P := trivial

/-- The row of an expression leads nowhere. -/
theorem Context.ensures_row (ev : Evaluator σ ν) (c : Context ν) (expression name : String)
    (t : σ) :
    Ensures (liftM (c.row ev expression name) : Bounded σ (Variable ν)) t fun row _ =>
      ∀ P, row.Within P := by
  unfold Context.row Evaluator.evaluateRow
  simp only [ensures_lift_bind_iff, ensures_lift_pure_iff, ensures_lift_get_iff]
  intro result t' _
  cases result with
  | error e =>
    exact ensures_lift_pure_iff.mpr fun P => (Evaluator.within_failureRow name e).decorated _ _
  | ok answer => exact ensures_lift_pure_iff.mpr fun P => answer.within_toVariable.decorated _ _

/-! ## Kept rows -/

/-- All rows that were kept lead there. -/
def Kept.Within (P : Nat → Prop) (kept : Kept ν) : Prop := ∀ entry ∈ kept, entry.2.Within P

namespace Kept

theorem within_nil : Kept.Within P ([] : Kept ν) := by
  intro entry h
  cases h

theorem Within.mono {kept : Kept ν} (h : ∀ id, P id → Q id) (led : kept.Within P) :
    kept.Within Q :=
  fun entry member => (led entry member).mono h

theorem Within.cons {kept : Kept ν} {i : Nat} {row : Variable ν} (here : row.Within P)
    (led : kept.Within P) : Kept.Within P ((i, row) :: kept) := by
  intro entry member
  rcases List.mem_cons.mp member with rfl | member
  · exact here
  · exact led entry member

theorem Within.row? {kept : Kept ν} (led : kept.Within P) {i : Nat} {row : Variable ν}
    (found : kept.row? i = some row) : row.Within P := by
  obtain ⟨before, after, rfl, -⟩ := List.lookup_eq_some_iff.mp found
  exact led (i, row) (by simp)

/-- **There is a row for each position.** Rows that are made lead nowhere, so
all rows lead where those lead that were kept. -/
theorem ensures_rowsAt {make : Nat → StateM σ (Variable ν)}
    (made : ∀ i t, Ensures (liftM (make i) : Bounded σ _) t fun row _ => ∀ P, row.Within P)
    (positions : List Nat) (kept : Kept ν) (t : σ) :
    Ensures (liftM (kept.rowsAt make positions) : Bounded σ _) t fun r _ =>
      r.1.length = positions.length ∧
        ∀ P, kept.Within P → (∀ row ∈ r.1, row.Within P) ∧ r.2.Within P := by
  induction positions generalizing kept t with
  | nil =>
    rw [rowsAt, ensures_lift_pure_iff]
    exact ⟨rfl, fun P led => ⟨List.forall_mem_nil _, led⟩⟩
  | cons i is ih =>
    rw [rowsAt]
    split
    · rename_i row found
      rw [ensures_lift_bind_iff]
      refine (ih kept t).mono fun rest t' h => ensures_lift_pure_iff.mpr ?_
      obtain ⟨many, leads⟩ := h
      refine ⟨congrArg Nat.succ many, fun P led => ?_⟩
      exact ⟨List.forall_mem_cons.mpr ⟨led.row? found, (leads P led).1⟩, (leads P led).2⟩
    · rw [ensures_lift_bind_iff]
      refine (made i t).mono fun row t' here => ?_
      rw [ensures_lift_bind_iff]
      refine (ih ((i, row) :: kept) t').mono fun rest t'' h => ensures_lift_pure_iff.mpr ?_
      obtain ⟨many, leads⟩ := h
      refine ⟨congrArg Nat.succ many, fun P led => ?_⟩
      obtain ⟨rows, kept'⟩ := leads P (led.cons (here P))
      exact ⟨List.forall_mem_cons.mpr ⟨here P, rows⟩, kept'⟩

end Kept

/-! ## Listings -/

/-- A row of a failure leads there. -/
def Standing.Within (P : Nat → Prop) : Standing ν → Prop
  | counted _ => True
  | failed row => row.Within P

theorem Standing.Within.mono (h : ∀ id, P id → Q id) {standing : Standing ν}
    (led : standing.Within P) : standing.Within Q := by
  cases standing with
  | counted n => trivial
  | failed row => exact Variable.Within.mono h led

/-- The standing of a guarded element leads nowhere. -/
theorem Standing.within_ofResult (guard : Guard) (result : Except ExpandError Nat) :
    (ofResult guard result : Standing ν).Within P := by
  unfold ofResult
  split
  · trivial
  · split <;> trivial

/-- All variables of an item lead there. -/
structure ItemListing.Within (P : Nat → Prop) (l : ItemListing ν) : Prop where
  owner : l.context.owner.Within P
  standing : ∀ standing ∈ l.standing, standing.Within P
  row : ∀ row ∈ l.row, row.Within P

/-- All variables of an index list lead there. -/
structure IndexListing.Within (P : Nat → Prop) (l : IndexListing ν) : Prop where
  owner : l.context.owner.Within P
  standing : ∀ standing ∈ l.standing, standing.Within P
  kept : l.kept.Within P

/-- All variables of an array lead there. -/
structure ArrayListing.Within (P : Nat → Prop) (l : ArrayListing ν) : Prop where
  owner : l.context.owner.Within P
  standing : ∀ standing ∈ l.standing, standing.Within P
  kept : l.kept.Within P

/-- The node a walk stands at leads there. -/
def Place.Within (P : Nat → Prop) : Place ν → Prop
  | before node => node.Within P
  | behind node => node.Within P
  | nowhere => True

/-- All nodes of a walk lead there. -/
structure Walk.Within (P : Nat → Prop) (w : Walk ν) : Prop where
  place : w.place.Within P
  stack : ∀ node ∈ w.stack, node.Within P

/-- All variables of a list of nodes lead there. -/
structure NodeListing.Within (P : Nat → Prop) (l : NodeListing ν) : Prop where
  owner : l.context.owner.Within P
  standing : ∀ standing ∈ l.standing, standing.Within P
  walk : ∀ walk ∈ l.walk, walk.Within P
  nodes : ∀ node ∈ l.nodes, node.Within P
  obstacle : ∀ row ∈ l.obstacle, row.Within P
  kept : l.kept.Within P

/-- All variables of a custom list lead there. -/
structure CustomListing.Within (P : Nat → Prop) (l : CustomListing ν) : Prop where
  owner : l.context.owner.Within P
  standing : l.standing.Within P
  shown : ∀ row ∈ l.shown, row.Within P
  shortfall : ∀ row ∈ l.shortfall, row.Within P

/-- All variables of a synthetic row lead there. -/
structure SyntheticListing.Within (P : Nat → Prop) (l : SyntheticListing ν) : Prop where
  owner : l.context.owner.Within P
  standing : ∀ standing ∈ l.standing, standing.Within P
  row : ∀ row ∈ l.row, row.Within P

/-! ## More pages -/

section Mono

variable (h : ∀ id, P id → Q id)

include h

theorem ItemListing.Within.mono {l : ItemListing ν} (led : l.Within P) : l.Within Q :=
  ⟨led.owner.mono h, fun st here => (led.standing st here).mono h,
    fun row here => (led.row row here).mono h⟩

theorem IndexListing.Within.mono {l : IndexListing ν} (led : l.Within P) : l.Within Q :=
  ⟨led.owner.mono h, fun st here => (led.standing st here).mono h, led.kept.mono h⟩

theorem ArrayListing.Within.mono {l : ArrayListing ν} (led : l.Within P) : l.Within Q :=
  ⟨led.owner.mono h, fun st here => (led.standing st here).mono h, led.kept.mono h⟩

theorem Walk.Within.mono {w : Walk ν} (led : w.Within P) : w.Within Q := by
  refine ⟨?_, fun node here => (led.stack node here).mono h⟩
  have place := led.place
  cases found : w.place with
  | before node =>
    rw [found] at place
    exact Variable.Within.mono (v := node) h place
  | behind node =>
    rw [found] at place
    exact Variable.Within.mono (v := node) h place
  | nowhere => trivial

theorem NodeListing.Within.mono {l : NodeListing ν} (led : l.Within P) : l.Within Q :=
  ⟨led.owner.mono h, fun st here => (led.standing st here).mono h,
    fun w here => (led.walk w here).mono h, fun node here => (led.nodes node here).mono h,
    fun row here => (led.obstacle row here).mono h, led.kept.mono h⟩

theorem CustomListing.Within.mono {l : CustomListing ν} (led : l.Within P) : l.Within Q :=
  ⟨led.owner.mono h, led.standing.mono h, fun row here => (led.shown row here).mono h,
    fun row here => (led.shortfall row here).mono h⟩

theorem SyntheticListing.Within.mono {l : SyntheticListing ν} (led : l.Within P) : l.Within Q :=
  ⟨led.owner.mono h, fun st here => (led.standing st here).mono h,
    fun row here => (led.row row here).mono h⟩

end Mono

end WatchView
