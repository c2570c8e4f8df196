import WatchView.Proofs.Evaluation.Attempts
import WatchView.Proofs.Listing.Agreement
import WatchView.Proofs.Listing.Queries
/-!
# Items that fail

An item is settled by its guard. Its value is evaluated for the first window
that shows it, long after it was counted. So all replies of an item can be told
from the debugger at the first request (`ItemListing.askAll_eq_tell`).

An optional item whose guard fails has no row. If it applies and its value
fails it was counted already: it keeps its row, which says what failed, just
like an item that is not optional (`replies_of_failing_item`).
-/

namespace WatchView

open Bounded

variable {σ ν : Type}

/-! ## What an item shows -/

namespace ItemListing

/-- The standing of an item whose guard came to this. -/
def standingOf (rule : ItemRule) : Except EvalError Bool → Standing ν
  | .error e => .ofResult rule.guard (.error (.evaluation e))
  | .ok false => .counted 0
  | .ok true => .counted 1

section

variable (ev : Evaluator σ ν) (c : Context ν) (rule : ItemRule) (t : σ)

/-- The rows of an item that is first asked in a state of the debugger. -/
def rowsFrom : List (Variable ν) :=
  match standingOf rule (c.applies ev rule.guard t).1 with
  | .failed row => [row]
  | .counted 0 => []
  | .counted (_ + 1) => [(c.row ev rule.value rule.name (c.applies ev rule.guard t).2).1]

/-- An item on its way: nothing was asked, or the guard was evaluated, or the
value was too. -/
inductive Stage : ItemListing ν → σ → Prop
  | fresh : Stage { context := c, rule } t
  | settled {r : Except EvalError Bool} {t' : σ} (asked : c.applies ev rule.guard t = (r, t')) :
      Stage { context := c, rule, standing := some (standingOf rule r) } t'
  | shown {t' t'' : σ} {row : Variable ν} (asked : c.applies ev rule.guard t = (.ok true, t'))
      (made : c.row ev rule.value rule.name t' = (row, t'')) :
      Stage { context := c, rule, standing := some (.counted 1), row := some row } t''

end

variable {ev : Evaluator σ ν} {c : Context ν} {rule : ItemRule} {t t₁ : σ} {l : ItemListing ν}
  {r : Except EvalError Bool}

/-- The first request settles the item. -/
theorem settled_fresh (asked : c.applies ev rule.guard t = (r, t₁)) :
    settled ev { context := c, rule } t =
      ((standingOf rule r, { context := c, rule, standing := some (standingOf rule r) }), t₁) := by
  unfold settled Standing.settle
  dsimp only
  rw [bind_assoc, bind_apply, asked]
  rcases r with e | _ | _ <;> rfl

/-- A settled item stays as it is. -/
theorem Stage.exists_settled (h : Stage ev c rule t l t₁) :
    ∃ l' t', l.settled ev t₁ = ((standingOf rule (c.applies ev rule.guard t).1, l'), t') ∧
      Stage ev c rule t l' t' ∧ l'.standing.isSome := by
  cases h with
  | fresh =>
    rcases asked : c.applies ev rule.guard t with ⟨r, t'⟩
    exact ⟨_, t', settled_fresh asked, .settled asked, rfl⟩
  | settled asked =>
    rw [asked]
    exact ⟨_, _, rfl, .settled asked, rfl⟩
  | shown asked made =>
    rw [asked]
    exact ⟨_, _, rfl, .shown asked made, rfl⟩

theorem count_standingOf (ev : Evaluator σ ν) (c : Context ν) (rule : ItemRule) (t : σ) :
    (standingOf rule (c.applies ev rule.guard t).1 : Standing ν).count =
      (rowsFrom ev c rule t).length := by
  unfold rowsFrom
  rcases c.applies ev rule.guard t with ⟨e | _ | _, t'⟩
  · dsimp only [standingOf, Standing.ofResult]
    split <;> rfl
  · rfl
  · rfl

/-- An item that applies has one row, made where the guard left the debugger. -/
theorem rowsFrom_of_applies (asked : c.applies ev rule.guard t = (.ok true, t₁)) :
    rowsFrom ev c rule t = [(c.row ev rule.value rule.name t₁).1] := by
  unfold rowsFrom
  rw [asked]
  rfl

/-- The row of an item that applies is made once. -/
theorem Stage.exists_theRow {t' : σ} (h : Stage ev c rule t l t₁) (settled : l.standing.isSome)
    (asked : c.applies ev rule.guard t = (.ok true, t')) :
    ∃ l' t'', l.theRow ev t₁ = (((c.row ev rule.value rule.name t').1, l'), t'') ∧
      Stage ev c rule t l' t'' := by
  cases h with
  | fresh => cases settled
  | settled asked' =>
    cases asked.symm.trans asked'
    rcases made : c.row ev rule.value rule.name t₁ with ⟨row, t''⟩
    refine ⟨_, t'', ?_, .shown asked made⟩
    unfold theRow
    dsimp only
    rw [bind_apply, made]
    rfl
  | shown asked' made =>
    cases asked.symm.trans asked'
    rw [made]
    exact ⟨_, _, rfl, .shown asked made⟩

/-- A window of an item is clipped from its rows. -/
theorem Stage.exists_rows (h : Stage ev c rule t l t₁) (start many : Nat) :
    ∃ l' t', l.rows ev start many t₁ = ((clip start many (rowsFrom ev c rule t), l'), t') ∧
      Stage ev c rule t l' t' := by
  obtain ⟨l₂, t₂, settles, h₂, settled⟩ := h.exists_settled
  -- nothing was counted, so nothing is made
  have nothing (make : StateM σ (List (Variable ν) × ItemListing ν)) :
      (if many = 0 ∨ 0 ≤ start then pure ([], l₂) else make) t₂ =
        ((clip start many [], l₂), t₂) := by
    rw [if_pos (.inr (Nat.zero_le _)), clip_nil]
    rfl
  unfold rows rowsFrom
  rw [bind_apply, settles]
  rcases asked : c.applies ev rule.guard t with ⟨e | _ | _, t'⟩
  · dsimp only [standingOf, Standing.ofResult]
    by_cases optional : rule.guard.optional = true
    · simp only [if_pos optional]
      exact ⟨l₂, t₂, nothing _, h₂⟩
    · simp only [if_neg optional]
      exact ⟨l₂, t₂, rfl, h₂⟩
  · exact ⟨l₂, t₂, nothing _, h₂⟩
  · dsimp only [standingOf]
    by_cases outside : many = 0 ∨ 1 ≤ start
    · refine ⟨l₂, t₂, ?_, h₂⟩
      rw [if_pos outside, clip_singleton_of_outside outside]
      rfl
    · obtain ⟨l', t'', made, h'⟩ := h₂.exists_theRow settled asked
      refine ⟨l', t'', ?_, h'⟩
      rw [if_neg outside, bind_apply, made]
      rfl

/-- **All replies of an item** are told by the rows it has from the first request. -/
theorem askAll_eq_tell (engine : Engine σ ν) (reach : Reach σ ν) (c : Context ν)
    (rule : ItemRule) (qs : List Query) (s : Session σ ν) :
    ∃ l' s', Query.askAll engine reach qs (.item { context := c, rule }) s =
      .ok ((qs.map (Query.tell (rowsFrom engine.evaluator c rule s.target)
        (standingOf rule (c.applies engine.evaluator rule.guard s.target).1 :
          Standing ν).isSound), l'), s') := by
  have told := Query.askAll_eq_tell engine reach (rowsFrom engine.evaluator c rule s.target)
    (standingOf rule (c.applies engine.evaluator rule.guard s.target).1 : Standing ν).isSound
    (fun _ l s' => ∃ item, l = .item item ∧
      Stage engine.evaluator c rule s.target item s'.target)
    ?_ qs (s := s) ⟨_, rfl, .fresh⟩
  · obtain ⟨l', s', asked, -⟩ := told
    exact ⟨l', s', asked⟩
  -- each request settles the item, which is as it was, and so gets what the stage tells
  · rintro q _ _ s₁ ⟨item, rfl, stage⟩
    obtain ⟨item', t', settles, stage', -⟩ := stage.exists_settled
    have settled := lift_target_eq settles
    cases q with
    | setLimit limit => exact ⟨_, s₁, rfl, item, rfl, stage⟩
    | count =>
      refine ⟨_, { s₁ with target := t' }, ?_, item', rfl, stage'⟩
      have counted : (Listing.item item).countWith engine reach s₁ = _ := bind_of_eq_ok settled
      unfold Query.ask Query.tell
      rw [← count_standingOf]
      exact bind_of_eq_ok counted
    | isSound =>
      refine ⟨_, { s₁ with target := t' }, ?_, item', rfl, stage'⟩
      have found : (Listing.item item).isSoundWith engine reach s₁ = _ := bind_of_eq_ok settled
      exact bind_of_eq_ok found
    | rows start many =>
      obtain ⟨item'', t'', shows, stage''⟩ := stage.exists_rows start many
      refine ⟨_, { s₁ with target := t'' }, ?_, item'', rfl, stage''⟩
      have shown : (Listing.item item).rowsWith engine reach start many s₁ = _ :=
        bind_of_eq_ok (lift_target_eq shows)
      exact bind_of_eq_ok shown

end ItemListing

/-! ## Failures -/

/-- What fails of an item: its guard, or the value of an item that applies. -/
inductive ItemFailure where
  | guard (reason : EvalError)
  | value (reason : EvalError)

namespace ItemFailure

/-- Why it fails. -/
def reason : ItemFailure → EvalError
  | guard e => e
  | value e => e

/-- The rows that are shown of an item that fails. -/
def shown (rule : ItemRule) : ItemFailure → List (Variable ν)
  | guard e => if rule.guard.optional then [] else [.error (Variable.failureText e.message)]
  | value e => [.failure rule.name (Variable.failureText e.message)]

/-- Whether it is passed over when someone asks if all children can be had. -/
def isSound (rule : ItemRule) : ItemFailure → Bool
  | guard _ => rule.guard.optional
  | value _ => true

/-- Rows of failures say what failed. -/
theorem error_of_mem_shown (d : Inspector σ ν) (t : σ) {rule : ItemRule} {f : ItemFailure}
    {row : Variable ν} (h : row ∈ f.shown rule) :
    (row.facts d t).error = some (Variable.failureText f.reason.message) := by
  cases f with
  | guard e =>
    dsimp only [shown] at h
    split at h
    · exact absurd h List.not_mem_nil
    · rw [List.mem_singleton.mp h]
      rfl
  | value e =>
    rw [List.mem_singleton.mp h]
    rfl

theorem length_shown_le (rule : ItemRule) (f : ItemFailure) :
    (f.shown rule : List (Variable ν)).length ≤ 1 := by
  cases f with
  | guard e =>
    dsimp only [shown]
    split
    · exact Nat.zero_le _
    · exact Nat.le_refl _
  | value e => exact Nat.le_refl _

/-- A failure is passed over if it is one of the guard of an optional item. -/
theorem shown_eq_nil_iff (rule : ItemRule) (f : ItemFailure) :
    (f.shown rule : List (Variable ν)) = [] ↔ rule.guard.optional = true ∧ ∃ e, f = guard e := by
  cases f with
  | guard e =>
    dsimp only [shown]
    split
    · rename_i optional
      exact iff_of_true rfl ⟨optional, e, rfl⟩
    · rename_i required
      exact iff_of_false nofun fun passed => required passed.1
  | value e =>
    refine iff_of_false nofun ?_
    rintro ⟨-, _, ⟨⟩⟩

end ItemFailure

/-- An item fails that is first asked in a state of the debugger. -/
inductive ItemFails (ev : Evaluator σ ν) (c : Context ν) (rule : ItemRule) (t : σ) :
    ItemFailure → Prop
  | guard {e : EvalError} {t' : σ} (asked : c.applies ev rule.guard t = (.error e, t')) :
      ItemFails ev c rule t (.guard e)
  | value {e : EvalError} {t' t'' : σ} (asked : c.applies ev rule.guard t = (.ok true, t'))
      (failed : ev.evaluate rule.value c.owner c.scope (some rule.name) t' = (.error e, t'')) :
      ItemFails ev c rule t (.value e)

/-- The row of a value that fails. -/
theorem Context.row_of_failed {ev : Evaluator σ ν} {c : Context ν} {expression name : String}
    {e : EvalError} {t t' : σ}
    (failed : ev.evaluate expression c.owner c.scope (some name) t = (.error e, t')) :
    c.row ev expression name t = (.failure name (Variable.failureText e.message), t') := by
  unfold Context.row Evaluator.evaluateRow
  rw [bind_assoc, bind_apply, failed]
  rfl

section

variable {ev : Evaluator σ ν} {c : Context ν} {rule : ItemRule} {t : σ} {f : ItemFailure}

theorem ItemFails.rowsFrom_eq (fails : ItemFails ev c rule t f) :
    ItemListing.rowsFrom ev c rule t = f.shown rule := by
  cases fails with
  | guard asked =>
    unfold ItemListing.rowsFrom ItemFailure.shown
    rw [asked]
    dsimp only [ItemListing.standingOf, Standing.ofResult]
    by_cases optional : rule.guard.optional = true
    · rw [if_pos optional, if_pos optional]
    · rw [if_neg optional, if_neg optional]
      rfl
  | value asked failed =>
    rw [ItemListing.rowsFrom_of_applies asked, Context.row_of_failed failed]
    rfl

theorem ItemFails.isSound_eq (fails : ItemFails ev c rule t f) :
    (ItemListing.standingOf rule (c.applies ev rule.guard t).1 : Standing ν).isSound =
      f.isSound rule := by
  cases fails with
  | guard asked =>
    rw [asked]
    dsimp only [ItemListing.standingOf, Standing.ofResult, ItemFailure.isSound]
    cases rule.guard.optional <;> rfl
  | value asked failed =>
    rw [asked]
    rfl

end

/-- **What is shown of an item that fails**: one row of the failure at most, the same
for all requests. There is none exactly if the item is optional and its guard
fails. If an optional item applies and its value fails it is not passed over, but
keeps its row as if it were not optional. -/
theorem replies_of_failing_item (engine : Engine σ ν) (reach : Reach σ ν) {c : Context ν}
    {rule : ItemRule} {s : Session σ ν} {f : ItemFailure}
    (fails : ItemFails engine.evaluator c rule s.target f) :
    (∀ qs, ∃ l' s', Query.askAll engine reach qs (.item { context := c, rule }) s =
      .ok ((qs.map (Query.tell (f.shown rule) (f.isSound rule)), l'), s')) ∧
    (∀ row ∈ (f.shown rule : List (Variable ν)), (row.facts engine.inspector s.target).error =
      some (Variable.failureText f.reason.message)) ∧
    (f.shown rule : List (Variable ν)).length ≤ 1 ∧
    ((f.shown rule : List (Variable ν)) = [] ↔
      rule.guard.optional = true ∧ ∃ e, f = .guard e) := by
  refine ⟨fun qs => ?_, fun _ => ItemFailure.error_of_mem_shown _ _, f.length_shown_le rule,
    f.shown_eq_nil_iff rule⟩
  obtain ⟨l', s', asked⟩ := ItemListing.askAll_eq_tell engine reach c rule qs s
  rw [fails.rowsFrom_eq, fails.isSound_eq] at asked
  exact ⟨l', s', asked⟩

namespace Fickle

/-- An optional item whose condition cannot be evaluated. -/
def guardedItem : ItemRule where
  guard := { condition := some "gone", optional := true }
  name := "x"
  value := "it"

theorem guardedItem_silent :
    ∃ e, ItemFails engine.evaluator ⟨.debugger false, {}⟩ guardedItem session.target (.guard e) ∧
      ∃ l' s', Query.askAll engine (engine.reach 1) [.count, .rows 0 5]
        (.item { context := ⟨.debugger false, {}⟩, rule := guardedItem }) session =
          .ok (([.count 0, .rows []], l'), s') := by
  have failed : (Context.applies engine.evaluator ⟨.debugger false, {}⟩ guardedItem.guard
      session.target).1.toOption = none := by decide +kernel
  rcases asked : Context.applies engine.evaluator ⟨.debugger false, {}⟩ guardedItem.guard
      session.target with ⟨e | b, t'⟩
  · have fails : ItemFails engine.evaluator ⟨.debugger false, {}⟩ guardedItem session.target
        (.guard e) := .guard asked
    obtain ⟨l', s', silent⟩ :=
      (replies_of_failing_item engine (engine.reach 1) fails).1 [.count, .rows 0 5]
    exact ⟨e, fails, l', s', silent⟩
  · rw [asked] at failed
    cases failed

/-- An expansion with an optional item whose value cannot be evaluated. -/
def optionalItem : Search Bool Bool (Listing Bool) :=
  engine.expandListing ⟨.debugger false, {}⟩
    { hideRawView := true
      items := [.item { guard := { optional := true }, name := "x", value := "gone" }] }

/-- **An optional item that fails may have a row**: it is counted before its value
is evaluated. -/
theorem optionalItem_shown : (countAndRows optionalItem 0 5 session).map Prod.fst = .ok (1, 1) := by
  decide +kernel

end Fickle

end WatchView
