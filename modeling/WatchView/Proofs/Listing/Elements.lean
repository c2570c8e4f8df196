import WatchView.Listing.Array
import WatchView.Listing.IndexList
import WatchView.Listing.Item
import WatchView.Proofs.Listing.Leads
import WatchView.Proofs.Listing.Windows
/-!
# Elements count the rows they show

An element of an expansion is counted when it is settled, and its rows are
made when a window asks for them. A window has as many rows as the count says
(`ItemListing.ensures_rows`, `IndexListing.ensures_rows`,
`ArrayListing.ensures_rows`), whatever was asked for before: `Valid` holds of
a fresh element and is kept by all work on it (`Onward`).
-/

namespace WatchView

open Bounded

variable {σ ν : Type}

/-! ## Settling -/

namespace Standing

/-- A standing that counts only numbers of this kind and leads nowhere. -/
structure Counts (K : Nat → Prop) (standing : Standing ν) : Prop where
  counted : ∀ n, standing = .counted n → K n
  leads : ∀ P, standing.Within P

variable {K : Nat → Prop}

theorem counts_counted {n : Nat} (h : K n) : Counts K (counted n : Standing ν) where
  counted m hm := by
    cases hm
    exact h
  leads _ := trivial

theorem counts_ofError {guard : Guard} (e : ExpandError) (zero : K 0) :
    Counts K (ofResult guard (.error e) : Standing ν) := by
  unfold ofResult
  dsimp only
  split
  · exact counts_counted zero
  · exact ⟨fun m hm => (nomatch hm), fun _ => trivial⟩

theorem counts_ofResult {guard : Guard} {result : Except ExpandError Nat} (zero : K 0)
    (h : ∀ n, result = .ok n → K n) : Counts K (ofResult guard result : Standing ν) := by
  cases result with
  | ok n => exact counts_counted (h n rfl)
  | error e => exact counts_ofError e zero

variable {α : Type} {guard : Guard} {l : α} {G : α → Prop} {K : α → Nat → Prop}

/-- **What an element counts**, if no children are one of the possible counts:
it is what its count says, and nothing leads anywhere. -/
theorem ensures_settle {applies : Bounded σ (Except EvalError Bool)}
    {count : α → Bounded σ (Except ExpandError Nat × α)} {I : σ → Prop} {s : σ}
    (asked : Ensures applies s fun _ s' => I s') (start : G l)
    (zero : ∀ l', G l' → K l' 0)
    (counts : ∀ s', I s' → Ensures (count l) s' fun r s'' =>
      I s'' ∧ G r.2 ∧ ∀ n, r.1 = .ok n → K r.2 n) :
    Ensures (settle guard applies count l) s fun (r : Standing ν × α) s' =>
      I s' ∧ G r.2 ∧ r.1.Counts (K r.2) := by
  unfold settle
  refine asked.bind fun applied s' h => ?_
  rcases applied with e | _ | _
  · exact ensures_pure_iff.mpr ⟨h, start, counts_ofError _ (zero l start)⟩
  · exact ensures_pure_iff.mpr ⟨h, start, counts_counted (zero l start)⟩
  · refine (counts s' h).bind fun r s'' h' => ensures_pure_iff.mpr ?_
    obtain ⟨h', settled, hn⟩ := h'
    exact ⟨h', settled, counts_ofResult (zero _ settled) hn⟩

theorem ensures_lift_settle {applies : StateM σ (Except EvalError Bool)}
    {count : α → StateM σ (Except ExpandError Nat × α)} {s : σ} (start : G l)
    (zero : ∀ l', G l' → K l' 0)
    (counts : ∀ s', Ensures (liftM (count l) : Bounded σ _) s' fun r _ =>
      G r.2 ∧ ∀ n, r.1 = .ok n → K r.2 n) :
    Ensures (liftM (settle guard applies count l) : Bounded σ _) s
      fun (r : Standing ν × α) _ => G r.2 ∧ r.1.Counts (K r.2) := by
  unfold settle
  rw [ensures_lift_bind_iff]
  intro applied s' _
  rcases applied with e | _ | _
  · exact ensures_lift_pure_iff.mpr ⟨start, counts_ofError _ (zero l start)⟩
  · exact ensures_lift_pure_iff.mpr ⟨start, counts_counted (zero l start)⟩
  · refine ensures_lift_bind_iff.mpr ((counts s').mono fun r s'' h => ?_)
    obtain ⟨settled, hn⟩ := h
    exact ensures_lift_pure_iff.mpr ⟨settled, counts_ofResult (zero _ settled) hn⟩

end Standing

/-! ## Declared sizes are words -/

namespace Evaluator

theorem shownNumber?_lt {text : String} {n : Nat} (h : shownNumber? text = some n) :
    n < Text.bound32 := by
  unfold shownNumber? at h
  dsimp only at h
  split at h
  · exact Text.numeral?_lt h
  · exact Text.numeral?_lt h

theorem ensures_sizeValue (ev : Evaluator σ ν) (size : GuardedText) (v : Variable ν)
    (scope : Scope (Variable ν)) (t : σ) :
    Ensures (liftM (ev.sizeValue size v scope) : Bounded σ _) t fun r _ =>
      ∀ n, r = .ok (some n) → n < Text.bound32 := by
  unfold sizeValue
  rw [ensures_lift_bind_iff]
  intro applied t' _
  rcases applied with e | _ | _
  · exact ensures_lift_pure_iff.mpr (by simp)
  · exact ensures_lift_pure_iff.mpr (by simp)
  · dsimp only
    split
    · exact ensures_lift_pure_iff.mpr (by simp)
    · rw [ensures_lift_bind_iff]
      intro answer t'' _
      cases answer with
      | error e => exact ensures_lift_pure_iff.mpr (by simp)
      | ok answer =>
        refine ensures_lift_bind_iff.mpr (ensures_lift_get_iff.mpr ?_)
        split
        · rename_i found
          refine ensures_lift_pure_iff.mpr fun n h => ?_
          cases h
          exact shownNumber?_lt found
        · exact ensures_lift_pure_iff.mpr (by simp)

/-- A declared size has at most 32 bits. -/
theorem ensures_declaredSize_lt (ev : Evaluator σ ν) (v : Variable ν) (scope : Scope (Variable ν))
    (sizes : List GuardedText) (t : σ) :
    Ensures (liftM (ev.declaredSize v scope sizes) : Bounded σ _) t fun r _ =>
      ∀ n, r = .ok n → n < Text.bound32 := by
  induction sizes generalizing t with
  | nil => exact ensures_lift_pure_iff.mpr fun n h => nomatch h
  | cons size sizes ih =>
    rw [declaredSize, ensures_lift_bind_iff]
    refine (ev.ensures_sizeValue size v scope t).mono fun r t' small => ?_
    rcases r with e | _ | n
    · dsimp only
      split
      · exact ih t'
      · exact ensures_lift_pure_iff.mpr fun n h => nomatch h
    · exact ih t'
    · refine ensures_lift_pure_iff.mpr fun m h => ?_
      cases h
      exact small n rfl

/-- **A declared size is a word.** -/
theorem ensures_declaredSize (ev : Evaluator σ ν) (v : Variable ν) (scope : Scope (Variable ν))
    (sizes : List GuardedText) (t : σ) :
    Ensures (liftM (ev.declaredSize v scope sizes) : Bounded σ _) t fun r _ =>
      ∀ n, r = .ok n → n < wordCount :=
  (ev.ensures_declaredSize_lt v scope sizes t).mono fun _ _ small n h =>
    Nat.lt_trans (small n h) (by decide)

end Evaluator

/-! ## Single items -/

namespace ItemListing

/-- An item as its own work leaves it: it counts one row at most. -/
def Valid (l : ItemListing ν) : Prop := ∀ n, l.standing = some (.counted n) → n ≤ 1

/-- Work on an item. -/
structure Onward (l l' : ItemListing ν) : Prop where
  valid : l.Valid → l'.Valid
  leads : ∀ P, l.Within P → l'.Within P

/-- A settled item is not settled again. -/
theorem settled_of_standing (ev : Evaluator σ ν) {l : ItemListing ν} {st : Standing ν}
    (here : l.standing = some st) : l.settled ev = pure (st, l) := by
  unfold settled
  rw [here]

theorem ensures_settled (ev : Evaluator σ ν) (l : ItemListing ν) (t : σ) :
    Ensures (liftM (l.settled ev) : Bounded σ _) t fun r _ =>
      l.Onward r.2 ∧ r.2.standing = some r.1 ∧ ∀ st, l.standing = some st → r = (st, l) := by
  unfold settled
  split
  · rename_i st here
    refine ensures_lift_pure_iff.mpr ⟨⟨fun h => h, fun P h => h⟩, here, fun st' h => ?_⟩
    rw [here] at h
    cases h
    rfl
  · rename_i fresh
    rw [ensures_lift_bind_iff]
    refine (Standing.ensures_lift_settle (G := (· = l)) (K := fun _ n => n ≤ 1) rfl
      (fun _ _ => by decide) fun t' => ?_).mono fun r t' h => ?_
    · refine ensures_lift_pure_iff.mpr ⟨rfl, fun n hn => ?_⟩
      cases hn
      exact Nat.le_refl 1
    · obtain ⟨st, l'⟩ := r
      obtain ⟨rfl, counts⟩ := h
      refine ensures_lift_pure_iff.mpr ⟨⟨fun _ n hn => ?_, fun P led => ?_⟩, rfl, fun st' h => ?_⟩
      · cases hn
        exact counts.counted n rfl
      · refine { led with standing := fun st' h => ?_ }
        cases h
        exact counts.leads P
      · rw [fresh] at h
        cases h

theorem ensures_theRow (ev : Evaluator σ ν) (l : ItemListing ν) (t : σ) :
    Ensures (liftM (l.theRow ev) : Bounded σ _) t fun r _ =>
      (∃ row, r.2 = { l with row }) ∧
        ∀ P, l.Within P → r.1.Within P ∧ r.2.Within P := by
  unfold theRow
  split
  · rename_i row here
    exact ensures_lift_pure_iff.mpr ⟨⟨l.row, rfl⟩, fun P led => ⟨led.row row here, led⟩⟩
  · refine ensures_lift_bind_iff.mpr ((Context.ensures_row ev _ _ _ t).mono fun row t' h => ?_)
    refine ensures_lift_pure_iff.mpr ⟨⟨some row, rfl⟩, fun P led => ⟨h P, ?_⟩⟩
    refine { led with row := fun row' hr => ?_ }
    cases hr
    exact h P

/-- **A window of an item** has its row, if it was counted. -/
theorem ensures_rows (ev : Evaluator σ ν) (l : ItemListing ν) (start count : Nat) (t : σ) :
    Ensures (liftM (l.rows ev start count) : Bounded σ _) t fun r _ =>
      l.Onward r.2 ∧ (∀ P, l.Within P → ∀ row ∈ r.1, row.Within P) ∧
        ∀ st, l.Valid → l.standing = some st → r.2.standing = some st ∧
          r.1.length = min (windowEnd start count) st.count - start := by
  unfold rows
  rw [ensures_lift_bind_iff]
  refine (l.ensures_settled ev t).mono fun r t' h => ?_
  obtain ⟨st, l'⟩ := r
  obtain ⟨onward, settled, same⟩ := h
  cases st with
  | failed row =>
    refine ensures_lift_pure_iff.mpr ⟨onward, fun P led row' h => ?_, fun st' _ here => ?_⟩
    · obtain rfl := eq_of_mem_clip_singleton h
      exact (onward.leads P led).standing _ settled
    · cases same st' here
      exact ⟨here, length_clip _ _ _⟩
  | counted n =>
    dsimp only
    split
    · rename_i outside
      refine ensures_lift_pure_iff.mpr ⟨onward, fun P led => List.forall_mem_nil _, ?_⟩
      intro st' _ here
      cases same st' here
      refine ⟨here, ?_⟩
      unfold windowEnd
      simp only [List.length_nil, Standing.count]
      omega
    · rename_i inside
      refine ensures_lift_bind_iff.mpr ((l'.ensures_theRow ev t').mono fun r t'' h => ?_)
      obtain ⟨row, l''⟩ := r
      obtain ⟨⟨kept, rfl⟩, leads⟩ := h
      refine ensures_lift_pure_iff.mpr ⟨⟨onward.valid, fun P led => ?_⟩, fun P led row' h => ?_,
        fun st' valid here => ?_⟩
      · exact (leads P (onward.leads P led)).2
      · obtain rfl := eq_of_mem_clip_singleton h
        exact (leads P (onward.leads P led)).1
      · cases same st' here
        have few : n ≤ 1 := valid n here
        refine ⟨here, (length_clip _ _ _).trans ?_⟩
        simp only [List.length_singleton, Standing.count]
        omega

end ItemListing

/-! ## Index lists and arrays -/

namespace IndexListing

/-- An index list as its own work leaves it: it counts words. -/
def Valid (l : IndexListing ν) : Prop := ∀ n, l.standing = some (.counted n) → n < wordCount

/-- Work on an index list. -/
structure Onward (l l' : IndexListing ν) : Prop where
  valid : l.Valid → l'.Valid
  leads : ∀ P, l.Within P → l'.Within P

theorem ensures_count (ev : Evaluator σ ν) (l : IndexListing ν) (t : σ) :
    Ensures (liftM (l.count ev) : Bounded σ _) t fun r _ => ∀ n, r = .ok n → n < wordCount := by
  unfold count
  split
  · exact ensures_lift_pure_iff.mpr fun n h => nomatch h
  · exact ev.ensures_declaredSize _ _ _ t

/-- A settled index list is not settled again. -/
theorem settled_of_standing (ev : Evaluator σ ν) {l : IndexListing ν} {st : Standing ν}
    (here : l.standing = some st) : l.settled ev = pure (st, l) := by
  unfold settled
  rw [here]

theorem ensures_settled (ev : Evaluator σ ν) (l : IndexListing ν) (t : σ) :
    Ensures (liftM (l.settled ev) : Bounded σ _) t fun r _ =>
      l.Onward r.2 ∧ r.2.standing = some r.1 ∧ ∀ st, l.standing = some st → r = (st, l) := by
  unfold settled
  split
  · rename_i st here
    refine ensures_lift_pure_iff.mpr ⟨⟨fun h => h, fun P h => h⟩, here, fun st' h => ?_⟩
    rw [here] at h
    cases h
    rfl
  · rename_i fresh
    rw [ensures_lift_bind_iff]
    refine (Standing.ensures_lift_settle (G := (· = l)) (K := fun _ n => n < wordCount) rfl
      (fun _ _ => by decide) fun t' => ?_).mono fun r t' h => ?_
    · rw [ensures_lift_bind_iff]
      exact (l.ensures_count ev t').mono fun r t'' h => ensures_lift_pure_iff.mpr ⟨rfl, h⟩
    · obtain ⟨st, l'⟩ := r
      obtain ⟨rfl, counts⟩ := h
      refine ensures_lift_pure_iff.mpr ⟨⟨fun _ n hn => ?_, fun P led => ?_⟩, rfl, fun st' h => ?_⟩
      · cases hn
        exact counts.counted n rfl
      · refine { led with standing := fun st' h => ?_ }
        cases h
        exact counts.leads P
      · rw [fresh] at h
        cases h

theorem ensures_rowAt (ev : Evaluator σ ν) (l : IndexListing ν) (index : Nat) (t : σ) :
    Ensures (liftM (l.rowAt ev index) : Bounded σ _) t fun row _ => ∀ P, row.Within P := by
  unfold rowAt
  rw [ensures_lift_bind_iff]
  intro chosen t' _
  rcases chosen with e | _ | expression
  · exact ensures_lift_pure_iff.mpr fun P => trivial
  · exact ensures_lift_pure_iff.mpr fun P => trivial
  · exact Context.ensures_row ev _ _ _ t'

/-- **A window of an index list** has the rows that were counted. -/
theorem ensures_rows (ev : Evaluator σ ν) (l : IndexListing ν) (start count : Nat) (t : σ) :
    Ensures (liftM (l.rows ev start count) : Bounded σ _) t fun r _ =>
      l.Onward r.2 ∧ (∀ P, l.Within P → ∀ row ∈ r.1, row.Within P) ∧
        ∀ st, l.standing = some st → r.2.standing = some st ∧
          r.1.length = min (windowEnd start count) st.count - start := by
  unfold rows
  rw [ensures_lift_bind_iff]
  refine (l.ensures_settled ev t).mono fun r t' h => ?_
  obtain ⟨st, l'⟩ := r
  obtain ⟨onward, settled, same⟩ := h
  cases st with
  | failed row =>
    refine ensures_lift_pure_iff.mpr ⟨onward, fun P led row' h => ?_, fun st' here => ?_⟩
    · obtain rfl := eq_of_mem_clip_singleton h
      exact (onward.leads P led).standing _ settled
    · cases same st' here
      exact ⟨here, length_clip _ _ _⟩
  | counted n =>
    rw [ensures_lift_bind_iff]
    refine (Kept.ensures_rowsAt (l'.ensures_rowAt ev) _ l'.kept t').mono fun r t'' h => ?_
    obtain ⟨many, leads⟩ := h
    refine ensures_lift_pure_iff.mpr ⟨⟨onward.valid, fun P led => ?_⟩, fun P led => ?_,
      fun st' here => ?_⟩
    · have led := onward.leads P led
      exact { led with kept := (leads P led.kept).2 }
    · exact (leads P (onward.leads P led).kept).1
    · cases same st' here
      exact ⟨here, many.trans (length_windowOf _ _ _)⟩

end IndexListing

namespace ArrayListing

/-- An array as its own work leaves it: it counts words, and none without a
pointer. -/
def Valid (l : ArrayListing ν) : Prop :=
  ∀ n, l.standing = some (.counted n) → n < wordCount ∧ (l.pointer = none → n = 0)

/-- Work on an array. -/
structure Onward (l l' : ArrayListing ν) : Prop where
  valid : l.Valid → l'.Valid
  leads : ∀ P, l.Within P → l'.Within P

theorem ensures_count (ev : Evaluator σ ν) (l : ArrayListing ν) (t : σ) :
    Ensures (liftM (l.count ev) : Bounded σ _) t fun r _ =>
      (∃ pointer, r.2 = { l with pointer }) ∧
        ∀ n, r.1 = .ok n → n < wordCount ∧ (r.2.pointer = none → n = 0) := by
  unfold count
  rw [ensures_lift_bind_iff]
  intro chosen t' _
  cases chosen with
  | error e =>
    exact ensures_lift_pure_iff.mpr ⟨⟨l.pointer, rfl⟩, fun n h => nomatch h⟩
  | ok pointer =>
    refine ensures_lift_bind_iff.mpr ?_
    refine (ev.ensures_declaredSize _ _ _ t').mono fun size t'' small => ?_
    refine ensures_lift_pure_iff.mpr ⟨⟨some pointer, rfl⟩, fun n h => ⟨small n h, ?_⟩⟩
    intro missing
    cases missing

/-- A settled array is not settled again. -/
theorem settled_of_standing (ev : Evaluator σ ν) {l : ArrayListing ν} {st : Standing ν}
    (here : l.standing = some st) : l.settled ev = pure (st, l) := by
  unfold settled
  rw [here]

theorem ensures_settled (ev : Evaluator σ ν) (l : ArrayListing ν) (t : σ) :
    Ensures (liftM (l.settled ev) : Bounded σ _) t fun r _ =>
      l.Onward r.2 ∧ r.2.standing = some r.1 ∧ ∀ st, l.standing = some st → r = (st, l) := by
  unfold settled
  split
  · rename_i st here
    refine ensures_lift_pure_iff.mpr ⟨⟨fun h => h, fun P h => h⟩, here, fun st' h => ?_⟩
    rw [here] at h
    cases h
    rfl
  · rename_i fresh
    rw [ensures_lift_bind_iff]
    refine (Standing.ensures_lift_settle (G := fun l' => ∃ pointer, l' = { l with pointer })
      (K := fun l' n => n < wordCount ∧ (l'.pointer = none → n = 0)) ⟨l.pointer, rfl⟩
      (fun _ _ => ⟨by decide, fun _ => rfl⟩) (l.ensures_count ev)).mono fun r t' h => ?_
    obtain ⟨st, l'⟩ := r
    obtain ⟨⟨pointer, same⟩, counts⟩ := h
    obtain rfl : l' = { l with pointer } := same
    refine ensures_lift_pure_iff.mpr ⟨⟨fun _ n hn => ?_, fun P led => ?_⟩, rfl, fun st' h => ?_⟩
    · cases hn
      exact counts.counted n rfl
    · refine ⟨led.owner, fun st' h => ?_, led.kept⟩
      cases h
      exact counts.leads P
    · rw [fresh] at h
      cases h

/-- **A window of an array** has the rows that were counted. -/
theorem ensures_rows (ev : Evaluator σ ν) (l : ArrayListing ν) (start count : Nat) (t : σ) :
    Ensures (liftM (l.rows ev start count) : Bounded σ _) t fun r _ =>
      l.Onward r.2 ∧ (∀ P, l.Within P → ∀ row ∈ r.1, row.Within P) ∧
        ∀ st, l.Valid → l.standing = some st → r.2.standing = some st ∧
          r.1.length = min (windowEnd start count) st.count - start := by
  unfold rows
  rw [ensures_lift_bind_iff]
  refine (l.ensures_settled ev t).mono fun r t' h => ?_
  obtain ⟨st, l'⟩ := r
  obtain ⟨onward, settled, same⟩ := h
  cases st with
  | failed row =>
    refine ensures_lift_pure_iff.mpr ⟨onward, fun P led row' h => ?_, fun st' _ here => ?_⟩
    · obtain rfl := eq_of_mem_clip_singleton h
      exact (onward.leads P led).standing _ settled
    · cases same st' here
      exact ⟨here, length_clip _ _ _⟩
  | counted n =>
    cases pointed : l'.pointer with
    | none =>
      dsimp only
      rw [pointed]
      refine ensures_lift_pure_iff.mpr ⟨onward, fun P led => List.forall_mem_nil _, ?_⟩
      intro st' valid here
      cases same st' here
      obtain rfl := (valid n here).2 pointed
      exact ⟨here, by simp [Standing.count]⟩
    | some pointer =>
      dsimp only
      rw [pointed]
      refine ensures_lift_bind_iff.mpr ?_
      refine (Kept.ensures_rowsAt (fun i t => Context.ensures_row ev _ _ _ t) _ l'.kept t').mono
        fun r t'' h => ?_
      obtain ⟨many, leads⟩ := h
      refine ensures_lift_pure_iff.mpr ⟨⟨fun valid => ?_, fun P led => ?_⟩, fun P led => ?_,
        fun st' _ here => ?_⟩
      · exact fun n hn => ⟨(onward.valid valid n hn).1, fun missing => nomatch missing⟩
      · have led := onward.leads P led
        exact { led with kept := (leads P led.kept).2 }
      · exact (leads P (onward.leads P led).kept).1
      · cases same st' here
        exact ⟨here, many.trans (length_windowOf _ _ _)⟩

end ArrayListing

end WatchView
