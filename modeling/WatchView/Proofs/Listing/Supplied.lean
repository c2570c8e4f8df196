import WatchView.Proofs.Listing.CustomDeeds
import WatchView.Proofs.Listing.Filled
import WatchView.Proofs.Listing.NodeDeeds
/-!
# Windows that are at hand

A window of a listing finds rows and leaves them at hand: `Supplies` says that
the rows of a window can be told from the listing alone. They are still at hand
after any other window was asked for (`Endures`), and asked for the window again
the listing gives them without any work.
-/

namespace WatchView

open Bounded Relation

variable {σ ν : Type}

/-- **The rows of a window are at hand**: the one of a failure is, and of so many
rows this holds. -/
def Standing.Supplies (start count : Nat) (shown : Nat → List (Variable ν) → Prop) :
    Standing ν → List (Variable ν) → Prop
  | failed row, rows => rows = clip start count [row]
  | counted n, rows => shown n rows

theorem Standing.Supplies.mono {start count : Nat} {shown shown' : Nat → List (Variable ν) → Prop}
    {st : Standing ν} {rows : List (Variable ν)} (h : st.Supplies start count shown rows)
    (weaker : ∀ n, st = .counted n → shown n rows → shown' n rows) :
    st.Supplies start count shown' rows := by
  cases st with
  | failed row => exact h
  | counted n => exact weaker n rfl h

/-! ## Single items -/

namespace ItemListing

/-- The row of an item is at hand, if the window shows it. -/
def HasRows (l : ItemListing ν) (start count n : Nat) (rows : List (Variable ν)) : Prop :=
  if count = 0 ∨ n ≤ start then rows = []
  else ∃ row, l.row = some row ∧ rows = clip start count [row]

/-- The rows of a window of an item are at hand. -/
def Supplies (start count : Nat) (l : ItemListing ν) (rows : List (Variable ν)) : Prop :=
  ∃ st, l.standing = some st ∧ st.Supplies start count (l.HasRows start count) rows

variable {start count : Nat} {l : ItemListing ν} {rows : List (Variable ν)}

theorem ensures_supplies (ev : Evaluator σ ν) (l : ItemListing ν) (start count : Nat) (t : σ) :
    Ensures (liftM (l.rows ev start count) : Bounded σ _) t fun r _ =>
      r.2.Supplies start count r.1 ∧
        ∀ start' count' rows, l.Supplies start' count' rows → r.2.Supplies start' count' rows := by
  unfold rows
  refine ensures_lift_bind_iff.mpr ((l.ensures_settled ev t).mono fun r t' h => ?_)
  obtain ⟨st, l₁⟩ := r
  obtain ⟨-, settled, same⟩ := h
  -- what was at hand is so of the settled item
  have before {start' count' : Nat} {rows : List (Variable ν)}
      (h : l.Supplies start' count' rows) : l₁.Supplies start' count' rows := by
    obtain ⟨st', here, h⟩ := h
    cases same st' here
    exact ⟨_, here, h⟩
  cases st with
  | failed row =>
    exact ensures_lift_pure_iff.mpr ⟨⟨_, settled, rfl⟩, fun _ _ _ => before⟩
  | counted n =>
    dsimp only
    split
    · rename_i outside
      exact ensures_lift_pure_iff.mpr ⟨⟨_, settled, (if_pos outside).mpr rfl⟩, fun _ _ _ => before⟩
    · rename_i inside
      unfold theRow
      split
      · rename_i row here
        exact ensures_lift_pure_iff.mpr
          ⟨⟨_, settled, (if_neg inside).mpr ⟨row, here, rfl⟩⟩, fun _ _ _ => before⟩
      · rename_i fresh
        refine ensures_lift_bind_iff.mpr (ensures_lift_bind_iff.mpr
          ((ensures_true _ t').mono fun row t'' _ => ?_))
        refine ensures_lift_pure_iff.mpr (ensures_lift_pure_iff.mpr
          ⟨⟨_, settled, (if_neg inside).mpr ⟨row, rfl, rfl⟩⟩, fun start' count' rows h => ?_⟩)
        obtain ⟨st, here, h⟩ := before h
        refine ⟨st, here, h.mono fun m _ has => ?_⟩
        unfold HasRows at has ⊢
        split at has
        · rename_i outside
          rw [if_pos outside]
          exact has
        · obtain ⟨row', kept, -⟩ := has
          cases fresh.symm.trans kept

theorem Supplies.again (h : l.Supplies start count rows) (ev : Evaluator σ ν) (t : σ) :
    l.rows ev start count t = ((rows, l), t) := by
  obtain ⟨st, here, h⟩ := h
  unfold ItemListing.rows
  rw [settled_of_standing ev here, pure_bind]
  cases st with
  | failed row =>
    cases h
    rfl
  | counted n =>
    dsimp only [Standing.Supplies, HasRows] at h ⊢
    split at h
    · rename_i outside
      rw [if_pos outside, h]
      rfl
    · rename_i inside
      obtain ⟨row, kept, rfl⟩ := h
      unfold theRow
      rw [if_neg inside, kept]
      rfl

end ItemListing

/-! ## Kept rows -/

namespace Kept

/-- Rows are kept at these positions. -/
def Has (kept : Kept ν) (positions : List Nat) (rows : List (Variable ν)) : Prop :=
  List.Forall₂ (fun i row => kept.row? i = some row) positions rows

theorem Has.keepsOn {kept kept' : Kept ν} {positions : List Nat} {rows : List (Variable ν)}
    (h : kept.Has positions rows) (on : Course.KeepsOn kept kept') : kept'.Has positions rows :=
  h.imp fun i row here => on i row here

/-- They are not made again. -/
theorem Has.rowsAt {m : Type → Type} [Monad m] [LawfulMonad m] {kept : Kept ν}
    {positions : List Nat} {rows : List (Variable ν)} (h : kept.Has positions rows)
    (make : Nat → m (Variable ν)) : kept.rowsAt make positions = pure (rows, kept) := by
  induction h with
  | nil => rfl
  | cons here _ ih =>
    rw [Kept.rowsAt, here, ih]
    exact pure_bind _ _

/-- Rows that were asked for are kept. -/
theorem ensures_rowsAt_has (make : Nat → StateM σ (Variable ν)) (positions : List Nat)
    (kept : Kept ν) (t : σ) :
    Ensures (liftM (kept.rowsAt make positions) : Bounded σ _) t fun r _ =>
      Kept.Has r.2 positions r.1 ∧ Course.KeepsOn kept r.2 :=
  (Listing.ensures_rowsAt_made (W := fun _ _ _ => True) (fun _ => trivial) (fun _ _ _ => trivial)
    positions kept t).mono fun _ _ h => ⟨h.2.2, h.2.1⟩

end Kept

/-! ## Index lists and arrays -/

namespace IndexListing

/-- The rows of a window of an index list are at hand. -/
def Supplies (start count : Nat) (l : IndexListing ν) (rows : List (Variable ν)) : Prop :=
  ∃ st, l.standing = some st ∧
    st.Supplies start count (fun n => l.kept.Has (windowOf n start count)) rows

variable {start count : Nat} {l : IndexListing ν} {rows : List (Variable ν)}

theorem ensures_supplies (ev : Evaluator σ ν) (l : IndexListing ν) (start count : Nat) (t : σ) :
    Ensures (liftM (l.rows ev start count) : Bounded σ _) t fun r _ =>
      r.2.Supplies start count r.1 ∧
        ∀ start' count' rows, l.Supplies start' count' rows → r.2.Supplies start' count' rows := by
  unfold rows
  refine ensures_lift_bind_iff.mpr ((l.ensures_settled ev t).mono fun r t' h => ?_)
  obtain ⟨st, l₁⟩ := r
  obtain ⟨-, settled, same⟩ := h
  cases st with
  | failed row =>
    refine ensures_lift_pure_iff.mpr ⟨⟨_, settled, rfl⟩, fun _ _ _ h => ?_⟩
    obtain ⟨st', here, h⟩ := h
    cases same st' here
    exact ⟨_, here, h⟩
  | counted n =>
    refine ensures_lift_bind_iff.mpr ((Kept.ensures_rowsAt_has _ _ _ t').mono fun r t'' h => ?_)
    obtain ⟨here, on⟩ := h
    refine ensures_lift_pure_iff.mpr ⟨⟨_, settled, here⟩, fun _ _ _ h => ?_⟩
    obtain ⟨st', here, h⟩ := h
    cases same st' here
    exact ⟨_, here, Kept.Has.keepsOn h on⟩

theorem Supplies.again (h : l.Supplies start count rows) (ev : Evaluator σ ν) (t : σ) :
    l.rows ev start count t = ((rows, l), t) := by
  obtain ⟨st, here, h⟩ := h
  unfold IndexListing.rows
  rw [settled_of_standing ev here, pure_bind]
  cases st with
  | failed row =>
    cases h
    rfl
  | counted n =>
    dsimp only
    rw [Kept.Has.rowsAt h]
    rfl

end IndexListing

namespace ArrayListing

/-- The rows of an array at positions are at hand; there are none without a pointer. -/
def HasRows (l : ArrayListing ν) (positions : List Nat) (rows : List (Variable ν)) : Prop :=
  if l.pointer.isSome then l.kept.Has positions rows else rows = []

/-- The rows of a window of an array are at hand. -/
def Supplies (start count : Nat) (l : ArrayListing ν) (rows : List (Variable ν)) : Prop :=
  ∃ st, l.standing = some st ∧
    st.Supplies start count (fun n => l.HasRows (windowOf n start count)) rows

variable {start count : Nat} {l : ArrayListing ν} {rows : List (Variable ν)}

theorem ensures_supplies (ev : Evaluator σ ν) (l : ArrayListing ν) (start count : Nat) (t : σ) :
    Ensures (liftM (l.rows ev start count) : Bounded σ _) t fun r _ =>
      r.2.Supplies start count r.1 ∧
        ∀ start' count' rows, l.Supplies start' count' rows → r.2.Supplies start' count' rows := by
  unfold rows
  refine ensures_lift_bind_iff.mpr ((l.ensures_settled ev t).mono fun r t' h => ?_)
  obtain ⟨st, c, rule, standing, pointer, kept⟩ := r
  obtain ⟨-, settled, same⟩ := h
  cases st with
  | failed row =>
    refine ensures_lift_pure_iff.mpr ⟨⟨_, settled, rfl⟩, fun _ _ _ h => ?_⟩
    obtain ⟨st', here, h⟩ := h
    cases same st' here
    exact ⟨_, here, h⟩
  | counted n =>
    cases pointer with
    | none =>
      refine ensures_lift_pure_iff.mpr ⟨⟨_, settled, rfl⟩, fun _ _ _ h => ?_⟩
      obtain ⟨st', here, h⟩ := h
      cases same st' here
      exact ⟨_, here, h⟩
    | some pointer =>
      refine ensures_lift_bind_iff.mpr ((Kept.ensures_rowsAt_has _ _ _ t').mono fun r t'' h => ?_)
      obtain ⟨here, on⟩ := h
      refine ensures_lift_pure_iff.mpr ⟨⟨_, settled, here⟩, fun _ _ _ h => ?_⟩
      obtain ⟨st', here, h⟩ := h
      cases same st' here
      exact ⟨_, here, Kept.Has.keepsOn h on⟩

theorem Supplies.again (h : l.Supplies start count rows) (ev : Evaluator σ ν) (t : σ) :
    l.rows ev start count t = ((rows, l), t) := by
  obtain ⟨st, here, h⟩ := h
  unfold ArrayListing.rows
  rw [settled_of_standing ev here, pure_bind]
  obtain ⟨c, rule, standing, pointer, kept⟩ := l
  cases st with
  | failed row =>
    cases h
    rfl
  | counted n =>
    cases pointer with
    | none =>
      cases h
      rfl
    | some pointer =>
      dsimp only
      rw [Kept.Has.rowsAt h]
      rfl

end ArrayListing

/-! ## Linked lists and trees -/

namespace NodeListing

/-- A list that need not look for nodes to have so many. -/
def Rested (l : NodeListing ν) (target : Nat) : Prop :=
  l.walk = none ∨ l.exhausted = true ∨ target ≤ l.nodes.size

/-- The rows of a window of so many are at hand. -/
structure HasRows (l : NodeListing ν) (start count n : Nat) (rows : List (Variable ν)) : Prop where
  rested : l.Rested (min (windowEnd start count) n)
  rows : List.Forall₂ (l.IsRowAt l.kept) (windowOf n start count) rows

/-- The rows of a window of a list of nodes are at hand. -/
def Supplies (start count : Nat) (l : NodeListing ν) (rows : List (Variable ν)) : Prop :=
  l.stale = false ∧ ∃ st, l.standing = some st ∧ st.Supplies start count (l.HasRows start count) rows

variable {start count n target : Nat} {l l' : NodeListing ν} {rows : List (Variable ν)}

theorem Rested.walkTo (h : l.Rested target) (ev : Evaluator σ ν) (bound : Nat) (t : σ) :
    l.walkTo ev bound target t = .ok (l, t) := by
  unfold NodeListing.walkTo
  cases more : target - l.nodes.size with
  | zero => rfl
  | succ more' =>
    unfold walkOn
    cases walk : l.walk with
    | none => rfl
    | some w =>
      rcases h with idle | stuck | enough
      · cases walk.symm.trans idle
      · dsimp only
        rw [if_pos stuck]
        rfl
      · omega

theorem WentOn.rested (on : WentOn (target - l.nodes.size) l l') : l'.Rested target := by
  rcases on.far with enough | stuck | idle
  · exact .inr (.inr (by omega))
  · exact .inr (.inl stuck)
  · exact .inl idle

/-- Rows that are at hand are so after the list went on and rows were made. -/
theorem HasRows.on (h : l.HasRows start count n rows) {more : Nat} (on : WentOn more l l')
    {kept : Kept ν} (keeps : Course.KeepsOn l.kept kept)
    (new : ∀ i v, kept.row? i = some v → l.kept.row? i = some v ∨ i < l'.nodes.size) :
    ({ l' with kept } : NodeListing ν).HasRows start count n rows := by
  obtain ⟨rested, rows⟩ := h
  -- a walk that moved still wanted nodes before, so that no row asked for is behind the last one
  by_cases stopped : l' = l
  · subst stopped
    refine ⟨rested, rows.imp fun i v here => ?_⟩
    rcases here with here | ⟨fresh, outside, rfl⟩
    · exact .inl (keeps i v here)
    · refine .inr ⟨?_, outside, rfl⟩
      cases made : Kept.row? kept i with
      | none => rfl
      | some v =>
        rcases new i v made with old | inside
        · cases fresh.symm.trans old
        · omega
  · have enough : min (windowEnd start count) n ≤ l.nodes.size := by
      rcases rested with idle | stuck | enough
      · exact absurd (on.idle idle) stopped
      · exact absurd (on.stuck stuck) stopped
      · exact enough
    have rested' : l'.Rested (min (windowEnd start count) n) := by
      rcases on.far with more | ended
      · exact .inr (.inr (by omega))
      · exact ended.elim (fun stuck => .inr (.inl stuck)) .inl
    refine ⟨rested', ?_⟩
    refine List.forall₂_iff_get.mpr ⟨rows.length_eq, fun i h h' => ?_⟩
    have inside := lt_min_of_mem_windowOf (List.get_mem (windowOf n start count) ⟨i, h⟩)
    rcases (List.forall₂_iff_get.mp rows).2 i h h' with here | ⟨-, outside, -⟩
    · exact .inl (keeps _ _ here)
    · omega

/-- A window of a list of nodes leaves its rows at hand, and those of other windows
that were. -/
theorem ensures_supplies (ev : Evaluator σ ν) {options : Options}
    (words : ∀ p, options.get p < wordCount) (bound : Nat) (l : NodeListing ν)
    (start count : Nat) (t : σ) :
    Ensures (l.rows ev options bound start count) t fun r _ =>
      (l.Valid → r.2.Supplies start count r.1) ∧
        ∀ start' count' rows, l.Supplies start' count' rows → r.2.Supplies start' count' rows := by
  unfold rows
  refine (l.ensures_settled ev words bound t).bind fun r t₁ h => ?_
  obtain ⟨st, l₁⟩ := r
  obtain ⟨-, settled, fresh, same⟩ := h
  cases st with
  | failed row =>
    refine ensures_pure_iff.mpr ⟨fun valid => ⟨fresh valid, _, settled, rfl⟩, fun _ _ _ h => ?_⟩
    obtain ⟨up, st', here, h⟩ := h
    cases same st' here up
    exact ⟨up, _, here, h⟩
  | counted n =>
    refine (ensures_walkTo_works _ l₁ {} t₁).bind fun l₂ t₂ h => ?_
    obtain ⟨-, walks, on⟩ := h
    refine ensures_bind_iff.mpr ((ensures_rowsAt_works l₂ _ l₂.kept {} t₂).mono fun r t₃ h => ?_)
    obtain ⟨⟨deeds, works⟩, new, all⟩ := h
    have standing : l₂.standing = l₁.standing := by rw [walks.same]
    have stale : l₂.stale = l₁.stale := by rw [walks.same]
    have kept : l₂.kept = l₁.kept := by rw [walks.same]
    refine ensures_pure_iff.mpr ⟨fun valid => ?_, fun _ _ _ h => ?_⟩
    · exact ⟨stale.trans (fresh valid), _, standing.trans settled, on.rested, all⟩
    · obtain ⟨up, st', here, h⟩ := h
      cases same st' here up
      refine ⟨stale.trans up, _, standing.trans here, h.mono fun m _ has => ?_⟩
      have keeps := works.kept.1
      dsimp only at keeps
      rw [kept] at keeps new
      exact has.on on keeps new

/-- Rows that are at hand are not made again. -/
theorem rowsAt_of_isRowAt {positions : List Nat}
    (h : List.Forall₂ (l.IsRowAt l.kept) positions rows) (ev : Evaluator σ ν) :
    l.rowsAt ev positions l.kept = pure (rows, l.kept) := by
  induction h with
  | nil => rfl
  | cons here _ ih =>
    rw [rowsAt, ih]
    rcases here with here | ⟨fresh, outside, rfl⟩
    · rw [here]
      rfl
    · rw [fresh, Array.getElem?_eq_none outside]
      rfl

theorem Supplies.again (h : l.Supplies start count rows) (ev : Evaluator σ ν) (options : Options)
    (bound : Nat) (t : σ) : l.rows ev options bound start count t = .ok ((rows, l), t) := by
  obtain ⟨fresh, st, here, h⟩ := h
  unfold NodeListing.rows
  rw [settled_of_standing ev options bound here fresh, pure_bind]
  cases st with
  | failed row =>
    cases h
    rfl
  | counted n =>
    refine bind_eq_ok_iff.mpr ⟨_, h.rested.walkTo ev bound t, ?_⟩
    dsimp only
    rw [rowsAt_of_isRowAt h.rows]
    rfl

end NodeListing

/-! ## Custom lists -/

namespace CustomListing

/-- A list that need not run to have so many rows. A program runs within a bound,
if at all. -/
def Rested (bound target : Nat) (l : CustomListing ν) : Prop :=
  l.failed = true ∨ bound ≠ 0 ∧ (target ≤ l.shown.size ∨ l.IsSpent)

/-- The rows of a window of so many are at hand. -/
structure HasRows (bound start count : Nat) (l : CustomListing ν) (n : Nat)
    (rows : List (Variable ν)) : Prop where
  rested : l.Rested bound (min (windowEnd start count) n)
  rows : rows = (windowOf n start count).filterMap (l.shown[·]?)

/-- The rows of a window of a custom list are at hand. -/
def Supplies (bound start count : Nat) (l : CustomListing ν) (rows : List (Variable ν)) : Prop :=
  l.current = true ∧ l.standing.Supplies start count (l.HasRows bound start count) rows

variable {bound start count n target : Nat} {l : CustomListing ν} {rows : List (Variable ν)}

/-- A list need not run once it has run. -/
theorem ensures_rested (ev : Evaluator σ ν) (bound target : Nat) {l : CustomListing ν} {n : Nat}
    (counted : l.standing = .counted n) (t : σ) :
    Ensures (l.runTo ev bound target) t fun l' _ => l'.Rested bound target := by
  intro l' t' ended
  have run : RunsTo ev target (l, t) (l', t') := ⟨bound, ended⟩
  by_cases frozen : l.IsFrozen
  · cases (runsTo_of_isFrozen frozen).mp run
    refine .inl ((isFrozen_iff.mp frozen).resolve_right fun unsound => ?_)
    rw [counted] at unsound
    cases unsound
  · refine .inr ⟨fun zero => ?_, ?_⟩
    · subst zero
      unfold IsFrozen at frozen
      unfold runTo at ended
      rw [if_neg frozen] at ended
      cases ended
    · obtain ⟨m, first, same⟩ := (runsTo_of_not_isFrozen frozen).mp run
      cases same
      exact first.enough_or

theorem Rested.runTo (h : l.Rested bound target) (ev : Evaluator σ ν) (t : σ) :
    l.runTo ev bound target t = .ok (l, t) := by
  unfold CustomListing.runTo
  rcases h with failed | ⟨positive, rested⟩
  · rw [failed]
    rfl
  · split
    · rfl
    · obtain ⟨bound, rfl⟩ := Nat.exists_eq_succ_of_ne_zero positive
      have halts : l.Halts target :=
        rested.elim (fun enough _ _ => .inl enough) fun spent => spent.stopped.halts target
      have padded : l.padded target = l :=
        rested.elim padded_of_enough fun spent => spent.padded target
      refine bind_eq_ok_iff.mpr ⟨_, Halts.runOn_eq (p := (l, t)) ev halts bound, ?_⟩
      dsimp only
      rw [padded]
      rfl

/-- Rows that are at hand are so after the program ran on. -/
theorem HasRows.on (h : l.HasRows bound start count n rows) {ev : Evaluator σ ν} {t : σ}
    {q : CustomListing ν × σ} (run : RunsTo ev target (l, t) q) :
    q.1.HasRows bound start count n rows := by
  have stuck (same : q = (l, t)) : q.1.HasRows bound start count n rows := by
    subst same
    exact h
  obtain ⟨rested, rfl⟩ := h
  rcases rested with failed | ⟨positive, enough | spent⟩
  · exact stuck ((runsTo_of_isFrozen (isFrozen_iff.mpr (.inl failed))).mp run)
  · obtain ⟨more, grown⟩ := run.extended.shown
    have enough' : min (windowEnd start count) n ≤ l.shown.toList.length := enough
    refine ⟨.inr ⟨positive, .inl (Nat.le_trans enough run.extended.shown.length_le)⟩, ?_⟩
    rw [filterMap_shown n (start, count), filterMap_shown n (start, count)]
    refine clip_take_congr ?_
    rw [← grown, List.take_append_of_le_length enough']
  · exact stuck (IsSpent.runsTo spent run)

/-- Whether the children of a list can be had stays as it was while its program runs, unless
the list fails. -/
theorem RunsTo.isSound_or {ev : Evaluator σ ν} {p q : CustomListing ν × σ}
    (run : RunsTo ev target p q) :
    q.1.isSound = p.1.isSound ∨ p.1.failed = false ∧ p.1.isSound = true := by
  have ran := run.ranTo
  have same : q.1.isSound = (p.1.rule.guard.optional || (p.1.standing.isSound && !q.1.failed)) := by
    unfold isSound
    rw [ran.same]
  rw [same]
  unfold isSound
  cases failed : p.1.failed with
  | true =>
    rw [ran.failed failed]
    exact .inl rfl
  | false =>
    cases now : q.1.failed with
    | false => exact .inl rfl
    | true =>
      cases p.1.rule.guard.optional <;> cases p.1.standing.isSound <;> simp

/-- A window of a custom list leaves its rows at hand, and those of other windows
that were; and the list stands as it did. -/
theorem ensures_supplies (engine : Engine σ ν) (bound : Nat) (l : CustomListing ν)
    (start count : Nat) (s : Session σ ν) :
    Ensures (l.rows engine bound start count) s fun r _ =>
      (r.2.Supplies bound start count r.1 ∧ ∀ bound' start' count' rows,
        l.Supplies bound' start' count' rows → r.2.Supplies bound' start' count' rows) ∧
      (l.current = true → r.2.standing = l.standing ∧
        (r.2.isSound = l.isSound ∨ l.failed = false ∧ l.isSound = true)) := by
  unfold rows
  refine ensures_bind_iff.mpr fun r s₁ ended => ?_
  obtain ⟨st, l₁⟩ := r
  obtain ⟨standing, current⟩ := settled_eq ended
  have same (up : l.current = true) : l₁ = l :=
    congrArg (fun r => r.1.2) (Except.ok.inj
      (ended.symm.trans (settled_of_current engine bound up s)))
  cases st with
  | failed row =>
    refine ensures_pure_iff.mpr ⟨⟨⟨current, ?_⟩, fun _ _ _ _ h => same h.1 ▸ h⟩, fun up => ?_⟩
    · rw [standing]
      rfl
    · cases same up
      exact ⟨rfl, .inl rfl⟩
  | counted n =>
    refine Ensures.bind (ensures_ofTarget_iff.mpr ?_) fun l₂ s₂ h => ensures_pure_iff.mpr h
    refine ((ensures_rested _ bound _ standing _).and (ensures_runTo _ _ _ _ _ (P := fun l₂ t =>
      ∃ target, RunsTo engine.evaluator target (l₁, s₁.target) (l₂, t)) fun q run =>
        ⟨_, run⟩)).mono fun l₂ t h => ?_
    obtain ⟨rested, target, run⟩ := h
    have standing' := run.extended.standing
    have current' := run.extended.current.trans current
    refine ⟨⟨⟨current', ?_⟩, fun _ _ _ _ h => ⟨current', ?_⟩⟩, fun up => ?_⟩
    · rw [standing', standing]
      exact ⟨rested, rfl⟩
    · cases same h.1
      rw [standing']
      exact h.2.mono fun m _ has => has.on run
    · cases same up
      exact ⟨standing', run.isSound_or⟩

theorem Supplies.again (h : l.Supplies bound start count rows) (engine : Engine σ ν)
    (s : Session σ ν) : l.rows engine bound start count s = .ok ((rows, l), s) := by
  obtain ⟨current, h⟩ := h
  unfold CustomListing.rows
  refine bind_eq_ok_iff.mpr ⟨_, settled_of_current engine bound current s, ?_⟩
  dsimp only
  cases standing : l.standing with
  | failed row =>
    rw [standing] at h
    cases h
    rfl
  | counted n =>
    rw [standing] at h
    obtain ⟨rested, rfl⟩ := h
    refine bind_eq_ok_iff.mpr ⟨(l, s), ?_, rfl⟩
    exact ofTarget_eq_ok_iff.mpr ⟨s.target, rested.runTo engine.evaluator s.target, rfl⟩

end CustomListing

/-! ## Synthetic rows -/

namespace SyntheticListing

/-- The row of a synthetic rule is at hand. -/
def Supplies (start count : Nat) (l : SyntheticListing ν) (rows : List (Variable ν)) : Prop :=
  ∃ st, l.standing = some st ∧
    st.Supplies start count (fun _ rows => rows = clip start count l.row.toList) rows

variable {start count : Nat} {l : SyntheticListing ν} {rows : List (Variable ν)}

theorem ensures_supplies (engine : Engine σ ν) (reach : Reach σ ν) {l : SyntheticListing ν}
    (valid : l.Valid) (start count : Nat) (s : Session σ ν) :
    Ensures (l.rows engine reach start count) s fun r _ =>
      r.2.Supplies start count r.1 ∧
        ∀ start' count' rows, l.Supplies start' count' rows → r.2.Supplies start' count' rows := by
  unfold rows
  refine (ensures_settled engine reach valid s).bind fun r s₁ h => ?_
  obtain ⟨st, l₁⟩ := r
  obtain ⟨-, settled, same⟩ := h
  have before {start' count' : Nat} {rows : List (Variable ν)}
      (h : l.Supplies start' count' rows) : l₁.Supplies start' count' rows := by
    obtain ⟨st', here, h⟩ := h
    cases same st' here
    exact ⟨_, here, h⟩
  cases st with
  | failed row => exact ensures_pure_iff.mpr ⟨⟨_, settled, rfl⟩, fun _ _ _ => before⟩
  | counted n => exact ensures_pure_iff.mpr ⟨⟨_, settled, rfl⟩, fun _ _ _ => before⟩

theorem Supplies.again (h : l.Supplies start count rows) (engine : Engine σ ν) (reach : Reach σ ν)
    (s : Session σ ν) : l.rows engine reach start count s = .ok ((rows, l), s) := by
  obtain ⟨st, here, h⟩ := h
  unfold SyntheticListing.rows
  refine bind_eq_ok_iff.mpr ⟨_, Listing.settled_synthetic engine reach s here, ?_⟩
  cases st with
  | failed row =>
    cases h
    rfl
  | counted n =>
    cases h
    rfl

end SyntheticListing

/-! ## Listings that pass on no question -/

namespace Listing

/-- **The rows of a window are at hand** in a listing that passes on no question. -/
def Supplies (bound start count : Nat) : Listing ν → List (Variable ν) → Prop
  | fixed all, rows => rows = clip start count all
  | item l, rows => l.Supplies start count rows
  | indexList l, rows => l.Supplies start count rows
  | array l, rows => l.Supplies start count rows
  | nodes l, rows => l.Supplies start count rows
  | custom l, rows => l.Supplies bound start count rows
  | synthetic l, rows => l.Supplies start count rows
  | unsupported row, rows => rows = clip start count [row]
  | _, _ => False

/-- A listing that passes on no question, as its own work leaves it. -/
def IsLeaf (l : Listing ν) : Prop := l.Simple ∨ l.Valid

/-- A listing that was not short of rows and now is. -/
def TurnsShort (l l' : Listing ν) : Prop := ¬ l.IsShort ∧ l'.IsShort

/-- Whether all children can be had stays as it was, unless they could and the listing has
turned out to be short of them. -/
def Lasts (l l' : Listing ν) (b b' : Bool) : Prop := b' = b ∨ l.TurnsShort l' ∧ b = true

/-- **What a listing has found out lasts**: the number of its children, what it
looks for and the rows at hand. -/
structure Endures (l l' : Listing ν) : Prop where
  answer : ∀ n b, l.answer? = some (n, b) → ∃ b', l'.answer? = some (n, b') ∧ l.Lasts l' b b'
  short : l.IsShort → l'.IsShort
  raised : ∀ offset size, l.raisedFor offset size = l → l'.raisedFor offset size = l'
  supplies : ∀ bound start count rows,
    l.Supplies bound start count rows → l'.Supplies bound start count rows

variable {l l' l'' : Listing ν} {bound start count : Nat} {rows : List (Variable ν)}

theorem Lasts.refl (l l' : Listing ν) (b : Bool) : l.Lasts l' b b := .inl rfl

theorem Endures.covers (h : l.Endures l') {offset size : Nat} (covers : l.Covers offset size) :
    l'.Covers offset size :=
  ⟨covers.fits, h.raised offset size covers.raised⟩

theorem Endures.refl (l : Listing ν) : l.Endures l :=
  ⟨fun _ b known => ⟨b, known, .refl l l b⟩, fun h => h, fun _ _ h => h, fun _ _ _ _ h => h⟩

/-- What turns out to be short does so in one of the two parts of the way. -/
theorem Lasts.trans {b b' b'' : Bool} (h : l.Lasts l' b b') (h' : l'.Lasts l'' b' b'')
    (short : l.IsShort → l'.IsShort) (short' : l'.IsShort → l''.IsShort) : l.Lasts l'' b b'' := by
  rcases h with rfl | ⟨⟨whole, turned⟩, sound⟩
  · exact h'.imp_right fun ⟨⟨whole, turned⟩, sound⟩ => ⟨⟨fun h => whole (short h), turned⟩, sound⟩
  · exact .inr ⟨⟨whole, short' turned⟩, sound⟩

theorem Endures.trans (h : l.Endures l') (h' : l'.Endures l'') : l.Endures l'' where
  answer n b known := by
    obtain ⟨b', known', lasts⟩ := h.answer n b known
    obtain ⟨b'', known'', lasts'⟩ := h'.answer n b' known'
    exact ⟨b'', known'', lasts.trans lasts' h.short h'.short⟩
  short := h'.short ∘ h.short
  raised offset size raised := h'.raised offset size (h.raised offset size raised)
  supplies bound start count rows has :=
    h'.supplies bound start count rows (h.supplies bound start count rows has)

/-- A listing with rows at hand was settled. -/
theorem Supplies.exists_answer (h : l.Supplies bound start count rows) :
    ∃ a, l.answer? = some a := by
  cases l with
  | fixed all => exact ⟨_, rfl⟩
  | unsupported row => exact ⟨_, rfl⟩
  | item l =>
    obtain ⟨st, here, -⟩ := h
    exact ⟨_, congrArg (Option.map standingAnswer) here⟩
  | indexList l =>
    obtain ⟨st, here, -⟩ := h
    exact ⟨_, congrArg (Option.map standingAnswer) here⟩
  | array l =>
    obtain ⟨st, here, -⟩ := h
    exact ⟨_, congrArg (Option.map standingAnswer) here⟩
  | synthetic l =>
    obtain ⟨st, here, -⟩ := h
    exact ⟨_, congrArg (Option.map standingAnswer) here⟩
  | nodes l =>
    obtain ⟨fresh, st, here, -⟩ := h
    exact ⟨_, answer?_nodes_iff.mpr ⟨fresh, st, here, rfl⟩⟩
  | custom l => exact ⟨_, answer?_custom_iff.mpr ⟨h.1, rfl⟩⟩
  | _ => exact h.elim

/-- **A window leaves its rows at hand**, and those of other windows that were. -/
theorem IsLeaf.ensures_supplies {engine : Engine σ ν} (words : ∀ p, engine.options.get p < wordCount)
    (leaf : l.IsLeaf) (reach : Reach σ ν) (start count : Nat) (s : Session σ ν) :
    Ensures (rowsWith engine reach start count l) s fun r _ =>
      r.2.Supplies reach.bound start count r.1 ∧ ∀ bound start' count' rows,
        l.Supplies bound start' count' rows → r.2.Supplies bound start' count' rows := by
  cases l with
  | fixed all => exact ensures_pure_iff.mpr ⟨rfl, fun _ _ _ _ h => h⟩
  | unsupported row => exact ensures_pure_iff.mpr ⟨rfl, fun _ _ _ _ h => h⟩
  | item l =>
    exact ensures_answering (ensures_target_iff.mpr
      ((l.ensures_supplies engine.evaluator start count _).mono fun _ _ h => ⟨h.1, fun _ => h.2⟩))
  | indexList l =>
    exact ensures_answering (ensures_target_iff.mpr
      ((l.ensures_supplies engine.evaluator start count _).mono fun _ _ h => ⟨h.1, fun _ => h.2⟩))
  | array l =>
    exact ensures_answering (ensures_target_iff.mpr
      ((l.ensures_supplies engine.evaluator start count _).mono fun _ _ h => ⟨h.1, fun _ => h.2⟩))
  | nodes l =>
    refine ensures_answering (ensures_ofTarget_iff.mpr
      ((l.ensures_supplies engine.evaluator words _ start count _).mono fun _ _ h =>
        ⟨h.1 (leaf.resolve_left id), fun _ => h.2⟩))
  | custom l =>
    exact ensures_answering
      ((l.ensures_supplies engine reach.bound start count s).mono fun _ _ h => h.1)
  | synthetic l =>
    exact ensures_answering ((SyntheticListing.ensures_supplies engine reach
      (leaf.resolve_right id) start count s).mono fun _ _ h => ⟨h.1, fun _ => h.2⟩)
  | _ => exact (leaf.elim id id).elim

/-- **Asked again, the listing gives rows that are at hand**, and nothing changes. -/
theorem Supplies.again {reach : Reach σ ν} (h : l.Supplies reach.bound start count rows)
    (engine : Engine σ ν) (s : Session σ ν) :
    rowsWith engine reach start count l s = .ok ((rows, l), s) := by
  cases l with
  | fixed all =>
    cases h
    rfl
  | unsupported row =>
    cases h
    rfl
  | item l =>
    exact bind_eq_ok_iff.mpr
      ⟨_, lift_eq (ItemListing.Supplies.again h engine.evaluator s.target), rfl⟩
  | indexList l =>
    exact bind_eq_ok_iff.mpr
      ⟨_, lift_eq (IndexListing.Supplies.again h engine.evaluator s.target), rfl⟩
  | array l =>
    exact bind_eq_ok_iff.mpr
      ⟨_, lift_eq (ArrayListing.Supplies.again h engine.evaluator s.target), rfl⟩
  | nodes l =>
    have again := NodeListing.Supplies.again h engine.evaluator engine.options reach.bound s.target
    exact bind_eq_ok_iff.mpr
      ⟨((rows, l), s), ofTarget_eq_ok_iff.mpr ⟨s.target, again, rfl⟩, rfl⟩
  | custom l =>
    exact bind_eq_ok_iff.mpr ⟨_, CustomListing.Supplies.again h engine s, rfl⟩
  | synthetic l =>
    exact bind_eq_ok_iff.mpr ⟨_, SyntheticListing.Supplies.again h engine reach s, rfl⟩
  | _ => exact h.elim

end Listing

end WatchView
