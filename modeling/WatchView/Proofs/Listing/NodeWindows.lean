import WatchView.Listing.Nodes
import WatchView.Proofs.Listing.Elements
/-!
# Linked lists and trees count the rows they show

A walk finds no more nodes than it is sent for (`ensures_walkTo`), so what is
counted is a word. A window of a list or tree has as many rows as were counted
(`ensures_rows`): positions without a node have a row too.
-/

namespace WatchView

open Bounded

variable {σ ν : Type} {P : Nat → Prop}

namespace Walk

/-- What a walk comes to: a node or its end, and where it goes on. Both lead
where the walk led. -/
def Leads (P : Nat → Prop)
    (r : Except EvalError (Option (Variable ν)) × Walk ν) : Prop :=
  (∀ node, r.1 = .ok (some node) → node.Within P) ∧ r.2.Within P

theorem within_done : (done : Walk ν).Within P := ⟨trivial, List.forall_mem_nil _⟩

theorem leads_done {r : Except EvalError (Option (Variable ν))}
    (h : ∀ node, r ≠ .ok (some node)) : Leads P (r, (done : Walk ν)) :=
  ⟨fun node hr => absurd hr (h node), within_done⟩

theorem leads_found {node : Variable ν} {stack : List (Variable ν)} (here : node.Within P)
    (others : ∀ node ∈ stack, node.Within P) :
    Leads P (.ok (some node), { place := .behind node, stack := stack }) := by
  refine ⟨fun node' h => ?_, here, others⟩
  cases h
  exact here

theorem ensures_follow (ev : Evaluator σ ν) (scope : Scope (Variable ν)) (node : Variable ν)
    (pointer : String) (t : σ) :
    Ensures (liftM (follow ev scope node pointer) : Bounded σ _) t fun r _ =>
      ∀ v, r = .ok v → ∀ P, v.Within P := by
  unfold follow
  rw [ensures_lift_bind_iff]
  intro answer t' _
  refine ensures_lift_pure_iff.mpr fun v h P => ?_
  cases answer with
  | error e => cases h
  | ok answer =>
    cases h
    exact answer.within_toVariable

theorem ensures_visit (ev : Evaluator σ ν) (node : Variable ν) (t : σ) :
    Ensures (liftM (visit ev node) : Bounded σ _) t fun r _ =>
      ∀ P, node.Within P → Leads P r := by
  unfold visit
  rw [ensures_lift_bind_iff]
  intro null t' _
  split
  · exact ensures_lift_pure_iff.mpr fun P _ => leads_done fun node h => nomatch h
  · exact ensures_lift_pure_iff.mpr fun P here => leads_found here (List.forall_mem_nil _)

theorem ensures_nextOfList (ev : Evaluator σ ν) (scope : Scope (Variable ν)) (next : String)
    (w : Walk ν) (t : σ) :
    Ensures (liftM (nextOfList ev scope next w) : Bounded σ _) t fun r _ =>
      ∀ P, w.Within P → Leads P r := by
  unfold nextOfList
  split
  · exact ensures_lift_pure_iff.mpr fun P led => ⟨fun node h => (nomatch h), led⟩
  · rename_i node here
    refine (ensures_visit ev node t).mono fun r t' h P led => h P ?_
    have led := led.place
    rwa [here] at led
  · rw [ensures_lift_bind_iff]
    refine (ensures_follow ev scope _ next t).mono fun r t' found => ?_
    cases r with
    | error e => exact ensures_lift_pure_iff.mpr fun P _ => leads_done fun node h => nomatch h
    | ok node =>
      exact (ensures_visit ev node t').mono fun r t'' h P _ => h P (found node rfl P)

theorem ensures_descend (ev : Evaluator σ ν) (scope : Scope (Variable ν)) (left : String)
    (bound : Nat) (node : Variable ν) (stack : List (Variable ν)) (t : σ) :
    Ensures (descend ev scope left bound node stack) t fun r _ =>
      ∀ nodes, r = .ok nodes → ∀ P, node.Within P → (∀ v ∈ stack, v.Within P) →
        ∀ v ∈ nodes, v.Within P := by
  induction bound generalizing node stack t with
  | zero => exact ensures_unfinished
  | succ bound ih =>
    rw [descend, ensures_bind_iff]
    intro null t' _
    split
    · refine ensures_pure_iff.mpr fun nodes h P _ others => ?_
      cases h
      exact others
    · refine ensures_bind_iff.mpr ((ensures_follow ev scope node left t').mono
        fun r t'' found => ?_)
      cases r with
      | error e => exact ensures_pure_iff.mpr fun nodes h => nomatch h
      | ok child =>
        refine (ih child (node :: stack) t'').mono fun r _ h nodes hr P here others => ?_
        exact h nodes hr P (found child rfl P) (List.forall_mem_cons.mpr ⟨here, others⟩)

theorem leads_pop {stack : List (Variable ν)} (led : ∀ v ∈ stack, v.Within P) :
    Leads P (.ok (pop stack).1, (pop stack).2) := by
  cases stack with
  | nil => exact leads_done fun node h => nomatch h
  | cons node stack =>
    obtain ⟨here, others⟩ := List.forall_mem_cons.mp led
    exact leads_found here others

theorem ensures_visitLeftmost (ev : Evaluator σ ν) (scope : Scope (Variable ν)) (bound : Nat)
    (left : String) (node : Variable ν) (stack : List (Variable ν)) (t : σ) :
    Ensures (visitLeftmost ev scope bound left node stack) t fun r _ =>
      ∀ P, node.Within P → (∀ v ∈ stack, v.Within P) → Leads P r := by
  unfold visitLeftmost
  refine (ensures_descend ev scope left bound node stack t).bind fun r t' h => ?_
  cases r with
  | error e =>
    exact ensures_pure_iff.mpr fun P _ _ => leads_done fun node h => nomatch h
  | ok nodes =>
    exact ensures_pure_iff.mpr fun P here others => leads_pop (h nodes rfl P here others)

theorem ensures_nextOfTree (ev : Evaluator σ ν) (scope : Scope (Variable ν)) (bound : Nat)
    (left right : String) (w : Walk ν) (t : σ) :
    Ensures (nextOfTree ev scope bound left right w) t fun r _ =>
      ∀ P, w.Within P → Leads P r := by
  unfold nextOfTree
  split
  · exact ensures_pure_iff.mpr fun P led => leads_pop led.stack
  · rename_i node here
    refine (ensures_visitLeftmost ev scope bound left node w.stack t).mono fun r _ h P led => ?_
    refine h P ?_ led.stack
    have led := led.place
    rwa [here] at led
  · refine ensures_bind_iff.mpr ((ensures_follow ev scope _ right t).mono fun r t' found => ?_)
    cases r with
    | error e => exact ensures_pure_iff.mpr fun P _ => leads_done fun node h => nomatch h
    | ok node =>
      refine (ensures_visitLeftmost ev scope bound left node w.stack t').mono
        fun r _ h P led => ?_
      exact h P (found node rfl P) led.stack

/-- **A walk leads nowhere it did not lead.** -/
theorem ensures_next (ev : Evaluator σ ν) (scope : Scope (Variable ν)) (bound : Nat)
    (links : Links) (w : Walk ν) (t : σ) :
    Ensures (next ev scope bound links w) t fun r _ => ∀ P, w.Within P → Leads P r := by
  cases links with
  | list pointer => exact ensures_nextOfList ev scope pointer w t
  | tree left right => exact ensures_nextOfTree ev scope bound left right w t

end Walk

namespace NodeListing

/-- A list of nodes as its own work leaves it: it counts words, and without a
declared size no more than it found; a walk that failed has ended, and only
nodes that were counted are to be counted again. -/
structure Valid (l : NodeListing ν) : Prop where
  limit : l.limit < wordCount
  found : l.found < wordCount
  counted : ∀ n, l.standing = some (.counted n) → n < wordCount
  enough : ∀ n, l.standing = some (.counted n) → l.size = none → n ≤ l.found
  ended : l.obstacle.isSome → l.exhausted = true
  stale : l.stale = true → l.standing.isSome

/-- A tree that declares its size. The way down its left edge may go on for
ever when a window looks for nodes that were counted already. -/
def OpenEnded (l : NodeListing ν) : Prop :=
  l.size.isSome ∧ ∃ left right, l.rule.links = .tree left right

/-- Work on a list of nodes. -/
structure Onward (l l' : NodeListing ν) : Prop where
  valid : l.Valid → l'.Valid
  limit : l'.limit = l.limit
  leads : ∀ P, l.Within P → l'.Within P

/-- A list after a walk for so many nodes. -/
structure WalksTo (many : Nat) (l l' : NodeListing ν) : Prop where
  same : l' = { l with
    walk := l'.walk, nodes := l'.nodes, exhausted := l'.exhausted, obstacle := l'.obstacle }
  ended : (l.obstacle.isSome → l.exhausted = true) → l'.obstacle.isSome → l'.exhausted = true
  more : l.found ≤ l'.found
  found : (l.obstacle.isSome → l.exhausted = true) → l'.found ≤ max l.found many
  leads : ∀ P, l.Within P → l'.Within P

theorem WalksTo.refl (many : Nat) (l : NodeListing ν) : WalksTo many l l where
  same := rfl
  ended h := h
  more := Nat.le_refl _
  found _ := Nat.le_max_left _ _
  leads _ h := h

theorem WalksTo.found_lt {many : Nat} {l l' : NodeListing ν} (h : WalksTo many l l')
    (ended : l.obstacle.isSome → l.exhausted = true) (before : l.found < wordCount)
    (small : many < wordCount) : l'.found < wordCount :=
  Nat.lt_of_le_of_lt (h.found ended) (Nat.max_lt.mpr ⟨before, small⟩)

theorem ensures_walkOn (ev : Evaluator σ ν) (bound more : Nat) (l : NodeListing ν) (t : σ) :
    Ensures (walkOn ev bound more l) t fun l' _ => WalksTo (l.nodes.size + more) l l' := by
  -- by induction on how many nodes are still wanted
  induction more generalizing l t with
  | zero => exact ensures_pure_iff.mpr (.refl _ l)
  | succ more ih =>
    unfold walkOn
    cases walking : l.walk with
    | none => exact ensures_pure_iff.mpr (.refl _ l)
    | some walk =>
      dsimp only
      by_cases stopped : l.exhausted = true
      · rw [if_pos stopped]
        exact ensures_pure_iff.mpr (.refl _ l)
      · rw [if_neg stopped]
        have bare (ended : l.obstacle.isSome → l.exhausted = true) : l.obstacle.isSome = false :=
          Bool.eq_false_iff.mpr fun failed => stopped (ended failed)
        refine (walk.ensures_next ev _ bound _ t).bind fun r t' leads => ?_
        obtain ⟨result, walk'⟩ := r
        -- the walk fails, which is an obstacle and may stand for a node, or it ends, or it finds a
        -- node and goes on
        rcases result with e | _ | node
        · refine ensures_pure_iff.mpr ⟨rfl, fun _ _ => rfl, ?_, fun _ => ?_, fun P led => ?_⟩
          · refine Nat.add_le_add_left ?_ _
            split
            · exact Nat.le_refl 1
            · exact Nat.zero_le _
          · unfold found
            dsimp only
            rw [Option.isSome_some, if_pos rfl]
            omega
          · refine { led with walk := fun w h => ?_, obstacle := fun row h => ?_ }
            · cases h
              exact (leads P (led.walk walk walking)).2
            · cases h
              unfold obstacleRow
              split <;> trivial
        · refine ensures_pure_iff.mpr
            ⟨rfl, fun _ _ => rfl, Nat.le_refl _, fun _ => ?_, fun P led => ?_⟩
          · exact Nat.le_max_left _ _
          · refine { led with walk := fun w h => ?_ }
            cases h
            exact (leads P (led.walk walk walking)).2
        · refine (ih { l with walk := some walk', nodes := l.nodes.push node } t').mono
            fun l' t'' h => ⟨h.same, h.ended, ?_, fun ended => ?_, fun P led => h.leads P ?_⟩
          · have more := h.more
            unfold found at more ⊢
            dsimp only at more
            rw [Array.size_push] at more
            omega
          · have most := h.found ended
            unfold found at most ⊢
            dsimp only at most
            rw [bare ended, Array.size_push] at most
            rw [bare ended]
            simp only [Bool.false_eq_true, if_false] at most ⊢
            omega
          · obtain ⟨here, walk'⟩ := leads P (led.walk walk walking)
            refine { led with walk := fun w h => ?_, nodes := fun v h => ?_ }
            · cases h
              exact walk'
            · rcases Array.mem_push.mp h with h | rfl
              · exact led.nodes v h
              · exact here _ rfl

theorem ensures_walkTo (ev : Evaluator σ ν) (bound count : Nat) (l : NodeListing ν) (t : σ) :
    Ensures (l.walkTo ev bound count) t fun l' _ => WalksTo count l l' := by
  refine (ensures_walkOn ev bound (count - l.nodes.size) l t).mono fun l' _ h => { h with
    found := fun ended => ?_ }
  have most := h.found ended
  have fewest : l.nodes.size ≤ l.found := Nat.le_add_right _ _
  omega

theorem ensures_head (ev : Evaluator σ ν) (l : NodeListing ν) (t : σ) :
    Ensures (liftM (l.head ev) : Bounded σ _) t fun r _ =>
      ∀ v, r = .ok v → ∀ P, l.context.owner.Within P → v.Within P := by
  unfold head
  dsimp only
  split
  · refine ensures_lift_pure_iff.mpr fun v h P led => ?_
    cases h
    exact led
  · exact (Walk.ensures_follow ev _ _ _ t).mono fun r _ h v hv P _ => h v hv P

theorem effectiveLimit_lt {options : Options} (words : ∀ p, options.get p < wordCount)
    {l : NodeListing ν} (limit : l.limit < wordCount) :
    l.effectiveLimit options < wordCount := by
  unfold effectiveLimit
  split
  · exact words _
  · exact limit

/-- A list after a count. -/
structure Counted (l l' : NodeListing ν) : Prop where
  same : l' = { l with
    walk := l'.walk, nodes := l'.nodes, exhausted := l'.exhausted, obstacle := l'.obstacle
    size := l'.size }
  ended : l.Valid → l'.obstacle.isSome → l'.exhausted = true
  found : l.Valid → l'.found < wordCount
  leads : ∀ P, l.Within P → l'.Within P

theorem Counted.refl (l : NodeListing ν) : Counted l l :=
  ⟨rfl, fun valid => valid.ended, fun valid => valid.found, fun _ h => h⟩

theorem ensures_count (ev : Evaluator σ ν) {options : Options}
    (words : ∀ p, options.get p < wordCount) (bound : Nat) (l : NodeListing ν) (t : σ) :
    Ensures (l.count ev options bound) t fun r _ =>
      Counted l r.2 ∧ ∀ n, r.1 = .ok n →
        (l.Valid → n < wordCount) ∧ (r.2.size = none → n ≤ r.2.found) := by
  unfold count
  split
  · exact ensures_pure_iff.mpr ⟨.refl l, fun n h => nomatch h⟩
  · refine ensures_bind_iff.mpr ((l.ensures_head ev t).mono fun r t' found => ?_)
    cases r with
    | error e => exact ensures_pure_iff.mpr ⟨.refl l, fun n h => nomatch h⟩
    | ok head =>
      -- the walk begins at the head, which leads where the owner does
      have begun (P : Nat → Prop) (led : l.Within P) :
          ({ l with walk := some (.start head) } : NodeListing ν).Within P := by
        refine { led with walk := fun w h => ?_ }
        cases h
        exact ⟨found head rfl P led.owner, List.forall_mem_nil _⟩
      dsimp only
      split
      · refine ensures_bind_iff.mpr ((ev.ensures_declaredSize _ _ _ t').mono fun size _ small => ?_)
        cases size with
        | error e =>
          exact ensures_pure_iff.mpr
            ⟨⟨rfl, fun valid => valid.ended, fun valid => valid.found, begun⟩, fun n h => nomatch h⟩
        | ok n =>
          refine ensures_pure_iff.mpr ⟨⟨rfl, fun valid => valid.ended, fun valid => valid.found,
            fun P led => ?_⟩, fun m h => ?_⟩
          · exact { begun P led with }
          · cases h
            exact ⟨fun _ => small n rfl, fun undeclared => nomatch undeclared⟩
      · refine (ensures_walkTo ev bound _ _ t').bind fun l' t'' h => ensures_pure_iff.mpr ?_
        have small (valid : l.Valid) : l'.found < wordCount :=
          h.found_lt valid.ended valid.found (effectiveLimit_lt words valid.limit)
        refine ⟨⟨h.same.trans ?_, fun valid => h.ended valid.ended, small,
          fun P led => h.leads P (begun P led)⟩, fun n hn => ?_⟩
        · rw [h.same]
        · cases hn
          exact ⟨small, fun _ => Nat.le_refl _⟩

theorem Counted.settled {l l' : NodeListing ν} (h : Counted l l') {st : Standing ν}
    (counts : st.Counts fun n => (l.Valid → n < wordCount) ∧ (l'.size = none → n ≤ l'.found)) :
    l.Onward { l' with standing := some st } := by
  obtain ⟨same, ended, found, leads⟩ := h
  refine ⟨fun valid => ⟨?_, found valid, fun n hn => ?_, fun n hn undeclared => ?_, ended valid,
    fun stale => rfl⟩, ?_, fun P led => { leads P led with standing := fun st' hst => ?_ }⟩
  · rw [same]
    exact valid.limit
  · cases hn
    exact (counts.counted n rfl).1 valid
  · cases hn
    exact (counts.counted n rfl).2 undeclared
  · rw [same]
  · cases hst
    exact counts.leads P

theorem ensures_recounted (ev : Evaluator σ ν) {options : Options}
    (words : ∀ p, options.get p < wordCount) (bound : Nat) {l : NodeListing ν} {st : Standing ν}
    (here : l.standing = some st) (t : σ) :
    Ensures (recounted ev options bound st { l with standing := some st, stale := false }) t fun r _ =>
      l.Onward { r.2 with standing := some r.1 } ∧ r.2.stale = false := by
  unfold recounted
  -- what was counted by a walk is walked further; what failed or was declared stands
  split
  · refine (ensures_walkTo ev bound _ _ t).bind fun l' t' h => ensures_pure_iff.mpr ⟨⟨?_, ?_, ?_⟩, ?_⟩
    · intro valid
      have small : l'.found < wordCount :=
        h.found_lt valid.ended valid.found (effectiveLimit_lt words valid.limit)
      refine ⟨?_, small, fun n hn => ?_, fun n hn _ => ?_, h.ended valid.ended, fun _ => rfl⟩
      · rw [h.same]
        exact valid.limit
      · cases hn
        exact small
      · cases hn
        exact Nat.le_refl _
    · rw [h.same]
    · intro P led
      have led' := h.leads P { led with standing := fun st' hst => led.standing st' (here ▸ hst) }
      refine { led' with standing := fun st' hst => ?_ }
      cases hst
      trivial
    · rw [h.same]
  · refine ensures_pure_iff.mpr ⟨⟨fun valid => ?_, rfl, fun P led => ?_⟩, rfl⟩
    · refine { valid with
        counted := fun n hn => ?_, enough := fun n hn => ?_, stale := fun _ => rfl }
      · cases hn
        exact valid.counted n here
      · cases hn
        exact valid.enough n here
    · refine { led with standing := fun st' hst => ?_ }
      cases hst
      exact led.standing st here

/-- Nodes that are counted up to their limit are not counted again. -/
theorem settled_of_standing (ev : Evaluator σ ν) (options : Options) (bound : Nat)
    {l : NodeListing ν} {st : Standing ν} (here : l.standing = some st) (fresh : l.stale = false) :
    l.settled ev options bound = pure (st, l) := by
  obtain ⟨_, _, _⟩ := l
  cases here
  cases fresh
  rfl

theorem ensures_settled (ev : Evaluator σ ν) {options : Options}
    (words : ∀ p, options.get p < wordCount) (bound : Nat) (l : NodeListing ν) (t : σ) :
    Ensures (l.settled ev options bound) t fun r _ =>
      l.Onward r.2 ∧ r.2.standing = some r.1 ∧ (l.Valid → r.2.stale = false) ∧
        ∀ st, l.standing = some st → l.stale = false → r = (st, l) := by
  unfold settled
  cases here : l.standing with
  | none =>
    refine ensures_bind_iff.mpr ?_
    refine (Standing.ensures_settle (I := fun _ => True) (G := Counted l)
      (K := fun l' n => (l.Valid → n < wordCount) ∧ (l'.size = none → n ≤ l'.found))
      (ensures_true _ _) (.refl l) (fun _ _ => ⟨fun _ => by decide, fun _ => Nat.zero_le _⟩)
      fun t' _ => ?_).mono fun r t' h => ?_
    · exact (l.ensures_count ev words bound t').mono fun r t'' h => ⟨trivial, h⟩
    · obtain ⟨-, counted, counts⟩ := h
      refine ensures_pure_iff.mpr ⟨counted.settled counts, rfl, fun valid => ?_,
        fun st h => nomatch h⟩
      rw [counted.same]
      refine Bool.eq_false_iff.mpr fun stale => ?_
      have known := valid.stale stale
      rw [here] at known
      cases known
  | some st =>
    dsimp only
    by_cases stale : l.stale = true
    · rw [if_pos stale]
      refine (ensures_recounted ev words bound here t).bind fun r t' h => ensures_pure_iff.mpr ?_
      exact ⟨h.1, rfl, fun _ => h.2, fun st' _ fresh => absurd stale (by simp [fresh])⟩
    · rw [if_neg stale, pure_bind]
      have same : { l with standing := some st } = l := by rw [← here]
      refine ensures_pure_iff.mpr ⟨?_, rfl, fun _ => Bool.eq_false_iff.mpr stale, fun st' h _ => ?_⟩
      · dsimp only
        rw [same]
        exact ⟨fun h => h, rfl, fun P h => h⟩
      · cases h
        dsimp only
        rw [same]

theorem ensures_nodeRow (ev : Evaluator σ ν) (c : Context ν) (value : Option ValueNode)
    (node : Variable ν) (index : Nat) (t : σ) :
    Ensures (liftM (nodeRow ev c value node index) : Bounded σ _) t fun row _ =>
      ∀ P, node.Within P → row.Within P := by
  unfold nodeRow
  cases value with
  | none => exact ensures_lift_pure_iff.mpr fun P led => led
  | some value =>
    refine ensures_lift_bind_iff.mpr fun name t' _ => ?_
    split
    · refine ensures_lift_bind_iff.mpr (ensures_lift_get_iff.mpr ?_)
      refine ensures_lift_pure_iff.mpr fun P led => ?_
      have renamed : (Variable.renamed node name none).Within P := led
      exact renamed.decorated _ _
    · exact (Context.ensures_row ev _ _ _ t').mono fun row _ h P _ => h P

theorem within_rowWithoutNode {l : NodeListing ν} (led : l.Within P) (index : Nat) :
    (l.rowWithoutNode index).Within P := by
  unfold rowWithoutNode
  split
  · rename_i row here
    split at here
    · exact led.obstacle row here
    · cases here
  · exact Variable.within_error _
  · exact Variable.within_error _

/-- **There is a row for each position**, with a node or without one. -/
theorem ensures_rowsAt (ev : Evaluator σ ν) (l : NodeListing ν) (positions : List Nat)
    (kept : Kept ν) (t : σ) :
    Ensures (liftM (l.rowsAt ev positions kept) : Bounded σ _) t fun r _ =>
      r.1.length = positions.length ∧
        ∀ P, l.Within P → kept.Within P → (∀ row ∈ r.1, row.Within P) ∧ r.2.Within P := by
  induction positions generalizing kept t with
  | nil =>
    rw [rowsAt]
    exact ensures_lift_pure_iff.mpr ⟨rfl, fun P _ led => ⟨List.forall_mem_nil _, led⟩⟩
  | cons i is ih =>
    rw [rowsAt]
    split
    · rename_i row _ found
      refine ensures_lift_bind_iff.mpr ((ih kept t).mono fun rest t' h => ?_)
      obtain ⟨many, leads⟩ := h
      refine ensures_lift_pure_iff.mpr ⟨congrArg Nat.succ many, fun P nodes led => ?_⟩
      obtain ⟨rows, kept'⟩ := leads P nodes led
      exact ⟨List.forall_mem_cons.mpr ⟨led.row? found, rows⟩, kept'⟩
    · rename_i node _ found
      refine ensures_lift_bind_iff.mpr ((ensures_nodeRow ev _ _ node i t).mono fun row t' here => ?_)
      refine ensures_lift_bind_iff.mpr ((ih ((i, row) :: kept) t').mono fun rest t'' h => ?_)
      obtain ⟨many, leads⟩ := h
      refine ensures_lift_pure_iff.mpr ⟨congrArg Nat.succ many, fun P nodes led => ?_⟩
      have row := here P (nodes.nodes node (Array.mem_of_getElem? found))
      obtain ⟨rows, kept'⟩ := leads P nodes (led.cons row)
      exact ⟨List.forall_mem_cons.mpr ⟨row, rows⟩, kept'⟩
    · refine ensures_lift_bind_iff.mpr ((ih kept t).mono fun rest t' h => ?_)
      obtain ⟨many, leads⟩ := h
      refine ensures_lift_pure_iff.mpr ⟨congrArg Nat.succ many, fun P nodes led => ?_⟩
      obtain ⟨rows, kept'⟩ := leads P nodes led
      exact ⟨List.forall_mem_cons.mpr ⟨within_rowWithoutNode nodes i, rows⟩, kept'⟩

/-- **A window of a list of nodes** has the rows that were counted, whether the
walk comes so far or not. -/
theorem ensures_rows (ev : Evaluator σ ν) {options : Options}
    (words : ∀ p, options.get p < wordCount) (bound : Nat) (l : NodeListing ν)
    (start count : Nat) (t : σ) :
    Ensures (l.rows ev options bound start count) t fun r _ =>
      l.Onward r.2 ∧ (∀ P, l.Within P → ∀ row ∈ r.1, row.Within P) ∧
        ∀ st, l.standing = some st → l.stale = false →
          r.2.standing = some st ∧ r.2.stale = false ∧ (r.2.OpenEnded → l.OpenEnded) ∧
            r.1.length = min (windowEnd start count) st.count - start := by
  unfold rows
  refine (l.ensures_settled ev words bound t).bind fun r t' h => ?_
  obtain ⟨st, l₁⟩ := r
  obtain ⟨onward, settled, -, same⟩ := h
  cases st with
  | failed row =>
    refine ensures_pure_iff.mpr ⟨onward, fun P led row' h => ?_, fun st' here fresh => ?_⟩
    · obtain rfl := eq_of_mem_clip_singleton h
      exact (onward.leads P led).standing _ settled
    · cases same st' here fresh
      exact ⟨here, fresh, id, length_clip _ _ _⟩
  | counted n =>
    -- walking further for the window changes what was found, and nothing else
    refine (ensures_walkTo ev bound _ l₁ t').bind fun l₂ t'' walks => ?_
    refine ensures_bind_iff.mpr ((l₂.ensures_rowsAt ev _ l₂.kept t'').mono fun r _ h => ?_)
    obtain ⟨many, leads⟩ := h
    have led (P : Nat → Prop) (led : l.Within P) : l₂.Within P :=
      walks.leads P (onward.leads P led)
    refine ensures_pure_iff.mpr ⟨⟨fun valid => ?_, ?_, fun P h => ?_⟩, fun P h => ?_,
      fun st' here fresh => ?_⟩
    · have valid := onward.valid valid
      have window := Nat.lt_of_le_of_lt (Nat.min_le_left _ n) (windowEnd_lt start count)
      refine ⟨?_, walks.found_lt valid.ended valid.found window, ?_, fun n hn undeclared => ?_,
        walks.ended valid.ended, ?_⟩
      · rw [walks.same]
        exact valid.limit
      · rw [walks.same]
        exact valid.counted
      · rw [walks.same] at hn undeclared
        exact Nat.le_trans (valid.enough n hn undeclared) walks.more
      · rw [walks.same]
        exact valid.stale
    · rw [walks.same]
      exact onward.limit
    · exact { led P h with kept := (leads P (led P h) (led P h).kept).2 }
    · exact (leads P (led P h) (led P h).kept).1
    · cases same st' here fresh
      refine ⟨?_, ?_, fun endless => ?_, many.trans (length_windowOf _ _ _)⟩
      · rw [walks.same]
        exact here
      · rw [walks.same]
        exact fresh
      · rw [walks.same] at endless
        exact endless

end NodeListing

end WatchView
