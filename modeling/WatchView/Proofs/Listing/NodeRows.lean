import WatchView.Proofs.Evaluation.Attempts
import WatchView.Proofs.Listing.Course
/-!
# The rows of linked lists and trees

A list of nodes may be asked for counts and windows in any order, and its
limit may go up in between. All answers are told by one way to make the rows
of the nodes (`Course.rows_of_nodes`): the row of a node is the one that was
made when it was first asked for. Where making a row changes what the next
one is, it matters which was asked for first (`Tally.children_by_order`).
-/

namespace WatchView

open Bounded

variable {σ ν : Type}

/-! ## Asking in any order -/

/-- What can be asked of a list of nodes, once its limit was raised to this. -/
inductive NodeRequest where
  | count (limit : Nat)
  | rows (limit start many : Nat)

namespace NodeRequest

/-- The limit that is wanted. -/
def limit : NodeRequest → Nat
  | count limit => limit
  | rows limit _ _ => limit

/-- Ask a listing. -/
def ask (engine : Engine σ ν) (reach : Reach σ ν) :
    NodeRequest → Listing ν → Search σ ν (PageAnswer ν × Listing ν)
  | count limit, l => do
    let (n, l) ← Listing.countWith engine reach (l.raisedTo limit)
    return (.count n, l)
  | rows limit start many, l => do
    let (shown, l) ← Listing.rowsWith engine reach start many (l.raisedTo limit)
    return (.rows shown, l)

/-- Ask a listing for one thing after the other. -/
def askAll (engine : Engine σ ν) (reach : Reach σ ν) :
    List NodeRequest → Listing ν → Search σ ν (List (PageAnswer ν) × Listing ν)
  | [], l => return ([], l)
  | r :: rs, l => do
    let (first, l) ← r.ask engine reach l
    let (others, l) ← askAll engine reach rs l
    return (first :: others, l)

/-- The answer, told by the children. -/
def answer (children : List (Variable ν)) : NodeRequest → PageAnswer ν
  | count _ => .count children.length
  | rows _ start many => .rows (clip start many children)

end NodeRequest

namespace Course

variable {C : Course σ ν} {engine : Engine σ ν} {reach : Reach σ ν}

/-- The answers to requests, one after the other, when the limit was this and so
many nodes were looked for. -/
def answers (C : Course σ ν) (options : Options) (row : Nat → Variable ν) :
    Nat → Nat → List NodeRequest → List (PageAnswer ν)
  | _, _, [] => []
  | limit, sought, r :: rs =>
    let limit := max limit r.limit
    let sought := max sought (C.soughtUnder options limit)
    r.answer (C.children row sought) :: answers C options row limit sought rs

/-- As long as the limit stays the same, all answers are told by the same
children. -/
theorem answers_eq_map (C : Course σ ν) (options : Options) (row : Nat → Variable ν)
    {limit sought : Nat} (least : sought ≤ C.soughtUnder options limit) (rs : List NodeRequest)
    (same : ∀ r ∈ rs, r.limit ≤ limit) :
    C.answers options row limit sought rs =
      rs.map (NodeRequest.answer (C.children row (C.soughtUnder options limit))) := by
  induction rs generalizing sought with
  | nil => rfl
  | cons r rs ih =>
    obtain ⟨here, others⟩ := List.forall_mem_cons.mp same
    rw [answers, Nat.max_eq_left here, Nat.max_eq_right least, ih (Nat.le_refl _) others,
      List.map_cons]

section

variable {limit sought : Nat} {l : NodeListing ν} {s : Session σ ν}
  (ready : C.Ready engine.evaluator engine.options limit sought l s.target)
  (holds : C.Holds engine.evaluator reach.bound)
include ready holds

theorem Ready.returns_countWith (more : Nat) :
    Returns (Listing.countWith engine reach (.nodes (l.raised more))) s fun a s' => ∃ l',
      a.2 = .nodes l' ∧ C.Shows engine.evaluator engine.options (max limit more)
        (max sought (C.soughtUnder engine.options (max limit more))) l' s'.target ∧
      KeepsOn l.kept l'.kept ∧
      a.1 = C.count (max sought (C.soughtUnder engine.options (max limit more))) := by
  refine Listing.returns_answering (returns_ofTarget ((ready.returns_settled holds more).mono
    fun r t h => ?_))
  obtain ⟨counted, shows_, on⟩ := h
  exact ⟨r.2, rfl, shows_, on, by rw [counted]; rfl⟩

theorem Ready.returns_rowsWith (more start many : Nat) :
    Returns (Listing.rowsWith engine reach start many (.nodes (l.raised more))) s fun a s' => ∃ l',
      a.2 = .nodes l' ∧ C.Shows engine.evaluator engine.options (max limit more)
        (max sought (C.soughtUnder engine.options (max limit more))) l' s'.target ∧
      KeepsOn l.kept l'.kept ∧
      ∀ row, Agrees row l'.kept → a.1 = clip start many
        (C.children row (max sought (C.soughtUnder engine.options (max limit more)))) :=
  Listing.returns_answering (returns_ofTarget ((ready.returns_rows holds more start many).mono
    fun r _ h => ⟨r.2, rfl, h.1, h.2.1, h.2.2⟩))

/-- **One request**: the answer is told by the rows that are kept afterwards. -/
theorem Ready.returns_ask (r : NodeRequest) :
    Returns (r.ask engine reach (.nodes l)) s fun a s' => ∃ l',
      a.2 = .nodes l' ∧ C.Shows engine.evaluator engine.options (max limit r.limit)
        (max sought (C.soughtUnder engine.options (max limit r.limit))) l' s'.target ∧
      KeepsOn l.kept l'.kept ∧
      ∀ row, Agrees row l'.kept → a.1 = r.answer
        (C.children row (max sought (C.soughtUnder engine.options (max limit r.limit)))) := by
  cases r with
  | count more =>
    unfold NodeRequest.ask
    dsimp only
    rw [NodeListing.raisedTo_nodes]
    refine (ready.returns_countWith holds more).bind fun a s' h => returns_pure ?_
    obtain ⟨l', here, shows_, on, counted⟩ := h
    refine ⟨l', here, shows_, on, fun row _ => ?_⟩
    unfold NodeRequest.answer
    rw [length_children, counted]
    rfl
  | rows more start many =>
    unfold NodeRequest.ask
    dsimp only
    rw [NodeListing.raisedTo_nodes]
    refine (ready.returns_rowsWith holds more start many).bind fun a s' h => returns_pure ?_
    obtain ⟨l', here, shows_, on, shown⟩ := h
    refine ⟨l', here, shows_, on, fun row agrees => ?_⟩
    unfold NodeRequest.answer
    rw [shown row agrees]
    rfl

end

/-- Nothing was made of a new list, and what was kept later was made of nodes. -/
theorem Ready.exists_made {limit sought : Nat} {l : NodeListing ν} {t : σ} {ev : Evaluator σ ν}
    {options : Options} (ready : C.Ready ev options limit sought l t) {i : Nat} {row : Variable ν}
    (here : l.kept.row? i = some row) : C.MadeAt ev i row := by
  cases ready with
  | new begins => cases here
  | counted h => exact (h.kept i row here).2

/-- **Any number of requests**: one way to make the rows tells all answers. -/
theorem Ready.returns_askAll (holds : C.Holds engine.evaluator reach.bound) (rs : List NodeRequest)
    {limit sought : Nat} {l : NodeListing ν} {s : Session σ ν}
    (ready : C.Ready engine.evaluator engine.options limit sought l s.target) :
    Returns (NodeRequest.askAll engine reach rs (.nodes l)) s fun a s' => ∃ l' limit' sought',
      a.2 = .nodes l' ∧ C.Ready engine.evaluator engine.options limit' sought' l' s'.target ∧
      KeepsOn l.kept l'.kept ∧
      ∀ row, Agrees row l'.kept → a.1 = C.answers engine.options row limit sought rs := by
  induction rs generalizing limit sought l s with
  | nil => exact returns_pure ⟨l, limit, sought, rfl, ready, fun _ _ h => h, fun _ _ => rfl⟩
  | cons r rs ih =>
    unfold NodeRequest.askAll
    refine (ready.returns_ask holds r).bind ?_
    rintro ⟨first, l₁⟩ s₁ ⟨l', rfl, shows_, on, told⟩
    refine (ih (.counted shows_)).bind ?_
    rintro ⟨others, l₂⟩ s₂ ⟨l'', limit', sought', rfl, ready', on', told'⟩
    refine returns_pure ⟨l'', limit', sought', rfl, ready', fun i row h => on' i row (on i row h),
      fun row agrees => ?_⟩
    have rest := told' row agrees
    have here := told row (agrees.of_keepsOn on')
    dsimp only at rest here ⊢
    rw [answers, here, rest]

/-! ## No position is out of bound -/

/-- A variable that is no row of a position out of bound. -/
def Named (v : Variable ν) : Prop := ∀ k, v ≠ outOfBoundRow k

theorem named_renamed (v : Variable ν) (name : String) (spec : Option String) :
    Named (.renamed v name spec) := by
  intro k same
  cases same

theorem named_failure (name : String) {message : String}
    (other : message.toList.head? ≠ some 'I') : Named (.failure name message : Variable ν) := by
  intro k same
  unfold outOfBoundRow Variable.error at same
  injection same with _ text
  refine other ?_
  rw [text]
  simp only [String.toList_append, List.head?_append]
  rfl

theorem named_failureText (name reason : String) :
    Named (.failure name (Variable.failureText reason) : Variable ν) := by
  refine named_failure name ?_
  unfold Variable.failureText Variable.errorName
  simp

theorem named_obstacleRow (guard : Guard) (e : EvalError) :
    Named (NodeListing.obstacleRow guard e : Variable ν) := by
  unfold NodeListing.obstacleRow
  split
  · refine named_failure _ ?_
    unfold Variable.warningText Variable.warningName
    simp
  · exact named_failureText _ _

theorem named_shortfallRow (size found : Nat) : Named (shortfallRow size found : Variable ν) := by
  refine named_failure _ fun same => ?_
  simp only [String.toList_append, List.head?_append] at same
  exact absurd (show some 'S' = some 'I' from same) (by decide)

theorem Named.decorated {v : Variable ν} (h : Named v) (d : Inspector σ ν) (t : σ) :
    Named (v.decorated d t) := by
  unfold Variable.decorated
  dsimp only
  split
  · exact h
  · split <;> (intro k same; cases same)

theorem ensures_evaluateRow_named (ev : Evaluator σ ν) (expression : String) (v : Variable ν)
    (scope : Scope (Variable ν)) (name : String) (t : σ) :
    Ensures (liftM (ev.evaluateRow expression v scope name) : Bounded σ _) t fun row _ =>
      Named row := by
  unfold Evaluator.evaluateRow
  refine ensures_lift_bind_iff.mpr ((ensures_true _ t).mono fun result t' _ => ?_)
  cases result with
  | ok answer =>
    refine ensures_lift_pure_iff.mpr ?_
    unfold Answer.toVariable
    split <;> (intro k same; cases same)
  | error e => exact ensures_lift_pure_iff.mpr (named_failureText name e.message)

theorem ensures_nodeRow_named (ev : Evaluator σ ν) (c : Context ν) (value : Option ValueNode)
    (node : Variable ν) (index : Nat) (t : σ) :
    Ensures (liftM (NodeListing.nodeRow ev c value node index) : Bounded σ _) t fun row _ =>
      Named row := by
  unfold NodeListing.nodeRow
  cases value with
  | none => exact ensures_lift_pure_iff.mpr (named_renamed _ _ _)
  | some value =>
    refine ensures_lift_bind_iff.mpr ((ensures_true _ t).mono fun name t' _ => ?_)
    split
    · refine ensures_lift_bind_iff.mpr (ensures_lift_get_iff.mpr (ensures_lift_pure_iff.mpr ?_))
      exact (named_renamed node name none).decorated _ _
    · unfold Context.row
      refine ensures_lift_bind_iff.mpr
        ((ensures_evaluateRow_named ev _ node c.scope name t').mono fun row t'' named => ?_)
      exact ensures_lift_bind_iff.mpr
        (ensures_lift_get_iff.mpr (ensures_lift_pure_iff.mpr (named.decorated _ _)))

theorem MadeAt.named {ev : Evaluator σ ν} {i : Nat} {row : Variable ν} (h : C.MadeAt ev i row) :
    Named row := by
  obtain ⟨n, rest, w, t, -, -, rfl⟩ := h
  exact ensures_lift_iff.mp (ensures_nodeRow_named ev C.context C.rule.valueNode n i t)

/-- **No child says that a position is out of bound.** -/
theorem named_of_mem_children {row : Nat → Variable ν}
    (made : ∀ i < C.nodes.length, Named (row i)) {sought : Nat} {v : Variable ν}
    (h : v ∈ C.children row sought) : Named v := by
  have obstacle {r : Variable ν} (h : C.obstacle = some r) : Named r := by
    unfold Course.obstacle at h
    obtain ⟨e, -, rfl⟩ := Option.map_eq_some_iff.mp h
    exact named_obstacleRow _ e
  unfold children nodeChildren at h
  cases size : C.size with
  | none =>
    rw [size] at h
    rcases List.mem_append.mp h with h | h
    · obtain ⟨i, hi, rfl⟩ := List.mem_map.mp h
      have inside := List.mem_range.mp hi
      exact made i (by omega)
    · split at h
      · exact obstacle (Option.mem_toList.mp h)
      · cases h
  | some s =>
    rw [size] at h
    obtain ⟨i, -, rfl⟩ := List.mem_map.mp h
    split
    · rename_i inside
      exact made i inside
    · split
      · cases failed : C.obstacle with
        | none => exact named_shortfallRow _ _
        | some r => exact obstacle failed
      · exact named_shortfallRow _ _

/-! ## The children of a rule -/

/-- There are rows for all nodes that agree with what is kept: those, and for the
others any that could have been made when the walk began. -/
theorem Ready.exists_rows {limit sought : Nat} {l : NodeListing ν} {t t₀ : σ} {ev : Evaluator σ ν}
    {options : Options} (ready : C.Ready ev options limit sought l t) (begins : C.Begins ev t₀) :
    ∃ row, Agrees row l.kept ∧ ∀ i < C.nodes.length, C.MadeAt ev i (row i) := by
  obtain ⟨head, t₁, -, ahead⟩ := begins
  let row (i : Nat) : Variable ν := (l.kept.row? i).getD
    (((C.nodes[i]?).map fun n => (NodeListing.nodeRow ev C.context C.rule.valueNode n i t₁).1).getD
      (outOfBoundRow i))
  have agrees : Agrees row l.kept := fun i v here => by
    simp only [row, here, Option.getD_some]
  refine ⟨row, agrees, fun i inside => ?_⟩
  -- no answer tells what the rows are that were never asked for
  cases kept : l.kept.row? i with
  | some v =>
    rw [agrees i v kept]
    exact ready.exists_made kept
  | none =>
    have node := List.getElem?_eq_getElem inside
    refine ⟨C.nodes[i], _, _, t₁, node, ahead, ?_⟩
    simp only [row, kept, node, Option.getD_none, Option.map_some, Option.getD_some]

/-- **The children of linked lists and trees.** Let the rule begin with success,
and let the walk yield its nodes and then end or fail. Then there is one way to
make the rows of the nodes that tells the answers to any requests in any
order, together with how many nodes the greatest limit so far looks for. As
long as the limit stays the same, so do the children: a node's row is the one
that was made when it was first asked for. No row says that a position is out
of bound. If a node's row is the same whenever it is made, the children do not
depend on the requests. -/
theorem rows_of_nodes (C : Course σ ν) (engine : Engine σ ν) (reach : Reach σ ν)
    (holds : C.Holds engine.evaluator reach.bound) {s : Session σ ν}
    (begins : C.Begins engine.evaluator s.target) (limit : Nat) (rs : List NodeRequest) :
    ∃ row : Nat → Variable ν, (∀ i < C.nodes.length, C.MadeAt engine.evaluator i (row i)) ∧
      Returns (NodeRequest.askAll engine reach rs
          (.nodes { context := C.context, rule := C.rule, limit })) s
        (fun r _ => r.1 = C.answers engine.options row limit 0 rs) ∧
      ((∀ r ∈ rs, r.limit ≤ limit) → C.answers engine.options row limit 0 rs =
        rs.map (NodeRequest.answer (C.children row (C.soughtUnder engine.options limit)))) ∧
      (∀ sought k, outOfBoundRow k ∉ C.children row sought) ∧
      ∀ fixed : Nat → Variable ν,
        (∀ i v, i < C.nodes.length → C.MadeAt engine.evaluator i v → v = fixed i) →
        ∀ sought, C.children row sought = C.children fixed sought := by
  obtain ⟨r, s', asked, l', limit', sought', -, ready, -, told⟩ :=
    Ready.returns_askAll holds rs (.new begins limit)
  obtain ⟨row, agrees, made⟩ := ready.exists_rows begins
  refine ⟨row, made, ⟨r, s', asked, told row agrees⟩,
    answers_eq_map C engine.options row (Nat.zero_le _) rs, fun sought k h => ?_,
    fun fixed same sought => nodeChildren_congr (fun i inside => ?_) _ _ _⟩
  · exact named_of_mem_children (fun i inside => (made i inside).named) h k rfl
  · exact same i _ inside (made i inside)

end Course

/-! ## Where the order matters -/

/-- A pointer the fast evaluator answers leads to what it answered. -/
theorem Walk.follow_of_fast {ev : Evaluator σ ν} {scope : Scope (Variable ν)} {node : Variable ν}
    {pointer : String} {handle : ν} {t t' : σ} (asks : ev.strategy.usesFast = true)
    (written : Evaluator.AsWritten scope pointer)
    (said : ev.debugger.fast (node.followed ev.debugger.toInspector t) ⟨pointer, .plain ""⟩ none
      scope.scratch t = (.ok handle, t'))
    (free : (ev.debugger.facts t' handle).error = none) :
    Walk.follow ev scope node pointer t = (.ok (.debugger handle), t') := by
  unfold Walk.follow
  rw [bind_apply, Evaluator.evaluate_of_fast asks written said free]
  rfl

/-- A rule without a size begins where its head leads. -/
theorem opens_of_follow {ev : Evaluator σ ν} {c : Context ν} {rule : NodeRule} {pointer : String}
    {head : Variable ν} {t : σ} (complete : NodeListing.missingPart? rule = none)
    (applies : c.applies ev rule.guard t = (.ok true, t)) (unsized : rule.size = none)
    (trimmed : Text.trimmed rule.head = pointer) (away : (pointer == NodeListing.thisName) = false)
    (followed : Walk.follow ev c.scope c.owner pointer t = (.ok head, t)) :
    Opens ev c rule none head t t := by
  refine ⟨complete, t, t, applies, ?_, ?_⟩
  · unfold NodeListing.head
    dsimp only
    rw [trimmed, away]
    exact followed
  · rw [unsized]
    exact ⟨rfl, rfl⟩

namespace Tally

/-- A debugger with a list of two nodes, 0 and 1. Each evaluation of a value gives
a new variable, and the state counts them. -/
def debugger : Debugger Nat Nat where
  facts _ n :=
    { name := "it", typeName := "It", isTruthy := true, isNull := n == 2, hierarchy := [] }
  pointee? _ _ := none
  snapshot? _ _ _ := none
  text _ _ _ := "it"
  mightHaveChildren _ _ := false
  children _ _ := []
  fast target e _ _ := fun n =>
    if e.value = "head" then (.ok 0, n)
    else if e.value = "next" then (.ok (target.handle?.getD 0 + 1), n)
    else (.ok (10 + n), n + 1)
  full _ _ _ := pure (.error "")
  path _ _ := pure none

/-- The engine. -/
def engine : Engine Nat Nat := ⟨debugger, {}⟩

/-- A session in which so many values were evaluated. -/
def session (n : Nat) : Session Nat Nat where
  target := n
  book := { catalogue := {} }

/-- The walk before or behind its nodes. -/
def walkAt : Nat → Walk Nat
  | 0 => .start (.debugger 0)
  | k + 1 => { place := .behind (.debugger k) }

/-- The two nodes. -/
def nodes : List (Variable Nat) := [.debugger 0, .debugger 1]

/-- The course of the walk. -/
def course : Course Nat Nat where
  context := ⟨.debugger 0, {}⟩
  rule := { head := "head", links := .list "next", valueNode := some { value := "value" } }
  size := none
  nodes := nodes
  failure := none
  ahead
    | some rest, w, _ => ∃ k ≤ 2, rest = nodes.drop k ∧ w = walkAt k
    | none, _, _ => True

theorem follow_next (k n : Nat) :
    Walk.follow engine.evaluator {} (.debugger k) "next" n = (.ok (.debugger (k + 1)), n) :=
  Walk.follow_of_fast rfl (by decide +kernel) rfl rfl

theorem visit_node (k n : Nat) :
    Walk.visit engine.evaluator (.debugger k) n =
      if k = 2 then ((.ok none, Walk.done), n)
      else ((.ok (some (.debugger k)), walkAt (k + 1)), n) := by
  by_cases last : k = 2
  · subst last
    rfl
  · have there : (k == 2) = false := by simpa using last
    rw [if_neg last]
    unfold Walk.visit Walk.isNull
    simp only [bind_apply, get_apply]
    show (if (k == 2) = true then _ else _ : StateM Nat _) n = _
    rw [there]
    rfl

theorem next_node (k n : Nat) : Walk.nextOfList engine.evaluator {} "next" (walkAt k) n =
    Walk.visit engine.evaluator (.debugger k) n := by
  cases k with
  | zero => rfl
  | succ k =>
    unfold Walk.nextOfList walkAt
    dsimp only
    rw [bind_apply, follow_next]

theorem holds : course.Holds engine.evaluator 0 where
  node {n ns w t} h := by
    obtain ⟨k, le, rest, rfl⟩ := h
    have next := next_node k t
    rw [visit_node] at next
    match k, le with
    | 0, _ =>
      cases rest
      exact ⟨_, _, congrArg Except.ok next, rfl, 1, by decide, rfl, rfl⟩
    | 1, _ =>
      cases rest
      exact ⟨_, _, congrArg Except.ok next, rfl, 2, by decide, rfl, rfl⟩
    | 2, _ => cases rest
  last {w t} h := by
    obtain ⟨k, le, rest, rfl⟩ := h
    have next := next_node k t
    rw [visit_node] at next
    match k, le with
    | 0, _ => cases rest
    | 1, _ => cases rest
    | 2, _ => exact ⟨_, _, congrArg Except.ok next, rfl, trivial⟩
  row {i n rest w t} node h := by
    cases rest with
    | some rest => exact h
    | none => exact trivial

theorem begins (n : Nat) : course.Begins engine.evaluator n := by
  have head : Walk.follow engine.evaluator {} (.debugger 0) "head" n = (.ok (.debugger 0), n) :=
    Walk.follow_of_fast rfl (by decide +kernel) rfl rfl
  exact ⟨.debugger 0, n, opens_of_follow (by decide +kernel) rfl rfl (by decide +kernel)
    (by decide +kernel) head, 0, by decide, rfl, rfl⟩

/-- The listing of the nodes, before anything is asked. -/
def fresh : NodeListing Nat := { context := course.context, rule := course.rule }

/-- One node is counted under a limit of one, and both once the limit is higher. -/
theorem rows_under_limits :
    ∃ (row : Nat → Variable Nat) (l' : Listing Nat) (s' : Session Nat Nat),
      NodeRequest.askAll engine (engine.reach 1)
        [.count 1, .rows 3 1 9, .count 0, .rows 0 0 1] (.nodes fresh) (session 0) =
      .ok (([.count 1, .rows [row 1], .count 2, .rows [row 0]], l'), s') := by
  obtain ⟨row, -, ⟨⟨_, l'⟩, s', asked, rfl⟩, -⟩ := Course.rows_of_nodes course engine
    (engine.reach 1) holds (s := session 0) (begins 0) 0
    [.count 1, .rows 3 1 9, .count 0, .rows 0 0 1]
  exact ⟨row, l', s', asked⟩

/-- What the rows of an answer stand for. -/
def handles : PageAnswer Nat → List (Option Nat)
  | .count _ => []
  | .rows shown => shown.map Variable.handle?

/-- The first row, and then the second. -/
def upward : List NodeRequest := [.rows 0 0 1, .rows 0 1 1]

/-- The second row, and then the first. -/
def downward : List NodeRequest := [.rows 0 1 1, .rows 0 0 1]

theorem asked_upward :
    (NodeRequest.askAll engine (engine.reach 1) upward (.nodes fresh) (session 0)).map
      (fun r => r.1.1.map handles) = .ok [[some 10], [some 11]] := by
  decide +kernel

theorem asked_downward :
    (NodeRequest.askAll engine (engine.reach 1) downward (.nodes fresh) (session 0)).map
      (fun r => r.1.1.map handles) = .ok [[some 10], [some 11]] := by
  decide +kernel

/-- **The rows of nodes depend on the order in which they are asked for**: no rows
tell the answers to all requests, as the first row that is asked for has the
first value that is evaluated. -/
theorem children_by_order :
    course.Holds engine.evaluator (engine.reach 1).bound ∧ course.Begins engine.evaluator 0 ∧
      ¬ ∃ row, ∀ rs : List NodeRequest, (∀ r ∈ rs, r.limit = 0) →
        Returns (NodeRequest.askAll engine (engine.reach 1) rs (.nodes fresh)) (session 0)
          fun r _ => r.1 = rs.map
            (NodeRequest.answer (course.children row (course.soughtUnder engine.options 0))) := by
  refine ⟨holds, begins 0, ?_⟩
  -- whichever row is asked for first would have to be both of them
  rintro ⟨row, told⟩
  obtain ⟨⟨_, _⟩, s₁, up, rfl⟩ := told upward (by decide)
  obtain ⟨⟨_, _⟩, s₂, down, rfl⟩ := told downward (by decide)
  have shown : course.children row (course.soughtUnder engine.options 0) = [row 0, row 1] := rfl
  have first := asked_upward
  have second := asked_downward
  rw [up, shown] at first
  rw [down, shown] at second
  have ten : (row 0).handle? = some 10 ∧ (row 1).handle? = some 11 := by
    simpa [upward, NodeRequest.answer, handles, clip, windowEnd, wordCount, Except.map] using first
  have eleven : (row 1).handle? = some 10 ∧ (row 0).handle? = some 11 := by
    simpa [downward, NodeRequest.answer, handles, clip, windowEnd, wordCount, Except.map] using second
  have same := ten.1.symm.trans eleven.2
  exact absurd same (by decide)

end Tally

end WatchView
