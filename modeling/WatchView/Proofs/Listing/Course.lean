import WatchView.Proofs.Listing.Pages
import WatchView.Proofs.Listing.Returns
/-!
# The course of a walk

A list of nodes walks when it is asked: as far as its limit when it is
counted, and as far as a window reaches if its size is declared. Its children
are told by the nodes of the whole walk, by the failure that ended it, and by
the greatest number of nodes it was to look for (`nodeChildren`). A row says
how many nodes there are only when the walk has ended.

`Course.Holds` says what the debugger has to do for that. `Course.Shows` is
what then holds of a list that was counted, and stays so when it is counted
again under a higher limit (`Course.Ready.returns_settled`) or asked for a
window (`Course.Ready.returns_rows`).
-/

namespace WatchView

open Bounded

variable {σ ν : Type}

/-! ## The children -/

/-- The row at a declared position without a node. -/
def shortfallRow (size found : Nat) : Variable ν :=
  .error s!"Size declared as {size} but only {found} item(s) found."

/-- The row at a position that is not there. -/
def outOfBoundRow (index : Nat) : Variable ν := .error s!"Item {index} is out of bound."

/-- The children when `m` nodes are to be had before the walk ends or meets an
obstacle. Without a declared size, they are the first nodes that were looked
for, and the obstacle if more nodes were looked for than there are. With one,
there are so many. -/
def nodeChildren (m : Nat) (row : Nat → Variable ν) (obstacle : Option (Variable ν))
    (sought : Nat) : Option Nat → List (Variable ν)
  | none => (List.range (min sought m)).map row ++ if m < sought then obstacle.toList else []
  | some size => (List.range size).map fun i =>
    if i < m then row i else if i = m then obstacle.getD (shortfallRow size m)
    else shortfallRow size m

/-- Their number. -/
def nodeCount (m : Nat) (obstacle : Option (Variable ν)) (sought : Nat) : Option Nat → Nat
  | none => min sought m + if m < sought ∧ obstacle.isSome then 1 else 0
  | some size => size

theorem length_nodeChildren (m : Nat) (row : Nat → Variable ν) (obstacle : Option (Variable ν))
    (sought : Nat) (size : Option Nat) :
    (nodeChildren m row obstacle sought size).length = nodeCount m obstacle sought size := by
  cases size with
  | none =>
    unfold nodeChildren nodeCount
    by_cases short : m < sought
    · cases obstacle <;> simp [short]
    · simp [short]
  | some size => simp [nodeChildren, nodeCount]

/-- They depend on the rows of nodes only. -/
theorem nodeChildren_congr {m : Nat} {row row' : Nat → Variable ν} (same : ∀ i < m, row i = row' i)
    (obstacle : Option (Variable ν)) (sought : Nat) (size : Option Nat) :
    nodeChildren m row obstacle sought size = nodeChildren m row' obstacle sought size := by
  cases size with
  | none =>
    have rows : (List.range (min sought m)).map row = (List.range (min sought m)).map row' := by
      refine List.map_congr_left fun i hi => same i ?_
      have inside := List.mem_range.mp hi
      omega
    unfold nodeChildren
    dsimp only
    rw [rows]
  | some size =>
    refine List.map_congr_left fun i _ => ?_
    by_cases inside : i < m
    · rw [if_pos inside, if_pos inside, same i inside]
    · rw [if_neg inside, if_neg inside]

/-! ## What the debugger does -/

/-- A rule begins with success and comes to its head: it applies, it is complete,
and its head and the size it declares, if any, evaluate. -/
structure Opens (ev : Evaluator σ ν) (c : Context ν) (rule : NodeRule) (size : Option Nat)
    (head : Variable ν) (t t' : σ) : Prop where
  complete : NodeListing.missingPart? rule = none
  opens : ∃ t₁ t₂, c.applies ev rule.guard t = (.ok true, t₁) ∧
    NodeListing.head ev { context := c, rule } t₁ = (.ok head, t₂) ∧
    match rule.size.filter fun text => !Text.isBlankText text with
    | none => size = none ∧ t' = t₂
    | some text => ∃ n, size = some n ∧
      ev.declaredSize c.owner c.scope [{ value := text }] t₂ = (.ok n, t')

/-- The course of a walk: the nodes it yields and the failure that ends it, if it
does not come to its end. `ahead` says what is still to come: some of the
nodes, or nothing once the walk has ended. -/
structure Course (σ ν : Type) where
  context : Context ν
  rule : NodeRule
  /-- The size that is declared. -/
  size : Option Nat
  nodes : List (Variable ν)
  failure : Option EvalError
  ahead : Option (List (Variable ν)) → Walk ν → σ → Prop

namespace Course

/-- A walk takes its course under an evaluator, also if rows of its nodes are
made meanwhile. -/
structure Holds (C : Course σ ν) (ev : Evaluator σ ν) (bound : Nat) : Prop where
  node {n : Variable ν} {ns : List (Variable ν)} {w : Walk ν} {t : σ}
    (h : C.ahead (some (n :: ns)) w t) :
    Returns (w.next ev C.context.scope bound C.rule.links) t fun r t' =>
      r.1 = .ok (some n) ∧ C.ahead (some ns) r.2 t'
  last {w : Walk ν} {t : σ} (h : C.ahead (some []) w t) :
    Returns (w.next ev C.context.scope bound C.rule.links) t fun r t' =>
      r.1 = C.failure.elim (.ok none) .error ∧ C.ahead none r.2 t'
  row {i : Nat} {n : Variable ν} {rest : Option (List (Variable ν))} {w : Walk ν} {t : σ}
    (node : C.nodes[i]? = some n) (h : C.ahead rest w t) :
    C.ahead rest w (NodeListing.nodeRow ev C.context C.rule.valueNode n i t).2

/-- The rule begins with success, and all nodes are ahead. -/
def Begins (C : Course σ ν) (ev : Evaluator σ ν) (t : σ) : Prop :=
  ∃ head t', Opens ev C.context C.rule C.size head t t' ∧ C.ahead (some C.nodes) (.start head) t'

/-- The row of the failure. -/
def obstacle (C : Course σ ν) : Option (Variable ν) :=
  C.failure.map (NodeListing.obstacleRow C.rule.guard)

/-- The children, when the nodes have these rows and so many nodes were looked
for. -/
def children (C : Course σ ν) (row : Nat → Variable ν) (sought : Nat) : List (Variable ν) :=
  nodeChildren C.nodes.length row C.obstacle sought C.size

/-- Their number. -/
def count (C : Course σ ν) (sought : Nat) : Nat :=
  nodeCount C.nodes.length C.obstacle sought C.size

/-- The number of nodes looked for under a limit. -/
def soughtUnder (C : Course σ ν) (options : Options) (limit : Nat) : Nat :=
  if limit = 0 then options.get C.rule.links.limitProperty else limit

end Course

namespace NodeListing

/-- The listing, looking for at least so many nodes. -/
def raised (limit : Nat) (l : NodeListing ν) : NodeListing ν :=
  if l.limit < limit then
    { l with limit := limit, stale := l.stale || (l.limit < limit && l.standing.isSome) }
  else l

theorem raisedTo_nodes (limit : Nat) (l : NodeListing ν) :
    (Listing.nodes l).raisedTo limit = .nodes (l.raised limit) := by
  unfold Listing.raisedTo raised
  by_cases up : l.limit < limit
  · rw [if_pos up, if_pos (show (Listing.nodes l).limit < limit from up)]
    rfl
  · rw [if_neg up, if_neg (show ¬ (Listing.nodes l).limit < limit from up)]

end NodeListing

namespace Course

/-! ## How far a walk has come -/

/-- Where a walk is in its course. -/
inductive Point (C : Course σ ν) (l : NodeListing ν) (t : σ) : Prop
  /-- There may be more nodes. -/
  | going (w : Walk ν) (rest : List (Variable ν)) (walk : l.walk = some w)
      (found : l.nodes.toList ++ rest = C.nodes) (open_ : l.exhausted = false)
      (clear : l.obstacle = none) (h : C.ahead (some rest) w t)
  /-- All nodes were found, and it is known that there are no more. -/
  | ended (w : Walk ν) (walk : l.walk = some w) (found : l.nodes.toList = C.nodes)
      (exhausted : l.exhausted = true) (obstacle : l.obstacle = C.obstacle)
      (h : C.ahead none w t)

/-- A list of nodes in the course of its walk. -/
structure Stage (C : Course σ ν) (l : NodeListing ν) (t : σ) : Prop where
  context : l.context = C.context
  rule : l.rule = C.rule
  point : C.Point l t

variable {C : Course σ ν} {ev : Evaluator σ ν} {options : Options} {bound : Nat}
  {l : NodeListing ν} {t : σ}

namespace Stage

/-- Something is ahead, or the walk is over. -/
theorem exists_ahead (stage : C.Stage l t) : ∃ rest w, l.walk = some w ∧ C.ahead rest w t := by
  cases stage.point with
  | going w rest walk _ _ _ h => exact ⟨some rest, w, walk, h⟩
  | ended w walk _ _ _ h => exact ⟨none, w, walk, h⟩

/-- The walk is where it is as long as the debugger leaves what is ahead. -/
theorem of_ahead (stage : C.Stage l t) {t' : σ}
    (same : ∀ rest w, C.ahead rest w t → C.ahead rest w t') : C.Stage l t' := by
  refine ⟨stage.context, stage.rule, ?_⟩
  cases stage.point with
  | going w rest walk found open_ clear h =>
    exact .going w rest walk found open_ clear (same _ _ h)
  | ended w walk found exhausted obstacle h =>
    exact .ended w walk found exhausted obstacle (same _ _ h)

/-- Where a walk is does not depend on what else the list keeps. -/
theorem congr {l' : NodeListing ν} (stage : C.Stage l t) (context : l'.context = l.context)
    (rule : l'.rule = l.rule) (walk : l'.walk = l.walk) (nodes : l'.nodes = l.nodes)
    (exhausted : l'.exhausted = l.exhausted) (obstacle : l'.obstacle = l.obstacle) :
    C.Stage l' t := by
  refine ⟨context.trans stage.context, rule.trans stage.rule, ?_⟩
  cases stage.point with
  | going w rest walk' found open_ clear h =>
    exact .going w rest (walk.trans walk') (nodes ▸ found) (exhausted.trans open_)
      (obstacle.trans clear) h
  | ended w walk' found known failed h =>
    exact .ended w (walk.trans walk') (nodes ▸ found) (exhausted.trans known)
      (obstacle.trans failed) h

/-- What was found is part of what is to be had. -/
theorem size_le (stage : C.Stage l t) : l.nodes.size ≤ C.nodes.length := by
  cases stage.point with
  | going w rest _ found =>
    rw [← found, List.length_append, Array.length_toList]
    exact Nat.le_add_right _ _
  | ended w _ found => exact Nat.le_of_eq (by rw [← found, Array.length_toList])

theorem getElem?_nodes (stage : C.Stage l t) {i : Nat} {n : Variable ν}
    (h : l.nodes[i]? = some n) : C.nodes[i]? = some n := by
  rw [← Array.getElem?_toList] at h
  cases stage.point with
  | going w rest _ found =>
    rw [← found, List.getElem?_append_left (List.getElem?_eq_some_iff.mp h).1]
    exact h
  | ended w _ found => rwa [← found]

/-- At the end everything was found, and the obstacle is known. -/
theorem of_exhausted (stage : C.Stage l t) (exhausted : l.exhausted = true) :
    l.nodes.size = C.nodes.length ∧ l.obstacle = C.obstacle := by
  cases stage.point with
  | going w rest _ _ open_ =>
    rw [exhausted] at open_
    cases open_
  | ended w _ found _ obstacle => exact ⟨by rw [← found, Array.length_toList], obstacle⟩

/-- The number of rows that are known without a declared size. -/
theorem found_eq (stage : C.Stage l t) :
    l.found = l.nodes.size + if l.exhausted = true ∧ C.obstacle.isSome then 1 else 0 := by
  unfold NodeListing.found
  cases stage.point with
  | going w rest _ _ open_ clear => simp [open_, clear]
  | ended w _ _ exhausted obstacle => simp [exhausted, obstacle]

end Stage

/-- A walk that goes on finds so many nodes more, and knows that there are no others
only if it looked for more than there are. -/
theorem returns_walkOn (holds : C.Holds ev bound) (more : Nat) (stage : C.Stage l t) :
    Returns (l.walkOn ev bound more) t fun l' t' => C.Stage l' t' ∧
      l'.nodes.size = max l.nodes.size (min (l.nodes.size + more) C.nodes.length) ∧
      (l'.exhausted = true ↔ l.exhausted = true ∨ C.nodes.length < l.nodes.size + more) := by
  induction more generalizing l t with
  | zero =>
    have le := stage.size_le
    refine returns_pure ⟨stage, by omega, ?_⟩
    rw [or_iff_left (by omega)]
  | succ more ih =>
    have le := stage.size_le
    unfold NodeListing.walkOn
    cases stage.point with
    | ended w walk found exhausted obstacle h =>
      have all := (stage.of_exhausted exhausted).1
      rw [walk]
      dsimp only
      rw [if_pos exhausted]
      exact returns_pure ⟨stage, by omega, iff_of_true exhausted (.inl exhausted)⟩
    | going w rest walk found open_ clear h =>
      have length := congrArg List.length found
      rw [List.length_append, Array.length_toList] at length
      rw [walk]
      dsimp only
      rw [if_neg (by simp [open_])]
      cases rest with
      | nil =>
        -- the walk ends or fails, and either way there is no asking again
        have last := holds.last h
        rw [← stage.context, ← stage.rule] at last
        rw [List.append_nil] at found
        rw [List.length_nil] at length
        refine last.bind ?_
        rintro ⟨result, w'⟩ t' ⟨rfl, gone⟩
        have ended (l' : NodeListing ν) (context : l'.context = l.context) (rule : l'.rule = l.rule)
            (walk : l'.walk = some w') (nodes : l'.nodes = l.nodes)
            (exhausted : l'.exhausted = true) (obstacle : l'.obstacle = C.obstacle) :
            C.Stage l' t' :=
          ⟨context.trans stage.context, rule.trans stage.rule,
            .ended w' walk (nodes ▸ found) exhausted obstacle gone⟩
        cases failed : C.failure with
        | none =>
          refine returns_pure ⟨ended _ rfl rfl rfl rfl rfl ?_, by dsimp only; omega,
            iff_of_true rfl (.inr (by omega))⟩
          unfold obstacle
          rw [failed]
          exact clear
        | some e =>
          refine returns_pure ⟨ended _ rfl rfl rfl rfl rfl ?_, by dsimp only; omega,
            iff_of_true rfl (.inr (by omega))⟩
          unfold obstacle
          rw [failed, ← stage.rule]
          rfl
      | cons n rest =>
        have node := holds.node h
        rw [← stage.context, ← stage.rule] at node
        rw [List.length_cons] at length
        refine node.bind ?_
        rintro ⟨result, w'⟩ t' ⟨rfl, on⟩
        have pushed : (l.nodes.push n).toList ++ rest = C.nodes := by
          rw [Array.toList_push, List.append_assoc]
          exact found
        have next : C.Stage { l with walk := some w', nodes := l.nodes.push n } t' :=
          ⟨stage.context, stage.rule, .going w' rest rfl pushed open_ clear on⟩
        refine (ih next).mono ?_
        rintro l' t'' ⟨stage', many, ended⟩
        dsimp only at many ended
        rw [Array.size_push] at many ended
        refine ⟨stage', by omega, ended.trans (or_congr_right ?_)⟩
        omega

/-- **A walk comes as far as it is sent**, or to its end. -/
theorem returns_walkTo (holds : C.Holds ev bound) (count : Nat) (stage : C.Stage l t) :
    Returns (l.walkTo ev bound count) t fun l' t' => l.WalksTo count l' ∧ C.Stage l' t' ∧
      l'.nodes.size = max l.nodes.size (min count C.nodes.length) ∧
      (l'.exhausted = true ↔ l.exhausted = true ∨ C.nodes.length < count) := by
  have le := stage.size_le
  refine ((returns_walkOn holds (count - l.nodes.size) stage).and
    (l.ensures_walkTo ev bound count t)).mono ?_
  rintro l' t' ⟨⟨stage', many, ended⟩, walks⟩
  refine ⟨walks, stage', by omega, ended.trans (or_congr_right ?_)⟩
  omega

/-! ## Rows that are kept -/

/-- A row that was made of the node at a position, at some time in the course of
the walk. -/
def MadeAt (C : Course σ ν) (ev : Evaluator σ ν) (i : Nat) (row : Variable ν) : Prop :=
  ∃ n rest w t, C.nodes[i]? = some n ∧ C.ahead rest w t ∧
    row = (NodeListing.nodeRow ev C.context C.rule.valueNode n i t).1

/-- All rows that are kept were made of nodes that were found. -/
def KeptFrom (C : Course σ ν) (ev : Evaluator σ ν) (found : Nat) (kept : Kept ν) : Prop :=
  ∀ i row, kept.row? i = some row → i < found ∧ C.MadeAt ev i row

theorem KeptFrom.mono {found found' : Nat} {kept : Kept ν} (h : C.KeptFrom ev found kept)
    (le : found ≤ found') : C.KeptFrom ev found' kept :=
  fun i row kept => ⟨Nat.lt_of_lt_of_le (h i row kept).1 le, (h i row kept).2⟩

/-- Everything that is kept stays kept. -/
def KeepsOn (kept kept' : Kept ν) : Prop :=
  ∀ i row, kept.row? i = some row → kept'.row? i = some row

/-- Rows by position that agree with what is kept. -/
def Agrees (row : Nat → Variable ν) (kept : Kept ν) : Prop :=
  ∀ i r, kept.row? i = some r → row i = r

theorem Agrees.of_keepsOn {row : Nat → Variable ν} {kept kept' : Kept ν} (h : Agrees row kept')
    (on : KeepsOn kept kept') : Agrees row kept :=
  fun i r here => h i r (on i r here)

theorem row?_cons (i j : Nat) (row : Variable ν) (kept : Kept ν) :
    Kept.row? ((i, row) :: kept) j = if j = i then some row else kept.row? j := by
  unfold Kept.row?
  rw [List.lookup_cons]
  by_cases same : j = i
  · simp [same]
  · simp [same, beq_eq_false_iff_ne.mpr same]

theorem KeptFrom.cons {found i : Nat} {row : Variable ν} {kept : Kept ν}
    (h : C.KeptFrom ev found kept) (inside : i < found) (made : C.MadeAt ev i row) :
    C.KeptFrom ev found ((i, row) :: kept) := by
  intro j row' here
  rw [row?_cons] at here
  split at here
  · rename_i same
    cases here
    subst same
    exact ⟨inside, made⟩
  · exact h j row' here

theorem keepsOn_cons {i : Nat} {kept : Kept ν} (fresh : kept.row? i = none) (row : Variable ν) :
    KeepsOn kept ((i, row) :: kept) := by
  intro j row' here
  have other : j ≠ i := by
    rintro rfl
    rw [fresh] at here
    cases here
  rw [row?_cons, if_neg other, here]

/-- A row that is made was not kept. It stays, and is not made again. -/
theorem once_cons {i : Nat} {row : Variable ν} {kept kept' : Kept ν} {others : List Nat}
    (fresh : kept.row? i = none)
    (once : KeepsOn ((i, row) :: kept) kept' ∧ others.Nodup ∧
      ∀ j ∈ others, Kept.row? ((i, row) :: kept) j = none) :
    KeepsOn kept kept' ∧ (i :: others).Nodup ∧ ∀ j ∈ i :: others, kept.row? j = none := by
  obtain ⟨on, nodup, unmade⟩ := once
  refine ⟨fun j v here => on j v (keepsOn_cons fresh row j v here), ?_, ?_⟩
  · refine List.nodup_cons.mpr ⟨fun again => ?_, nodup⟩
    have unmade := unmade i again
    rw [row?_cons, if_pos rfl] at unmade
    cases unmade
  · refine List.forall_mem_cons.mpr ⟨fresh, fun j hj => ?_⟩
    have unmade := unmade j hj
    rw [row?_cons] at unmade
    split at unmade
    · cases unmade
    · exact unmade

/-- **Rows of nodes are made once.** They are kept from then on, so that all
windows show the same. -/
theorem ensures_rowsAt (holds : C.Holds ev bound) (stage : C.Stage l t) (positions : List Nat)
    {kept : Kept ν} (made : C.KeptFrom ev l.nodes.size kept) :
    Ensures (liftM (l.rowsAt ev positions kept) : Bounded σ _) t fun r t' =>
      C.Stage l t' ∧ C.KeptFrom ev l.nodes.size r.2 ∧ KeepsOn kept r.2 ∧
        ∀ row, Agrees row r.2 → r.1 = positions.map fun i =>
          if i < l.nodes.size then row i else l.rowWithoutNode i := by
  induction positions generalizing kept t with
  | nil =>
    rw [NodeListing.rowsAt]
    exact ensures_lift_pure_iff.mpr ⟨stage, made, fun _ _ h => h, fun row _ => rfl⟩
  | cons i is ih =>
    rw [NodeListing.rowsAt]
    split
    · rename_i row here
      refine ensures_lift_bind_iff.mpr ((ih stage made).mono fun r t' shown => ?_)
      obtain ⟨stage', made', on, told⟩ := shown
      refine ensures_lift_pure_iff.mpr ⟨stage', made', on, fun all agrees => ?_⟩
      have inside := (made i row here).1
      rw [List.map_cons, ← told all agrees, if_pos inside, agrees i row (on i row here)]
    · rename_i n fresh node
      -- the first window to ask for a position settles its row
      refine ensures_lift_bind_iff.mpr (ensures_lift_iff.mpr ?_)
      rw [stage.context, stage.rule]
      have inside : i < l.nodes.size := (Array.getElem?_eq_some_iff.mp node).1
      have node := stage.getElem?_nodes node
      have next : C.Stage l (NodeListing.nodeRow ev C.context C.rule.valueNode n i t).2 :=
        stage.of_ahead fun rest w h => holds.row node h
      have here : C.MadeAt ev i (NodeListing.nodeRow ev C.context C.rule.valueNode n i t).1 := by
        obtain ⟨rest, w, -, h⟩ := stage.exists_ahead
        exact ⟨n, rest, w, t, node, h, rfl⟩
      generalize (NodeListing.nodeRow ev C.context C.rule.valueNode n i t).1 = row at here ⊢
      have first : Kept.row? ((i, row) :: kept) i = some row := by rw [row?_cons, if_pos rfl]
      refine ensures_lift_bind_iff.mpr ((ih next (made.cons inside here)).mono fun r t' shown => ?_)
      obtain ⟨stage', made', on, told⟩ := shown
      refine ensures_lift_pure_iff.mpr ⟨stage', made',
        fun j row' hj => on j row' (keepsOn_cons fresh row j row' hj), fun all agrees => ?_⟩
      rw [List.map_cons, ← told all agrees, if_pos inside, agrees i row (on i row first)]
    · rename_i fresh none
      have outside : ¬ i < l.nodes.size := by
        intro inside
        rw [Array.getElem?_eq_getElem inside] at none
        cases none
      refine ensures_lift_bind_iff.mpr ((ih stage made).mono fun r t' shown => ?_)
      obtain ⟨stage', made', on, told⟩ := shown
      refine ensures_lift_pure_iff.mpr ⟨stage', made', on, fun all agrees => ?_⟩
      rw [List.map_cons, ← told all agrees, if_neg outside]

/-! ## A list that was counted -/

/-- A list of nodes that was counted, when its limit is set and so many nodes
were looked for. -/
structure Shows (C : Course σ ν) (ev : Evaluator σ ν) (options : Options) (limit sought : Nat)
    (l : NodeListing ν) (t : σ) : Prop where
  stage : C.Stage l t
  declared : l.size = C.size
  limited : l.limit = limit
  met : C.soughtUnder options limit ≤ sought
  fresh : l.stale = false
  kept : C.KeptFrom ev l.nodes.size l.kept
  counted : l.standing = some (.counted (C.count sought))
  /-- Without a declared size, it has walked for as many nodes as were looked for
  and no further. -/
  walked : C.size = none → l.nodes.size = min sought C.nodes.length ∧
    (l.exhausted = true ↔ C.nodes.length < sought)

/-- What is counted after a walk for so many nodes. -/
theorem found_of_walked {sought : Nat} (stage : C.Stage l t)
    (many : l.nodes.size = min sought C.nodes.length)
    (ended : l.exhausted = true ↔ C.nodes.length < sought) :
    l.found = nodeCount C.nodes.length C.obstacle sought none := by
  rw [stage.found_eq, many, nodeCount]
  simp only [ended]

theorem effectiveLimit_eq (rule : l.rule = C.rule) :
    l.effectiveLimit options = C.soughtUnder options l.limit := by
  unfold NodeListing.effectiveLimit soughtUnder
  rw [rule]

/-- Without a declared size, a list is counted by a walk, which goes on from where
an earlier one stopped. -/
theorem returns_walk_counted (holds : C.Holds ev bound) (stage : C.Stage l t)
    (undeclared : C.size = none) (declared : l.size = none) (fresh : l.stale = false)
    (kept : C.KeptFrom ev l.nodes.size l.kept) (sought : Nat)
    (many : l.nodes.size = min sought C.nodes.length)
    (ended : l.exhausted = true ↔ C.nodes.length < sought) :
    Returns (l.walkTo ev bound (l.effectiveLimit options)) t fun l' t' =>
      let n := max sought (C.soughtUnder options l.limit)
      l'.found = C.count n ∧ l'.kept = l.kept ∧
        C.Shows ev options l.limit n { l' with standing := some (.counted (C.count n)) } t' := by
  refine (returns_walkTo holds _ stage).mono ?_
  rintro l' t' ⟨walks, stage', many', ended'⟩
  rw [effectiveLimit_eq stage.rule] at many' ended'
  generalize known : C.soughtUnder options l.limit = wanted at many' ended' ⊢
  have same := walks.same
  -- the walk has gone as far as either of the two counts
  have many' : l'.nodes.size = min (max sought wanted) C.nodes.length := by omega
  have ended' : l'.exhausted = true ↔ C.nodes.length < max sought wanted := by
    rw [ended', ended]
    omega
  have total : l'.found = C.count (max sought wanted) := by
    rw [found_of_walked stage' many' ended', count, undeclared]
  have grown : l.nodes.size ≤ l'.nodes.size := by omega
  have kept' : l'.kept = l.kept := by rw [same]
  refine ⟨total, kept', stage'.congr rfl rfl rfl rfl rfl rfl, ?_, ?_, ?_, ?_, ?_, rfl,
    fun _ => ⟨many', ended'⟩⟩
  · rw [same, undeclared]
    exact declared
  · rw [same]
  · rw [known]
    exact Nat.le_max_right _ _
  · rw [same]
    exact fresh
  · dsimp only
    rw [kept']
    exact kept.mono grown

/-- With one, the count is what was declared. -/
theorem shows_declared (stage : C.Stage l t) {size : Nat} (known : C.size = some size)
    (declared : l.size = C.size) (fresh : l.stale = false)
    (kept : C.KeptFrom ev l.nodes.size l.kept) {sought : Nat}
    (met : C.soughtUnder options l.limit ≤ sought) :
    C.Shows ev options l.limit sought { l with standing := some (.counted size) } t where
  stage := stage.congr rfl rfl rfl rfl rfl rfl
  declared := declared
  limited := rfl
  met := met
  fresh := fresh
  kept := kept
  counted := by
    unfold count nodeCount
    rw [known]
  walked undeclared := by
    rw [known] at undeclared
    cases undeclared

/-- The first count of a list. -/
theorem returns_settled_first (holds : C.Holds ev bound) (begins : C.Begins ev t) (limit : Nat) :
    Returns (NodeListing.settled ev options bound
        { context := C.context, rule := C.rule, limit }) t fun r t' =>
      r.1 = .counted (C.count (C.soughtUnder options limit)) ∧
        C.Shows ev options limit (C.soughtUnder options limit) r.2 t' := by
  obtain ⟨head, t₃, ⟨complete, t₁, t₂, applies, headed, sized⟩, h⟩ := begins
  have nothing : C.KeptFrom ev 0 [] := fun i row here => nomatch here
  -- the guard holds, and the head of the walk is found; the size is then declared, or told by
  -- walking
  have counts : Returns (NodeListing.count ev options bound
      { context := C.context, rule := C.rule, limit }) t₁ fun r t' =>
      r.1 = .ok (C.count (C.soughtUnder options limit)) ∧
        C.Shows ev options limit (C.soughtUnder options limit)
          { r.2 with standing := some (.counted (C.count (C.soughtUnder options limit))) } t' := by
    unfold NodeListing.count
    rw [complete]
    refine Returns.bind (P := fun r t => r = .ok head ∧ t = t₂)
      ⟨_, _, congrArg Except.ok headed, rfl, rfl⟩ ?_
    rintro r t ⟨rfl, rfl⟩
    dsimp only
    cases declared : C.rule.size.filter fun text => !Text.isBlankText text with
    | none =>
      rw [declared] at sized
      obtain ⟨undeclared, rfl⟩ := sized
      have start : C.Stage
          { context := C.context, rule := C.rule, limit, walk := some (.start head) } t₃ :=
        ⟨rfl, rfl, .going (.start head) C.nodes rfl rfl rfl rfl h⟩
      dsimp only
      refine (returns_walk_counted holds start undeclared rfl rfl nothing 0
        (Nat.zero_min _).symm (by simp)).bind ?_
      rintro l' t' ⟨total, -, shows_⟩
      dsimp only at total shows_
      rw [Nat.max_eq_right (Nat.zero_le _)] at total shows_
      exact returns_pure ⟨congrArg Except.ok total, shows_⟩
    | some text =>
      rw [declared] at sized
      obtain ⟨s, known, sized⟩ := sized
      have start : C.Stage
          { context := C.context, rule := C.rule, limit, walk := some (.start head), size := some s }
          t₃ := ⟨rfl, rfl, .going (.start head) C.nodes rfl rfl rfl rfl h⟩
      refine Returns.bind (P := fun r t => r = .ok s ∧ t = t₃)
        ⟨_, _, congrArg Except.ok sized, rfl, rfl⟩ ?_
      rintro r t ⟨rfl, rfl⟩
      have total : C.count (C.soughtUnder options limit) = s := by
        unfold count nodeCount
        rw [known]
      rw [total]
      exact returns_pure ⟨rfl, shows_declared start known known.symm rfl nothing (Nat.le_refl _)⟩
  unfold NodeListing.settled
  dsimp only
  unfold Standing.settle
  rw [bind_assoc]
  refine Returns.bind (P := fun r t => r = .ok true ∧ t = t₁)
    ⟨_, _, congrArg Except.ok applies, rfl, rfl⟩ ?_
  rintro r t ⟨rfl, rfl⟩
  dsimp only
  rw [bind_assoc]
  refine counts.bind ?_
  rintro ⟨result, l'⟩ t' ⟨rfl, shows_⟩
  exact returns_pure ⟨rfl, shows_⟩

/-- A list whose limit went up is counted again. -/
theorem Shows.returns_recounted {limit sought : Nat} (shows_ : C.Shows ev options limit sought l t)
    (holds : C.Holds ev bound) (more : Nat) :
    Returns (NodeListing.recounted ev options bound (.counted (C.count sought))
        { l with limit := more, stale := false }) t fun r t' =>
      let n := max sought (C.soughtUnder options more)
      r.1 = .counted (C.count n) ∧ r.2.kept = l.kept ∧
        C.Shows ev options more n { r.2 with standing := some r.1 } t' := by
  obtain ⟨stage, declared, -, -, -, kept, -, walked⟩ := shows_
  have start : C.Stage { l with limit := more, stale := false } t :=
    stage.congr rfl rfl rfl rfl rfl rfl
  unfold NodeListing.recounted
  dsimp only
  -- only a list without a declared size goes on with its walk
  cases size : C.size with
  | some s =>
    have known (n : Nat) : C.count n = s := by
      unfold count nodeCount
      rw [size]
    rw [if_neg (by simp [declared, size]), known, known]
    exact returns_pure ⟨rfl, rfl,
      shows_declared start size declared rfl kept (Nat.le_max_right _ _)⟩
  | none =>
    rw [size] at declared
    obtain ⟨rest, w, walking, -⟩ := stage.exists_ahead
    obtain ⟨many, ended⟩ := walked size
    rw [if_pos (by simp [Standing.isSound, declared, walking])]
    refine (returns_walk_counted holds start size declared rfl kept sought many ended).bind ?_
    rintro l' t' ⟨total, same, shows_⟩
    dsimp only at total same shows_
    rw [← total] at shows_ ⊢
    exact returns_pure ⟨rfl, same, shows_⟩

/-- A later count of a list, perhaps after its limit went up. -/
theorem Shows.returns_settled {limit sought : Nat} (shows_ : C.Shows ev options limit sought l t)
    (holds : C.Holds ev bound) (more : Nat) :
    Returns ((l.raised more).settled ev options bound) t fun r t' =>
      r.1 = .counted (C.count (max sought (C.soughtUnder options (max limit more)))) ∧
        C.Shows ev options (max limit more) (max sought (C.soughtUnder options (max limit more)))
          r.2 t' ∧ r.2.kept = l.kept := by
  have limited := shows_.limited
  have counted := shows_.counted
  unfold NodeListing.raised
  by_cases up : l.limit < more
  · rw [if_pos up]
    rw [limited] at up
    rw [Nat.max_eq_right (Nat.le_of_lt up)]
    unfold NodeListing.settled
    simp only [counted, Option.isSome_some, Bool.and_true, limited, up, decide_true, Bool.or_true,
      if_true]
    rw [← counted]
    refine (shows_.returns_recounted holds more).bind ?_
    rintro ⟨standing, l'⟩ t' ⟨rfl, same, shows'⟩
    exact returns_pure ⟨rfl, shows', same⟩
  · rw [if_neg up]
    rw [limited] at up
    rw [Nat.max_eq_left (by omega : more ≤ limit), Nat.max_eq_left shows_.met]
    have same := congrFun (NodeListing.settled_of_standing ev options bound counted shows_.fresh) t
    exact ⟨_, _, same, rfl, shows_, rfl⟩

/-- A list of nodes that may be asked: a new one, or one that was counted. -/
inductive Ready (C : Course σ ν) (ev : Evaluator σ ν) (options : Options) :
    Nat → Nat → NodeListing ν → σ → Prop
  | new {t : σ} (begins : C.Begins ev t) (limit : Nat) :
      Ready C ev options limit 0 { context := C.context, rule := C.rule, limit } t
  | counted {limit sought : Nat} {l : NodeListing ν} {t : σ}
      (h : C.Shows ev options limit sought l t) : Ready C ev options limit sought l t

/-- **A count looks for as many nodes as the greatest limit so far**. -/
theorem Ready.returns_settled {limit sought : Nat} (ready : C.Ready ev options limit sought l t)
    (holds : C.Holds ev bound) (more : Nat) :
    Returns ((l.raised more).settled ev options bound) t fun r t' =>
      r.1 = .counted (C.count (max sought (C.soughtUnder options (max limit more)))) ∧
        C.Shows ev options (max limit more) (max sought (C.soughtUnder options (max limit more)))
          r.2 t' ∧ KeepsOn l.kept r.2.kept := by
  cases ready with
  | new begins =>
    have same : NodeListing.raised more { context := C.context, rule := C.rule, limit } =
        { context := C.context, rule := C.rule, limit := max limit more } := by
      unfold NodeListing.raised
      dsimp only
      by_cases up : limit < more
      · rw [if_pos up, Nat.max_eq_right (Nat.le_of_lt up)]
        simp
      · rw [if_neg up, Nat.max_eq_left (by omega)]
    rw [same, Nat.max_eq_right (Nat.zero_le _)]
    exact (returns_settled_first holds begins _).mono fun r t' h =>
      ⟨h.1, h.2, fun i row here => nomatch here⟩
  | counted h =>
    refine (h.returns_settled holds more).mono fun r t' h' => ⟨h'.1, h'.2.1, ?_⟩
    rw [h'.2.2]
    exact fun i row here => here

/-! ## Windows -/

/-- A position of a window is before its end. -/
theorem lt_end_of_mem_windowOf {total start count i : Nat} (h : i ∈ windowOf total start count) :
    i < windowEnd start count := by
  unfold windowOf at h
  have inside := List.mem_range'_1.mp h
  omega

/-- Behind the last node there is the obstacle, or a row that says how many nodes
there are. -/
theorem getElem?_children_of_ended (stage : C.Stage l t) (declared : l.size = C.size)
    (exhausted : l.exhausted = true) (row : Nat → Variable ν) {sought i : Nat}
    (behind : C.nodes.length ≤ i) (inside : i < C.count sought) :
    (C.children row sought)[i]? = some (l.rowWithoutNode i) := by
  obtain ⟨many, failed⟩ := stage.of_exhausted exhausted
  unfold NodeListing.rowWithoutNode
  rw [many, failed, declared]
  unfold children
  unfold count at inside
  cases size : C.size with
  | none =>
    rw [size] at inside
    unfold nodeCount at inside
    -- there is only one such position, and only if there is an obstacle
    have only : i = C.nodes.length ∧ C.nodes.length < sought ∧ C.obstacle.isSome := by
      dsimp only at inside
      split at inside
      · rename_i h
        exact ⟨by omega, h⟩
      · omega
    obtain ⟨rfl, short, some⟩ := only
    obtain ⟨r, hr⟩ := Option.isSome_iff_exists.mp some
    unfold nodeChildren
    rw [hr, Nat.min_eq_right (Nat.le_of_lt short)]
    simp [short]
  | some s =>
    rw [size] at inside
    have inside : i < s := inside
    unfold nodeChildren
    rw [List.getElem?_map, List.getElem?_range inside]
    simp only [Option.map_some, Option.some.injEq]
    rw [if_neg (by omega)]
    by_cases last : i = C.nodes.length
    · rw [if_pos last, if_pos last]
      cases C.obstacle <;> rfl
    · rw [if_neg last, if_neg last]
      rfl

/-- The first children are those of nodes. -/
theorem getElem?_children_of_lt (row : Nat → Variable ν) {sought i : Nat}
    (within : i < C.nodes.length) (inside : i < C.count sought) :
    (C.children row sought)[i]? = some (row i) := by
  unfold children
  unfold count at inside
  cases size : C.size with
  | none =>
    rw [size] at inside
    unfold nodeCount at inside
    have first : i < min sought C.nodes.length := by
      dsimp only at inside
      split at inside <;> omega
    unfold nodeChildren
    rw [List.getElem?_append_left (by simpa using first), List.getElem?_map,
      List.getElem?_range first]
    rfl
  | some s =>
    rw [size] at inside
    have inside : i < s := inside
    unfold nodeChildren
    rw [List.getElem?_map, List.getElem?_range inside, Option.map_some, if_pos within]

theorem length_children (row : Nat → Variable ν) (sought : Nat) :
    (C.children row sought).length = C.count sought :=
  length_nodeChildren _ _ _ _ _

/-- The children in a window, when the nodes in it were found, or all nodes there
are. -/
theorem map_windowOf_eq_clip (stage : C.Stage l t) (declared : l.size = C.size)
    (row : Nat → Variable ν) {sought start many : Nat}
    (found : ∀ i ∈ windowOf (C.count sought) start many, i < l.nodes.size ∨ l.exhausted = true) :
    ((windowOf (C.count sought) start many).map fun i =>
      if i < l.nodes.size then row i else l.rowWithoutNode i) =
        clip start many (C.children row sought) := by
  have whole : C.children row sought = (C.children row sought).take (C.count sought) := by
    rw [← length_children row sought, List.take_length]
  rw [whole, ← filterMap_windowOf, ← List.filterMap_eq_map]
  refine List.filterMap_congr fun i hi => ?_
  have counted := lt_of_mem_windowOf hi
  dsimp only [Function.comp_apply]
  by_cases inside : i < l.nodes.size
  · have within : i < C.nodes.length := Nat.lt_of_lt_of_le inside stage.size_le
    rw [if_pos inside, getElem?_children_of_lt row within counted]
  · have ended : l.exhausted = true := (found i hi).resolve_left inside
    have all := (stage.of_exhausted ended).1
    rw [if_neg inside, getElem?_children_of_ended stage declared ended row (by omega) counted]

/-- Without a declared size there is nothing left to walk for after a count. -/
theorem walked_of_le_count {sought wanted : Nat} (undeclared : C.size = none)
    (le : wanted ≤ C.count sought) :
    min wanted C.nodes.length ≤ min sought C.nodes.length ∧
      (C.nodes.length < wanted → C.nodes.length < sought) := by
  unfold count nodeCount at le
  rw [undeclared] at le
  dsimp only at le
  split at le <;> omega

/-- **A window shows the children at its positions**, as they are told by the
rows that are kept afterwards. -/
theorem Ready.returns_rows {limit sought : Nat} (ready : C.Ready ev options limit sought l t)
    (holds : C.Holds ev bound) (more start many : Nat) :
    Returns ((l.raised more).rows ev options bound start many) t fun r t' =>
      C.Shows ev options (max limit more) (max sought (C.soughtUnder options (max limit more)))
        r.2 t' ∧ KeepsOn l.kept r.2.kept ∧
      ∀ row, Agrees row r.2.kept →
        r.1 = clip start many
          (C.children row (max sought (C.soughtUnder options (max limit more)))) := by
  unfold NodeListing.rows
  refine (ready.returns_settled holds more).bind ?_
  generalize max sought (C.soughtUnder options (max limit more)) = n
  rintro ⟨standing, l₁⟩ t₁ ⟨rfl, shows₁, on₁⟩
  obtain ⟨stage₁, declared, limited, met, fresh, kept, counted, walked⟩ := shows₁
  dsimp only at stage₁ declared limited fresh kept counted walked on₁ ⊢
  refine (returns_walkTo holds _ stage₁).bind ?_
  rintro l₂ t₂ ⟨walks, stage₂, many₂, ended₂⟩
  have same := walks.same
  have kept₂ : l₂.kept = l₁.kept := by rw [same]
  have declared₂ : l₂.size = C.size := by
    rw [same]
    exact declared
  -- a window of a counted list asks for no more nodes than the count looked for
  have walked₂ (undeclared : C.size = none) : l₂.nodes.size = min n C.nodes.length ∧
      (l₂.exhausted = true ↔ C.nodes.length < n) := by
    obtain ⟨many₁, ended₁⟩ := walked undeclared
    obtain ⟨enough, known⟩ := walked_of_le_count undeclared
      (Nat.min_le_right (windowEnd start many) (C.count n))
    refine ⟨by omega, ?_⟩
    rw [ended₂, ended₁]
    exact or_iff_left_of_imp known
  -- a position without a node is behind the end of the walk
  have found (i : Nat) (hi : i ∈ windowOf (C.count n) start many) :
      i < l₂.nodes.size ∨ l₂.exhausted = true := by
    have reached := lt_end_of_mem_windowOf hi
    have counted := lt_of_mem_windowOf hi
    rw [ended₂]
    omega
  have made : C.KeptFrom ev l₂.nodes.size l₂.kept := by
    rw [kept₂]
    exact kept.mono (by omega)
  refine ((returns_lift _ t₂).and
    (ensures_rowsAt holds stage₂ (windowOf (C.count n) start many) made)).bind ?_
  rintro ⟨rows, kept₃⟩ t₃ ⟨-, stage₃, made₃, on₃, told⟩
  dsimp only at made₃ on₃ told
  refine returns_pure ⟨⟨stage₃.congr rfl rfl rfl rfl rfl rfl, declared₂, ?_, met, ?_, made₃, ?_,
    walked₂⟩, fun i row here => ?_, fun row agrees => ?_⟩
  · rw [same]
    exact limited
  · rw [same]
    exact fresh
  · rw [same]
    exact counted
  · refine on₃ i row ?_
    rw [kept₂]
    exact on₁ i row here
  · dsimp only
    rw [told row agrees, map_windowOf_eq_clip stage₂ declared₂ row found]

end Course

end WatchView
