import WatchView.Proofs.Listing.NodeRows
/-!
# Trees are walked in order

A walk through a tree keeps a stack of the nodes whose left subtrees it is
in, and the node it visited last. That is all it takes to go on from any node
(`PointerTree.Rests`): the nodes on the stack, each with its right subtree
behind it, are what is left of the walk. So the nodes come in order, however
often the walk is left off and taken up again, and no pointer is followed
twice (`PointerTree.visited_in_order`).

`PointerTree.Answered` says what the debugger has to answer. It is told by
the pointers that were followed so far, so that it also says which they are.
-/

namespace WatchView

open Bounded

variable {σ ν : Type}

/-! ## Trees of pointers -/

/-- The pointers of a node. -/
inductive Side where
  | left
  | right
deriving DecidableEq

/-- A tree as it is reached from its root. Null pointers end its branches. -/
inductive PointerTree (ν : Type) where
  | null (pointer : Variable ν)
  | node (v : Variable ν) (left right : PointerTree ν)

namespace PointerTree

/-- The pointer to a tree. -/
def root : PointerTree ν → Variable ν
  | null pointer => pointer
  | node v _ _ => v

/-- The nodes from left to right. -/
def nodes : PointerTree ν → List (Variable ν)
  | null _ => []
  | node v left right => left.nodes ++ v :: right.nodes

/-- The pointers in the order in which they are needed: that to the left subtree
before its nodes, that to the right subtree when the node was visited. -/
def pointers : PointerTree ν → List (Variable ν × Side)
  | null _ => []
  | node v left right => (v, .left) :: left.pointers ++ (v, .right) :: right.pointers

/-- The greatest number of nodes on a branch. -/
def height : PointerTree ν → Nat
  | null _ => 0
  | node _ left right => max left.height right.height + 1

/-- Each node has its two pointers among them. -/
theorem perm_pointers (T : PointerTree ν) :
    T.pointers.Perm (T.nodes.flatMap fun v => [(v, .left), (v, .right)]) := by
  induction T with
  | null _ => exact .refl _
  | node v left right ihl ihr =>
    have moved : ((v, Side.left) :: left.pointers ++ (v, .right) :: right.pointers).Perm
        (left.pointers ++ (v, .left) :: (v, .right) :: right.pointers) :=
      List.perm_middle.symm
    rw [pointers, nodes, List.flatMap_append, List.flatMap_cons]
    exact moved.trans (ihl.append ((ihr.cons _).cons _))

/-! ## What the debugger answers -/

section

variable (ev : Evaluator σ ν) (scope : Scope (Variable ν)) (left right : String)
  (holds : List (Variable ν × Side) → σ → Prop)

/-- A pointer leads to a tree, in every state in which the answers hold; and that
it was followed is noted. -/
def LeadsTo (pointer : String) (side : Side) (v : Variable ν) (T : PointerTree ν) : Prop :=
  ∀ log t, holds log t → ∃ t', Walk.follow ev scope v pointer t = (.ok T.root, t') ∧
    holds (log ++ [(v, side)]) t'

/-- The debugger answers the pointers of a tree. -/
def Answered : PointerTree ν → Prop
  | null pointer => ∀ log t, holds log t → (pointer.facts ev.debugger.toInspector t).isNull = true
  | node v l r => (∀ log t, holds log t → (v.facts ev.debugger.toInspector t).isNull = false) ∧
    LeadsTo ev scope holds left .left v l ∧ LeadsTo ev scope holds right .right v r ∧
    Answered l ∧ Answered r

end

/-! ## What is left of a walk -/

/-- The nodes on the left edge, the lowest first, with their right subtrees. -/
def leftEdge : PointerTree ν → List (Variable ν × PointerTree ν)
  | null _ => []
  | node v left right => left.leftEdge ++ [(v, right)]

/-- The pointers on the left edge, as they are followed on the way down. -/
def leftPointers : PointerTree ν → List (Variable ν × Side)
  | null _ => []
  | node v left _ => (v, .left) :: left.leftPointers

/-- The nodes of a stack and their right subtrees. -/
def stackNodes (stack : List (Variable ν × PointerTree ν)) : List (Variable ν) :=
  stack.flatMap fun p => p.1 :: p.2.nodes

/-- The pointers to the right subtrees and those in them. -/
def stackPointers (stack : List (Variable ν × PointerTree ν)) : List (Variable ν × Side) :=
  stack.flatMap fun p => (p.1, .right) :: p.2.pointers

theorem stackNodes_leftEdge (T : PointerTree ν) : stackNodes T.leftEdge = T.nodes := by
  induction T with
  | null _ => rfl
  | node v left right ihl _ =>
    unfold stackNodes at ihl ⊢
    rw [leftEdge, List.flatMap_append, ihl, List.flatMap_singleton, nodes]

theorem leftPointers_append (T : PointerTree ν) :
    T.leftPointers ++ stackPointers T.leftEdge = T.pointers := by
  induction T with
  | null _ => rfl
  | node v left right ihl _ =>
    unfold stackPointers at ihl ⊢
    rw [leftEdge, leftPointers, List.flatMap_append, List.flatMap_singleton, List.cons_append,
      ← List.append_assoc, ihl, pointers]
    rfl

section

variable {ev : Evaluator σ ν} {scope : Scope (Variable ν)} {left right : String} {bound : Nat}
  {holds : List (Variable ν × Side) → σ → Prop}

variable (ev scope left right bound holds) in
/-- The trees to the right of nodes are answered and not too high. -/
def Open (stack : List (Variable ν × PointerTree ν)) : Prop :=
  ∀ p ∈ stack, LeadsTo ev scope holds right .right p.1 p.2 ∧
    p.2.Answered ev scope left right holds ∧ p.2.height < bound

variable (ev scope left right bound holds) in
/-- What is left of a walk: nodes, and the pointers that lead to them. -/
inductive Rests : Walk ν → List (Variable ν) → List (Variable ν × Side) → Prop
  /-- Everything, before a tree. -/
  | before (T : PointerTree ν) (answered : T.Answered ev scope left right holds)
      (low : T.height < bound) : Rests (.start T.root) T.nodes T.pointers
  /-- Behind a node, its right subtree and what is on the stack. -/
  | behind (v : Variable ν) (T : PointerTree ν) (stack : List (Variable ν × PointerTree ν))
      (open_ : Open ev scope left right bound holds ((v, T) :: stack)) :
      Rests { place := .behind v, stack := stack.map Prod.fst } (T.nodes ++ stackNodes stack)
        ((v, .right) :: T.pointers ++ stackPointers stack)
  /-- Nothing. -/
  | atEnd : Rests Walk.done [] []

theorem isNull_apply (v : Variable ν) (t : σ) :
    Walk.isNull ev v t = ((v.facts ev.debugger.toInspector t).isNull, t) := rfl

/-- **The way down the left edge**: its nodes come on the stack. -/
theorem returns_descend {T : PointerTree ν} (answered : T.Answered ev scope left right holds)
    {b : Nat} (low : T.height < b) (stack : List (Variable ν)) {log : List (Variable ν × Side)}
    {t : σ} (h : holds log t) :
    Returns (Walk.descend ev scope left b T.root stack) t fun r t' =>
      r = .ok (T.leftEdge.map Prod.fst ++ stack) ∧ holds (log ++ T.leftPointers) t' := by
  -- each step goes down to the left subtree, with its node on the stack
  induction T generalizing b stack log t with
  | null pointer =>
    obtain ⟨b, rfl⟩ := Nat.exists_eq_add_one.mpr low
    unfold Walk.descend
    refine Returns.bind (P := fun r s => r = true ∧ s = t)
      ⟨_, _, congrArg Except.ok (isNull_apply pointer t), answered log t h, rfl⟩ ?_
    rintro r s ⟨rfl, rfl⟩
    refine returns_pure ⟨rfl, ?_⟩
    rwa [leftPointers, List.append_nil]
  | node v l r ihl _ =>
    obtain ⟨b, rfl⟩ := Nat.exists_eq_add_one.mpr (Nat.zero_lt_of_lt low)
    obtain ⟨here, toLeft, -, answered', -⟩ := answered
    have low' : l.height < b := by
      unfold height at low
      omega
    obtain ⟨t', followed, h'⟩ := toLeft log t h
    unfold Walk.descend
    refine Returns.bind (P := fun r s => r = false ∧ s = t)
      ⟨_, _, congrArg Except.ok (isNull_apply v t), here log t h, rfl⟩ ?_
    rintro _ s ⟨rfl, rfl⟩
    refine Returns.bind (P := fun r s => r = .ok l.root ∧ s = t')
      ⟨_, _, congrArg Except.ok followed, rfl, rfl⟩ ?_
    rintro _ s ⟨rfl, rfl⟩
    refine (ihl answered' low' (v :: stack) h').mono ?_
    rintro result t'' ⟨rfl, h''⟩
    rw [leftEdge, leftPointers, List.map_append, List.append_assoc]
    exact ⟨rfl, by rwa [List.append_assoc] at h''⟩

theorem open_leftEdge {T : PointerTree ν} (answered : T.Answered ev scope left right holds)
    (low : T.height < bound) : Open ev scope left right bound holds T.leftEdge := by
  induction T with
  | null _ => exact List.forall_mem_nil _
  | node v l r ihl _ =>
    obtain ⟨-, -, toRight, answeredL, answeredR⟩ := answered
    unfold height at low
    have lowR : r.height < bound := by omega
    refine List.forall_mem_append.mpr ⟨ihl answeredL (by omega), fun p hp => ?_⟩
    obtain rfl := List.mem_singleton.mp hp
    exact ⟨toRight, answeredR, lowR⟩

/-- The node on top of a stack is the next one. -/
theorem rests_pop {stack : List (Variable ν × PointerTree ν)}
    (open_ : Open ev scope left right bound holds stack) :
    (Walk.pop (stack.map Prod.fst)).1 = (stackNodes stack).head? ∧
      Rests ev scope left right bound holds (Walk.pop (stack.map Prod.fst)).2
        (stackNodes stack).tail (stackPointers stack) := by
  cases stack with
  | nil => exact ⟨rfl, .atEnd⟩
  | cons p stack => exact ⟨rfl, .behind p.1 p.2 stack open_⟩

/-- From a tree and the stack below it, the leftmost node is the next one. -/
theorem returns_visitLeftmost {T : PointerTree ν} (answered : T.Answered ev scope left right holds)
    (low : T.height < bound) {stack : List (Variable ν × PointerTree ν)}
    (open_ : Open ev scope left right bound holds stack) {log : List (Variable ν × Side)} {t : σ}
    (h : holds log t) :
    Returns (Walk.visitLeftmost ev scope bound left T.root (stack.map Prod.fst)) t fun r t' =>
      r.1 = .ok (T.nodes ++ stackNodes stack).head? ∧ ∃ followed rest,
        followed ++ rest = T.pointers ++ stackPointers stack ∧ holds (log ++ followed) t' ∧
        Rests ev scope left right bound holds r.2 (T.nodes ++ stackNodes stack).tail rest := by
  unfold Walk.visitLeftmost
  refine (returns_descend answered low _ h).bind ?_
  rintro _ t' ⟨rfl, h'⟩
  have both : Open ev scope left right bound holds (T.leftEdge ++ stack) :=
    List.forall_mem_append.mpr ⟨open_leftEdge answered low, open_⟩
  have nodes_eq : stackNodes (T.leftEdge ++ stack) = T.nodes ++ stackNodes stack := by
    rw [← stackNodes_leftEdge T]
    exact List.flatMap_append
  have pointers_eq : T.leftPointers ++ stackPointers (T.leftEdge ++ stack) =
      T.pointers ++ stackPointers stack := by
    rw [← leftPointers_append T, List.append_assoc]
    exact congrArg _ List.flatMap_append
  obtain ⟨next, rests⟩ := rests_pop both
  rw [nodes_eq] at next rests
  dsimp only
  rw [← List.map_append]
  exact returns_pure ⟨congrArg Except.ok next, T.leftPointers, _, pointers_eq, h', rests⟩

/-- **One step of a walk**: the next of the nodes that are left, if there is one,
and some of the pointers that are left were followed. -/
theorem Rests.returns_next {w : Walk ν} {ns : List (Variable ν)} {ps : List (Variable ν × Side)}
    (rests : Rests ev scope left right bound holds w ns ps) {log : List (Variable ν × Side)} {t : σ}
    (h : holds log t) :
    Returns (w.next ev scope bound (.tree left right)) t fun r t' =>
      r.1 = .ok ns.head? ∧ ∃ followed rest, followed ++ rest = ps ∧ holds (log ++ followed) t' ∧
        Rests ev scope left right bound holds r.2 ns.tail rest := by
  unfold Walk.next Walk.nextOfTree
  cases rests with
  | atEnd => exact returns_pure ⟨rfl, [], [], rfl, by rwa [List.append_nil], .atEnd⟩
  | before T answered low =>
    -- the walk begins like one from a right subtree with nothing on the stack
    have empty : Open ev scope left right bound holds [] := List.forall_mem_nil _
    have leftmost := returns_visitLeftmost answered low empty h
    have nothing : T.nodes ++ stackNodes [] = T.nodes := List.append_nil _
    have nothing' : T.pointers ++ stackPointers [] = T.pointers := List.append_nil _
    rw [nothing, nothing'] at leftmost
    exact leftmost
  | behind v T stack open_ =>
    obtain ⟨⟨toRight, answered, low⟩, others⟩ := List.forall_mem_cons.mp open_
    obtain ⟨t₁, followed, h₁⟩ := toRight log t h
    refine Returns.bind (P := fun r s => r = .ok T.root ∧ s = t₁)
      ⟨_, _, congrArg Except.ok followed, rfl, rfl⟩ ?_
    rintro _ s ⟨rfl, rfl⟩
    refine (returns_visitLeftmost answered low others h₁).mono ?_
    rintro r t' ⟨next, ps₁, rest, cut, h', rests⟩
    refine ⟨next, (v, .right) :: ps₁, rest, congrArg (List.cons _) cut, ?_, rests⟩
    rwa [List.append_assoc] at h'

end

end PointerTree

/-! ## Walks that are left off and taken up again -/

/-- Ask a walk for its next node so many times. Behind each, other work is done. -/
def Walk.nextTimes (ev : Evaluator σ ν) (scope : Scope (Variable ν)) (bound : Nat) (links : Links)
    (other : Nat → StateM σ Unit) :
    Nat → Walk ν → Bounded σ (List (Except EvalError (Option (Variable ν))) × Walk ν)
  | 0, w => pure ([], w)
  | more + 1, w => do
    let (r, w) ← w.next ev scope bound links
    other more
    let (rs, w) ← nextTimes ev scope bound links other more w
    pure (r :: rs, w)

namespace PointerTree

/-- The answers to so many questions for the next of these nodes. -/
def nexts (ns : List (Variable ν)) (k : Nat) : List (Except EvalError (Option (Variable ν))) :=
  (ns.take k).map (fun n => .ok (some n)) ++ List.replicate (k - ns.length) (.ok none)

theorem nexts_succ (ns : List (Variable ν)) (k : Nat) :
    nexts ns (k + 1) = .ok ns.head? :: nexts ns.tail k := by
  cases ns with
  | nil => simp [nexts, List.replicate_succ]
  | cons n ns => simp [nexts]

section

variable {ev : Evaluator σ ν} {scope : Scope (Variable ν)} {left right : String} {bound : Nat}
  {holds : List (Variable ν × Side) → σ → Prop}

/-- **A whole run of a walk**: the nodes that are left, in order, and then none. -/
theorem Rests.returns_nextTimes {other : Nat → StateM σ Unit}
    (stays : ∀ k log t, holds log t → holds log (other k t).2) (k : Nat) {w : Walk ν}
    {ns : List (Variable ν)} {ps : List (Variable ν × Side)}
    (rests : Rests ev scope left right bound holds w ns ps) {log : List (Variable ν × Side)} {t : σ}
    (h : holds log t) :
    Returns (w.nextTimes ev scope bound (.tree left right) other k) t fun r t' =>
      r.1 = nexts ns k ∧ ∃ followed rest, followed ++ rest = ps ∧ holds (log ++ followed) t' := by
  induction k generalizing w ns ps log t with
  | zero =>
    refine returns_pure ⟨?_, [], ps, rfl, by rwa [List.append_nil]⟩
    unfold nexts
    rw [List.take_zero, Nat.zero_sub]
    rfl
  | succ k ih =>
    -- what the steps followed adds up to a first part of the pointers that were left
    unfold Walk.nextTimes
    refine (rests.returns_next h).bind ?_
    rintro ⟨r, w'⟩ t₁ ⟨rfl, ps₁, ps', rfl, h₁, rests'⟩
    refine Returns.bind (P := fun _ t => holds (log ++ ps₁) t)
      ⟨_, _, rfl, stays k _ t₁ h₁⟩ ?_
    intro _ t₂ h₂
    refine (ih rests' h₂).bind ?_
    rintro ⟨rs, w''⟩ t' ⟨rfl, ps₂, rest, rfl, h'⟩
    refine returns_pure ⟨(nexts_succ ns k).symm, ps₁ ++ ps₂, rest, List.append_assoc _ _ _, ?_⟩
    rwa [← List.append_assoc]

end

/-! ## The listing of a tree -/

/-- The course of a walk through a tree: what is left of it, and what was followed
before. -/
def course (T : PointerTree ν) (ev : Evaluator σ ν) (bound : Nat) (c : Context ν) (rule : NodeRule)
    (size : Option Nat) (left right : String) (holds : List (Variable ν × Side) → σ → Prop) :
    Course σ ν where
  context := c
  rule := rule
  size := size
  nodes := T.nodes
  failure := none
  ahead rest w t := ∃ log ps, log ++ ps = T.pointers ∧ holds log t ∧
    Rests ev c.scope left right bound holds w (rest.getD []) ps

variable {T : PointerTree ν} {ev : Evaluator σ ν} {bound : Nat} {c : Context ν} {rule : NodeRule}
  {size : Option Nat} {left right : String} {holds : List (Variable ν × Side) → σ → Prop}

/-- One step along the course: the next of the nodes that are left, and the others stay
ahead. -/
theorem returns_next_course (links : rule.links = .tree left right) {ns : List (Variable ν)}
    {w : Walk ν} {t : σ} (h : (T.course ev bound c rule size left right holds).ahead (some ns) w t) :
    Returns (w.next ev c.scope bound rule.links) t fun r t' =>
      r.1 = .ok ns.head? ∧ ∀ rest : Option (List (Variable ν)), rest.getD [] = ns.tail →
        (T.course ev bound c rule size left right holds).ahead rest r.2 t' := by
  obtain ⟨log, ps, cut, h, rests⟩ := h
  rw [links]
  refine (rests.returns_next h).mono ?_
  rintro r t' ⟨next, ps₁, ps', rfl, h', rests'⟩
  refine ⟨next, fun rest left => ?_⟩
  exact ⟨log ++ ps₁, ps', (List.append_assoc _ _ _).trans cut, h', by rwa [left]⟩

theorem holds_course (links : rule.links = .tree left right)
    (rows : ∀ i n log t, T.nodes[i]? = some n → holds log t →
      holds log (NodeListing.nodeRow ev c rule.valueNode n i t).2) :
    (T.course ev bound c rule size left right holds).Holds ev bound where
  node {n ns w t} h := by
    refine (returns_next_course links h).mono ?_
    rintro r t' ⟨next, later⟩
    exact ⟨next, later (some ns) rfl⟩
  last {w t} h := by
    refine (returns_next_course links h).mono ?_
    rintro r t' ⟨next, later⟩
    exact ⟨next, later none rfl⟩
  row {i n rest w t} node h := by
    obtain ⟨log, ps, cut, h, rests⟩ := h
    exact ⟨log, ps, cut, rows i n log t node h, rests⟩

/-- Wherever the walk is, what was found are the first nodes, and what was followed
are the first pointers. -/
theorem prefixes_of_stage {l : NodeListing ν} {t : σ}
    (stage : (T.course ev bound c rule size left right holds).Stage l t) :
    l.nodes.toList <+: T.nodes ∧ ∃ log, log <+: T.pointers ∧ holds log t := by
  have found : l.nodes.toList <+: T.nodes := by
    cases stage.point with
    | going w rest _ found => exact ⟨rest, found⟩
    | ended w _ found =>
      rw [found]
      exact List.prefix_refl _
  obtain ⟨rest, w, -, log, ps, cut, h, -⟩ := stage.exists_ahead
  exact ⟨found, log, ⟨ps, cut⟩, h⟩

/-- **The nodes of a tree come in order, each once.** Let the debugger answer the
pointers of a tree, which is not too high for the bound. Then a walk that is
asked again and again, whatever else is done in between, comes to its nodes
from left to right and then to none; and the list of the nodes, asked for any
counts and windows under any limits, shows rows of these nodes and has found
the first of them. All pointers that were followed since the walk began are the
first of `T.pointers`, where each node of the tree has one to the left and one
to the right. -/
theorem visited_in_order (T : PointerTree ν) (engine : Engine σ ν) (reach : Reach σ ν)
    (c : Context ν) {left right : String} {holds : List (Variable ν × Side) → σ → Prop}
    (answered : T.Answered engine.evaluator c.scope left right holds)
    (low : T.height < reach.bound) :
    (∀ other : Nat → StateM σ Unit, (∀ k log t, holds log t → holds log (other k t).2) →
      ∀ k t, holds [] t →
        Returns ((Walk.start T.root).nextTimes engine.evaluator c.scope reach.bound
            (.tree left right) other k) t fun r t' =>
          r.1 = nexts T.nodes k ∧ ∃ log, log <+: T.pointers ∧ holds log t') ∧
    (∀ rule size, rule.links = .tree left right →
      (∀ i n log t, T.nodes[i]? = some n → holds log t →
        holds log (NodeListing.nodeRow engine.evaluator c rule.valueNode n i t).2) →
      ∀ s t, Opens engine.evaluator c rule size T.root s.target t → holds [] t → ∀ limit rs,
        ∃ row : Nat → Variable ν,
          (∀ i n, T.nodes[i]? = some n →
            ∃ t, row i = (NodeListing.nodeRow engine.evaluator c rule.valueNode n i t).1) ∧
          Returns (NodeRequest.askAll engine reach rs (.nodes { context := c, rule, limit })) s
            fun r s' =>
              r.1 = (T.course engine.evaluator reach.bound c rule size left right holds).answers
                engine.options row limit 0 rs ∧
              ∃ l, r.2 = .nodes l ∧ l.nodes.toList <+: T.nodes ∧
                (l.walk.isSome → ∃ log, log <+: T.pointers ∧ holds log s'.target)) ∧
    T.pointers.Perm (T.nodes.flatMap fun v => [(v, .left), (v, .right)]) := by
  refine ⟨fun other stays k t h => ?_, fun rule size links rows s t opens h limit rs => ?_,
    T.perm_pointers⟩
  · refine ((Rests.before T answered low).returns_nextTimes stays k h).mono ?_
    rintro r t' ⟨came, log, ps, cut, h'⟩
    exact ⟨came, log, ⟨ps, cut⟩, h'⟩
  · let C := T.course engine.evaluator reach.bound c rule size left right holds
    have takes : C.Holds engine.evaluator reach.bound := holds_course links rows
    have begins : C.Begins engine.evaluator s.target :=
      ⟨T.root, t, opens, [], T.pointers, rfl, h, .before T answered low⟩
    obtain ⟨r, s', asked, l, limit', sought', there, ready, -, told⟩ :=
      Course.Ready.returns_askAll takes rs (.new begins limit)
    obtain ⟨row, agrees, made⟩ := ready.exists_rows begins
    refine ⟨row, fun i n node => ?_, r, s', asked, told row agrees, l, there, ?_⟩
    · obtain ⟨n', rest, w, t', node', -, here⟩ := made i (List.getElem?_eq_some_iff.mp node).1
      cases node.symm.trans node'
      exact ⟨t', here⟩
    · cases ready with
      -- a list that was asked nothing has begun no walk
      | new begins => exact ⟨List.nil_prefix, fun begun => nomatch begun⟩
      | counted shows_ =>
        obtain ⟨found, followed⟩ := prefixes_of_stage shows_.stage
        exact ⟨found, fun _ => followed⟩

end PointerTree

namespace Fork

/-- The expressions of the pointers. -/
def spelling : Side → String
  | .left => "left"
  | .right => "right"

/-- The pointers of the nodes. The root is 2, its children are 1 and 3, and the null
pointer is 0. -/
def pointer (n : Nat) : Side → Nat
  | .left => if n = 2 then 1 else 0
  | .right => if n = 2 then 3 else 0

/-- A debugger with these nodes. Its state notes the pointers that are followed. -/
def debugger : Debugger (List (Variable Nat × Side)) Nat where
  facts _ n :=
    { name := "it", typeName := "It", isTruthy := true, isNull := n == 0, hierarchy := [] }
  pointee? _ _ := none
  snapshot? _ _ _ := none
  text _ _ _ := "it"
  mightHaveChildren _ _ := false
  children _ _ := []
  fast target e _ _ := fun log =>
    if e.value = "root" then (.ok 2, log)
    else
      let side := if e.value = spelling .left then Side.left else .right
      (.ok (pointer (target.handle?.getD 0) side), log ++ [(target, side)])
  full _ _ _ := pure (.error "")
  path _ _ := pure none

/-- The engine. -/
def engine : Engine (List (Variable Nat × Side)) Nat := ⟨debugger, {}⟩

/-- A session in which no pointer was followed. -/
def session : Session (List (Variable Nat × Side)) Nat where
  target := []
  book := { catalogue := {} }

/-- A node without children. -/
def leaf (n : Nat) : PointerTree Nat :=
  .node (.debugger n) (.null (.debugger 0)) (.null (.debugger 0))

/-- The tree. -/
def tree : PointerTree Nat := .node (.debugger 2) (leaf 1) (leaf 3)

/-- The rule that shows it. -/
def rule : NodeRule where
  head := "root"
  links := .tree "left" "right"
  valueNode := some { value := "this" }

/-- The state is what was noted. -/
def Noted (log t : List (Variable Nat × Side)) : Prop := t = log

theorem leadsTo (side : Side) {n : Nat} {T : PointerTree Nat}
    (there : T.root = .debugger (pointer n side)) :
    PointerTree.LeadsTo engine.evaluator {} Noted (spelling side) side (.debugger n) T := by
  rintro _ t rfl
  refine ⟨_, ?_, rfl⟩
  rw [there]
  cases side with
  | left => exact Walk.follow_of_fast rfl (by decide +kernel) rfl rfl
  | right => exact Walk.follow_of_fast rfl (by decide +kernel) rfl rfl

theorem answered : tree.Answered engine.evaluator {} "left" "right" Noted := by
  have null : (PointerTree.null (.debugger 0)).Answered engine.evaluator {} "left" "right" Noted :=
    fun _ _ _ => rfl
  have leaves (n : Nat) (other : n ≠ 2) (some : n ≠ 0) :
      (leaf n).Answered engine.evaluator {} "left" "right" Noted := by
    refine ⟨fun _ _ _ => beq_false_of_ne some, leadsTo .left ?_, leadsTo .right ?_, null, null⟩
    · rw [pointer, if_neg other]
      rfl
    · rw [pointer, if_neg other]
      rfl
  exact ⟨fun _ _ _ => rfl, leadsTo .left rfl, leadsTo .right rfl,
    leaves 1 (by decide) (by decide), leaves 3 (by decide) (by decide)⟩

theorem opens : Opens engine.evaluator ⟨.debugger 2, {}⟩ rule none tree.root
    session.target session.target := by
  have head : Walk.follow engine.evaluator {} (.debugger 2) "root" [] = (.ok (.debugger 2), []) :=
    Walk.follow_of_fast rfl (by decide +kernel) rfl rfl
  exact opens_of_follow (by decide +kernel) rfl rfl (by decide +kernel) (by decide +kernel) head

/-- The walk comes to 1, 2 and 3. The list has three rows, also if the last two are
shown before the first. -/
theorem visited :
    (∃ w log, (Walk.start tree.root).nextTimes engine.evaluator {} (engine.reach 4).bound
        (.tree "left" "right") (fun _ => pure ()) 5 [] =
      .ok (([.ok (some (.debugger 1)), .ok (some (.debugger 2)), .ok (some (.debugger 3)),
        .ok none, .ok none], w), log) ∧ log <+: tree.pointers) ∧
    ∃ (row : Nat → Variable Nat) (l : Listing Nat) (s' : Session (List (Variable Nat × Side)) Nat),
      NodeRequest.askAll engine (engine.reach 4) [.count 9, .rows 9 1 2, .rows 9 0 1]
        (.nodes { context := ⟨.debugger 2, {}⟩, rule }) session =
      .ok (([.count 3, .rows [row 1, row 2], .rows [row 0]], l), s') := by
  obtain ⟨walks, lists, -⟩ := PointerTree.visited_in_order tree engine (engine.reach 4)
    ⟨.debugger 2, {}⟩ answered (by decide)
  constructor
  · obtain ⟨⟨_, w⟩, t, asked, rfl, log, first, rfl⟩ :=
      walks (fun _ => pure ()) (fun _ _ _ h => h) 5 [] rfl
    exact ⟨w, _, asked, first⟩
  · obtain ⟨row, -, ⟨_, l⟩, s', asked, rfl, -⟩ := lists rule none rfl (fun _ _ _ _ _ h => h)
      session [] opens rfl 0 [.count 9, .rows 9 1 2, .rows 9 0 1]
    exact ⟨row, l, s', asked⟩

end Fork

end WatchView
