import WatchView.Proofs.Listing.InOrder
/-!
# The pointers a walk follows

A node of a walk is told from the others by its route: the pointers that lead to
it from the head. `Walk.Advances` says which pointers are followed to come to
the next node. No walk follows a pointer twice, however often it is left off and
taken up again (`Routes.Clear.advances`): the pointers it is still to follow all
lie in parts of the tree where it has not been.

A linked list is walked like a tree that has only right pointers.
-/

namespace WatchView

open Bounded

variable {σ ν : Type}

/-- The pointers that lead from the head to a node, the last one first. The
pointer itself has the route of the node it leads to. -/
abbrev Route := List Side

/-- The routes to the nodes of a walk: to the one it is at, and to those on its
stack. -/
structure Routes where
  here : Route := []
  stack : List Route := []

namespace Walk

/-! ## Following pointers -/

/-- `Descends ev scope left node route stack routes t followed result t'`: on the
way down the left edge from a node, these pointers are followed. -/
inductive Descends (ev : Evaluator σ ν) (scope : Scope (Variable ν)) (left : String) :
    Variable ν → Route → List (Variable ν) → List Route → σ → List Route →
      Except EvalError (List (Variable ν) × List Route) → σ → Prop
  /-- A null pointer ends the way. -/
  | null {node : Variable ν} {route : Route} {stack : List (Variable ν)} {routes : List Route}
      {t : σ} (null : (node.facts ev.debugger.toInspector t).isNull = true) :
      Descends ev scope left node route stack routes t [] (.ok (stack, routes)) t
  /-- So does a pointer that cannot be followed. -/
  | fails {node : Variable ν} {route : Route} {stack : List (Variable ν)} {routes : List Route}
      {t t' : σ} {e : EvalError}
      (there : (node.facts ev.debugger.toInspector t).isNull = false)
      (failed : follow ev scope node left t = (.error e, t')) :
      Descends ev scope left node route stack routes t [.left :: route] (.error e) t'
  /-- Otherwise it goes on from the left child. -/
  | down {node child : Variable ν} {route : Route} {stack : List (Variable ν)}
      {routes followed : List Route} {t t' t'' : σ}
      {r : Except EvalError (List (Variable ν) × List Route)}
      (there : (node.facts ev.debugger.toInspector t).isNull = false)
      (led : follow ev scope node left t = (.ok child, t'))
      (others : Descends ev scope left child (.left :: route) (node :: stack) (route :: routes) t'
        followed r t'') :
      Descends ev scope left node route stack routes t ((.left :: route) :: followed) r t''

/-- `Departs ev scope pointer place route t followed result t'`: a walk sets out
for its next node, from the head or behind the node it visited last. -/
inductive Departs (ev : Evaluator σ ν) (scope : Scope (Variable ν)) (pointer : String) :
    Place ν → Route → σ → List Route → Except EvalError (Variable ν × Route) → σ → Prop
  /-- Nothing is followed to come to the head. -/
  | before {node : Variable ν} {route : Route} {t : σ} :
      Departs ev scope pointer (.before node) route t [] (.ok (node, route)) t
  | fails {node : Variable ν} {route : Route} {t t' : σ} {e : EvalError}
      (failed : follow ev scope node pointer t = (.error e, t')) :
      Departs ev scope pointer (.behind node) route t [.right :: route] (.error e) t'
  | leads {node next : Variable ν} {route : Route} {t t' : σ}
      (led : follow ev scope node pointer t = (.ok next, t')) :
      Departs ev scope pointer (.behind node) route t [.right :: route]
        (.ok (next, .right :: route)) t'

/-- The pointer behind a node that was visited. -/
def onward : Links → String
  | .list next => next
  | .tree _ right => right

/-- The routes of a walk that visits the node on top of its stack. -/
def popRoutes : List Route → Routes
  | [] => {}
  | route :: routes => ⟨route, routes⟩

/-- `Advances ev scope links w R t followed result w' R' t'`: to come to its next
node, a walk follows these pointers. -/
inductive Advances (ev : Evaluator σ ν) (scope : Scope (Variable ν)) :
    Links → Walk ν → Routes → σ → List Route → Except EvalError (Option (Variable ν)) →
      Walk ν → Routes → σ → Prop
  /-- A list that has come to its end stays there. -/
  | rests {next : String} {w : Walk ν} {R : Routes} {t : σ} (nowhere : w.place = .nowhere) :
      Advances ev scope (.list next) w R t [] (.ok none) w R t
  /-- In a tree, the node on top of the stack is visited. -/
  | pops {left right : String} {w : Walk ν} {R : Routes} {t : σ} (nowhere : w.place = .nowhere) :
      Advances ev scope (.tree left right) w R t [] (.ok (pop w.stack).1) (pop w.stack).2
        (popRoutes R.stack) t
  /-- A pointer that cannot be followed ends the walk. -/
  | lost {links : Links} {w : Walk ν} {R : Routes} {t t' : σ} {followed : List Route} {e : EvalError}
      (departs : Departs ev scope (onward links) w.place R.here t followed (.error e) t') :
      Advances ev scope links w R t followed (.error e) done {} t'
  /-- The next node of a list, unless it is null. -/
  | visits {next : String} {w w' : Walk ν} {R : Routes} {t t' t'' : σ} {followed : List Route}
      {node : Variable ν} {route : Route} {r : Except EvalError (Option (Variable ν))}
      (departs : Departs ev scope next w.place R.here t followed (.ok (node, route)) t')
      (visited : visit ev node t' = ((r, w'), t'')) :
      Advances ev scope (.list next) w R t followed r w' ⟨route, []⟩ t''
  /-- In a tree, the way down may fail. -/
  | falls {left right : String} {w : Walk ν} {R : Routes} {t t' t'' : σ}
      {followed followed' : List Route} {node : Variable ν} {route : Route} {e : EvalError}
      (departs : Departs ev scope right w.place R.here t followed (.ok (node, route)) t')
      (descends : Descends ev scope left node route w.stack R.stack t' followed' (.error e) t'') :
      Advances ev scope (.tree left right) w R t (followed ++ followed') (.error e) done {} t''
  /-- Or it leads to the leftmost node. -/
  | reaches {left right : String} {w : Walk ν} {R : Routes} {t t' t'' : σ}
      {followed followed' : List Route} {node : Variable ν} {route : Route}
      {stack : List (Variable ν)} {routes : List Route}
      (departs : Departs ev scope right w.place R.here t followed (.ok (node, route)) t')
      (descends : Descends ev scope left node route w.stack R.stack t' followed'
        (.ok (stack, routes)) t'') :
      Advances ev scope (.tree left right) w R t (followed ++ followed') (.ok (pop stack).1)
        (pop stack).2 (popRoutes routes) t''

section

variable {ev : Evaluator σ ν} {scope : Scope (Variable ν)}

/-- The way down follows pointers. -/
theorem ensures_descends (left : String) (bound : Nat) (node : Variable ν) (route : Route)
    (stack : List (Variable ν)) (routes : List Route) (t : σ) :
    Ensures (descend ev scope left bound node stack) t fun r t' =>
      ∃ followed r', Descends ev scope left node route stack routes t followed r' t' ∧
        r'.map Prod.fst = r := by
  induction bound generalizing node route stack routes t with
  | zero => exact ensures_unfinished
  | succ bound ih =>
    rw [descend, ensures_bind_iff]
    refine ensures_lift_iff.mpr ?_
    show Ensures (if (node.facts ev.debugger.toInspector t).isNull = true then _ else _) t _
    by_cases null : (node.facts ev.debugger.toInspector t).isNull = true
    · rw [if_pos null]
      exact ensures_pure_iff.mpr ⟨[], _, .null null, rfl⟩
    · rw [if_neg null]
      rw [Bool.not_eq_true] at null
      refine ensures_bind_iff.mpr (ensures_lift_iff.mpr ?_)
      rcases led : follow ev scope node left t with ⟨e | child, t'⟩
      · exact ensures_pure_iff.mpr ⟨_, _, .fails null led, rfl⟩
      · refine (ih child (.left :: route) (node :: stack) (route :: routes) t').mono ?_
        rintro r t'' ⟨followed, r', descends, rfl⟩
        exact ⟨_, r', .down null led descends, rfl⟩

theorem ensures_visitLeftmost_advances {left right : String} {w : Walk ν} {R : Routes} {t t' : σ}
    {followed : List Route} {node : Variable ν} {route : Route}
    (departs : Departs ev scope right w.place R.here t followed (.ok (node, route)) t')
    (bound : Nat) :
    Ensures (visitLeftmost ev scope bound left node w.stack) t' fun r t'' =>
      ∃ all R', Advances ev scope (.tree left right) w R t all r.1 r.2 R' t'' := by
  unfold visitLeftmost
  refine (ensures_descends left bound node route w.stack R.stack t').bind ?_
  rintro r t'' ⟨followed', r', descends, rfl⟩
  rcases r' with e | ⟨stack, routes⟩
  · exact ensures_pure_iff.mpr ⟨_, _, .falls departs descends⟩
  · exact ensures_pure_iff.mpr ⟨_, _, .reaches departs descends⟩

/-- **To come to the next node, a walk follows pointers.** -/
theorem ensures_advances (bound : Nat) (links : Links) (w : Walk ν) (R : Routes) (t : σ) :
    Ensures (next ev scope bound links w) t fun r t' =>
      ∃ followed R', Advances ev scope links w R t followed r.1 r.2 R' t' := by
  -- a list follows its pointer; a tree goes right and then down, or back to where it came from
  cases links with
  | list pointer =>
    unfold next nextOfList
    cases place : w.place with
    | nowhere => exact ensures_lift_pure_iff.mpr ⟨[], R, .rests place⟩
    | before node =>
      have departs : Departs ev scope pointer w.place R.here t [] (.ok (node, R.here)) t := by
        rw [place]
        exact .before
      exact ensures_lift_iff.mpr ⟨[], _, .visits departs rfl⟩
    | behind node =>
      refine ensures_lift_bind_iff.mpr (ensures_lift_iff.mpr ?_)
      rcases led : follow ev scope node pointer t with ⟨e | next, t'⟩
      · have departs : Departs ev scope pointer w.place R.here t [.right :: R.here] (.error e) t' := by
          rw [place]
          exact .fails led
        exact ensures_lift_pure_iff.mpr ⟨_, _, .lost departs⟩
      · have departs : Departs ev scope pointer w.place R.here t [.right :: R.here]
            (.ok (next, .right :: R.here)) t' := by
          rw [place]
          exact .leads led
        exact ensures_lift_iff.mpr ⟨_, _, .visits departs rfl⟩
  | tree left right =>
    unfold next nextOfTree
    dsimp only
    cases place : w.place with
    | nowhere => exact ensures_pure_iff.mpr ⟨[], _, .pops place⟩
    | before node =>
      have departs : Departs ev scope right w.place R.here t [] (.ok (node, R.here)) t := by
        rw [place]
        exact .before
      exact ensures_visitLeftmost_advances departs bound
    | behind node =>
      refine ensures_bind_iff.mpr (ensures_lift_iff.mpr ?_)
      rcases led : follow ev scope node right t with ⟨e | next, t'⟩
      · have departs : Departs ev scope right w.place R.here t [.right :: R.here] (.error e) t' := by
          rw [place]
          exact .fails led
        exact ensures_pure_iff.mpr ⟨_, _, .lost departs⟩
      · have departs : Departs ev scope right w.place R.here t [.right :: R.here]
            (.ok (next, .right :: R.here)) t' := by
          rw [place]
          exact .leads led
        exact ensures_visitLeftmost_advances departs bound

end

end Walk

/-! ## Where a walk has not been -/

/-- No pointer was followed in the part of the tree behind a pointer, nor this
pointer itself. -/
def Fresh (followed : List Route) (r : Route) : Prop := ∀ f ∈ followed, ¬ r <:+ f

/-- Neither of two parts of the tree lies in the other. -/
def Apart (a b : Route) : Prop := ¬ a <:+ b ∧ ¬ b <:+ a

/-- The right subtrees of these nodes are still to be visited, and lie apart. -/
structure Pending (followed : List Route) (nodes : List Route) : Prop where
  nodup : followed.Nodup
  fresh : ∀ s ∈ nodes, Fresh followed (.right :: s)
  apart : nodes.Pairwise fun a b => Apart (.right :: a) (.right :: b)

/-- A walk that has come to a node for the first time: nothing was followed beyond
it. -/
structure Arrived (followed : List Route) (r : Route) (nodes : List Route) : Prop where
  pending : Pending followed nodes
  beyond : ∀ f ∈ followed, r <:+ f → f = r
  apart : ∀ s ∈ nodes, Apart r (.right :: s)

variable {followed nodes : List Route} {r : Route}

theorem suffix_of_cons_suffix {a : Side} {s f : Route} (h : a :: s <:+ f) : s <:+ f :=
  (List.suffix_cons a s).trans h

theorem not_cons_suffix_self (a : Side) (s : Route) : ¬ a :: s <:+ s := by
  intro h
  have le := h.length_le
  rw [List.length_cons] at le
  omega

/-- Nothing was followed beyond the children of such a node either. -/
theorem Arrived.fresh_cons (h : Arrived followed r nodes) (side : Side) :
    Fresh followed (side :: r) := by
  intro f hf beyond
  obtain rfl := h.beyond f hf (suffix_of_cons_suffix beyond)
  exact not_cons_suffix_self side f beyond

/-- Once it is visited, or put on the stack, its right subtree is pending. -/
theorem Arrived.pending_cons (h : Arrived followed r nodes) : Pending followed (r :: nodes) where
  nodup := h.pending.nodup
  fresh := List.forall_mem_cons.mpr ⟨h.fresh_cons .right, h.pending.fresh⟩
  apart := by
    refine List.pairwise_cons.mpr ⟨fun s hs => ⟨fun inside => ?_, fun inside => ?_⟩, h.pending.apart⟩
    · exact (h.apart s hs).1 (suffix_of_cons_suffix inside)
    · rcases List.suffix_cons_iff.mp inside with same | inside
      · exact (h.apart s hs).1 (same ▸ List.suffix_cons _ _)
      · exact (h.apart s hs).2 inside

/-- A pointer that is followed for the first time. -/
theorem nodup_followed (nodup : followed.Nodup) (fresh : Fresh followed r) :
    (followed ++ [r]).Nodup := by
  rw [List.nodup_append]
  refine ⟨nodup, List.pairwise_singleton _ _, fun f hf g hg same => ?_⟩
  obtain rfl := List.mem_singleton.mp hg
  exact fresh f hf (same ▸ List.suffix_refl f)

/-- From a node on the stack to its right child. -/
theorem Pending.arrived_right (h : Pending followed (r :: nodes)) :
    Arrived (followed ++ [.right :: r]) (.right :: r) nodes := by
  obtain ⟨fresh, others⟩ := List.forall_mem_cons.mp h.fresh
  obtain ⟨apart, rest⟩ := List.pairwise_cons.mp h.apart
  refine ⟨⟨nodup_followed h.nodup fresh, fun s hs f hf inside => ?_, rest⟩, fun f hf inside => ?_,
    apart⟩
  · rcases List.mem_append.mp hf with hf | hf
    · exact others s hs f hf inside
    · obtain rfl := List.mem_singleton.mp hf
      exact (apart s hs).2 inside
  · rcases List.mem_append.mp hf with hf | hf
    · exact absurd inside (fresh f hf)
    · exact List.mem_singleton.mp hf

/-- From a node to its left child; the node comes on the stack. -/
theorem Arrived.arrived_left (h : Arrived followed r nodes) :
    Arrived (followed ++ [.left :: r]) (.left :: r) (r :: nodes) := by
  have pending := h.pending_cons
  have fresh := h.fresh_cons .left
  -- the left child lies apart from all right subtrees
  have apart (s : Route) (hs : s ∈ r :: nodes) : Apart (.left :: r) (.right :: s) := by
    rcases List.mem_cons.mp hs with rfl | hs
    · refine ⟨fun inside => ?_, fun inside => ?_⟩
      · rcases List.suffix_cons_iff.mp inside with same | inside
        · cases same
        · exact not_cons_suffix_self _ _ inside
      · rcases List.suffix_cons_iff.mp inside with same | inside
        · cases same
        · exact not_cons_suffix_self _ _ inside
    · refine ⟨fun inside => (h.apart s hs).1 (suffix_of_cons_suffix inside), fun inside => ?_⟩
      rcases List.suffix_cons_iff.mp inside with same | inside
      · cases same
      · exact (h.apart s hs).2 inside
  refine ⟨⟨nodup_followed pending.nodup fresh, fun s hs f hf inside => ?_, pending.apart⟩,
    fun f hf inside => ?_, apart⟩
  · rcases List.mem_append.mp hf with hf | hf
    · exact pending.fresh s hs f hf inside
    · obtain rfl := List.mem_singleton.mp hf
      exact (apart s hs).2 inside
  · rcases List.mem_append.mp hf with hf | hf
    · exact absurd inside (fresh f hf)
    · exact List.mem_singleton.mp hf

namespace Walk

variable {ev : Evaluator σ ν} {scope : Scope (Variable ν)}

/-- On the way down nothing is followed twice. -/
theorem Descends.clear {left : String} {node : Variable ν} {stack : List (Variable ν)}
    {routes more : List Route} {t t' : σ}
    {result : Except EvalError (List (Variable ν) × List Route)}
    (h : Descends ev scope left node r stack routes t more result t')
    (arrived : Arrived followed r routes) (fits : routes.length = stack.length) :
    (followed ++ more).Nodup ∧ ∀ stack' routes', result = .ok (stack', routes') →
      Pending (followed ++ more) routes' ∧ routes'.length = stack'.length := by
  induction h generalizing followed with
  | null =>
    rw [List.append_nil]
    refine ⟨arrived.pending.nodup, fun stack' routes' same => ?_⟩
    cases same
    exact ⟨arrived.pending, fits⟩
  | fails =>
    refine ⟨arrived.arrived_left.pending.nodup, fun stack' routes' same => ?_⟩
    cases same
  | down _ _ _ ih =>
    rw [List.append_cons]
    refine ih arrived.arrived_left ?_
    rw [List.length_cons, List.length_cons, fits]

end Walk

namespace Routes

/-- **A walk that has not been where it goes.** The pointers it followed are all
different, and none of them lies where it is still to go. -/
structure Clear (followed : List Route) (w : Walk ν) (R : Routes) : Prop where
  fits : R.stack.length = w.stack.length
  place : match w.place with
    | .before _ => Arrived followed R.here R.stack
    | .behind _ => Pending followed (R.here :: R.stack)
    | .nowhere => Pending followed R.stack

theorem Clear.start (head : Variable ν) : Clear [] (Walk.start head) {} :=
  ⟨rfl, ⟨.nil, List.forall_mem_nil _, .nil⟩, List.forall_mem_nil _, List.forall_mem_nil _⟩

theorem Clear.done (nodup : followed.Nodup) : Clear followed (Walk.done : Walk ν) {} :=
  ⟨rfl, nodup, List.forall_mem_nil _, .nil⟩

/-- The node on top of the stack is visited. -/
theorem Clear.pop {stack : List (Variable ν)} {routes : List Route}
    (pending : Pending followed routes) (fits : routes.length = stack.length) :
    Clear followed (Walk.pop stack).2 (Walk.popRoutes routes) := by
  cases stack with
  | nil =>
    obtain rfl := List.eq_nil_of_length_eq_zero fits
    exact .done pending.nodup
  | cons node stack =>
    cases routes with
    | nil => cases fits
    | cons route routes => exact ⟨Nat.succ.inj fits, pending⟩

variable {ev : Evaluator σ ν} {scope : Scope (Variable ν)} {w : Walk ν} {R : Routes}

theorem Clear.nodup (h : Clear followed w R) : followed.Nodup := by
  have place := h.place
  split at place
  · exact place.pending.nodup
  · exact place.nodup
  · exact place.nodup

theorem Clear.departs (h : Clear followed w R) {pointer : String} {t t' : σ} {more : List Route}
    {result : Except EvalError (Variable ν × Route)}
    (departs : Walk.Departs ev scope pointer w.place R.here t more result t') :
    (followed ++ more).Nodup ∧ ∀ node route, result = .ok (node, route) →
      Arrived (followed ++ more) route R.stack := by
  have place := h.place
  generalize w.place = spot at place departs
  cases departs with
  | before =>
    rw [List.append_nil]
    refine ⟨place.pending.nodup, fun node route same => ?_⟩
    cases same
    exact place
  | fails =>
    refine ⟨place.arrived_right.pending.nodup, fun node route same => ?_⟩
    cases same
  | leads =>
    refine ⟨place.arrived_right.pending.nodup, fun node route same => ?_⟩
    cases same
    exact place.arrived_right

/-- **No pointer is followed twice**, whatever was done between one node and the
next. -/
theorem Clear.advances (h : Clear followed w R) {links : Links} {t t' : σ} {more : List Route}
    {result : Except EvalError (Option (Variable ν))} {w' : Walk ν} {R' : Routes}
    (advances : Walk.Advances ev scope links w R t more result w' R' t') :
    Clear (followed ++ more) w' R' := by
  -- every way to advance ends at a route that was not followed before, or ends the walk
  cases advances with
  | rests =>
    rw [List.append_nil]
    exact h
  | pops nowhere =>
    rw [List.append_nil]
    have place := h.place
    rw [nowhere] at place
    exact .pop place h.fits
  | lost departs => exact .done (h.departs departs).1
  | @visits next _ _ _ _ _ _ _ node route r departs visited =>
    have arrived := (h.departs departs).2 _ _ rfl
    unfold Walk.visit at visited
    rw [bind_apply] at visited
    split at visited
    · cases visited
      exact ⟨rfl, arrived.pending.nodup, List.forall_mem_nil _, .nil⟩
    · cases visited
      have pending := arrived.pending_cons
      refine ⟨rfl, pending.nodup, fun s hs => ?_, List.pairwise_singleton _ _⟩
      obtain rfl := List.mem_singleton.mp hs
      exact pending.fresh _ List.mem_cons_self
  | falls departs descends =>
    have arrived := (h.departs departs).2 _ _ rfl
    rw [← List.append_assoc]
    exact .done (descends.clear arrived h.fits).1
  | reaches departs descends =>
    have arrived := (h.departs departs).2 _ _ rfl
    obtain ⟨pending, fits⟩ := (descends.clear arrived h.fits).2 _ _ rfl
    rw [← List.append_assoc]
    exact .pop pending fits

end Routes

end WatchView
