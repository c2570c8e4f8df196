import WatchView.Proofs.Listing.NodeDeeds
/-!
# Trees without end

The walk through a tree goes down the left edge of a subtree before it comes to its first
node. That many pointers are followed for one node, and neither the limit nor a window has a
say in it: where left pointers lead around in a circle the walk never comes back. Everything
else that is done for a request comes to an end.

So a request returns exactly if every left edge it goes down has an end
(`NodeListing.halts_ask_iff`). The edges are told by relations, one for each function:
`Walk.GoesDown` for a step of the walk, `NodeListing.WalksDown` for several of them,
`NodeListing.SettlesDown` and `NodeListing.AsksDown` for a request. A left edge has an end if
a null pointer is on it, or one that cannot be followed (`LeftEnds`).
-/

namespace WatchView

open Bounded

variable {σ ν α β : Type}

/-! ## The left edge of a tree -/

section

variable (ev : Evaluator σ ν) (scope : Scope (Variable ν)) (left : String)

/-- **The left edge from a node has an end.** -/
inductive LeftEnds : Variable ν → σ → Prop
  /-- A null pointer is no node. -/
  | null {node : Variable ν} {t : σ}
      (nothing : (node.facts ev.debugger.toInspector t).isNull = true) : LeftEnds node t
  /-- The left pointer cannot be followed. -/
  | failed {node : Variable ν} {t t' : σ} {e : EvalError}
      (there : (node.facts ev.debugger.toInspector t).isNull = false)
      (said : Walk.follow ev scope node left t = (.error e, t')) : LeftEnds node t
  /-- The left pointer leads to a node whose left edge has an end. -/
  | down {node child : Variable ν} {t t' : σ}
      (there : (node.facts ev.debugger.toInspector t).isNull = false)
      (said : Walk.follow ev scope node left t = (.ok child, t'))
      (ends : LeftEnds child t') : LeftEnds node t

/-- One step down. -/
theorem descend_succ (b : Nat) (node : Variable ν) (stack : List (Variable ν)) (t : σ) :
    Walk.descend ev scope left (b + 1) node stack t =
      if (node.facts ev.debugger.toInspector t).isNull then .ok (.ok stack, t)
      else
        match Walk.follow ev scope node left t with
        | (.error e, t') => .ok (.error e, t')
        | (.ok child, t') => Walk.descend ev scope left b child (node :: stack) t' := by
  have asked : Walk.isNull ev node t = ((node.facts ev.debugger.toInspector t).isNull, t) := rfl
  rw [Walk.descend, lift_bind_apply, asked]
  dsimp only
  split
  · rfl
  · rw [lift_bind_apply]
    rcases Walk.follow ev scope node left t with ⟨e | child, t'⟩
    · rfl
    · rfl

theorem steady_descend (node : Variable ν) (stack : List (Variable ν)) :
    Bounded.Steady fun b => Walk.descend ev scope left b node stack := by
  intro b
  induction b generalizing node stack with
  | zero => exact fun _ _ _ _ h => nomatch h
  | succ b ih =>
    intro b' t r le h
    obtain ⟨b', rfl⟩ : ∃ k, b' = k + 1 := ⟨b' - 1, by omega⟩
    dsimp only at h ⊢
    rw [descend_succ] at h ⊢
    split
    · rwa [if_pos ‹_›] at h
    · rw [if_neg ‹_›] at h
      rcases said : Walk.follow ev scope node left t with ⟨e | child, t'⟩
      · rwa [said] at h
      · rw [said] at h
        exact ih child (node :: stack) (by omega) h

/-- **The way down ends exactly if the left edge has an end.** -/
theorem halts_descend_iff (node : Variable ν) (stack : List (Variable ν)) (t : σ) :
    Halts (fun b => Walk.descend ev scope left b node stack) t ↔ LeftEnds ev scope left node t := by
  constructor
  · -- on the bound: each step takes one off
    rintro ⟨r, b, h⟩
    induction b generalizing node stack t with
    | zero => cases h
    | succ b ih =>
      dsimp only at h
      rw [descend_succ] at h
      split at h
      · exact .null ‹_›
      · have there := Bool.eq_false_iff.mpr ‹_›
        rcases said : Walk.follow ev scope node left t with ⟨e | child, t'⟩
        · exact .failed there said
        · rw [said] at h
          exact .down there said (ih child (node :: stack) t' h)
  · intro ends
    induction ends generalizing stack with
    | null nothing => exact ⟨_, 1, (descend_succ ..).trans (if_pos nothing)⟩
    | @failed node t t' e there said =>
      have begun := descend_succ ev scope left 0 node stack t
      rw [there, if_neg Bool.false_ne_true, said] at begun
      exact ⟨_, 1, begun⟩
    | @down node child t t' there said _ ih =>
      obtain ⟨r, b, h⟩ := ih (node :: stack)
      have begun := descend_succ ev scope left b node stack t
      rw [there, if_neg Bool.false_ne_true, said] at begun
      exact ⟨r, b + 1, begun.trans h⟩

end

/-! ## Steps of a walk -/

namespace Walk

variable (ev : Evaluator σ ν) (scope : Scope (Variable ν))

/-- `GoesDown ev scope links w t left node t'`: to find its next node the walk goes down the
left edge of a node, beginning in a state. A walk along a list never does. -/
inductive GoesDown : Links → Walk ν → σ → String → Variable ν → σ → Prop
  /-- Before a node that is its own left edge. -/
  | before {left right : String} {node : Variable ν} {stack : List (Variable ν)} {t : σ} :
      GoesDown (.tree left right) { place := .before node, stack } t left node t
  /-- Behind a node it is the left edge of the right subtree. -/
  | behind {left right : String} {node child : Variable ν} {stack : List (Variable ν)} {t t' : σ}
      (said : follow ev scope node right t = (.ok child, t')) :
      GoesDown (.tree left right) { place := .behind node, stack } t left child t'

theorem steady_visitLeftmost (left : String) (node : Variable ν) (stack : List (Variable ν)) :
    Bounded.Steady fun b => visitLeftmost ev scope b left node stack :=
  (steady_descend ev scope left node stack).bind fun r => by
    cases r with
    | error e => exact steady_const _
    | ok stack => exact steady_const _

theorem halts_visitLeftmost_iff (left : String) (node : Variable ν) (stack : List (Variable ν))
    (t : σ) :
    Halts (fun b => visitLeftmost ev scope b left node stack) t ↔ LeftEnds ev scope left node t :=
  (halts_bind_iff_of_total fun b r t' => by
    cases r with
    | error e => exact ⟨_, rfl⟩
    | ok stack => exact ⟨_, rfl⟩).trans (halts_descend_iff ev scope left node stack t)

theorem steady_next (links : Links) (w : Walk ν) :
    Bounded.Steady fun b => w.next ev scope b links := by
  obtain ⟨place, stack⟩ := w
  cases links with
  | list pointer => exact steady_const _
  | tree left right =>
    cases place with
    | nowhere => exact steady_const _
    | before node => exact steady_visitLeftmost ev scope left node stack
    | behind node =>
      refine (steady_const _).bind fun r => ?_
      cases r with
      | error e => exact steady_const _
      | ok child => exact steady_visitLeftmost ev scope left child stack

/-- **A walk finds its next node exactly if the left edge it goes down has an end.** -/
theorem halts_next_iff (links : Links) (w : Walk ν) (t : σ) :
    Halts (fun b => w.next ev scope b links) t ↔
      ∀ left node t', GoesDown ev scope links w t left node t' →
        LeftEnds ev scope left node t' := by
  obtain ⟨place, stack⟩ := w
  cases links with
  | list pointer => exact iff_of_true ⟨_, 0, rfl⟩ fun _ _ _ down => nomatch down
  | tree left right =>
    cases place with
    | nowhere => exact iff_of_true ⟨_, 0, rfl⟩ fun _ _ _ down => nomatch down
    | before node =>
      refine (halts_visitLeftmost_iff ev scope left node stack t).trans ⟨?_, fun h => h _ _ _ .before⟩
      rintro ends _ _ _ ⟨⟩
      exact ends
    | behind node =>
      refine halts_lift_bind_iff.trans ?_
      rcases said : follow ev scope node right t with ⟨e | child, t'⟩
      · refine iff_of_true (halts_pure _ _) ?_
        rintro _ _ _ ⟨said'⟩
        cases said.symm.trans ‹_›
      · refine (halts_visitLeftmost_iff ev scope left child stack t').trans
          ⟨?_, fun h => h _ _ _ (.behind said)⟩
        rintro ends _ _ _ ⟨⟩
        cases said.symm.trans ‹_›
        exact ends

end Walk

/-! ## Requests -/

namespace NodeListing

variable (ev : Evaluator σ ν) (options : Options)

/-- `WalksDown ev more l t left node t'`: in search of so many nodes more, the walk goes down
the left edge of a node. -/
inductive WalksDown : Nat → NodeListing ν → σ → String → Variable ν → σ → Prop
  /-- For the next node. -/
  | here {more : Nat} {l : NodeListing ν} {w : Walk ν} {t t' : σ} {left : String}
      {node : Variable ν} (walk : l.walk = some w) (open_ : l.exhausted = false)
      (down : w.GoesDown ev l.context.scope l.rule.links t left node t') :
      WalksDown (more + 1) l t left node t'
  /-- For one of those behind the next node, which was found. -/
  | later {more : Nat} {l : NodeListing ν} {w w' : Walk ν} {t t₁ t' : σ} {left : String}
      {node next : Variable ν} (walk : l.walk = some w) (open_ : l.exhausted = false)
      (found : Ends (fun b => w.next ev l.context.scope b l.rule.links) t
        ((.ok (some next), w'), t₁))
      (down : WalksDown more (l.afterNext w' (.ok (some next))) t₁ left node t') :
      WalksDown (more + 1) l t left node t'

/-- To count its rows the first time, a list of nodes goes down the left edge of a node. It
begins at the root, and does not look for nodes if a size is declared. -/
inductive CountsDown (l : NodeListing ν) (t : σ) : String → Variable ν → σ → Prop
  | fromRoot {t₁ t' : σ} {head : Variable ν} {left : String} {node : Variable ν}
      (whole : missingPart? l.rule = none) (headed : l.head ev t = (.ok head, t₁))
      (undeclared : declared? l.rule = none)
      (down : WalksDown ev (l.effectiveLimit options - l.nodes.size)
        { l with walk := some (.start head) } t₁ left node t') : CountsDown l t left node t'

/-- `SettlesDown ev options l t left node t'`: before it answers, a list of nodes goes down the
left edge of a node. -/
inductive SettlesDown (l : NodeListing ν) (t : σ) : String → Variable ν → σ → Prop
  /-- The first time, if it applies. -/
  | first {t₁ t' : σ} {left : String} {node : Variable ν} (fresh : l.standing = none)
      (applies : l.context.applies ev l.rule.guard t = (.ok true, t₁))
      (down : CountsDown ev options l t₁ left node t') : SettlesDown l t left node t'
  /-- Again after the limit went up, from where the walk is. -/
  | again {t' : σ} {n : Nat} {left : String} {node : Variable ν}
      (known : l.standing = some (.counted n)) (stale : l.stale = true)
      (undeclared : l.size = none)
      (down : WalksDown ev (l.effectiveLimit options - l.nodes.size) { l with stale := false } t
        left node t') : SettlesDown l t left node t'

/-- `AsksDown ev options q l t left node t'`: for a request, a list of nodes goes down the left
edge of a node. -/
inductive AsksDown (l : NodeListing ν) (t : σ) : Query → String → Variable ν → σ → Prop
  /-- To count its rows, for anything it is asked. -/
  | settling {q : Query} {left : String} {node : Variable ν} {t' : σ}
      (asked : ∀ limit, q ≠ .setLimit limit)
      (down : SettlesDown ev options l t left node t') : AsksDown l t q left node t'
  /-- To find the nodes of a window. -/
  | window {start many n : Nat} {l' : NodeListing ν} {t₁ t' : σ} {left : String}
      {node : Variable ν}
      (settled : Ends (fun b => l.settled ev options b) t ((.counted n, l'), t₁))
      (down : WalksDown ev (min (windowEnd start many) n - l'.nodes.size) l' t₁ left node t') :
      AsksDown l t (.rows start many) left node t'

/-- A walk that has ended, or not begun, does not go on. -/
theorem walkOn_idle (b more : Nat) {l : NodeListing ν}
    (idle : l.walk = none ∨ l.exhausted = true) : walkOn ev b more l = pure l := by
  cases more with
  | zero => rfl
  | succ more =>
    unfold walkOn
    cases walk : l.walk with
    | none => rfl
    | some w =>
      rw [walk] at idle
      exact if_pos (idle.resolve_left (Option.some_ne_none w))

theorem not_walksDown_of_idle {more : Nat} {l : NodeListing ν} {t t' : σ} {left : String}
    {node : Variable ν} (idle : l.walk = none ∨ l.exhausted = true) :
    ¬ WalksDown ev more l t left node t' := by
  have apart {w : Walk ν} (walk : l.walk = some w) (open_ : l.exhausted = false) : False := by
    rw [walk, open_] at idle
    rcases idle with h | h <;> cases h
  rintro (⟨walk, open_, -⟩ | ⟨walk, open_, -, -⟩)
  · exact apart walk open_
  · exact apart walk open_

/-- What is left to do behind the next node. -/
def walkOnFrom (b more : Nat) (l : NodeListing ν)
    (r : Except EvalError (Option (Variable ν)) × Walk ν) : Bounded σ (NodeListing ν) :=
  match r.1 with
  | .ok (some _) => walkOn ev b more (l.afterNext r.2 r.1)
  | _ => pure (l.afterNext r.2 r.1)

theorem walkOn_succ (b more : Nat) {l : NodeListing ν} {w : Walk ν} (walk : l.walk = some w)
    (open_ : l.exhausted = false) :
    walkOn ev b (more + 1) l =
      w.next ev l.context.scope b l.rule.links >>= walkOnFrom ev b more l := by
  rw [walkOn, walk]
  dsimp only
  rw [if_neg (by rw [open_]; exact Bool.false_ne_true)]
  congr 1
  funext r
  rcases r with ⟨e | _ | node, w'⟩ <;> rfl

theorem steady_walkOn (more : Nat) (l : NodeListing ν) :
    Bounded.Steady fun b => walkOn ev b more l := by
  induction more generalizing l with
  | zero => exact steady_const _
  | succ more ih =>
    by_cases idle : l.walk = none ∨ l.exhausted = true
    · simp only [walkOn_idle ev _ _ idle]
      exact steady_const _
    · obtain ⟨begun, open_⟩ := not_or.mp idle
      obtain ⟨w, walk⟩ := Option.ne_none_iff_exists'.mp begun
      simp only [walkOn_succ ev _ _ walk (Bool.eq_false_iff.mpr open_)]
      refine (w.steady_next ev l.context.scope l.rule.links).bind fun r => ?_
      rcases r with ⟨e | _ | node, w'⟩
      · exact steady_const _
      · exact steady_const _
      · exact ih _

theorem halts_walkOn_iff (more : Nat) (l : NodeListing ν) (t : σ) :
    Halts (fun b => walkOn ev b more l) t ↔
      ∀ left node t', WalksDown ev more l t left node t' →
        LeftEnds ev l.context.scope left node t' := by
  induction more generalizing l t with
  | zero => exact iff_of_true (halts_pure _ _) fun _ _ _ down => nomatch down
  | succ more ih =>
    by_cases idle : l.walk = none ∨ l.exhausted = true
    · simp only [walkOn_idle ev _ _ idle]
      exact iff_of_true (halts_pure _ _) fun _ _ _ down =>
        absurd down (not_walksDown_of_idle ev idle)
    · obtain ⟨begun, open_⟩ := not_or.mp idle
      obtain ⟨w, walk⟩ := Option.ne_none_iff_exists'.mp begun
      have open_ : l.exhausted = false := Bool.eq_false_iff.mpr open_
      have next := w.halts_next_iff ev l.context.scope l.rule.links t
      have steady := w.steady_next ev l.context.scope l.rule.links
      have others (r) : Bounded.Steady fun b => walkOnFrom ev b more l r := by
        rcases r with ⟨e | _ | node, w'⟩
        · exact steady_const _
        · exact steady_const _
        · exact steady_walkOn ev more _
      simp only [walkOn_succ ev _ _ walk open_]
      -- the walk goes down for the next node, and from there for the others
      refine (halts_bind_iff steady others).trans ⟨?_, fun h => ?_⟩
      · rintro ⟨m, found, rest⟩ left node t' down
        cases down with
        | here walk' _ down =>
          cases walk.symm.trans walk'
          exact next.mp ⟨m, found⟩ left node t' down
        | later walk' _ found' down =>
          cases walk.symm.trans walk'
          obtain rfl := found'.unique steady found
          exact (ih _ _).mp rest left node t' down
      · obtain ⟨m, found⟩ := next.mpr fun left node t' down =>
          h left node t' (.here walk open_ down)
        refine ⟨m, found, ?_⟩
        rcases m with ⟨⟨e | _ | node, w'⟩, t₁⟩
        · exact halts_pure _ _
        · exact halts_pure _ _
        · exact (ih _ _).mpr fun left node t' down =>
            h left node t' (.later walk open_ found down)

/-! ## Settling -/

variable (l : NodeListing ν) (t : σ)

theorem steady_walkTo (count : Nat) (l : NodeListing ν) :
    Bounded.Steady fun b => l.walkTo ev b count :=
  steady_walkOn ev _ l

theorem steady_count : Bounded.Steady fun b => l.count ev options b := by
  unfold count
  cases missingPart? l.rule with
  | some part => exact steady_const _
  | none =>
    refine (steady_const _).bind fun head => ?_
    cases head with
    | error e => exact steady_const _
    | ok head =>
      dsimp only
      split
      · exact steady_const _
      · exact (steady_walkTo ev _ _).bind fun _ => steady_const _

theorem halts_count_iff :
    Halts (fun b => l.count ev options b) t ↔
      ∀ left node t', CountsDown ev options l t left node t' →
        LeftEnds ev l.context.scope left node t' := by
  unfold count
  cases whole : missingPart? l.rule with
  | some part =>
    refine iff_of_true (halts_pure _ _) fun _ _ _ down => ?_
    cases down with
    | fromRoot whole' => cases whole.symm.trans whole'
  | none =>
    -- only a count without a declared size goes down a left edge
    refine halts_lift_bind_iff.trans ?_
    rcases headed : l.head ev t with ⟨e | head, t₁⟩
    · refine iff_of_true (halts_pure _ _) fun _ _ _ down => ?_
      cases down with
      | fromRoot _ headed' => cases headed.symm.trans headed'
    · dsimp only
      cases declared : l.rule.size.filter fun size => !Text.isBlankText size with
      | some size =>
        refine iff_of_true (halts_lift_bind_iff.mpr ?_) fun _ _ _ down => ?_
        · split
          · exact halts_pure _ _
          · exact halts_pure _ _
        · cases down with
          | fromRoot _ _ undeclared => cases declared.symm.trans undeclared
      | none =>
        refine (halts_bind_iff_of_total fun _ _ _ => ⟨_, rfl⟩).trans
          ((halts_walkOn_iff ev _ _ _).trans ⟨fun h _ _ _ down => ?_, fun h _ _ _ down => ?_⟩)
        · cases down with
          | fromRoot _ headed' _ down =>
            cases headed.symm.trans headed'
            exact h _ _ _ down
        · exact h _ _ _ (.fromRoot whole headed declared down)

theorem steady_settle : Bounded.Steady (α := Standing ν × NodeListing ν) fun b =>
    Standing.settle l.rule.guard (liftM (l.context.applies ev l.rule.guard))
      (fun l => l.count ev options b) l := by
  refine (steady_const _).bind fun applies => ?_
  rcases applies with e | _ | _
  · exact steady_const _
  · exact steady_const _
  · exact (steady_count ev options l).bind fun _ => steady_const _

theorem steady_recounted (standing : Standing ν) :
    Bounded.Steady fun b => l.recounted ev options b standing := by
  unfold recounted
  split
  · exact (steady_walkTo ev _ _).bind fun _ => steady_const _
  · exact steady_const _

theorem steady_settled : Bounded.Steady fun b => l.settled ev options b := by
  unfold settled
  cases l.standing with
  | none => exact (steady_settle ev options l).bind fun _ => steady_const _
  | some standing =>
    dsimp only
    split
    · exact (steady_recounted ev options _ standing).bind fun _ => steady_const _
    · exact steady_const _

theorem halts_settle_iff (fresh : l.standing = none) :
    Halts (α := Standing ν × NodeListing ν)
        (fun b => Standing.settle l.rule.guard (liftM (l.context.applies ev l.rule.guard))
          (fun l => l.count ev options b) l) t ↔
      ∀ left node t', SettlesDown ev options l t left node t' →
        LeftEnds ev l.context.scope left node t' := by
  have only {left : String} {node : Variable ν} {t' : σ}
      (down : SettlesDown ev options l t left node t') :
      ∃ t₁, l.context.applies ev l.rule.guard t = (.ok true, t₁) ∧
        CountsDown ev options l t₁ left node t' := by
    cases down with
    | first _ applies down => exact ⟨_, applies, down⟩
    | again known => cases fresh.symm.trans known
  refine halts_lift_bind_iff.trans ?_
  rcases asked : l.context.applies ev l.rule.guard t with ⟨e | _ | _, t₁⟩
  · refine iff_of_true (halts_pure _ _) fun _ _ _ down => ?_
    obtain ⟨_, applies, -⟩ := only down
    cases asked.symm.trans applies
  · refine iff_of_true (halts_pure _ _) fun _ _ _ down => ?_
    obtain ⟨_, applies, -⟩ := only down
    cases asked.symm.trans applies
  · refine (halts_bind_iff_of_total fun _ _ _ => ⟨_, rfl⟩).trans
      ((halts_count_iff ev options l t₁).trans ⟨fun h _ _ _ down => ?_, fun h _ _ _ down => ?_⟩)
    · obtain ⟨_, applies, down⟩ := only down
      cases asked.symm.trans applies
      exact h _ _ _ down
    · exact h _ _ _ (.first fresh asked down)

theorem halts_recounted_iff {standing : Standing ν} (known : l.standing = some standing)
    (stale : l.stale = true) :
    Halts (fun b => recounted ev options b standing { l with stale := false }) t ↔
      ∀ left node t', SettlesDown ev options l t left node t' →
        LeftEnds ev l.context.scope left node t' := by
  -- a left edge that is gone down now is one of the walk, because the list was counted before
  have only {left : String} {node : Variable ν} {t' : σ}
      (down : SettlesDown ev options l t left node t') :
      (∃ n, standing = .counted n) ∧ l.size = none ∧
        WalksDown ev (l.effectiveLimit options - l.nodes.size) { l with stale := false } t
          left node t' := by
    cases down with
    | first fresh => cases known.symm.trans fresh
    | again known' _ undeclared down =>
      exact ⟨⟨_, Option.some.inj (known.symm.trans known')⟩, undeclared, down⟩
  unfold recounted
  cases standing with
  | failed row =>
    refine iff_of_true (halts_pure _ _) fun _ _ _ down => ?_
    obtain ⟨⟨_, counted⟩, -⟩ := only down
    cases counted
  | counted n =>
    cases size : l.size with
    | some size =>
      refine iff_of_true (halts_pure _ _) fun _ _ _ down => ?_
      obtain ⟨-, undeclared, -⟩ := only down
      cases size.symm.trans undeclared
    | none =>
      cases walk : l.walk with
      | none =>
        refine iff_of_true (halts_pure _ _) fun _ _ _ down => ?_
        obtain ⟨-, -, down⟩ := only down
        exact absurd down (not_walksDown_of_idle ev (.inl walk))
      | some w =>
        refine (halts_bind_iff_of_total fun _ _ _ => ⟨_, rfl⟩).trans
          ((halts_walkOn_iff ev _ _ _).trans ⟨fun h _ _ _ down => ?_, fun h _ _ _ down => ?_⟩)
        · obtain ⟨-, -, down⟩ := only down
          rw [size, walk] at down
          exact h _ _ _ down
        · refine h _ _ _ (.again known stale size ?_)
          rw [size, walk]
          exact down

/-- **A list of nodes settles exactly if the left edges it goes down have an end.** -/
theorem halts_settled_iff :
    Halts (fun b => l.settled ev options b) t ↔
      ∀ left node t', SettlesDown ev options l t left node t' →
        LeftEnds ev l.context.scope left node t' := by
  unfold settled
  cases known : l.standing with
  | none =>
    exact (halts_bind_iff_of_total fun _ _ _ => ⟨_, rfl⟩).trans
      (halts_settle_iff ev options l t known)
  | some standing =>
    by_cases stale : l.stale = true
    · simp only [if_pos stale]
      rw [← known]
      exact (halts_bind_iff_of_total fun _ _ _ => ⟨_, rfl⟩).trans
        (halts_recounted_iff ev options l t known stale)
    · simp only [if_neg stale]
      refine iff_of_true (halts_pure _ _) fun _ _ _ down => ?_
      cases down with
      | first fresh => cases known.symm.trans fresh
      | again _ stale' => exact absurd stale' stale

/-! ## Answering -/

/-- What is left to do for a window once the rows are counted. -/
def rowsBehind (b start many : Nat) (settled : Standing ν × NodeListing ν) :
    Bounded σ (List (Variable ν) × NodeListing ν) := do
  match settled.1 with
  | .failed row => pure (clip start many [row], settled.2)
  | .counted n =>
    let l ← settled.2.walkTo ev b (min (windowEnd start many) n)
    let (rows, kept) ← l.rowsAt ev (windowOf n start many) l.kept
    pure (rows, { l with kept })

theorem rows_eq (b start many : Nat) :
    l.rows ev options b start many = l.settled ev options b >>= rowsBehind ev b start many := rfl

theorem steady_rowsBehind (start many : Nat) (settled : Standing ν × NodeListing ν) :
    Bounded.Steady fun b => rowsBehind ev b start many settled := by
  obtain ⟨standing, l⟩ := settled
  cases standing with
  | failed row => exact steady_const _
  | counted n => exact (steady_walkTo ev _ _).bind fun _ => steady_const _

/-- Whatever a list of nodes does, it is about the same variable in the same scope. -/
theorem Works.context_eq {ev : Evaluator σ ν} {c c' : NodeListing ν × Routes × σ}
    {deeds : List Deed} (h : Works ev c deeds c') : c'.1.context = c.1.context := by
  induction h with
  | rests => rfl
  | noted _ _ ih => exact ih
  | opens _ opening _ ih =>
    refine ih.trans ?_
    cases opening with
    | closed => rfl
    | headless => rfl
    | begins => rfl
    | @sized _ _ _ _ _ r => cases r <;> rfl
  | @next _ _ _ _ _ _ _ _ r _ _ _ _ _ _ ih =>
    refine ih.trans ?_
    rcases r with e | _ | node <;> rfl
  | row _ _ _ _ ih => exact ih

theorem context_eq_of_settled {r : (Standing ν × NodeListing ν) × σ}
    (h : Ends (fun b => l.settled ev options b) t r) : r.1.2.context = l.context := by
  obtain ⟨b, h⟩ := h
  obtain ⟨⟨deeds, R', works⟩, -⟩ := ensures_settled_works l {} t r.1 r.2 h
  exact works.context_eq

/-- **A window is shown exactly if the left edges it goes down have an end.** -/
theorem halts_rows_iff (start many : Nat) :
    Halts (fun b => l.rows ev options b start many) t ↔
      ∀ left node t', AsksDown ev options l t (.rows start many) left node t' →
        LeftEnds ev l.context.scope left node t' := by
  have settles := halts_settled_iff ev options l t
  have steady := steady_settled ev options l
  have walks (n : Nat) (l' : NodeListing ν) (t₁ : σ) :
      Halts (fun b => rowsBehind ev b start many (.counted n, l')) t₁ ↔
        ∀ left node t', WalksDown ev (min (windowEnd start many) n - l'.nodes.size) l' t₁ left
          node t' → LeftEnds ev l'.context.scope left node t' :=
    (halts_bind_iff_of_total fun _ _ _ => ⟨_, rfl⟩).trans (halts_walkOn_iff ev _ l' t₁)
  simp only [rows_eq]
  refine (halts_bind_iff steady (steady_rowsBehind ev start many)).trans ⟨?_, fun h => ?_⟩
  · rintro ⟨m, settled, shown⟩ left node t' down
    cases down with
    | settling _ down => exact settles.mp ⟨m, settled⟩ left node t' down
    | window settled' down =>
      obtain rfl := settled'.unique steady settled
      have ends := (walks _ _ _).mp shown left node t' down
      rwa [context_eq_of_settled ev options l t settled'] at ends
  · obtain ⟨m, settled⟩ := settles.mpr fun left node t' down =>
      h left node t' (.settling nofun down)
    have same := context_eq_of_settled ev options l t settled
    refine ⟨m, settled, ?_⟩
    rcases m with ⟨⟨n | row, l'⟩, t₁⟩
    · refine (walks n l' t₁).mpr fun left node t' down => ?_
      rw [show l'.context = l.context from same]
      exact h left node t' (.window settled down)
    · exact halts_pure _ _

theorem halts_settled_iff_asksDown {q : Query} (asked : ∀ limit, q ≠ .setLimit limit)
    (other : ∀ start many, q ≠ .rows start many) :
    Halts (fun b => l.settled ev options b) t ↔
      ∀ left node t', AsksDown ev options l t q left node t' →
        LeftEnds ev l.context.scope left node t' := by
  refine (halts_settled_iff ev options l t).trans
    ⟨fun h _ _ _ down => ?_, fun h _ _ _ down => h _ _ _ (.settling asked down)⟩
  cases down with
  | settling _ down => exact h _ _ _ down
  | @window start many => exact absurd rfl (other start many)

/-- What is asked of the debugger within the bounds of an engine is asked within all
bounds. -/
theorem halts_reach_iff (engine : Engine σ ν) (act : Nat → Bounded σ α) {s : Session σ ν} :
    Halts (fun b => (Search.ofTarget (act (engine.reach b).bound) : Search σ ν α)) s ↔
      Halts act s.target := by
  refine Iff.trans ⟨?_, ?_⟩ halts_ofTarget_iff
  · rintro ⟨r, b, h⟩
    exact ⟨r, _, h⟩
  · rintro ⟨r, b, h⟩
    exact ⟨r, b + 1, h⟩

section

variable (engine : Engine σ ν) (l : NodeListing ν) (s : Session σ ν)

/-- Wrapping up an answer always comes to an end. -/
theorem halts_answering_iff {act : Nat → Search σ ν (α × NodeListing ν)} (answer : α → β)
    (reply : β → Query.Reply ν) :
    Halts (fun b => do
      let (a, l) ← Listing.answering Listing.nodes answer (act b)
      return (reply a, l)) s ↔ Halts act s :=
  (halts_bind_iff_of_total fun _ _ _ => ⟨_, rfl⟩).trans
    (halts_bind_iff_of_total fun _ _ _ => ⟨_, rfl⟩)

theorem halts_ask_count_iff :
    Halts (fun b => Query.count.ask engine (engine.reach b) (.nodes l)) s ↔
      Halts (fun b => l.settled engine.evaluator engine.options b) s.target :=
  (halts_answering_iff s _ _).trans
    (halts_reach_iff engine fun b => l.settled engine.evaluator engine.options b)

theorem halts_ask_isSound_iff :
    Halts (fun b => Query.isSound.ask engine (engine.reach b) (.nodes l)) s ↔
      Halts (fun b => l.settled engine.evaluator engine.options b) s.target :=
  (halts_answering_iff s _ _).trans
    (halts_reach_iff engine fun b => l.settled engine.evaluator engine.options b)

theorem halts_ask_rows_iff (start many : Nat) :
    Halts (fun b => (Query.rows start many).ask engine (engine.reach b) (.nodes l)) s ↔
      Halts (fun b => l.rows engine.evaluator engine.options b start many) s.target :=
  (halts_answering_iff s _ _).trans
    (halts_reach_iff engine fun b => l.rows engine.evaluator engine.options b start many)

/-- **A request to a list of nodes returns exactly if every left edge it goes down has an
end.** Whatever was asked before, and whatever the limit and the window are: if left pointers
lead around in a circle, or on without end, where the walk has to go down, it follows them for
ever. A linked list never goes down, and always returns. -/
theorem halts_ask_iff (q : Query) :
    Halts (fun b => q.ask engine (engine.reach b) (.nodes l)) s ↔
      ∀ left node t', AsksDown engine.evaluator engine.options l s.target q left node t' →
        LeftEnds engine.evaluator l.context.scope left node t' := by
  cases q with
  | setLimit limit =>
    refine iff_of_true (halts_pure _ _) fun _ _ _ down => ?_
    cases down with
    | settling asked => exact absurd rfl (asked limit)
  | count =>
    exact (halts_ask_count_iff engine l s).trans
      (halts_settled_iff_asksDown _ _ l _ (q := .count) nofun nofun)
  | isSound =>
    exact (halts_ask_isSound_iff engine l s).trans
      (halts_settled_iff_asksDown _ _ l _ (q := .isSound) nofun nofun)
  | rows start many =>
    exact (halts_ask_rows_iff engine l s start many).trans (halts_rows_iff _ _ l _ start many)

end

end NodeListing

/-! ## Walks are never given up -/

namespace Walk

variable (ev : Evaluator σ ν) (scope : Scope (Variable ν)) (bound : Nat)

theorem persists_descend (left : String) (node : Variable ν) (stack : List (Variable ν)) :
    Persists (descend ev scope left bound node stack) := by
  induction bound generalizing node stack with
  | zero => exact persists_unfinished
  | succ bound ih =>
    refine (persists_lift _).bind fun nothing => ?_
    split
    · exact persists_pure _
    · refine (persists_lift _).bind fun said => ?_
      cases said with
      | error e => exact persists_pure _
      | ok child => exact ih child (node :: stack)

theorem persists_visitLeftmost (left : String) (node : Variable ν) (stack : List (Variable ν)) :
    Persists (visitLeftmost ev scope bound left node stack) := by
  refine (persists_descend ev scope bound left node stack).bind fun r => ?_
  cases r with
  | error e => exact persists_pure _
  | ok stack => exact persists_pure _

theorem persists_next (links : Links) (w : Walk ν) : Persists (w.next ev scope bound links) := by
  obtain ⟨place, stack⟩ := w
  cases links with
  | list pointer => exact persists_lift _
  | tree left right =>
    cases place with
    | nowhere => exact persists_pure _
    | before node => exact persists_visitLeftmost ev scope bound left node stack
    | behind node =>
      refine (persists_lift _).bind fun said => ?_
      cases said with
      | error e => exact persists_pure _
      | ok child => exact persists_visitLeftmost ev scope bound left child stack

end Walk

namespace NodeListing

section

variable (ev : Evaluator σ ν) (options : Options) (bound : Nat)

theorem persists_walkOn (more : Nat) (l : NodeListing ν) : Persists (l.walkOn ev bound more) := by
  induction more generalizing l with
  | zero => exact persists_pure _
  | succ more ih =>
    unfold walkOn
    cases l.walk with
    | none => exact persists_pure _
    | some w =>
      dsimp only
      split
      · exact persists_pure _
      · refine (w.persists_next ev _ bound _).bind fun r => ?_
        rcases r with ⟨e | _ | node, w'⟩
        · exact persists_pure _
        · exact persists_pure _
        · exact ih _

theorem persists_walkTo (count : Nat) (l : NodeListing ν) : Persists (l.walkTo ev bound count) :=
  persists_walkOn ev bound _ l

theorem persists_count (l : NodeListing ν) : Persists (l.count ev options bound) := by
  unfold count
  cases missingPart? l.rule with
  | some part => exact persists_pure _
  | none =>
    refine (persists_lift _).bind fun head => ?_
    cases head with
    | error e => exact persists_pure _
    | ok head =>
      dsimp only
      split
      · refine (persists_lift _).bind fun size => ?_
        cases size with
        | error e => exact persists_pure _
        | ok n => exact persists_pure _
      · exact (persists_walkTo ev bound _ _).bind fun _ => persists_pure _

theorem persists_settled (l : NodeListing ν) : Persists (l.settled ev options bound) := by
  unfold settled
  cases l.standing with
  | none =>
    refine Persists.bind ((persists_lift _).bind fun applies => ?_) fun _ => persists_pure _
    rcases applies with e | _ | _
    · exact persists_pure _
    · exact persists_pure _
    · exact (persists_count ev options bound l).bind fun _ => persists_pure _
  | some standing =>
    dsimp only
    split
    · refine Persists.bind ?_ fun _ => persists_pure _
      unfold recounted
      split
      · exact (persists_walkTo ev bound _ _).bind fun _ => persists_pure _
      · exact persists_pure _
    · exact persists_pure _

theorem persists_rows (l : NodeListing ν) (start many : Nat) :
    Persists (l.rows ev options bound start many) := by
  refine (persists_settled ev options bound l).bind fun r => ?_
  obtain ⟨n | row, l'⟩ := r
  · exact (persists_walkTo ev bound _ _).bind fun _ =>
      (persists_lift _).bind fun _ => persists_pure _
  · exact persists_pure _

end

theorem persists_answering {act : Search σ ν (α × NodeListing ν)} (h : Persists act)
    (answer : α → β) : Persists (Listing.answering Listing.nodes answer act) :=
  h.bind fun _ => persists_pure _

/-- **A request to a list of nodes is never given up.** If it has no outcome, the bound is
what it meets. -/
theorem persists_ask (engine : Engine σ ν) (reach : Reach σ ν) (l : NodeListing ν) (q : Query) :
    Persists (q.ask engine reach (.nodes l)) := by
  have settled := persists_settled engine.evaluator engine.options reach.bound l
  cases q with
  | setLimit limit => exact persists_pure _
  | count => exact (persists_answering settled.ofTarget _).bind fun _ => persists_pure _
  | isSound => exact (persists_answering settled.ofTarget _).bind fun _ => persists_pure _
  | rows start many =>
    have windowed := persists_rows engine.evaluator engine.options reach.bound l start many
    exact (persists_answering windowed.ofTarget _).bind fun _ => persists_pure _

end NodeListing

/-! ## A pointer that leads around -/

namespace Ring

/-- A debugger with one node, whose left pointer leads back to it. -/
def debugger : Debugger Unit Unit where
  facts _ _ := { name := "it", typeName := "It", isTruthy := true, hierarchy := [] }
  pointee? _ _ := none
  snapshot? _ _ _ := none
  text _ _ _ := "it"
  mightHaveChildren _ _ := false
  children _ _ := []
  fast _ _ _ _ := pure (.ok ())
  full _ _ _ := pure (.error "")
  path _ _ := pure none

/-- The engine. -/
def engine : Engine Unit Unit := ⟨debugger, {}⟩

/-- A session. -/
def session : Session Unit Unit where
  target := ()
  book := { catalogue := {} }

/-- The tree, of which nothing was asked yet. -/
def tree : NodeListing Unit where
  context := ⟨.debugger (), {}⟩
  rule := { head := "root", links := .tree "left" "right", valueNode := some { value := "this" } }

theorem not_leftEnds (t : Unit) : ¬ LeftEnds engine.evaluator {} "left" (.debugger ()) t := by
  have around (t : Unit) : Walk.follow engine.evaluator {} (.debugger ()) "left" t =
      (.ok (.debugger ()), t) := Walk.follow_of_fast rfl (by decide +kernel) rfl rfl
  intro ends
  generalize here : Variable.debugger () = node at ends
  induction ends with
  | null nothing =>
    subst here
    cases nothing
  | @failed _ t _ _ _ said =>
    subst here
    cases (around t).symm.trans said
  | @down _ _ t _ _ said _ ih =>
    subst here
    cases (around t).symm.trans said
    exact ih rfl

theorem settlesDown :
    NodeListing.SettlesDown engine.evaluator engine.options tree () "left" (.debugger ()) () := by
  have head : tree.head engine.evaluator () = (.ok (.debugger ()), ()) :=
    Walk.follow_of_fast rfl (by decide +kernel) rfl rfl
  exact .first rfl rfl (.fromRoot (by decide +kernel) head rfl (.here rfl rfl .before))

/-- **The walk never comes to its first node**: neither the number of rows nor any window of
them is ever had. -/
theorem never_returns :
    (∀ bound, Query.count.ask engine (engine.reach bound) (.nodes tree) session =
        .error .bound) ∧
      ∀ start many bound,
        (Query.rows start many).ask engine (engine.reach bound) (.nodes tree) session =
          .error .bound := by
  have unsettled : ¬ ∀ left node t', NodeListing.SettlesDown engine.evaluator engine.options tree ()
      left node t' → LeftEnds engine.evaluator tree.context.scope left node t' :=
    fun h => not_leftEnds () (h _ _ _ settlesDown)
  constructor
  · intro bound
    refine (NodeListing.persists_ask engine _ tree _).meets fun r h => unsettled ?_
    exact (NodeListing.halts_settled_iff _ _ tree ()).mp
      ((NodeListing.halts_ask_count_iff engine tree session).mp ⟨r, bound, h⟩)
  · intro start many bound
    refine (NodeListing.persists_ask engine _ tree _).meets fun r h =>
      unsettled fun left node t' down => ?_
    exact (NodeListing.halts_rows_iff _ _ tree () start many).mp
      ((NodeListing.halts_ask_rows_iff engine tree session start many).mp ⟨r, bound, h⟩) left node t'
      (.settling nofun down)

end Ring

end WatchView
