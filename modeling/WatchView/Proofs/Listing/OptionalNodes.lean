import WatchView.Proofs.Listing.Agreement
import WatchView.Proofs.Listing.LeftEdges
/-!
# Optional lists of nodes that fail

A list of nodes opens in steps: it looks at its guard and its parts, evaluates
the head and then the declared size. Any of them may fail (`FailsToOpen`), and
then an optional list counts no children.

If the size fails the head was found already, and the walk stands before it.
Once the limit goes up the list goes on as one without a size. So it stays
empty for good exactly if no head was found or the head is null
(`FailsToOpen.stays_empty_iff`).
-/

namespace WatchView

open Bounded

variable {σ ν : Type}

/-! ## The first node -/

namespace Walk

variable (ev : Evaluator σ ν) (scope : Scope (Variable ν)) (links : Links) {bound : Nat}
  {head : Variable ν} {t : σ}

/-- A walk from a null pointer has no node. A tree looks one step down its left edge. -/
theorem next_of_null (null : (head.facts ev.debugger.toInspector t).isNull = true)
    (positive : 0 < bound) :
    (start head).next ev scope bound links t = .ok ((.ok none, done), t) := by
  cases links with
  | list pointer =>
    have asked : isNull ev head t = (true, t) := congrArg (·, t) null
    have visited : visit ev head t = ((.ok none, done), t) := by
      unfold visit
      rw [bind_apply, asked]
      rfl
    exact congrArg Except.ok visited
  | tree left right =>
    obtain ⟨b, rfl⟩ : ∃ b, bound = b + 1 := ⟨bound - 1, by omega⟩
    have down := descend_succ ev scope left b head [] t
    rw [if_pos null] at down
    exact bind_of_eq_ok down

/-- On the way down nothing is taken off the stack. -/
theorem ensures_descend_suffix (left : String) (bound : Nat) (node : Variable ν)
    (stack : List (Variable ν)) (t : σ) :
    Ensures (descend ev scope left bound node stack) t fun r _ =>
      ∀ out, r = .ok out → stack <:+ out := by
  induction bound generalizing node stack t with
  | zero => exact ensures_unfinished
  | succ b ih =>
    intro r t' ended
    rw [descend_succ] at ended
    split at ended
    · cases ended
      rintro out ⟨⟩
      exact List.suffix_rfl
    · rcases said : follow ev scope node left t with ⟨e | child, t₁⟩
      · rw [said] at ended
        cases ended
        exact nofun
      · rw [said] at ended
        intro out same
        exact (List.suffix_cons node stack).trans (ih child (node :: stack) t₁ r t' ended out same)

/-- A walk from anything else has a node or fails. -/
theorem ensures_next_ne_none (there : (head.facts ev.debugger.toInspector t).isNull = false) :
    Ensures ((start head).next ev scope bound links) t fun r _ => r.1 ≠ .ok none := by
  cases links with
  | list pointer =>
    have asked : isNull ev head t = (false, t) := congrArg (·, t) there
    have visited : visit ev head t = ((.ok (some head), { place := .behind head }), t) := by
      unfold visit
      rw [bind_apply, asked]
      rfl
    refine ensures_of_eq (congrArg Except.ok visited) ?_
    exact nofun
  | tree left right =>
    refine Ensures.bind (P := fun r _ => r ≠ .ok []) (fun r t' ended => ?_) fun r t' filled => ?_
    · cases bound with
      | zero => cases ended
      | succ b =>
        rw [descend_succ, there, if_neg Bool.false_ne_true] at ended
        rcases said : follow ev scope head left t with ⟨e | child, t₁⟩
        · rw [said] at ended
          cases ended
          exact nofun
        · rw [said] at ended
          rintro rfl
          have kept := ensures_descend_suffix ev scope left b child [head] t₁ _ _ ended [] rfl
          exact absurd (List.suffix_nil.mp kept) (List.cons_ne_nil _ _)
    · rcases r with e | _ | ⟨node, stack⟩
      · exact ensures_pure_iff.mpr nofun
      · exact absurd rfl filled
      · exact ensures_pure_iff.mpr nofun

end Walk

namespace NodeListing

/-! ## Openings that fail -/

/-- `FailsToOpen ev l t e l' t'`: a list that is asked for the first time fails, and
the failure leaves it as `l'`. -/
inductive FailsToOpen (ev : Evaluator σ ν) (l : NodeListing ν) (t : σ) :
    ExpandError → NodeListing ν → σ → Prop
  /-- The guard cannot be evaluated. -/
  | guard {t' : σ} {e : EvalError}
      (asked : l.context.applies ev l.rule.guard t = (.error e, t')) :
      FailsToOpen ev l t (.evaluation e) l t'
  /-- A part is missing. -/
  | missing {t' : σ} {part : String}
      (asked : l.context.applies ev l.rule.guard t = (.ok true, t'))
      (absent : missingPart? l.rule = some part) : FailsToOpen ev l t (.missing part) l t'
  /-- The head cannot be evaluated. -/
  | headless {t' t'' : σ} {e : EvalError}
      (asked : l.context.applies ev l.rule.guard t = (.ok true, t'))
      (complete : missingPart? l.rule = none) (failed : l.head ev t' = (.error e, t'')) :
      FailsToOpen ev l t (.evaluation e) l t''
  /-- There is a head, but the size that is declared cannot be evaluated. -/
  | unsized {t' t'' t''' : σ} {head : Variable ν} {size : String} {e : ExpandError}
      (asked : l.context.applies ev l.rule.guard t = (.ok true, t'))
      (complete : missingPart? l.rule = none) (headed : l.head ev t' = (.ok head, t''))
      (declared : declared? l.rule = some size)
      (failed : ev.declaredSize l.context.owner l.context.scope [{ value := size }] t'' =
        (.error e, t''')) :
      FailsToOpen ev l t e { l with walk := some (.start head) } t'''

/-- A list that counts no children. -/
def countingNone (l : NodeListing ν) : NodeListing ν := { l with standing := some (.counted 0) }

section

variable {ev : Evaluator σ ν} {options : Options} {bound : Nat} {l l' : NodeListing ν} {t t' : σ}
  {e : ExpandError}

/-- A failure leaves nothing behind but the head. -/
theorem FailsToOpen.eq_walk (h : FailsToOpen ev l t e l' t') :
    l' = { l with walk := l'.walk } ∧
      (l'.walk = l.walk ∨ ∃ head, l'.walk = some (.start head)) := by
  cases h with
  | guard => exact ⟨rfl, .inl rfl⟩
  | missing => exact ⟨rfl, .inl rfl⟩
  | headless => exact ⟨rfl, .inl rfl⟩
  | unsized => exact ⟨rfl, .inr ⟨_, rfl⟩⟩

/-- Either the guard fails, or the list applies and the count fails. -/
theorem FailsToOpen.guard_or_count (h : FailsToOpen ev l t e l' t') :
    (∃ e', e = .evaluation e' ∧ l' = l ∧
      l.context.applies ev l.rule.guard t = (.error e', t')) ∨
    ∃ t₁, l.context.applies ev l.rule.guard t = (.ok true, t₁) ∧
      ∀ options bound, l.count ev options bound t₁ = .ok ((.error e, l'), t') := by
  cases h with
  | guard asked => exact .inl ⟨_, rfl, rfl, asked⟩
  | missing asked absent =>
    refine .inr ⟨_, asked, fun options bound => ?_⟩
    unfold count
    rw [absent]
    rfl
  | headless asked complete failed =>
    refine .inr ⟨_, asked, fun options bound => ?_⟩
    unfold count
    rw [complete]
    dsimp only
    rw [lift_bind_apply, failed]
    rfl
  | unsized asked complete headed declared failed =>
    refine .inr ⟨_, asked, fun options bound => ?_⟩
    unfold declared? at declared
    unfold count
    rw [complete]
    dsimp only
    rw [lift_bind_apply, headed]
    dsimp only
    rw [declared]
    dsimp only
    rw [lift_bind_apply, failed]
    rfl

/-- **An optional list that fails to open** counts no children. -/
theorem FailsToOpen.settled_eq (h : FailsToOpen ev l t e l' t') (fresh : l.standing = none)
    (optional : l.rule.guard.optional = true) :
    l.settled ev options bound t = .ok ((.counted 0, l'.countingNone), t') := by
  have passed (e : ExpandError) : (.ofResult l.rule.guard (.error e) : Standing ν) = .counted 0 :=
    if_pos optional
  unfold settled Standing.settle
  rw [fresh]
  dsimp only
  rw [bind_assoc, lift_bind_apply]
  rcases h.guard_or_count with ⟨e', rfl, rfl, asked⟩ | ⟨t₁, asked, failed⟩
  · rw [asked]
    dsimp only
    rw [passed, pure_bind]
    rfl
  · rw [asked]
    dsimp only
    rw [bind_assoc, bind_of_eq_ok (failed options bound)]
    dsimp only
    rw [passed, pure_bind]
    rfl

end

/-! ## Lists that show nothing -/

/-- A list that counts no children and found no nodes. -/
structure Blank (l : NodeListing ν) : Prop where
  standing : l.standing = some (.counted 0)
  nodes : l.nodes = #[]
  obstacle : l.obstacle = none
  size : l.size = none

/-- The walk of a list leads to no node: there is none, or it has ended, or it
begins at a null pointer. -/
def Stuck (d : Inspector σ ν) (t : σ) (l : NodeListing ν) : Prop :=
  l.walk = none ∨ l.exhausted = true ∨
    ∃ head, l.walk = some (.start head) ∧ (head.facts d t).isNull = true

section

variable {ev : Evaluator σ ν} {options : Options} {bound : Nat} {l l' : NodeListing ν} {t : σ}

theorem Blank.found_eq (h : l.Blank) : l.found = 0 := by
  unfold found
  rw [h.nodes, h.obstacle]
  rfl

/-- A walk that leads to no node finds none. -/
theorem Blank.exists_walkOn (h : l.Blank) (stuck : l.Stuck ev.debugger.toInspector t)
    (positive : 0 < bound) (more : Nat) :
    ∃ l', walkOn ev bound more l t = .ok (l', t) ∧ l'.Blank ∧
      l'.Stuck ev.debugger.toInspector t := by
  by_cases idle : l.walk = none ∨ l.exhausted = true
  · exact ⟨l, by rw [walkOn_idle ev _ _ idle]; rfl, h, stuck⟩
  · obtain ⟨begun, open_⟩ := not_or.mp idle
    obtain ⟨head, walk, null⟩ := (stuck.resolve_left begun).resolve_left open_
    cases more with
    | zero => exact ⟨l, rfl, h, stuck⟩
    | succ more =>
      refine ⟨l.afterNext .done (.ok none), ?_, ⟨h.standing, h.nodes, h.obstacle, h.size⟩,
        .inr (.inl rfl)⟩
      rw [walkOn_succ ev _ _ walk (Bool.eq_false_iff.mpr open_)]
      exact bind_of_eq_ok (Walk.next_of_null ev _ _ null positive)

/-- A list that stands by its answer gives it again. -/
theorem Blank.settled_of_current (h : l.Blank) (current : l.stale = false) :
    l.settled ev options bound t = .ok ((.counted 0, l), t) := by
  have same : { l with standing := some (.counted 0) } = l := by rw [← h.standing]
  unfold settled
  rw [h.standing]
  dsimp only
  rw [if_neg (by rw [current]; exact Bool.false_ne_true), pure_bind]
  dsimp only
  rw [same]
  rfl

variable (options) in
/-- Counted again, a list whose walk leads to no node still counts none. -/
theorem Blank.exists_recounted (h : l.Blank) (stuck : l.Stuck ev.debugger.toInspector t)
    (positive : 0 < bound) :
    ∃ l', l.recounted ev options bound (.counted 0) t = .ok ((.counted 0, l'), t) ∧ l'.Blank ∧
      l'.Stuck ev.debugger.toInspector t := by
  have sought : ((.counted 0 : Standing ν).isSound && l.size.isNone && l.walk.isSome) =
      l.walk.isSome := by
    rw [h.size]
    rfl
  unfold recounted
  rw [sought]
  cases walk : l.walk.isSome with
  | false => exact ⟨l, rfl, h, stuck⟩
  | true =>
    obtain ⟨l', walked, h', stuck'⟩ :=
      h.exists_walkOn stuck positive (l.effectiveLimit options - l.nodes.size)
    refine ⟨l', ?_, h', stuck'⟩
    rw [if_pos rfl]
    refine (bind_of_eq_ok walked).trans ?_
    rw [h'.found_eq]
    rfl

variable (ev options) in
/-- Asked whatever was asked before, a list whose walk leads to no node counts none. -/
theorem Blank.exists_settled (h : l.Blank) (stuck : l.Stuck ev.debugger.toInspector t)
    (positive : 0 < bound) :
    ∃ l', l.settled ev options bound t = .ok ((.counted 0, l'), t) ∧ l'.Blank ∧
      l'.Stuck ev.debugger.toInspector t := by
  cases stale : l.stale with
  | false => exact ⟨l, h.settled_of_current stale, h, stuck⟩
  | true =>
    have h₁ : ({ l with standing := some (.counted 0), stale := false } : NodeListing ν).Blank :=
      ⟨rfl, h.nodes, h.obstacle, h.size⟩
    obtain ⟨l', recounts, h', stuck'⟩ := h₁.exists_recounted options stuck positive
    refine ⟨{ l' with standing := some (.counted 0) }, ?_,
      ⟨rfl, h'.nodes, h'.obstacle, h'.size⟩, stuck'⟩
    unfold settled
    rw [h.standing]
    dsimp only
    rw [if_pos stale]
    exact bind_of_eq_ok recounts

/-- No row is made of a list that counts none. -/
theorem rows_of_settled_empty
    (settles : l.settled ev options bound t = .ok ((.counted 0, l'), t)) (start many : Nat) :
    l.rows ev options bound start many t = .ok (([], l'), t) := by
  have walked : l'.walkTo ev bound (min (windowEnd start many) 0) = pure l' := by
    unfold walkTo
    rw [Nat.min_zero, Nat.zero_sub]
    rfl
  have positions : windowOf 0 start many = [] := by
    refine List.eq_nil_of_length_eq_zero ?_
    rw [length_windowOf, Nat.min_zero, Nat.zero_sub]
  unfold rows
  rw [bind_of_eq_ok settles]
  dsimp only
  rw [walked, pure_bind, positions]
  rfl

/-- What is replied by a list that counts none. -/
theorem ask_of_settled_empty {engine : Engine σ ν} {reach : Reach σ ν} {s : Session σ ν}
    (settles : l.settled engine.evaluator engine.options reach.bound s.target =
      .ok ((.counted 0, l'), s.target)) {q : Query} (asks : ∀ limit, q ≠ .setLimit limit) :
    q.ask engine reach (.nodes l) s = .ok ((q.tell [] true, .nodes l'), s) := by
  have settled : Search.ofTarget (l.settled engine.evaluator engine.options reach.bound) s =
      .ok ((.counted 0, l'), s) := ofTarget_eq_ok_iff.mpr ⟨_, settles, rfl⟩
  cases q with
  | setLimit limit => exact absurd rfl (asks limit)
  | count =>
    have counted : (Listing.nodes l).countWith engine reach s = _ := bind_of_eq_ok settled
    exact bind_of_eq_ok counted
  | isSound =>
    have found : (Listing.nodes l).isSoundWith engine reach s = _ := bind_of_eq_ok settled
    exact bind_of_eq_ok found
  | rows start many =>
    have shows : Search.ofTarget
        (l.rows engine.evaluator engine.options reach.bound start many) s = .ok (([], l'), s) :=
      ofTarget_eq_ok_iff.mpr ⟨_, rows_of_settled_empty settles start many, rfl⟩
    have shown : (Listing.nodes l).rowsWith engine reach start many s = _ := bind_of_eq_ok shows
    have told : (Query.rows start many).tell [] true = (.rows [] : Query.Reply ν) :=
      congrArg Query.Reply.rows (clip_nil start many)
    rw [told]
    exact bind_of_eq_ok shown

end

/-! ## Requests to a list that shows nothing -/

/-- Asked for so many children before, a list is never given a larger limit. -/
def NeverRaised : Nat → List Query → Prop
  | _, [] => True
  | limit, .setLimit limit' :: qs => limit' ≤ limit ∧ NeverRaised limit' qs
  | limit, _ :: qs => NeverRaised limit qs

theorem NeverRaised.tail {limit : Nat} {q : Query} {qs : List Query}
    (h : NeverRaised limit (q :: qs)) (asks : ∀ limit, q ≠ .setLimit limit) :
    NeverRaised limit qs := by
  cases q with
  | setLimit limit' => exact absurd rfl (asks limit')
  | count => exact h
  | rows start many => exact h
  | isSound => exact h

/-- A list after it was given a limit. -/
def limited (limit : Nat) (l : NodeListing ν) : NodeListing ν :=
  { l with limit := limit, stale := l.stale || (l.limit < limit && l.standing.isSome) }

section

variable {engine : Engine σ ν} {reach : Reach σ ν} {l : NodeListing ν} {s : Session σ ν}

theorem Blank.limited (h : l.Blank) (limit : Nat) : (l.limited limit).Blank :=
  ⟨h.standing, h.nodes, h.obstacle, h.size⟩

/-- **As long as no limit goes up** a list that counts none stays as it is. -/
theorem Blank.askAll_of_neverRaised (h : l.Blank) (current : l.stale = false) {qs : List Query}
    (steady : NeverRaised l.limit qs) :
    ∃ l', Query.askAll engine reach qs (.nodes l) s =
      .ok ((qs.map (Query.tell [] true), l'), s) := by
  have told := Query.askAll_eq_tell engine reach [] true
    (fun qs l s' => s' = s ∧ ∃ m : NodeListing ν, l = .nodes m ∧ m.Blank ∧
      m.stale = false ∧ NeverRaised m.limit qs)
    ?_ qs ⟨rfl, l, rfl, h, current, steady⟩
  · obtain ⟨l', s', asked, rfl, -⟩ := told
    exact ⟨l', asked⟩
  · rintro q qs _ s₁ ⟨rfl, m, rfl, blank, current, steady⟩
    by_cases sets : ∃ limit, q = .setLimit limit
    · obtain ⟨limit, rfl⟩ := sets
      obtain ⟨low, steady⟩ := steady
      refine ⟨_, s₁, rfl, rfl, m.limited limit, rfl, blank.limited limit, ?_, steady⟩
      unfold NodeListing.limited
      dsimp only
      rw [current, decide_eq_false (Nat.not_lt.mpr low)]
      rfl
    · have asks := not_exists.mp sets
      exact ⟨_, s₁, ask_of_settled_empty (blank.settled_of_current current) asks, rfl, m, rfl,
        blank, current, steady.tail asks⟩

variable (reach) in
/-- **A list whose walk leads to no node** counts none, whatever its limit. -/
theorem Blank.askAll_of_stuck (h : l.Blank) (stuck : l.Stuck engine.inspector s.target)
    (positive : 0 < reach.bound) (qs : List Query) :
    ∃ l', Query.askAll engine reach qs (.nodes l) s =
      .ok ((qs.map (Query.tell [] true), l'), s) := by
  have told := Query.askAll_eq_tell engine reach [] true
    (fun _ l s' => s' = s ∧ ∃ m : NodeListing ν, l = .nodes m ∧ m.Blank ∧
      m.Stuck engine.inspector s.target)
    ?_ qs ⟨rfl, l, rfl, h, stuck⟩
  · obtain ⟨l', s', asked, rfl, -⟩ := told
    exact ⟨l', asked⟩
  · rintro q _ _ s₁ ⟨rfl, m, rfl, blank, stuck⟩
    by_cases sets : ∃ limit, q = .setLimit limit
    · obtain ⟨limit, rfl⟩ := sets
      exact ⟨_, s₁, rfl, rfl, m.limited limit, rfl, blank.limited limit, stuck⟩
    · obtain ⟨m', settles, blank', stuck'⟩ :=
        blank.exists_settled engine.evaluator engine.options stuck positive
      exact ⟨_, s₁, ask_of_settled_empty settles (not_exists.mp sets), rfl, m', rfl, blank', stuck'⟩

end

/-! ## When the list goes on -/

section

variable {ev : Evaluator σ ν} {options : Options} {bound more : Nat} {l : NodeListing ν} {t : σ}
  {head : Variable ν}

/-- A walk from a pointer that is not null finds a node or fails. -/
theorem ensures_walkOn_found_pos (walk : l.walk = some (.start head))
    (open_ : l.exhausted = false)
    (there : (head.facts ev.debugger.toInspector t).isNull = false) (positive : 0 < more) :
    Ensures (walkOn ev bound more l) t fun l' _ => 0 < l'.found := by
  obtain ⟨more, rfl⟩ : ∃ m, more = m + 1 := ⟨more - 1, by omega⟩
  rw [walkOn_succ ev _ _ walk open_]
  refine (Walk.ensures_next_ne_none ev _ _ there).bind ?_
  rintro ⟨e | _ | node, w⟩ t' some
  · exact ensures_pure_iff.mpr (Nat.succ_pos _)
  · exact absurd rfl some
  · refine (ensures_walkOn ev bound more _ t').mono fun l' _ walked => ?_
    have one : 0 < (l.afterNext w (.ok (.some node))).found := by
      unfold found afterNext
      dsimp only
      rw [Array.size_push]
      omega
    exact Nat.lt_of_lt_of_le one walked.more

/-- Counted again, a list whose head is there does not stay empty. -/
theorem Blank.ensures_settled_pos (h : l.Blank) (stale : l.stale = true) (limit : 0 < l.limit)
    (walk : l.walk = some (.start head)) (open_ : l.exhausted = false)
    (there : (head.facts ev.debugger.toInspector t).isNull = false) :
    Ensures (l.settled ev options bound) t fun r _ => 0 < r.1.count := by
  have sought : ((.counted 0 : Standing ν).isSound && l.size.isNone && l.walk.isSome) = true := by
    rw [h.size, walk]
    rfl
  have many : 0 < l.effectiveLimit options - l.nodes.size := by
    unfold effectiveLimit
    rw [h.nodes, if_neg (by omega)]
    exact limit
  unfold settled
  rw [h.standing]
  dsimp only
  rw [if_pos stale]
  unfold recounted
  dsimp only
  rw [if_pos sought]
  refine Ensures.bind (P := fun r _ => 0 < r.1.count) ?_ fun r _ pos => ensures_pure_iff.mpr pos
  refine Ensures.bind (P := fun l' _ => 0 < l'.found) ?_ fun l' _ pos => ensures_pure_iff.mpr pos
  exact ensures_walkOn_found_pos walk open_ there many

/-- Given a larger limit, it does not count none again. -/
theorem Blank.askAll_of_head {engine : Engine σ ν} {reach : Reach σ ν} {s s' : Session σ ν}
    {l' : Listing ν} (h : l.Blank) (walk : l.walk = some (.start head))
    (open_ : l.exhausted = false) (there : (head.facts engine.inspector s.target).isNull = false) :
    Query.askAll engine reach [.setLimit (l.limit + 1), .count] (.nodes l) s ≠
      .ok (([.done, .count 0], l'), s') := by
  intro ended
  have raised : (l.limited (l.limit + 1)).stale = true := by
    unfold NodeListing.limited
    dsimp only
    rw [decide_eq_true (Nat.lt_succ_self _), h.standing]
    exact Bool.or_true _
  have parts : Query.askAll engine reach [.setLimit (l.limit + 1), .count] (.nodes l) =
      (Listing.nodes (l.limited (l.limit + 1))).countWith engine reach >>=
        fun r => pure ([.done, .count r.1], r.2) := by
    simp only [Query.askAll, Query.ask, pure_bind, bind_assoc]
    rfl
  have counts : Ensures ((Listing.nodes (l.limited (l.limit + 1))).countWith engine reach) s
      fun r _ => 0 < r.1 := by
    refine Ensures.bind (P := fun r _ => 0 < r.1.count) (ensures_ofTarget_iff.mpr ?_)
      fun r _ pos => ensures_pure_iff.mpr pos
    exact (h.limited _).ensures_settled_pos raised (Nat.succ_pos _) walk open_ there
  rw [parts] at ended
  obtain ⟨⟨⟨n, l₁⟩, s₁⟩, counted, rest⟩ := bind_eq_ok_iff.mp ended
  have pos : 0 < n := counts _ _ counted
  cases rest
  exact absurd pos (Nat.lt_irrefl 0)

end

/-- **When an optional list that failed stays empty.** It counts no children. Then it may
be asked anything, with any debugger: while no limit goes up, it counts none, shows
none and evaluates nothing, since the session is as it was. Whatever the limits,
that is so exactly if no head was found before the failure, or the head is null.
Only a list whose size failed has a head: it goes on with its walk. -/
theorem FailsToOpen.stays_empty_iff {engine : Engine σ ν} {c : Context ν} {rule : NodeRule}
    {limit : Nat} {s : Session σ ν} {e : ExpandError} {l' : NodeListing ν} {t' : σ}
    (optional : rule.guard.optional = true)
    (fails : FailsToOpen engine.evaluator { context := c, rule, limit } s.target e l' t') :
    (∀ bound, settled engine.evaluator engine.options bound { context := c, rule, limit }
      s.target = .ok ((.counted 0, l'.countingNone), t')) ∧
    (∀ (engine' : Engine σ ν) (reach : Reach σ ν) (s' : Session σ ν) (qs : List Query),
      NeverRaised limit qs →
      ∃ l'', Query.askAll engine' reach qs (.nodes l'.countingNone) s' =
        .ok ((qs.map (Query.tell [] true), l''), s')) ∧
    ∀ (engine' : Engine σ ν) (s' : Session σ ν),
      (∀ qs, ∃ l'', Ends
        (fun b => Query.askAll engine' (engine'.reach b) qs (.nodes l'.countingNone)) s'
        ((qs.map (Query.tell [] true), l''), s')) ↔
      ∀ head, l'.walk = some (.start head) →
        (head.facts engine'.inspector s'.target).isNull = true := by
  -- it is as new, but for the walk if the size failed
  obtain ⟨same, walks⟩ := fails.eq_walk
  have blank : l'.countingNone.Blank := by
    rw [same]
    exact ⟨rfl, rfl, rfl, rfl⟩
  have open_ : l'.countingNone.exhausted = false := by
    rw [same]
    rfl
  have current : l'.countingNone.stale = false := by
    rw [same]
    rfl
  have limited : l'.countingNone.limit = limit := by
    rw [same]
    rfl
  refine ⟨fun bound => fails.settled_eq rfl optional, fun engine' reach s' qs steady => ?_,
    fun engine' s' => ⟨fun empty head walk => ?_, fun null qs => ?_⟩⟩
  · exact blank.askAll_of_neverRaised current (limited ▸ steady)
  · by_contra there
    -- a higher limit makes it count again, and the head that is there is found
    obtain ⟨l'', b, ended⟩ := empty [.setLimit (l'.countingNone.limit + 1), .count]
    exact blank.askAll_of_head walk open_ (Bool.eq_false_iff.mpr there) ended
  · have stuck : l'.countingNone.Stuck engine'.inspector s'.target := by
      rcases walks with none | ⟨head, walk⟩
      · exact .inl none
      · exact .inr (.inr ⟨head, walk, null head walk⟩)
    obtain ⟨l'', asked⟩ := blank.askAll_of_stuck (engine'.reach 2) stuck Nat.one_pos qs
    exact ⟨l'', 2, asked⟩

end NodeListing

namespace OneVariable

/-- An optional linked list that does not say where it begins. -/
def headless : NodeRule where
  guard := { optional := true }
  head := ""
  links := .list "next"
  valueNode := some { value := "this" }

theorem headless_stays_empty :
    NodeListing.FailsToOpen engine.evaluator { context, rule := headless } ()
        (.missing "HeadPointer") { context, rule := headless } () ∧
      ∃ l', Query.askAll engine (engine.reach 1) [.count, .rows 0 9]
        (.nodes (NodeListing.countingNone { context, rule := headless })) (session #[]) =
          .ok (([.count 0, .rows []], l'), session #[]) := by
  have fails : NodeListing.FailsToOpen engine.evaluator { context, rule := headless } ()
      (.missing "HeadPointer") { context, rule := headless } () :=
    .missing rfl (by decide)
  exact ⟨fails, (NodeListing.FailsToOpen.stays_empty_iff (s := session #[]) rfl fails).2.1 engine
    (engine.reach 1) (session #[]) [.count, .rows 0 9] trivial⟩

end OneVariable

namespace Fickle

/-- An optional list without end whose declared size cannot be evaluated. -/
def brokenSize : NodeListing Bool where
  context := ⟨.debugger false, {}⟩
  rule :=
    { guard := { optional := true }
      size := some "gone"
      head := "it"
      links := .list "next"
      valueNode := some { value := "this" } }

/-- **An optional list that failed may go on**: it counts no children, and two once
it is to look for two. -/
theorem brokenSize_goes_on :
    (Query.askAll engine (engine.reach 20) [.count, .setLimit 2, .count] (.nodes brokenSize)
      session).map (fun r => r.1.1.filterMap Query.Reply.count?) = .ok [0, 2] := by
  decide +kernel

end Fickle

end WatchView
