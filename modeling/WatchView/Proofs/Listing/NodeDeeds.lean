import WatchView.Proofs.Listing.Queries
import WatchView.Proofs.Listing.Routes
/-!
# What a list of nodes does

Asked for anything, a list of nodes opens if it has not, goes on with its walk
and makes rows of nodes (`Works`). It opens once, so its guard, its head and its
size are evaluated at most once (`Works.opens_once`); no pointer is followed
twice (`Works.followed_nodup`) and no row is made twice (`Works.made_nodup`).

The rows it is known to have stay, and their number does not shrink
(`Sound.ensures_ask`).
-/

namespace WatchView.NodeListing

open Bounded

variable {σ ν : Type}

/-! ## Deeds -/

/-- What a list of nodes does with the debugger. -/
inductive Deed where
  /-- It looks at its guard. -/
  | guard
  /-- It evaluates the head. -/
  | head
  /-- It evaluates the declared size. -/
  | size
  /-- It follows pointers to come to the next node. -/
  | next (followed : List Route)
  /-- It makes the row of a node. -/
  | row (index : Nat)

namespace Deed

/-- Whether this is done to open a list. -/
def opens : Deed → Bool
  | guard => true
  | head => true
  | size => true
  | next _ => false
  | row _ => false

/-- The pointers that were followed. -/
def followed : Deed → List Route
  | next followed => followed
  | _ => []

/-- The position of the row that was made. -/
def made? : Deed → Option Nat
  | row index => some index
  | _ => none

end Deed

/-- The list after its walk came to this. -/
def afterNext (l : NodeListing ν) (w : Walk ν) :
    Except EvalError (Option (Variable ν)) → NodeListing ν
  | .ok (some node) => { l with walk := some w, nodes := l.nodes.push node }
  | .ok none => { l with walk := some w, exhausted := true }
  | .error e =>
    { l with walk := some w, exhausted := true, obstacle := some (obstacleRow l.rule.guard e) }

/-- The list with the size that was evaluated, if it is one. -/
def withSize (l : NodeListing ν) : Except ExpandError Nat → NodeListing ν
  | .ok n => { l with size := some n }
  | .error _ => l

/-- The size a rule declares. -/
def declared? (rule : NodeRule) : Option String :=
  rule.size.filter fun size => !Text.isBlankText size

/-- `Opening ev l t deeds l' t'`: a list that is asked for the first time comes to
its head, or not so far. -/
inductive Opening (ev : Evaluator σ ν) (l : NodeListing ν) (t : σ) :
    List Deed → NodeListing ν → σ → Prop
  /-- The list does not apply, or that cannot be said. -/
  | closed {a : Except EvalError Bool} {t' : σ}
      (asked : l.context.applies ev l.rule.guard t = (a, t')) : Opening ev l t [.guard] l t'
  /-- The head cannot be evaluated. -/
  | headless {t' t'' : σ} {e : EvalError}
      (asked : l.context.applies ev l.rule.guard t = (.ok true, t'))
      (failed : l.head ev t' = (.error e, t'')) : Opening ev l t [.guard, .head] l t''
  /-- There is a head, and no size. -/
  | begins {t' t'' : σ} {head : Variable ν}
      (asked : l.context.applies ev l.rule.guard t = (.ok true, t'))
      (headed : l.head ev t' = (.ok head, t'')) (undeclared : declared? l.rule = none) :
      Opening ev l t [.guard, .head] { l with walk := some (.start head) } t''
  /-- There are a head and a size. -/
  | sized {t' t'' t''' : σ} {head : Variable ν} {size : String} {r : Except ExpandError Nat}
      (asked : l.context.applies ev l.rule.guard t = (.ok true, t'))
      (headed : l.head ev t' = (.ok head, t'')) (declared : declared? l.rule = some size)
      (evaluated : ev.declaredSize l.context.owner l.context.scope [{ value := size }] t'' =
        (r, t''')) :
      Opening ev l t [.guard, .head, .size] (withSize { l with walk := some (.start head) } r) t'''

/-- `Works ev c deeds c'`: a list of nodes, with the routes of its walk and the
debugger, goes from `c` to `c'` by these deeds. Its limit and its standing are
only noted. -/
inductive Works (ev : Evaluator σ ν) :
    NodeListing ν × Routes × σ → List Deed → NodeListing ν × Routes × σ → Prop
  | rests {c : NodeListing ν × Routes × σ} : Works ev c [] c
  | noted {l : NodeListing ν} {R : Routes} {t : σ} {limit : Nat} {standing : Option (Standing ν)}
      {stale : Bool} {deeds : List Deed} {c : NodeListing ν × Routes × σ}
      (stays : l.standing.isSome → standing.isSome)
      (others : Works ev ({ l with limit, standing, stale }, R, t) deeds c) :
      Works ev (l, R, t) deeds c
  /-- A list that has no standing opens. -/
  | opens {l l' : NodeListing ν} {R : Routes} {t t' : σ} {first deeds : List Deed}
      {standing : Standing ν} {c : NodeListing ν × Routes × σ} (fresh : l.standing = none)
      (opening : Opening ev l t first l' t')
      (others : Works ev ({ l' with standing := some standing }, {}, t') deeds c) :
      Works ev (l, R, t) (first ++ deeds) c
  /-- Its walk goes on from where it is. -/
  | next {l : NodeListing ν} {R R' : Routes} {t t' : σ} {w w' : Walk ν} {followed : List Route}
      {r : Except EvalError (Option (Variable ν))} {deeds : List Deed}
      {c : NodeListing ν × Routes × σ} (walk : l.walk = some w) (open_ : l.exhausted = false)
      (advances : w.Advances ev l.context.scope l.rule.links R t followed r w' R' t')
      (others : Works ev (l.afterNext w' r, R', t') deeds c) :
      Works ev (l, R, t) (.next followed :: deeds) c
  /-- A row that is not kept is made and kept. -/
  | row {l : NodeListing ν} {R : Routes} {t t' : σ} {i : Nat} {n row : Variable ν}
      {deeds : List Deed} {c : NodeListing ν × Routes × σ} (node : l.nodes[i]? = some n)
      (fresh : l.kept.row? i = none)
      (made : nodeRow ev l.context l.rule.valueNode n i t = (row, t'))
      (others : Works ev ({ l with kept := (i, row) :: l.kept }, R, t') deeds c) :
      Works ev (l, R, t) (.row i :: deeds) c

namespace Works

variable {ev : Evaluator σ ν} {c c' c'' : NodeListing ν × Routes × σ} {deeds deeds' : List Deed}

theorem trans (h : Works ev c deeds c') (h' : Works ev c' deeds' c'') :
    Works ev c (deeds ++ deeds') c'' := by
  induction h with
  | rests => exact h'
  | noted stays _ ih => exact .noted stays (ih h')
  | opens fresh opening _ ih =>
    rw [List.append_assoc]
    exact .opens fresh opening (ih h')
  | next walk open_ advances _ ih => exact .next walk open_ advances (ih h')
  | row node fresh made _ ih => exact .row node fresh made (ih h')

end Works

theorem standing_afterNext (l : NodeListing ν) (w : Walk ν)
    (r : Except EvalError (Option (Variable ν))) :
    (l.afterNext w r).standing = l.standing ∧ (l.afterNext w r).walk = some w ∧
      (l.afterNext w r).kept = l.kept := by
  rcases r with e | _ | node <;> exact ⟨rfl, rfl, rfl⟩

/-! ## What is done once -/

theorem Opening.opens {ev : Evaluator σ ν} {l l' : NodeListing ν} {t t' : σ} {deeds : List Deed}
    (h : Opening ev l t deeds l' t') :
    deeds.filter Deed.opens <+: [.guard, .head, .size] ∧ deeds.flatMap Deed.followed = [] ∧
      deeds.filterMap Deed.made? = [] ∧ l'.kept = l.kept ∧
      (l'.walk = l.walk ∨ ∃ head, l'.walk = some (.start head)) := by
  cases h with
  | closed => exact ⟨⟨[.head, .size], rfl⟩, rfl, rfl, rfl, .inl rfl⟩
  | headless => exact ⟨⟨[.size], rfl⟩, rfl, rfl, rfl, .inl rfl⟩
  | begins => exact ⟨⟨[.size], rfl⟩, rfl, rfl, rfl, .inr ⟨_, rfl⟩⟩
  | @sized _ _ _ _ _ r => cases r <;> exact ⟨⟨[], rfl⟩, rfl, rfl, rfl, .inr ⟨_, rfl⟩⟩

section Once

variable {ev : Evaluator σ ν} {c c' : NodeListing ν × Routes × σ} {deeds : List Deed}

/-- A list that has a standing does not open. -/
theorem Works.not_opens (h : Works ev c deeds c') (known : c.1.standing.isSome) :
    deeds.filter Deed.opens = [] := by
  induction h with
  | rests => rfl
  | noted stays _ ih => exact ih (stays known)
  | opens fresh _ _ _ =>
    rw [fresh] at known
    cases known
  | next _ _ _ _ ih => exact ih ((congrArg Option.isSome (standing_afterNext _ _ _).1).trans known)
  | row _ _ _ _ ih => exact ih known

/-- **A list opens once**: its guard, its head and its size are evaluated at most
once, in this order. -/
theorem Works.opens_once (h : Works ev c deeds c') :
    deeds.filter Deed.opens <+: [.guard, .head, .size] := by
  induction h with
  | rests => exact List.nil_prefix
  | noted _ _ ih => exact ih
  | opens _ opening others _ =>
    rw [List.filter_append, others.not_opens rfl, List.append_nil]
    exact opening.opens.1
  | next _ _ _ _ ih => exact ih
  | row _ _ _ _ ih => exact ih

/-- A list that has followed these pointers and is not at any of them. -/
structure Treads (followed : List Route) (l : NodeListing ν) (R : Routes) : Prop where
  nodup : followed.Nodup
  fresh : l.standing = none → followed = [] ∧ l.walk = none
  clear : ∀ w, l.walk = some w → R.Clear followed w

/-- **No pointer is followed twice.** -/
theorem Works.treads (h : Works ev c deeds c') {followed : List Route}
    (treads : c.1.Treads followed c.2.1) :
    c'.1.Treads (followed ++ deeds.flatMap Deed.followed) c'.2.1 := by
  -- by induction on the deeds: only the first count begins a walk, and only a walk follows routes
  induction h generalizing followed with
  | rests =>
    rw [List.flatMap_nil, List.append_nil]
    exact treads
  | @noted l R t limit standing stale _ _ stays _ ih =>
    refine ih ⟨treads.nodup, fun unknown => treads.fresh ?_, treads.clear⟩
    rw [show standing = none from unknown] at stays
    cases known : l.standing with
    | none => rfl
    | some st =>
      rw [known] at stays
      exact absurd (stays rfl) (by simp)
  | opens fresh opening _ ih =>
    obtain ⟨rfl, walk⟩ := treads.fresh fresh
    obtain ⟨-, nothing, -, -, begun⟩ := opening.opens
    rw [List.flatMap_append, nothing, List.nil_append]
    refine ih ⟨.nil, fun none => (nomatch none), fun w here => ?_⟩
    rcases begun with same | ⟨head, begun⟩
    · cases here.symm.trans (same.trans walk)
    · cases here.symm.trans begun
      exact .start head
  | @next l R R' t t' w w' more r _ _ walk _ advances _ ih =>
    obtain ⟨standing, walk', -⟩ := standing_afterNext l w' r
    have clear := (treads.clear w walk).advances advances
    rw [List.flatMap_cons, ← List.append_assoc]
    refine ih ⟨clear.nodup, fun none => ?_, fun v here => ?_⟩
    · have away := (treads.fresh (standing.symm.trans none)).2
      cases walk.symm.trans away
    · cases here.symm.trans walk'
      exact clear
  | row _ _ _ _ ih => exact ih ⟨treads.nodup, treads.fresh, treads.clear⟩

/-- What is kept stays, and what was made is kept. -/
theorem Works.kept (h : Works ev c deeds c') :
    Course.KeepsOn c.1.kept c'.1.kept ∧ (deeds.filterMap Deed.made?).Nodup ∧
      ∀ i ∈ deeds.filterMap Deed.made?, c.1.kept.row? i = none := by
  induction h with
  | rests => exact ⟨fun _ _ h => h, .nil, List.forall_mem_nil _⟩
  | noted _ _ ih => exact ih
  | opens _ opening _ ih =>
    obtain ⟨-, -, nothing, kept, -⟩ := opening.opens
    rw [List.filterMap_append, nothing, List.nil_append, ← kept]
    exact ih
  | @next l _ _ _ _ _ w' _ r _ _ _ _ _ _ ih =>
    rw [(standing_afterNext l w' r).2.2] at ih
    exact ih
  | row _ fresh _ _ ih => exact Course.once_cons fresh ih

end Once

/-! ## What the functions do -/

section Functions

variable {ev : Evaluator σ ν} {options : Options} {bound : Nat}

/-- A list after its walk went on for so many nodes. -/
structure WentOn (more : Nat) (l l' : NodeListing ν) : Prop where
  stuck : l.exhausted = true → l' = l
  idle : l.walk = none → l' = l
  walking : l'.walk.isSome = l.walk.isSome
  far : l.nodes.size + more ≤ l'.nodes.size ∨ l'.exhausted = true ∨ l'.walk = none

/-- A walk goes on whatever the standing is noted to be. -/
theorem ensures_walkOn_works (more : Nat) (l : NodeListing ν) (R : Routes) (t : σ) :
    Ensures (walkOn ev bound more l) t fun l' t' =>
      (∀ standing, ∃ deeds R', Works ev ({ l with standing }, R, t) deeds
        ({ l' with standing }, R', t')) ∧ WentOn more l l' := by
  -- by induction on how many nodes are still wanted; the route is told along with the walk
  induction more generalizing l R t with
  | zero =>
    exact ensures_pure_iff.mpr
      ⟨fun _ => ⟨[], R, .rests⟩, fun _ => rfl, fun _ => rfl, rfl, .inl (Nat.le_refl _)⟩
  | succ more ih =>
    unfold walkOn
    cases walk : l.walk with
    | none =>
      refine ensures_pure_iff.mpr ⟨fun _ => ⟨[], R, ?_⟩, fun _ => rfl, fun _ => rfl, rfl,
        .inr (.inr walk)⟩
      rw [walk]
      exact .rests
    | some w =>
      dsimp only
      by_cases stopped : l.exhausted = true
      · rw [if_pos stopped]
        refine ensures_pure_iff.mpr ⟨fun _ => ⟨[], R, ?_⟩, fun _ => rfl, fun _ => rfl, rfl,
          .inr (.inl stopped)⟩
        rw [walk]
        exact .rests
      · rw [if_neg stopped]
        rw [Bool.not_eq_true] at stopped
        have open_ (h : l.exhausted = true) : False := by
          rw [stopped] at h
          cases h
        have walking : l.walk.isSome = true := by
          rw [walk]
          rfl
        have begun {l' : NodeListing ν} (h : l.walk = none) : l' = l := by
          cases walk.symm.trans h
        refine (Walk.ensures_advances bound l.rule.links w R t).bind ?_
        rintro ⟨result, w'⟩ t' ⟨followed, R', advances⟩
        rcases result with e | _ | node
        · refine ensures_pure_iff.mpr ⟨fun _ => ⟨_, R', .next rfl stopped advances .rests⟩,
            fun h => (open_ h).elim, begun, walking.symm, .inr (.inl rfl)⟩
        · refine ensures_pure_iff.mpr ⟨fun _ => ⟨_, R', .next rfl stopped advances .rests⟩,
            fun h => (open_ h).elim, begun, walking.symm, .inr (.inl rfl)⟩
        · refine (ih { l with walk := some w', nodes := l.nodes.push node } R' t').mono ?_
          rintro l' t'' ⟨works, on⟩
          refine ⟨fun standing => ?_, fun h => (open_ h).elim, begun,
            on.walking.trans walking.symm, on.far.imp_left fun enough => ?_⟩
          · obtain ⟨deeds, R'', works⟩ := works standing
            exact ⟨_, R'', .next rfl stopped advances works⟩
          · dsimp only at enough
            rw [Array.size_push] at enough
            omega

theorem ensures_walkTo_works (count : Nat) (l : NodeListing ν) (R : Routes) (t : σ) :
    Ensures (l.walkTo ev bound count) t fun l' t' =>
      (∀ standing, ∃ deeds R', Works ev ({ l with standing }, R, t) deeds
        ({ l' with standing }, R', t')) ∧ l.WalksTo count l' ∧ WentOn (count - l.nodes.size) l l' :=
  ((ensures_walkOn_works _ l R t).and (l.ensures_walkTo ev bound count t)).mono
    fun _ _ h => ⟨h.1.1, h.2, h.1.2⟩

/-- The row at a position, of a node or without one. -/
def IsRowAt (l : NodeListing ν) (kept : Kept ν) (i : Nat) (v : Variable ν) : Prop :=
  kept.row? i = some v ∨ kept.row? i = none ∧ l.nodes.size ≤ i ∧ v = l.rowWithoutNode i

theorem ensures_rowsAt_works (l : NodeListing ν) (positions : List Nat) (kept : Kept ν) (R : Routes)
    (t : σ) :
    Ensures (liftM (l.rowsAt ev positions kept) : Bounded σ _) t fun r t' =>
      (∃ deeds, Works ev ({ l with kept }, R, t) deeds ({ l with kept := r.2 }, R, t')) ∧
        (∀ i v, r.2.row? i = some v → kept.row? i = some v ∨ i < l.nodes.size) ∧
        List.Forall₂ (l.IsRowAt r.2) positions r.1 := by
  induction positions generalizing kept t with
  | nil =>
    rw [rowsAt]
    exact ensures_lift_pure_iff.mpr ⟨⟨[], .rests⟩, fun _ _ h => .inl h, .nil⟩
  | cons i is ih =>
    rw [rowsAt]
    split
    -- a row is kept, or made and kept, or is one without a node, which is never kept
    · rename_i row here
      refine ensures_lift_bind_iff.mpr ((ih kept t).mono ?_)
      rintro ⟨rows, kept'⟩ t' ⟨⟨deeds, works⟩, new, all⟩
      exact ensures_lift_pure_iff.mpr ⟨⟨deeds, works⟩, new, .cons (.inl (works.kept.1 i row here)) all⟩
    · rename_i node fresh found
      refine ensures_lift_bind_iff.mpr (ensures_lift_iff.mpr ?_)
      rcases made : nodeRow ev l.context l.rule.valueNode node i t with ⟨row, t₁⟩
      have first : Kept.row? ((i, row) :: kept) i = some row := by rw [Course.row?_cons, if_pos rfl]
      refine ensures_lift_bind_iff.mpr ((ih ((i, row) :: kept) t₁).mono ?_)
      rintro ⟨rows, kept'⟩ t' ⟨⟨deeds, works⟩, new, all⟩
      refine ensures_lift_pure_iff.mpr ⟨⟨_, .row found fresh made works⟩, fun j v here => ?_,
        .cons (.inl (works.kept.1 i row first)) all⟩
      rcases new j v here with old | inside
      · rw [Course.row?_cons] at old
        split at old
        · rename_i same
          subst same
          exact .inr (Array.getElem?_eq_some_iff.mp found).1
        · exact .inl old
      · exact .inr inside
    · rename_i fresh none
      have outside : l.nodes.size ≤ i := by
        by_contra inside
        rw [Array.getElem?_eq_getElem (by omega)] at none
        cases none
      refine ensures_lift_bind_iff.mpr ((ih kept t).mono ?_)
      rintro ⟨rows, kept'⟩ t' ⟨⟨deeds, works⟩, new, all⟩
      refine ensures_lift_pure_iff.mpr ⟨⟨deeds, works⟩, new, .cons (.inr ⟨?_, outside, rfl⟩) all⟩
      cases here : Kept.row? kept' i with
      | none => rfl
      | some v =>
        rcases new i v here with old | inside
        · cases old.symm.trans fresh
        · omega

/-! ## What is known of the rows -/

/-- The row a list is known to have at a position: the row of a failure, one that
is kept, or one behind the last node. -/
def rowAt? (l : NodeListing ν) (i : Nat) : Option (Variable ν) :=
  match l.standing with
  | some (.failed row) => if i = 0 then some row else none
  | _ => (l.kept.row? i).or
    (if l.exhausted = true ∧ l.nodes.size ≤ i then some (l.rowWithoutNode i) else none)

/-- What is known of the rows of a list. -/
def known (l : NodeListing ν) : Known ν where
  count := (l.standing.map Standing.count).getD 0
  row? := l.rowAt?

/-- A list of nodes as its own work leaves it. -/
structure Sound (l : NodeListing ν) : Prop where
  fresh : l.standing = none → l.walk = none ∧ l.kept = [] ∧ l.exhausted = false
  idle : l.walk = none → l.found = 0 ∧ l.size = none
  ended : l.obstacle.isSome → l.exhausted = true
  counted : ∀ n, l.standing = some (.counted n) → l.size = some n ∨ l.size = none ∧ n ≤ l.found

theorem Sound.new (c : Context ν) (rule : NodeRule) :
    Sound ({ context := c, rule } : NodeListing ν) where
  fresh _ := ⟨rfl, rfl, rfl⟩
  idle _ := ⟨rfl, rfl⟩
  ended h := nomatch h
  counted _ h := nomatch h

/-- Nothing is known of the rows of a list that has no standing. -/
theorem Sound.grows_of_fresh {l : NodeListing ν} (sound : l.Sound) (fresh : l.standing = none)
    (k : Known ν) : l.known.Grows k := by
  obtain ⟨-, kept, open_⟩ := sound.fresh fresh
  refine ⟨?_, fun i v h => ?_⟩
  · unfold known
    rw [fresh]
    exact Nat.zero_le _
  · unfold known rowAt? at h
    dsimp only at h
    rw [fresh, kept, open_] at h
    simp [Kept.row?] at h

/-- A walk leaves what is known of the rows. -/
theorem grows_of_walked {l l' : NodeListing ν} {count more : Nat} (walks : l.WalksTo count l')
    (on : WentOn more l l') {n : Nat} (counted : l.standing = some (.counted n)) {n' : Nat}
    (le : n ≤ n') :
    l.known.Grows { l' with standing := some (.counted n') : NodeListing ν }.known := by
  refine ⟨?_, fun i v h => ?_⟩
  · unfold known
    rw [counted]
    exact le
  · unfold known rowAt? at h ⊢
    dsimp only at h ⊢
    rw [counted] at h
    dsimp only at h
    have kept : l'.kept = l.kept := by rw [walks.same]
    by_cases exhausted : l.exhausted = true
    · rw [on.stuck exhausted]
      exact h
    · rw [if_neg (fun both => exhausted both.1), Option.or_none] at h
      rw [kept, h, Option.some_or]

/-- What a list that counts comes to. -/
structure Comes (r : Except ExpandError Nat × NodeListing ν) : Prop where
  idle : r.2.walk = none → r.2.found = 0 ∧ r.2.size = none
  ended : r.2.obstacle.isSome → r.2.exhausted = true
  error : ∀ e, r.1 = .error e → r.2.size = none
  counted : ∀ n, r.1 = .ok n → r.2.size = some n ∨ r.2.size = none ∧ n ≤ r.2.found

theorem Comes.sound {r : Except ExpandError Nat × NodeListing ν} (h : Comes r) (guard : Guard) :
    Sound { r.2 with standing := some (Standing.ofResult guard r.1) : NodeListing ν } where
  fresh unknown := nomatch unknown
  idle := h.idle
  ended := h.ended
  counted n here := by
    have here : Standing.ofResult guard r.1 = .counted n := Option.some.inj here
    unfold Standing.ofResult at here
    cases counted : r.1 with
    | ok m =>
      rw [counted] at here
      cases here
      exact h.counted n counted
    | error e =>
      refine .inr ⟨h.error e counted, ?_⟩
      rw [counted] at here
      dsimp only at here
      split at here
      · cases here
        exact Nat.zero_le _
      · cases here

/-- How a list counts, once it applies. -/
theorem ensures_count_works {l : NodeListing ν} (fresh : l.standing = none) (R : Routes) {t t₁ : σ}
    (asked : l.context.applies ev l.rule.guard t = (.ok true, t₁)) :
    Ensures (l.count ev options bound) t₁ fun r t' =>
      (∀ standing, ∃ deeds R', Works ev (l, R, t) deeds
        ({ r.2 with standing := some standing }, R', t')) ∧ (l.Sound → Comes r) := by
  -- a list that does not come to its head is as it was
  have back (sound : l.Sound) (e : ExpandError) : Comes (.error e, l) :=
    ⟨sound.idle, sound.ended, fun _ _ => (sound.idle (sound.fresh fresh).1).2, fun n h => nomatch h⟩
  unfold count
  split
  · exact ensures_pure_iff.mpr
      ⟨fun _ => ⟨_, {}, .opens fresh (.closed asked) .rests⟩, fun sound => back sound _⟩
  · refine ensures_bind_iff.mpr (ensures_lift_iff.mpr ?_)
    rcases headed : l.head ev t₁ with ⟨e | head, t₂⟩
    · exact ensures_pure_iff.mpr
        ⟨fun _ => ⟨_, {}, .opens fresh (.headless asked headed) .rests⟩, fun sound => back sound _⟩
    · dsimp only
      split
      · rename_i size declared
        refine ensures_bind_iff.mpr (ensures_lift_iff.mpr ?_)
        rcases evaluated : ev.declaredSize l.context.owner l.context.scope [{ value := size }] t₂
          with ⟨r, t₃⟩
        have opening := Opening.sized asked headed declared evaluated
        cases r with
        | error e =>
          refine ensures_pure_iff.mpr ⟨fun _ => ⟨_, {}, .opens fresh opening .rests⟩, fun sound => ?_⟩
          exact ⟨fun away => (nomatch away), sound.ended, (back sound e).error, fun n h => nomatch h⟩
        | ok n =>
          refine ensures_pure_iff.mpr ⟨fun _ => ⟨_, {}, .opens fresh opening .rests⟩, fun sound => ?_⟩
          refine ⟨fun away => (nomatch away), sound.ended, fun _ h => (nomatch h), fun m h => .inl ?_⟩
          cases h
          rfl
      · rename_i undeclared
        refine (ensures_walkTo_works _ _ {} t₂).bind ?_
        rintro l' t' ⟨works, walks, on⟩
        refine ensures_pure_iff.mpr ⟨fun standing => ?_, fun sound => ?_⟩
        · obtain ⟨deeds, R', works⟩ := works (some standing)
          exact ⟨_, R', .opens fresh (.begins asked headed undeclared) works⟩
        · refine ⟨fun away => ?_, walks.ended sound.ended, fun _ h => (nomatch h), fun n h => .inr ?_⟩
          · have walking := on.walking
            rw [away] at walking
            cases walking
          · cases h
            refine ⟨?_, Nat.le_refl _⟩
            rw [walks.same]
            exact (sound.idle (sound.fresh fresh).1).2

/-- How a list counts again. -/
theorem ensures_recounted_works {l : NodeListing ν} {st : Standing ν} (here : l.standing = some st)
    (R : Routes) (t : σ) :
    Ensures (recounted ev options bound st { l with standing := some st, stale := false }) t
      fun r t' =>
        (∃ deeds R', Works ev (l, R, t) deeds ({ r.2 with standing := some r.1 }, R', t')) ∧
          (l.Sound → Sound { r.2 with standing := some r.1 } ∧
            l.known.Grows ({ r.2 with standing := some r.1 } : NodeListing ν).known) := by
  have same : { l with standing := some st, stale := false } = { l with stale := false } := by
    rw [← here]
  rw [same]
  unfold recounted
  split
  · rename_i open_
    simp only [Bool.and_eq_true, Option.isNone_iff_eq_none] at open_
    obtain ⟨⟨sane, undeclared⟩, walking⟩ := open_
    refine (ensures_walkTo_works _ _ R t).bind ?_
    rintro l' t' ⟨works, walks, on⟩
    obtain ⟨deeds, R', works⟩ := works (some (.counted l'.found))
    refine ensures_pure_iff.mpr ⟨⟨deeds, R', .noted (fun _ => rfl) works⟩, fun sound => ?_⟩
    -- a list that walks again has its walk still, so that it is not taken for one never begun
    have walked : ∀ {P : Prop}, l'.walk = none → P := fun away => by
      have there := on.walking.trans walking
      rw [away] at there
      cases there
    have declared : l'.size = none := by
      rw [walks.same]
      exact undeclared
    refine ⟨⟨fun unknown => (nomatch unknown), walked, walks.ended sound.ended, fun n h => ?_⟩, ?_⟩
    · cases h
      exact .inr ⟨declared, Nat.le_refl _⟩
    · cases st with
      | failed row => cases sane
      | counted n =>
        refine grows_of_walked walks on here (Nat.le_trans ?_ walks.more)
        rcases sound.counted n here with size | ⟨-, le⟩
        · cases size.symm.trans undeclared
        · exact le
  · refine ensures_pure_iff.mpr ⟨⟨[], R, ?_⟩, fun sound => ?_⟩
    · exact .noted (fun _ => rfl) .rests
    · dsimp only
      rw [← here]
      exact ⟨⟨sound.fresh, sound.idle, sound.ended, sound.counted⟩, .refl _⟩

theorem ensures_settled_works (l : NodeListing ν) (R : Routes) (t : σ) :
    Ensures (l.settled ev options bound) t fun r t' =>
      (∃ deeds R', Works ev (l, R, t) deeds (r.2, R', t')) ∧ r.2.standing = some r.1 ∧
        (l.Sound → r.2.Sound ∧ l.known.Grows r.2.known) := by
  unfold settled
  cases here : l.standing with
  | none =>
    dsimp only
    unfold Standing.settle
    rw [bind_assoc]
    refine ensures_bind_iff.mpr (ensures_lift_iff.mpr ?_)
    rcases asked : l.context.applies ev l.rule.guard t with ⟨applied, t₁⟩
    -- a list that does not apply counts nothing
    have closed (st : Standing ν) (zero : ∀ n, st = .counted n → n = 0) :
        (∃ deeds R', Works ev (l, R, t) deeds ({ l with standing := some st }, R', t₁)) ∧
          (l.Sound → Sound { l with standing := some st } ∧
            l.known.Grows ({ l with standing := some st } : NodeListing ν).known) := by
      refine ⟨⟨_, {}, .opens here (.closed asked) .rests⟩, fun sound => ⟨?_, sound.grows_of_fresh here _⟩⟩
      refine ⟨fun unknown => (nomatch unknown), sound.idle, sound.ended, fun n h => .inr ?_⟩
      refine ⟨(sound.idle (sound.fresh here).1).2, ?_⟩
      rw [zero n (Option.some.inj h)]
      exact Nat.zero_le _
    rcases applied with e | _ | _
    · rw [pure_bind]
      obtain ⟨works, sound⟩ := closed (.ofResult l.rule.guard (.error (.evaluation e))) fun n h => by
        unfold Standing.ofResult at h
        dsimp only at h
        split at h
        · cases h
          rfl
        · cases h
      exact ensures_pure_iff.mpr ⟨works, rfl, sound⟩
    · rw [pure_bind]
      obtain ⟨works, sound⟩ := closed (.counted 0) fun n h => by cases h; rfl
      exact ensures_pure_iff.mpr ⟨works, rfl, sound⟩
    · dsimp only
      rw [bind_assoc]
      refine (ensures_count_works here R asked).bind ?_
      rintro r t' ⟨works, comes⟩
      rw [pure_bind]
      exact ensures_pure_iff.mpr ⟨works _, rfl, fun sound =>
        ⟨(comes sound).sound l.rule.guard, sound.grows_of_fresh here _⟩⟩
  | some st =>
    dsimp only
    by_cases stale : l.stale = true
    · rw [if_pos stale]
      refine (ensures_recounted_works here R t).bind ?_
      rintro r t' ⟨works, sound⟩
      exact ensures_pure_iff.mpr ⟨works, rfl, sound⟩
    · rw [if_neg stale, pure_bind]
      have same : { l with standing := some st } = l := by rw [← here]
      refine ensures_pure_iff.mpr ⟨⟨[], R, ?_⟩, rfl, fun sound => ?_⟩
      · dsimp only
        rw [same]
        exact .rests
      · dsimp only
        rw [same]
        exact ⟨sound, .refl _⟩

/-- The row at a position with its row kept, or behind the last node. -/
theorem rowAt?_of_isRowAt {l : NodeListing ν} {n : Nat} (counted : l.standing = some (.counted n))
    {i : Nat} {v : Variable ν} (h : l.IsRowAt l.kept i v)
    (ended : l.nodes.size ≤ i → l.exhausted = true) : l.rowAt? i = some v := by
  unfold rowAt?
  rw [counted]
  dsimp only
  rcases h with kept | ⟨unkept, outside, rfl⟩
  · rw [kept, Option.some_or]
  · rw [unkept, Option.none_or, if_pos ⟨ended outside, outside⟩]

/-- More rows may be kept, of nodes that were found. -/
theorem grows_of_kept (l : NodeListing ν) {kept : Kept ν} (on : Course.KeepsOn l.kept kept)
    (new : ∀ i v, kept.row? i = some v → l.kept.row? i = some v ∨ i < l.nodes.size) :
    l.known.Grows ({ l with kept } : NodeListing ν).known := by
  refine ⟨Nat.le_refl _, fun i v h => ?_⟩
  unfold known rowAt? at h ⊢
  dsimp only at h ⊢
  split at h
  · exact h
  · cases here : l.kept.row? i with
    | some row =>
      rw [here, Option.some_or] at h
      rw [on i row here, Option.some_or, h]
    | none =>
      rw [here, Option.none_or] at h
      split at h
      · rename_i behind
        have unkept : Kept.row? kept i = none := by
          cases made : Kept.row? kept i with
          | none => rfl
          | some row =>
            rcases new i row made with old | inside
            · cases old.symm.trans here
            · exact absurd behind.2 (by omega)
        rw [unkept, Option.none_or, if_pos behind]
        exact h
      · cases h

theorem Sound.walked {l l' : NodeListing ν} (sound : l.Sound) {count more : Nat}
    (walks : l.WalksTo count l') (on : WentOn more l l') : l'.Sound where
  fresh unknown := by
    have standing : l'.standing = l.standing := by rw [walks.same]
    have fresh := sound.fresh (standing ▸ unknown)
    rw [on.idle fresh.1]
    exact fresh
  idle away := by
    cases walk : l.walk with
    | none =>
      rw [on.idle walk]
      exact sound.idle walk
    | some w =>
      have walking := on.walking
      rw [away, walk] at walking
      cases walking
  ended := walks.ended sound.ended
  counted n here := by
    have standing : l'.standing = l.standing := by rw [walks.same]
    have size : l'.size = l.size := by rw [walks.same]
    rw [size]
    exact (sound.counted n (standing ▸ here)).imp_right fun h => ⟨h.1, Nat.le_trans h.2 walks.more⟩

theorem Sound.kept {l : NodeListing ν} (sound : l.Sound) (known : l.standing.isSome)
    (kept : Kept ν) : Sound { l with kept := kept : NodeListing ν } where
  fresh unknown := by
    rw [show l.standing = none from unknown] at known
    cases known
  idle := sound.idle
  ended := sound.ended
  counted := sound.counted

theorem exists_of_forall₂ {α β : Type} {R : α → β → Prop} {xs : List α} {ys : List β}
    (h : List.Forall₂ R xs ys) {i : Nat} {y : β} (here : ys[i]? = some y) :
    ∃ x, xs[i]? = some x ∧ R x y := by
  obtain ⟨inside, rfl⟩ := List.getElem?_eq_some_iff.mp here
  have within : i < xs.length := h.length_eq ▸ inside
  exact ⟨xs[i], List.getElem?_eq_getElem within, h.get within inside⟩

theorem ensures_rows_works (l : NodeListing ν) (start count : Nat) (R : Routes) (t : σ) :
    Ensures (l.rows ev options bound start count) t fun r t' =>
      (∃ deeds R', Works ev (l, R, t) deeds (r.2, R', t')) ∧
        (l.Sound → r.2.Sound ∧ l.known.Grows r.2.known ∧
          ∀ i v, r.1[i]? = some v → r.2.rowAt? (start + i) = some v) := by
  unfold rows
  refine (ensures_settled_works l R t).bind ?_
  rintro ⟨st, l₁⟩ t₁ ⟨⟨deeds₁, R₁, works₁⟩, known, settled⟩
  dsimp only at known ⊢
  cases st with
  | failed row =>
    refine ensures_pure_iff.mpr ⟨⟨_, _, works₁⟩, fun sound => ⟨(settled sound).1, (settled sound).2, ?_⟩⟩
    intro i v here
    unfold rowAt?
    rw [known]
    obtain ⟨first, rfl⟩ := getElem?_clip_singleton here
    exact if_pos first
  | counted n =>
    refine (ensures_walkTo_works _ l₁ R₁ t₁).bind ?_
    rintro l₂ t₂ ⟨works₂, walks, on⟩
    have standing : l₂.standing = some (.counted n) := by
      rw [walks.same]
      exact known
    have same : { l₂ with standing := l₁.standing } = l₂ := by rw [known, ← standing]
    obtain ⟨deeds₂, R₂, works₂⟩ := works₂ l₁.standing
    rw [same] at works₂
    refine ensures_bind_iff.mpr ((ensures_rowsAt_works l₂ _ l₂.kept R₂ t₂).mono ?_)
    rintro ⟨rows, kept₃⟩ t₃ ⟨⟨deeds₃, works₃⟩, new, all⟩
    refine ensures_pure_iff.mpr
      ⟨⟨_, _, (works₁.trans works₂).trans works₃⟩, fun sound => ?_⟩
    obtain ⟨sound₁, grows₁⟩ := settled sound
    have grows₂ := grows_of_walked walks on known (Nat.le_refl n)
    rw [show { l₂ with standing := some (.counted n) } = l₂ by rw [← standing]] at grows₂
    have grows₃ := grows_of_kept l₂ works₃.kept.1 new
    refine ⟨(sound₁.walked walks on).kept (by rw [standing]; rfl) kept₃,
      (grows₁.trans grows₂).trans grows₃, ?_⟩
    intro i v here
    obtain ⟨p, position, shown⟩ := exists_of_forall₂ all here
    obtain ⟨rfl, counted, before⟩ := getElem?_windowOf position
    refine rowAt?_of_isRowAt (l := { l₂ with kept := kept₃ }) standing shown fun outside => ?_
    -- without a walk nothing is counted
    rcases on.far with far | ended | away
    · dsimp only at outside
      omega
    · exact ended
    · have idle := (sound₁.walked walks on).idle away
      rcases (sound₁.walked walks on).counted n standing with size | ⟨-, few⟩
      · cases size.symm.trans idle.2
      · omega

end Functions

/-! ## Requests -/

/-- A list of nodes works in a session, of which only the debugger changes. -/
def WorksIn (ev : Evaluator σ ν) (c : NodeListing ν × Routes × Session σ ν) (deeds : List Deed)
    (c' : NodeListing ν × Routes × Session σ ν) : Prop :=
  Works ev (c.1, c.2.1, c.2.2.target) deeds (c'.1, c'.2.1, c'.2.2.target) ∧
    c'.2.2 = { c.2.2 with target := c'.2.2.target }

variable {engine : Engine σ ν} {reach : Reach σ ν}

/-- What a listing of nodes is asked is asked of the nodes. -/
theorem ensures_answering_works {α β : Type} {act : Bounded σ (α × NodeListing ν)} {answer : α → β}
    {l : NodeListing ν} {R : Routes} {s : Session σ ν} {Q : α × NodeListing ν → Prop}
    (h : Ensures act s.target fun r t' =>
      (∃ deeds R', Works engine.evaluator (l, R, s.target) deeds (r.2, R', t')) ∧ Q r) :
    Ensures (Listing.answering .nodes answer (.ofTarget act)) s fun r s' =>
      ∃ a l', r = (answer a, .nodes l') ∧ Q (a, l') ∧
        ∃ deeds R', WorksIn engine.evaluator (l, R, s) deeds (l', R', s') := by
  refine Listing.ensures_answering (ensures_ofTarget_iff.mpr (h.mono fun r t' h => ?_))
  obtain ⟨⟨deeds, R', works⟩, told⟩ := h
  exact ⟨r.1, r.2, rfl, told, deeds, R', works, rfl⟩

/-- **One request**: the list works, and nothing that is known of its rows is taken
back. -/
theorem ensures_ask (q : Query) (l : NodeListing ν) (R : Routes) (s : Session σ ν) :
    Ensures (q.ask engine reach (.nodes l)) s fun r s' => ∃ deeds l' R', r.2 = .nodes l' ∧
      WorksIn engine.evaluator (l, R, s) deeds (l', R', s') ∧
      (l.Sound → l'.Sound ∧ l.known.Grows l'.known ∧ l'.known.Tells q r.1) := by
  cases q with
  | setLimit limit =>
    refine ensures_pure_iff.mpr ⟨[], _, R, rfl, ⟨.noted id .rests, rfl⟩, fun sound => ?_⟩
    exact ⟨⟨sound.fresh, sound.idle, sound.ended, sound.counted⟩, .refl _, trivial⟩
  | count =>
    refine (ensures_answering_works (ensures_settled_works l R s.target)).bind ?_
    rintro _ s' ⟨st, l', rfl, ⟨known, told⟩, deeds, R', works⟩
    refine ensures_pure_iff.mpr ⟨deeds, l', R', rfl, works, fun sound => ?_⟩
    obtain ⟨sound', grows⟩ := told sound
    refine ⟨sound', grows, ?_⟩
    show st.count = (l'.standing.map Standing.count).getD 0
    rw [known, Option.map_some, Option.getD_some]
  | rows start many =>
    refine (ensures_answering_works (ensures_rows_works l start many R s.target)).bind ?_
    rintro _ s' ⟨rows, l', rfl, told, deeds, R', works⟩
    exact ensures_pure_iff.mpr ⟨deeds, l', R', rfl, works, told⟩
  | isSound =>
    refine (ensures_answering_works (ensures_settled_works l R s.target)).bind ?_
    rintro _ s' ⟨st, l', rfl, ⟨-, told⟩, deeds, R', works⟩
    refine ensures_pure_iff.mpr ⟨deeds, l', R', rfl, works, fun sound => ?_⟩
    exact ⟨(told sound).1, (told sound).2, trivial⟩

/-- **Any number of requests of a new list**: what it does is done once, and nothing
is taken back. -/
theorem ensures_askAll_new (c : Context ν) (rule : NodeRule) (qs : List Query) (s : Session σ ν) :
    Ensures (Query.askAll engine reach qs (.nodes { context := c, rule })) s fun r s' =>
      ∃ deeds l' R', r.2 = .nodes l' ∧
        WorksIn engine.evaluator ({ context := c, rule }, {}, s) deeds (l', R', s') ∧
        deeds.filter Deed.opens <+: [.guard, .head, .size] ∧
        (deeds.flatMap Deed.followed).Nodup ∧ (deeds.filterMap Deed.made?).Nodup ∧
        Steady qs r.1 := by
  refine (ensures_askAll
    (fun c : NodeListing ν × Routes × Session σ ν => (.nodes c.1, c.2.2))
    (WorksIn engine.evaluator) (fun c => c.1.known) (fun (_ : Unit) _ => True)
    (fun _ c => c.1.Sound)
    (fun c => ⟨.rests, rfl⟩) (fun c₁ c₂ c₃ ds ds' h h' => ⟨h.1.trans h'.1, ?_⟩)
    (fun q c => (ensures_ask q c.1 c.2.1 c.2.2).mono ?_) qs
    ({ context := c, rule }, {}, s)).mono ?_
  · rw [h'.2, h.2]
  · rintro r s' ⟨deeds, l', R', placed, works, told⟩
    exact ⟨deeds, (l', R', s'), Prod.ext placed.symm rfl, works, fun _ _ sound => told sound⟩
  · rintro ⟨replies, _⟩ s' ⟨deeds, ⟨l', R', _⟩, placed, works, told⟩
    cases placed
    obtain ⟨-, told⟩ := told () (fun _ _ => trivial) (.new c rule)
    have treads : Treads [] ({ context := c, rule } : NodeListing ν) {} :=
      ⟨.nil, fun _ => ⟨rfl, rfl⟩, fun w h => nomatch h⟩
    exact ⟨deeds, l', R', rfl, works, works.1.opens_once, (works.1.treads treads).nodup,
      works.1.kept.2.1, told.steady⟩

end WatchView.NodeListing
