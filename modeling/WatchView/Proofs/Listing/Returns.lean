import WatchView.Proofs.Listing.Asked
/-!
# Windows that are found

The rows of a settled listing were counted, but those of a page may have to be
looked for still, and the search may go on for ever: a custom list that declares
its size runs its program only when a window asks for it, and a tree that does
so walks only then. All other windows are found (`returning_reach`), within a
bound that depends on the listing alone.
-/

namespace WatchView

open Bounded

variable {σ ν : Type}

/-! ## Kept listings -/

namespace NodeListing

variable (ev : Evaluator σ ν) (bound : Nat)

/-- A walk along a linked list comes to an end. -/
theorem returns_walkOn_of_list {next : String} (more : Nat) {l : NodeListing ν}
    (links : l.rule.links = .list next) (t : σ) :
    Returns (walkOn ev bound more l) t fun _ _ => True := by
  induction more generalizing l t with
  | zero => exact returns_pure trivial
  | succ more ih =>
    unfold walkOn
    cases l.walk with
    | none => exact returns_pure trivial
    | some walk =>
      dsimp only
      by_cases stopped : l.exhausted = true
      · rw [if_pos stopped]
        exact returns_pure trivial
      · rw [if_neg stopped, links]
        refine (returns_lift (Walk.nextOfList ev l.context.scope next walk) t).bind fun r t' _ => ?_
        obtain ⟨result, walk'⟩ := r
        rcases result with e | _ | node
        · exact returns_pure trivial
        · exact returns_pure trivial
        · exact ih (l := { l with walk := some walk', nodes := l.nodes.push node }) links t'

/-- A walk for no more than was found is over at once. -/
theorem returns_walkTo_of_found {l : NodeListing ν} {count : Nat}
    (ended : l.obstacle.isSome → l.exhausted = true) (enough : count ≤ l.found) (t : σ) :
    Returns (l.walkTo ev bound count) t fun _ _ => True := by
  unfold walkTo
  cases missing : count - l.nodes.size with
  | zero => exact returns_pure trivial
  | succ more =>
    -- what is missing is the row of a failure
    have stopped : l.exhausted = true := by
      refine ended ?_
      unfold found at enough
      by_contra none
      rw [if_neg none] at enough
      omega
    unfold walkOn
    cases l.walk with
    | none => exact returns_pure trivial
    | some walk =>
      dsimp only
      rw [if_pos stopped]
      exact returns_pure trivial

/-- A window of nodes that were counted is found, unless it is one of a tree
that declares its size. -/
theorem returns_rows (options : Options) {l : NodeListing ν} (valid : l.Valid) {st : Standing ν}
    (here : l.standing = some st) (fresh : l.stale = false) (ended : ¬ l.OpenEnded)
    (start count : Nat) (t : σ) :
    Returns (l.rows ev options bound start count) t fun _ _ => True := by
  unfold rows
  have settled : Returns (l.settled ev options bound) t fun r _ => r = (st, l) :=
    ⟨_, t, congrFun (settled_of_standing ev options bound here fresh) t, rfl⟩
  refine settled.bind fun r t' h => ?_
  obtain rfl := h
  cases st with
  | failed row => exact returns_pure trivial
  | counted n =>
    have walked : Returns (l.walkTo ev bound (min (windowEnd start count) n)) t'
        fun _ _ => True := by
      cases declared : l.size with
      | none =>
        refine returns_walkTo_of_found ev bound valid.ended ?_ t'
        exact Nat.le_trans (Nat.min_le_right _ _) (valid.enough n here declared)
      | some size =>
        cases links : l.rule.links with
        | list next => exact returns_walkOn_of_list ev bound _ links t'
        | tree left right => exact absurd ⟨by rw [declared]; rfl, left, right, links⟩ ended
    refine walked.bind fun l' t'' _ => ?_
    exact (returns_lift _ t'').bind fun _ _ _ => returns_pure trivial

end NodeListing

namespace CustomListing

/-- A program is not run for rows that are there. -/
theorem returns_runTo_of_enough (ev : Evaluator σ ν) {bound target : Nat} {l : CustomListing ν}
    (within : 0 < bound) (enough : target ≤ l.shown.size) (t : σ) :
    Returns (l.runTo ev bound target) t fun l' _ => l' = l := by
  have run : ∃ q, l.runTo ev bound target t = .ok q := by
    obtain ⟨bound, rfl⟩ := Nat.exists_eq_add_of_lt within
    unfold runTo
    split
    · exact ⟨_, rfl⟩
    · rw [Nat.zero_add, runOn]
      cases l.run with
      | none => exact ⟨_, rfl⟩
      | some run =>
        dsimp only
        rw [if_pos (by simp [enough])]
        exact ⟨_, rfl⟩
  obtain ⟨q, run⟩ := run
  have same : q = (l, t) := RunsTo.eq_of_enough ⟨bound, run⟩ enough
  exact ⟨q.1, q.2, run, congrArg Prod.fst same⟩

/-- A window of a custom list that was counted is found, unless the list
declares its size. -/
theorem returns_rows (engine : Engine σ ν) {bound : Nat} {l : CustomListing ν}
    (within : 0 < bound) (valid : l.Valid) (current : l.current = true)
    (undeclared : l.size = none) (start count : Nat) (s : Session σ ν) :
    Returns (l.rows engine bound start count) s fun r _ => r.2 = l := by
  unfold rows
  have settled : Returns (l.settled engine bound) s fun r _ => r = (l.standing, l) :=
    ⟨_, s, settled_of_current engine bound current s, rfl⟩
  refine settled.bind fun r s' h => ?_
  obtain rfl := h
  dsimp only
  cases standing : l.standing with
  | failed row => exact returns_pure rfl
  | counted n =>
    have enough : min (windowEnd start count) n ≤ l.shown.size := by
      rcases valid.counted current n standing with rfl | declared | ⟨-, few⟩
      · omega
      · rw [undeclared] at declared
        cases declared
      · omega
    exact (returns_ofTarget (returns_runTo_of_enough engine.evaluator within enough
      s'.target)).bind fun l' _ h => returns_pure h

end CustomListing

namespace Listing

variable {engine : Engine σ ν} {reach : Reach σ ν} {s s' : Session σ ν} {l : Listing ν}
  {ls : List (Listing ν)} {answers : List (Nat × Bool)} {n : Nat} {b : Bool}

theorem returns_answering {α β κ : Type} {wrap : κ → Listing ν} {answer : α → β}
    {act : Search σ ν (α × κ)} {P : β × Listing ν → Session σ ν → Prop}
    (h : Returns act s fun r s' => P (answer r.1, wrap r.2) s') :
    Returns (answering wrap answer act) s P :=
  h.bind fun _ _ h => returns_pure h

/-- **A window of a kept listing that was counted is found**, unless the listing
is open-ended. -/
theorem Valid.returns_rowsWith (engine : Engine σ ν) {reach : Reach σ ν} (within : 0 < reach.bound)
    (valid : l.Valid) {a : Nat × Bool} (known : l.answer? = some a) (ended : ¬ l.OpenEnded)
    (start count : Nat) (s : Session σ ν) :
    Returns (rowsWith engine reach start count l) s fun r _ => ¬ r.2.IsShort := by
  cases l with
  | fixed rows => exact returns_pure id
  | indexList l => exact returns_answering ((returns_lift _ s).mono fun _ _ _ => id)
  | array l => exact returns_answering ((returns_lift _ s).mono fun _ _ _ => id)
  | nodes l =>
    obtain ⟨fresh, st, here, -⟩ := answer?_nodes_iff.mp known
    refine returns_answering (returns_ofTarget ?_)
    refine (l.returns_rows engine.evaluator _ engine.options valid here fresh ended start count
      s.target).mono fun _ _ _ => id
  | custom l =>
    obtain ⟨current, -⟩ := answer?_custom_iff.mp known
    have undeclared : l.size = none := Option.not_isSome_iff_eq_none.mp ended
    refine returns_answering ((l.returns_rows engine within valid current undeclared start count
      s).mono fun r s' h short => ended (IsShort.openEnded ?_))
    rwa [h] at short
  | _ => exact valid.elim

/-! ## Pages -/

/-- A listing whose pages show no list that may be searched for ever. -/
def AtHand (s : Session σ ν) (l : Listing ν) : Prop :=
  ∀ id, l.Has (.page id) → ¬ (s.kept id).OpenEnded

/-- What a settled listing shows through something it shows through pages of
lists that were counted. -/
theorem Settled.answered (h : Settled s l n b) {pane : Pane} (has : l.Has pane) :
    ∃ id, pane = .page id ∧ ∃ a, (s.kept id).answer? = some a := by
  induction h with
  | simple simple => exact absurd has simple.not_has
  | page known =>
    cases has with
    | page here => exact ⟨_, here, _, known⟩
  | failed => cases has
  | absent => cases has
  | inlined _ ih => exact ih (has_inlined_iff.mp has)
  | failure => cases has
  | pointee _ ih => exact ih (has_pointee_iff.mp has)
  | group length _ ih =>
    obtain ⟨l, member, has⟩ := has_group_iff.mp has
    obtain ⟨⟨i, inside⟩, rfl⟩ := List.get_of_mem member
    exact ih i inside (length ▸ inside) has
  | ofChild _ ih => exact ih (has_ofChild_iff.mp has)

theorem AtHand.congr (h : AtHand s l) (settled : Settled s l n b)
    (stands : ∀ id, l.Has (.page id) → (s.kept id).StandsBy (s'.kept id)) : AtHand s' l := by
  intro id has endless
  obtain ⟨_, same, a, known⟩ := settled.answered has
  cases same
  exact h id has ((stands id has).ended a known endless)

/-- A settled listing that is at hand shows all it counts. -/
theorem AtHand.not_partial (h : AtHand s l) (settled : Settled s l n b) : ¬ l.Partial s := by
  rintro (has | ⟨id, has, short⟩)
  · obtain ⟨id, same, -⟩ := settled.answered has
    cases same
  · exact h id has short.openEnded

theorem returns_withKept {α : Type} {id : Nat} {act : Listing ν → Search σ ν (α × Listing ν)}
    {P : α → Session σ ν → Prop}
    (h : Returns (act (s.kept id)) s fun r s' =>
      P r.1 { s' with listings := s'.listings.setIfInBounds id r.2 }) :
    Returns (withKept id act) s P := by
  obtain ⟨r, s', ended, holds⟩ := h
  refine ⟨r.1, _, ?_, holds⟩
  unfold withKept
  exact bind_eq_ok_iff.mpr ⟨(s, s), rfl, bind_eq_ok_iff.mpr ⟨(r, s'), ended, rfl⟩⟩

/-- The number of children behind the offset of a page is found, once its list
was counted. -/
theorem returns_remaining (bound : Nat) {id offset size : Nat}
    (known : (s.kept id).answer? = some (n, b))
    (covers : (s.kept id).Covers offset size) :
    Returns (remaining (engine.reach (bound + 1)) id offset size) s fun _ _ => True := by
  rw [remaining_eq, if_pos covers.fits]
  refine (returns_withKept (P := fun _ _ => True) ?_).bind fun _ _ _ => returns_pure trivial
  rw [covers.raised]
  exact ⟨_, s, (asked_again engine (engine.reach bound) s known).1, trivial⟩

section Reached

variable (words : ∀ p, engine.options.get p < wordCount) (sound : s.Sound)

include words sound

/-- **A window of a page is found**, once its list was counted and unless it is
open-ended. -/
theorem returns_pageRows (bound : Nat) {id offset size : Nat}
    (known : (s.kept id).answer? = some (n, b))
    (covers : (s.kept id).Covers offset size) (ended : ¬ (s.kept id).OpenEnded)
    (start count : Nat) :
    Returns (pageRows (engine.reach (bound + 3)) id offset size start count) s fun _ s' =>
      ¬ (s'.kept id).IsShort := by
  have asks := engine.asks_reach words (bound + 3)
  have whole : ¬ (s.kept id).IsShort := fun short => ended short.openEnded
  rw [pageRows_eq, if_pos covers.fits]
  refine ((returns_remaining (bound + 2) known covers).and
    (ensures_remaining asks known covers)).bind fun remaining s₁ h => ?_
  obtain ⟨-, rfl, rfl⟩ := h
  unfold exactRows
  dsimp only
  split
  · exact returns_pure whole
  · split
    · refine Returns.bind (P := fun _ s' => ¬ (s'.kept id).IsShort) (returns_withKept ?_)
        fun rows s' whole => returns_pure whole
      have valid := sound.valid id
      have within : 0 < (engine.reach (bound + 2)).bound := Nat.succ_pos bound
      refine ((valid.returns_rowsWith engine within known ended _ _ s₁).and
        (asks.rows _ s₁ _ _ valid)).mono fun r s' h => ?_
      obtain ⟨whole', same, -⟩ := h
      rw [Session.kept_put same]
      split
      · exact whole'
      · exact whole
    · exact returns_pure whole

end Reached

/-! ## How deep listings are nested -/

/-- A listing that passes on others at most so many levels deep. -/
inductive Nested : Nat → Listing ν → Prop
  | simple {d : Nat} {l : Listing ν} (simple : l.Simple) : Nested d l
  | page {d id offset size : Nat} : Nested d (.page id offset size)
  | failed {d : Nat} {c : Context ν} {rule : ExpandedItemRule} {row : Variable ν}
      {inner : Option (Listing ν)} : Nested d (.inlined c rule (some (.failed row)) inner)
  | absent {d n : Nat} {c : Context ν} {rule : ExpandedItemRule} :
      Nested d (.inlined c rule (some (.counted n)) none)
  | inlined {d n : Nat} {c : Context ν} {rule : ExpandedItemRule} {l : Listing ν}
      (found : Nested d l) : Nested (d + 1) (.inlined c rule (some (.counted n)) (some l))
  | failure {d : Nat} {c : Context ν} {pointer : SmartPointer} {row : Variable ν}
      {inner : Option (Listing ν)} : Nested d (.pointee c pointer (some row) inner)
  | pointee {d : Nat} {c : Context ν} {pointer : SmartPointer} {l : Listing ν}
      (found : Nested d l) : Nested (d + 1) (.pointee c pointer none (some l))
  | group {d : Nat} {owner : Variable ν} {members : List (Listing ν)} {hideRawView : Bool}
      {limit : Nat} (all : ∀ l ∈ members, Nested d l) :
      Nested (d + 1) (.group owner members hideRawView limit)
  | ofChild {d : Nat} {parent : Variable ν} {index : Nat} {l : Listing ν}
      (found : Nested d l) : Nested (d + 1) (.ofChild parent index (some l))

theorem Nested.succ {d : Nat} (h : Nested d l) : Nested (d + 1) l := by
  induction h with
  | simple simple => exact .simple simple
  | page => exact .page
  | failed => exact .failed
  | absent => exact .absent
  | inlined _ ih => exact .inlined ih
  | failure => exact .failure
  | pointee _ ih => exact .pointee ih
  | group _ ih => exact .group ih
  | ofChild _ ih => exact .ofChild ih

theorem Nested.mono {d d' : Nat} (h : Nested d l) (le : d ≤ d') : Nested d' l := by
  induction le with
  | refl => exact h
  | step _ ih => exact ih.succ

theorem exists_nested_all (h : ∀ l ∈ ls, ∃ d, Nested d l) : ∃ d, ∀ l ∈ ls, Nested d l := by
  induction ls with
  | nil => exact ⟨0, List.forall_mem_nil _⟩
  | cons l ls ih =>
    obtain ⟨⟨d, here⟩, rest⟩ := List.forall_mem_cons.mp h
    obtain ⟨d', all⟩ := ih rest
    refine ⟨max d d', List.forall_mem_cons.mpr ⟨here.mono (Nat.le_max_left _ _), ?_⟩⟩
    exact fun l member => (all l member).mono (Nat.le_max_right _ _)

/-- A settled listing is nested finitely deep. -/
theorem Settled.exists_nested (h : Settled s l n b) : ∃ d, Nested d l := by
  induction h with
  | simple simple => exact ⟨0, .simple simple⟩
  | page => exact ⟨0, .page⟩
  | failed => exact ⟨0, .failed⟩
  | absent => exact ⟨0, .absent⟩
  | inlined _ ih =>
    obtain ⟨d, nested⟩ := ih
    exact ⟨d + 1, .inlined nested⟩
  | failure => exact ⟨0, .failure⟩
  | pointee _ ih =>
    obtain ⟨d, nested⟩ := ih
    exact ⟨d + 1, .pointee nested⟩
  | group length _ ih =>
    obtain ⟨d, nested⟩ := exists_nested_all fun l member => by
      obtain ⟨⟨i, inside⟩, rfl⟩ := List.get_of_mem member
      exact ih i inside (length ▸ inside)
    exact ⟨d + 1, .group nested⟩
  | ofChild _ ih =>
    obtain ⟨d, nested⟩ := ih
    exact ⟨d + 1, .ofChild nested⟩

/-- **Settled listings that are nested so deep can be asked**: they give their
answers, and their windows are found if they are at hand. -/
structure Returning (reach : Reach σ ν) (d : Nat) : Prop where
  count : ∀ (s : Session σ ν) l n b, Nested d l → Settled s l n b →
    Returns (reach.count l) s fun _ _ => True
  isSound : ∀ (s : Session σ ν) l n b, Nested d l → Settled s l n b →
    Returns (reach.isSound l) s fun _ _ => True
  rows : ∀ (s : Session σ ν) l n b start count, Nested d l → s.Sound → l.KnownIn s →
    Settled s l n b → AtHand s l →
    Returns (reach.rows l start count) s fun r s' => Nested d r.2 ∧ ¬ r.2.Partial s'

/-! ## Groups -/

theorem SettledAll.exists_settled (h : SettledAll s ls answers) (member : l ∈ ls) :
    ∃ n b, Settled s l n b := by
  induction h with
  | nil => cases member
  | cons here _ ih =>
    rcases List.mem_cons.mp member with rfl | member
    · exact ⟨_, _, here⟩
    · exact ih member

/-- Settled members that are at hand show all they count. -/
theorem SettledAll.not_anyPartial (h : SettledAll s ls answers) (atHand : ∀ l ∈ ls, AtHand s l) :
    ¬ AnyPartial s ls := by
  rintro ⟨l, member, part⟩
  obtain ⟨n, b, settled⟩ := h.exists_settled member
  exact (atHand l member).not_partial settled part

section Groups

variable {d : Nat} (returning : Returning reach d) (again : Again reach)
  (nested : ∀ l ∈ ls, Nested d l)

include returning again nested

theorem returns_countAll (settled : SettledAll s ls answers) :
    Returns (countAll reach ls) s fun _ _ => True := by
  induction settled with
  | nil => exact returns_pure trivial
  | cons here _ ih =>
    obtain ⟨first, rest⟩ := List.forall_mem_cons.mp nested
    refine ((returning.count _ _ _ _ first here).and (again _ _ _ _ here).1).bind fun r s₁ h => ?_
    obtain ⟨-, rfl, rfl⟩ := h
    exact (ih rest).bind fun _ _ _ => returns_pure trivial

theorem returns_allSound (settled : SettledAll s ls answers) :
    Returns (allSound reach ls) s fun _ _ => True := by
  induction settled with
  | nil => exact returns_pure trivial
  | cons here _ ih =>
    obtain ⟨first, rest⟩ := List.forall_mem_cons.mp nested
    refine ((returning.isSound _ _ _ _ first here).and (again _ _ _ _ here).2).bind
      fun r s₁ h => ?_
    obtain ⟨-, rfl, rfl⟩ := h
    dsimp only
    split
    · exact (ih rest).bind fun _ _ _ => returns_pure trivial
    · exact returns_pure trivial

theorem returns_showsRaw (hideRawView : Bool) (settled : SettledAll s ls answers) :
    Returns (showsRaw reach hideRawView ls) s fun _ _ => True := by
  cases hideRawView with
  | true =>
    exact (returns_allSound returning again nested settled).bind fun _ _ _ => returns_pure trivial
  | false => exact returns_pure trivial

theorem returns_groupCount (hideRawView : Bool) (settled : SettledAll s ls answers) :
    Returns (groupCount reach hideRawView ls) s fun _ _ => True := by
  refine ((returns_countAll returning again nested settled).and
    (ensures_countAll again settled)).bind fun r s₁ h => ?_
  obtain ⟨-, rfl, rfl⟩ := h
  exact (returns_showsRaw returning again nested hideRawView settled).bind fun _ _ _ =>
    returns_pure trivial

variable (windows : Windows reach) (framed : reach.Framed)

include windows framed

/-- The rows of members between two positions are found. -/
theorem returns_rowsBetween (start : Nat) {stop : Nat} (small : stop < wordCount) (offset : Nat)
    (sound : s.Sound) (led : ∀ l ∈ ls, l.KnownIn s) (settled : SettledAll s ls answers)
    (atHand : ∀ l ∈ ls, AtHand s l) :
    Returns (rowsBetween reach start stop offset ls) s fun r s' =>
      (∀ l ∈ r.2.1, Nested d l) ∧ ¬ AnyPartial s' r.2.1 := by
  induction ls generalizing offset s answers with
  | nil => exact returns_pure ⟨nested, fun ⟨l, member, _⟩ => nomatch member⟩
  | cons l ls ih =>
    obtain ⟨a, answers, here, rest, rfl⟩ := List.forall₂_cons_left_iff.mp settled
    obtain ⟨ledHere, ledRest⟩ := List.forall_mem_cons.mp led
    obtain ⟨first, others⟩ := List.forall_mem_cons.mp nested
    obtain ⟨atHandHere, atHandRest⟩ := List.forall_mem_cons.mp atHand
    rw [rowsBetween_cons]
    split
    · exact returns_pure ⟨nested, settled.not_anyPartial atHand⟩
    · refine ((returning.count _ _ _ _ first here).and (again _ _ _ _ here).1).bind
        fun r s₁ h => ?_
      obtain ⟨-, rfl, rfl⟩ := h
      dsimp only
      -- the rest of the members, after the window of the first
      have window (r : List (Variable ν) × Listing ν) (s₂ : Session σ ν) (nested₂ : Nested d r.2)
          (sound₂ : s₂.Sound) (more : s₁.listings.size ≤ s₂.listings.size)
          (here₂ : Settled s₂ r.2 a.1 a.2) (stands : ∀ id, (s₁.kept id).StandsBy (s₂.kept id))
          (panes : ∀ pane, r.2.Has pane → l.Has pane) :
          Returns (rowsBehind reach start stop (offset + a.1) ls r) s₂ fun r s' =>
            (∀ l ∈ r.2.1, Nested d l) ∧ ¬ AnyPartial s' r.2.1 := by
        have led₂ : ∀ m ∈ ls, m.KnownIn s₂ := fun m member =>
          (ledRest m member).mono fun id inside => Nat.lt_of_lt_of_le inside more
        have rest₂ : SettledAll s₂ ls answers := SettledAll.congr rest stands
        have atHand₂ : ∀ m ∈ ls, AtHand s₂ m := by
          intro m member
          obtain ⟨n, b, settled⟩ := SettledAll.exists_settled rest member
          exact (atHandRest m member).congr settled fun id _ => stands id
        have first₂ : AtHand s₂ r.2 := fun id has =>
          (atHandHere.congr here fun id _ => stands id) id (panes _ has)
        refine ((ih others _ sound₂ led₂ rest₂ atHand₂).and
          (ensures_rowsBetween again windows framed start small _ sound₂ led₂ rest₂)).bind
            fun rs s' h => returns_pure ?_
        obtain ⟨⟨nested', whole⟩, shown⟩ := h
        obtain ⟨-, stands', -⟩ := shown whole
        refine ⟨List.forall_mem_cons.mpr ⟨nested₂, nested'⟩, ?_⟩
        rintro ⟨m, member, part⟩
        rcases List.mem_cons.mp member with rfl | member
        · have here' := here₂.congr fun id _ => stands' id
          exact (first₂.congr here₂ fun id _ => stands' id).not_partial here' part
        · exact whole ⟨m, member, part⟩
      split
      · refine ((returning.rows _ _ _ _ _ _ first sound ledHere here atHandHere).and
          ((windows _ _ _ _ _ _ sound ledHere here).and
            (framed.rows l _ _ ledHere s₁ sound rfl))).bind fun r s₂ h => ?_
        obtain ⟨⟨nested₂, whole⟩, shown, sound₂, frame, -⟩ := h
        obtain ⟨here₂, stands, panes, -⟩ := shown whole
        exact window r s₂ nested₂ sound₂ frame.size here₂ stands panes
      · exact window ([], l) s₁ first sound (Nat.le_refl _) here (fun _ => .refl _)
          fun _ has => has

/-- A window of a group is found. -/
theorem returns_groupRows (owner : Variable ν) (hideRawView : Bool) (start count : Nat)
    (sound : s.Sound) (led : ∀ l ∈ ls, l.KnownIn s) (settled : SettledAll s ls answers)
    (atHand : ∀ l ∈ ls, AtHand s l) :
    Returns (groupRows engine reach owner hideRawView ls start count) s fun r s' =>
      (∀ l ∈ r.2, Nested d l) ∧ ¬ AnyPartial s' r.2 := by
  have small : windowEnd start count < wordCount := windowEnd_lt start count
  unfold groupRows
  refine ((returns_rowsBetween returning again nested windows framed start small 0 sound led
    settled atHand).and
      (ensures_rowsBetween again windows framed start small 0 sound led settled)).bind
        fun r s₁ h => ?_
  obtain ⟨⟨nested', whole⟩, shown⟩ := h
  obtain ⟨rows, members, last⟩ := r
  dsimp only at nested' whole shown ⊢
  split
  · obtain ⟨settled', -⟩ := shown whole
    refine ((returns_showsRaw returning again nested' hideRawView settled').and
      (ensures_showsRaw again hideRawView settled')).bind fun r s₂ h => ?_
    obtain ⟨-, rfl, rfl⟩ := h
    dsimp only
    split
    · refine ((returns_lift (engine.rawView owner) s₂).and
        ((engine.light_rawView owner).quiet.ensures s₂)).bind fun row s' h => returns_pure ⟨nested', ?_⟩
      rintro ⟨l, member, part⟩
      exact whole ⟨l, member, part.frame (.of_listings_eq (R := .known) h.2.symm)⟩
    · exact returns_pure ⟨nested', whole⟩
  · exact returns_pure ⟨nested', whole⟩

end Groups

/-! ## All listings -/

theorem Simple.known (simple : l.Simple) (settled : Settled s l n b) :
    l.answer? = some (n, b) := by
  cases settled with
  | simple _ known => exact known
  | _ => exact simple.elim

theorem Simple.returns_rowsWith (simple : l.Simple) (known : l.answer? = some (n, b))
    (start count : Nat) (s : Session σ ν) :
    Returns (rowsWith engine reach start count l) s fun r _ => r.2.Simple := by
  have found : Returns (rowsWith engine reach start count l) s fun _ _ => True := by
    cases l with
    | fixed rows => exact returns_pure trivial
    | item l => exact returns_answering (returns_lift _ s)
    | synthetic l =>
      obtain ⟨st, here, -⟩ := Option.map_eq_some_iff.mp known
      have settled : Returns (l.settled engine reach) s fun r _ => r = (st, l) :=
        ⟨_, s, settled_synthetic engine reach s here, rfl⟩
      refine returns_answering (settled.bind fun r s' h => ?_)
      obtain rfl := h
      cases st with
      | failed row => exact returns_pure trivial
      | counted n => exact returns_pure trivial
    | unsupported row => exact returns_pure trivial
    | _ => exact simple.elim
  exact (found.and (simple.ensures_window engine reach s start count)).mono fun _ _ h => h.2

/-- A listing that passes on the number of another has it if the other has. -/
theorem returns_countedOn (wrap : Listing ν → Listing ν)
    (found : Returns (reach.count l) s fun _ _ => True) :
    Returns (do
      let (n, l) ← reach.count l
      return (n, wrap l)) s fun _ _ => True :=
  found.bind fun _ _ _ => returns_pure trivial

/-- A window of a listing that passes on the children of another is found if
that of the other is. -/
theorem returns_passedOn {d start count : Nat} (wrap : Listing ν → Listing ν)
    (found : Returns (reach.rows l start count) s fun r s' => Nested d r.2 ∧ ¬ r.2.Partial s')
    (nests : ∀ l, Nested d l → Nested (d + 1) (wrap l))
    (panes : ∀ l pane, (wrap l).Has pane → l.Has pane) :
    Returns (do
      let (rows, l) ← reach.rows l start count
      return (rows, wrap l)) s fun r s' => Nested (d + 1) r.2 ∧ ¬ r.2.Partial s' := by
  refine found.bind fun r s' h => returns_pure ⟨nests _ h.1, fun part => h.2 ?_⟩
  exact part.of_panes (panes r.2)

section Reached

variable {d bound : Nat} (words : ∀ p, engine.options.get p < wordCount)
  (below : ∀ d', d = d' + 1 → Returning (engine.reach (bound + 3)) d')

include words below

theorem Nested.returns_count (h : Nested d l) (settled : Settled s l n b) :
    Returns (countWith engine (engine.reach (bound + 3)) l) s fun _ _ => True := by
  have again := again_reach engine words (bound + 3)
  -- a listing that was counted before counts again at once, or asks the ones inside
  cases h with
  | simple simple => exact ⟨_, s, (asked_again engine _ s (simple.known settled)).1, trivial⟩
  | page =>
    cases settled with
    | simple simple => exact simple.elim
    | page known covers =>
      rw [countWith_page_eq, if_pos covers.fits]
      exact (returns_remaining (bound + 2) known covers).bind fun _ _ _ => returns_pure trivial
  | failed => exact returns_pure trivial
  | absent => exact returns_pure trivial
  | inlined found => exact returns_pure trivial
  | failure => exact returns_pure trivial
  | @pointee d c pointer l found =>
    cases settled with
    | simple simple => exact simple.elim
    | pointee inner =>
      exact returns_countedOn (fun l => .pointee c pointer none (some l))
        ((below d rfl).count s l _ _ found inner)
  | @group d owner members hideRawView limit nested =>
    obtain ⟨answers, all, -⟩ := settled.members
    exact (returns_groupCount (below d rfl) again nested hideRawView all).bind fun _ _ _ =>
      returns_pure trivial
  | @ofChild d parent index l found =>
    cases settled with
    | simple simple => exact simple.elim
    | ofChild inner =>
      exact returns_countedOn (fun l => .ofChild parent index (some l))
        ((below d rfl).count s l _ _ found inner)

theorem Nested.returns_isSound (h : Nested d l) (settled : Settled s l n b) :
    Returns (isSoundWith engine (engine.reach (bound + 3)) l) s fun _ _ => True := by
  have again := again_reach engine words (bound + 3)
  cases h with
  | simple simple => exact ⟨_, s, (asked_again engine _ s (simple.known settled)).2, trivial⟩
  | page =>
    cases settled with
    | simple simple => exact simple.elim
    | page known raised =>
      refine (returns_withKept (P := fun _ _ => True) ?_).bind fun _ _ _ => returns_pure trivial
      exact ⟨_, s, (asked_again engine (engine.reach (bound + 2)) s known).2, trivial⟩
  | failed => exact returns_pure trivial
  | absent => exact returns_pure trivial
  | inlined found => exact returns_pure trivial
  | failure => exact returns_pure trivial
  | pointee found => exact returns_pure trivial
  | @group d owner members hideRawView limit nested =>
    obtain ⟨answers, all, -⟩ := settled.members
    exact (returns_allSound (below d rfl) again nested all).bind fun _ _ _ =>
      returns_pure trivial
  | ofChild found => exact returns_pure trivial

theorem Nested.returns_rows (h : Nested d l) (sound : s.Sound) (led : l.KnownIn s)
    (settled : Settled s l n b) (atHand : AtHand s l) (start count : Nat) :
    Returns (rowsWith engine (engine.reach (bound + 3)) start count l) s fun r s' =>
      Nested d r.2 ∧ ¬ r.2.Partial s' := by
  have again := again_reach engine words (bound + 3)
  have windows := windows_reach engine words (bound + 3)
  have framed := engine.framed_reach words (bound + 3)
  -- a listing that passes the question on has as many rows as the one it asks, with the depth below
  cases h with
  | simple simple =>
    refine (simple.returns_rowsWith (simple.known settled) start count s).mono fun r s' h => ?_
    refine ⟨.simple h, ?_⟩
    rintro (has | ⟨id, has, -⟩)
    · exact h.not_has has
    · exact h.not_has has
  | @page _ id offset size =>
    cases settled with
    | simple simple => exact simple.elim
    | page known covers =>
      refine (returns_pageRows words sound bound known covers (atHand id (.page rfl)) start
        count).bind fun rows s' whole => returns_pure ⟨.page, ?_⟩
      rintro (has | ⟨id', has, short⟩)
      · cases has with
        | page here => cases here
      · cases has with
        | page here =>
          cases here
          exact whole short
  | failed => exact returns_pure ⟨.failed, atHand.not_partial settled⟩
  | absent => exact returns_pure ⟨.absent, atHand.not_partial settled⟩
  | @inlined d n c rule l found =>
    cases settled with
    | simple simple => exact simple.elim
    | inlined inner =>
      cases led with
      | inlined _ known =>
        refine returns_passedOn (fun l => .inlined c rule (some (.counted n)) (some l)) ?_
          (fun _ => .inlined) fun _ _ => has_inlined_iff.mp
        exact (below d rfl).rows s l _ _ start count found sound (known l rfl) inner
          fun id has => atHand id (.inlined has)
  | failure => exact returns_pure ⟨.failure, atHand.not_partial settled⟩
  | @pointee d c pointer l found =>
    cases settled with
    | simple simple => exact simple.elim
    | pointee inner =>
      cases led with
      | pointee _ _ known =>
        refine returns_passedOn (fun l => .pointee c pointer none (some l)) ?_
          (fun _ => .pointee) fun _ _ => has_pointee_iff.mp
        exact (below d rfl).rows s l _ _ start count found sound (known l rfl) inner
          fun id has => atHand id (.pointee has)
  | @group d owner members hideRawView limit nested =>
    obtain ⟨answers, all, -⟩ := settled.members
    cases led with
    | group _ known =>
      refine (returns_groupRows (below d rfl) again nested windows framed owner hideRawView start
        count sound known all fun l member id has => atHand id (.group member has)).bind
          fun r s' h => returns_pure ⟨.group h.1, fun part => h.2 ?_⟩
      rcases part with has | ⟨id, has, short⟩
      · obtain ⟨l, member, has⟩ := has_group_iff.mp has
        exact ⟨l, member, .inl has⟩
      · obtain ⟨l, member, has⟩ := has_group_iff.mp has
        exact ⟨l, member, .inr ⟨id, has, short⟩⟩
  | @ofChild d parent index l found =>
    cases settled with
    | simple simple => exact simple.elim
    | ofChild inner =>
      cases led with
      | ofChild _ known =>
        refine returns_passedOn (fun l => .ofChild parent index (some l)) ?_
          (fun _ => .ofChild) fun _ _ => has_ofChild_iff.mp
        exact (below d rfl).rows s l _ _ start count found sound (known l rfl) inner
          fun id has => atHand id (.ofChild has)

theorem returning_succ : Returning (engine.reach (bound + 4)) d where
  count _ _ _ _ nested settled := nested.returns_count words below settled
  isSound _ _ _ _ nested settled := nested.returns_isSound words below settled
  rows _ _ _ _ start count nested sound led settled atHand :=
    nested.returns_rows words below sound led settled atHand start count

end Reached

/-- **Settled listings can be asked**, within a bound that depends on how deep
they are nested. -/
theorem returning_reach (words : ∀ p, engine.options.get p < wordCount) (d : Nat) :
    Returning (engine.reach (d + 4)) d := by
  induction d with
  | zero => exact returning_succ words fun d h => nomatch h
  | succ d ih =>
    refine returning_succ words fun d' h => ?_
    cases h
    exact ih

end Listing

end WatchView
