import WatchView.Proofs.Listing.Upheld
/-!
# What is held lasts

Whatever a listing is asked, it holds the rows that it held before
(`Reach.Turn.upholds`). A page of a kept list holds them because the list takes
nothing back; a group because a turn of one member leaves alone what the others
show.
-/

namespace WatchView

open Bounded Relation Listing

variable {σ ν : Type} {engine : Engine σ ν} {d : Inspector σ ν} {s₀ s s' : Session σ ν}
  {l l' : Listing ν} {bound reached : Nat}

namespace Listing

variable (words : ∀ p, engine.options.get p < wordCount)

include words

/-! ## Pages -/

/-- A list that is asked through a page goes on. **If it need not look for more
children, it endures.** -/
theorem PageTurn.endures {id offset size : Nat}
    (turn : PageTurn (engine.reach bound) id offset size s s') (valid : (s.kept id).Valid) :
    (s.kept id).Onward (s'.kept id) ∧
      ((s.kept id).raisedFor offset size = s.kept id ∨ (s'.kept id).limit = (s.kept id).limit →
        (s.kept id).Endures (s'.kept id)) := by
  cases turn with
  | @asked s' l l' here turn =>
    have from_ : (s.kept id).Onward l := by
      rcases here with rfl | ⟨fits, rfl⟩
      · exact .refl valid
      · exact valid.onward_raisedFor fits
    obtain ⟨same, onward⟩ := (engine.asks_reach words bound).turn turn from_.valid
    have kept := Session.kept_put same id l' id
    by_cases inside : id < s.listings.size
    · rw [if_pos ⟨rfl, inside⟩] at kept
      rw [kept]
      refine ⟨from_.trans onward, fun enough => ?_⟩
      obtain rfl : l = s.kept id := by
        rcases here with rfl | ⟨-, rfl⟩
        · rfl
        · rcases enough with raised | limit
          · exact raised
          · exact raisedFor_eq_self_of_limit
              (Nat.le_antisymm (limit ▸ onward.limit) from_.limit)
      exact IsLeaf.endures words (.inr valid) turn
    · rw [if_neg fun h => inside h.2] at kept
      rw [kept]
      exact ⟨.refl valid, fun _ => .refl _⟩

/-- A list endures while pages show it that need no more children of it. -/
theorem PageTurn.endures_all {id offset size : Nat}
    (turns : ReflTransGen (PageTurn (engine.reach bound) id offset size) s s')
    (valid : (s.kept id).Valid) (raised : (s.kept id).raisedFor offset size = s.kept id) :
    (s.kept id).Endures (s'.kept id) := by
  suffices h : (s.kept id).Onward (s'.kept id) ∧ (s.kept id).Endures (s'.kept id) from h.2
  induction turns with
  | refl => exact ⟨.refl valid, .refl _⟩
  | tail _ turn ih =>
    obtain ⟨onward, endures⟩ := ih
    obtain ⟨onward', endures'⟩ := turn.endures words onward.valid
    exact ⟨onward.trans onward', endures.trans (endures' (.inl (onward.raised _ _ raised)))⟩

/-- A list endures any number of visits that do not raise its limit. -/
theorem Visited.endures {id : Nat} {visits : List (Session σ ν × Session σ ν)}
    (h : Visited engine id visits s s') (valid : (s.kept id).Valid) :
    (s.kept id).Onward (s'.kept id) ∧
      ((s'.kept id).limit = (s.kept id).limit → (s.kept id).Endures (s'.kept id)) := by
  induction h with
  | done => exact ⟨.refl valid, fun _ => .refl _⟩
  | visit turn _ ih =>
    obtain ⟨onward, endures⟩ := turn.endures words valid
    obtain ⟨onward', endures'⟩ := ih onward.valid
    refine ⟨onward.trans onward', fun limit => ?_⟩
    have first := onward.limit
    have second := onward'.limit
    exact (endures (.inr (by omega))).trans (endures' (by omega))
  | elsewhere same _ ih =>
    rw [← same] at valid ⊢
    exact ih valid

/-! ## Groups -/

/-- Lists that were short of rows are so after a turn. -/
theorem Spread.keepsShort {before behind : List (Listing ν)}
    (spread : Spread s (before ++ l :: behind))
    (turn : (engine.reach reached).Turn (s, l) (s', l')) : s.KeepsShort s' := by
  have here : l ∈ before ++ l :: behind := List.mem_append_right _ List.mem_cons_self
  exact (turn.stays (engine.framed_reach words reached) spread.sound (spread.led l here)).2.1.short

/-- What the members of a group hold lasts when one of them is asked. -/
theorem Spread.upholdAll {before behind : List (Listing ν)}
    (spread : Spread s (before ++ l :: behind)) (since : s₀.KeepsShort s)
    (turn : (engine.reach reached).Turn (s, l) (s', l'))
    (lasts : Upholds d s₀ bound s s' l l') :
    UpholdAll d s₀ bound s s' (before ++ l :: behind) (before ++ l' :: behind) := by
  have here : l ∈ before ++ l :: behind := List.mem_append_right _ List.mem_cons_self
  have parted := turn.parted words spread.sound (spread.led l here) (spread.all l here)
  obtain ⟨-, -, same⟩ := spread.asked words turn parted
  have others (m : Listing ν) (member : m ∈ before ++ behind) : Upholds d s₀ bound s s' m m :=
    upholds_of_kept since fun id has => same m member id has ▸ .refl _
  refine List.rel_append (List.forall₂_same.mpr fun m member => ?_)
    (.cons lasts (List.forall₂_same.mpr fun m member => ?_))
  · exact others m (List.mem_append_left _ member)
  · exact others m (List.mem_append_right _ member)

/-- And when one after the other is. -/
theorem Spread.upholdAll_turns {p q : Session σ ν × List (Listing ν)}
    (turns : ReflTransGen (MemberTurn (engine.reach reached)) p q) (spread : Spread p.1 p.2)
    (since : s₀.KeepsShort p.1)
    (lasts : ∀ {s s' : Session σ ν} {l l' : Listing ν},
      (engine.reach reached).Turn (s, l) (s', l') → s.Sound → l.KnownIn s → Parted s l →
        s₀.KeepsShort s → Upholds d s₀ bound s s' l l') :
    UpholdAll d s₀ bound p.1 q.1 p.2 q.2 := by
  suffices h : s₀.KeepsShort q.1 ∧ UpholdAll d s₀ bound p.1 q.1 p.2 q.2 from h.2
  induction turns with
  | refl => exact ⟨since, List.forall₂_same.mpr fun l _ => .refl d s₀ bound _ l⟩
  | tail turns turn ih =>
    obtain ⟨since, upheld⟩ := ih
    have spread' := Spread.turns words turns (fun turn => turn.parted words) spread
    cases turn with
    | @asked _ _ before behind l l' turn =>
      have here : l ∈ before ++ l :: behind := List.mem_append_right _ List.mem_cons_self
      refine ⟨fun id short => spread'.keepsShort words turn id (since id short), upheld.trans ?_⟩
      exact spread'.upholdAll words since turn
        (lasts turn spread'.sound (spread'.led l here) (spread'.all l here) since)

end Listing

/-! ## All kinds -/

variable (words : ∀ p, engine.options.get p < wordCount)

include words

/-- **What was found out of a listing lasts**, whatever it is asked. -/
theorem Reach.Turn.upholds (turn : (engine.reach reached).Turn (s, l) (s', l')) (sound : s.Sound)
    (led : l.KnownIn s) (parted : Parted s l) (since : s₀.KeepsShort s) (d : Inspector σ ν)
    (bound : Nat) : Upholds d s₀ bound s s' l l' := by
  induction reached generalizing s s' l l' bound with
  | zero => exact (not_turn_nowhere turn).elim
  | succ reached ih =>
    cases bound with
    | zero => exact upholds_of_nothing (fun _ _ h => nomatch h) fun _ _ _ _ h => h.elim
    | succ bound =>
      -- a listing that has found what it passes on
      have passed {inner inner' outer outer' : Listing ν} (passes : PassesOn inner inner' outer outer')
          (led : inner.KnownIn s) (parted : Parted s inner)
          (turn : ReflGen (engine.reach reached).Turn (s, inner) (s', inner')) :
          Upholds d s₀ (bound + 1) s s' outer outer' := by
        refine Upholds.passed ?_ passes
        rcases turn with _ | turn
        · exact .refl d s₀ bound _ _
        · exact ih turn sound led parted since bound
      cases parted with
      | simple simple =>
        have simple' := turn.simple simple
        exact upholds_leaf (.inl simple) (.inl simple') (fun _ => simple')
          (IsLeaf.endures words (.inl simple) turn)
      | @page id offset size =>
        cases turn.becomes with
        | own own => exact own.elim
        | page turns =>
          exact upholds_page (since id) fun covers =>
            PageTurn.endures_all words turns (sound.valid id) covers.raised
      | @inlined c rule standing inner untouched found =>
        cases standing with
        | none => exact Unasked.inlined.upholds
        | some st =>
          cases turn.becomes with
          | own own => exact own.elim
          | inlined settles =>
            cases settles
            exact .refl d s₀ _ _ _
          | inner settles turn' =>
            cases settles
            cases led with
            | inlined _ foundLed =>
              exact passed .inlined (foundLed _ rfl) (found _ rfl) (.single turn')
      | @pointee c pointer failure inner found =>
        cases turn.becomes with
        | own own => exact own.elim
        | failure resolved =>
          cases failure with
          | some row =>
            cases resolved
            exact .refl d s₀ _ _ _
          | none =>
            cases inner with
            | some inner => cases resolved
            | none => exact Unasked.pointee.upholds
        | pointee resolved turn' =>
          cases failure with
          | some row => cases resolved
          | none =>
            cases inner with
            | none => exact Unasked.pointee.upholds
            | some inner =>
              cases resolved
              cases led with
              | pointee _ _ foundLed =>
                exact passed .pointee (foundLed _ rfl) (found rfl _ rfl) turn'
      | @group owner members hideRawView limit elements all separate =>
        cases led with
        | group _ ledAll =>
          cases turn.becomes with
          | own own => exact own.elim
          | group turns =>
            have spread : Spread s members := ⟨sound, ledAll, elements, all, separate⟩
            have lasts := spread.upholdAll_turns words turns since
              fun turn sound led parted since => ih turn sound led parted since bound
            exact lasts.group owner hideRawView limit limit
      | registers behind =>
        cases led with
        | registers ledBehind =>
          cases turn.becomes with
          | own own => exact own.elim
          | registers turn' => exact passed .registers ledBehind behind turn'
      | @ofChild parent index inner found =>
        cases inner with
        | none => exact Unasked.ofChild.upholds
        | some inner =>
          cases turn.becomes with
          | own own => exact own.elim
          | unasked => exact .refl d s₀ _ _ _
          | ofChild resolved turn' =>
            cases resolved
            cases led with
            | ofChild _ foundLed =>
              exact passed .ofChild (foundLed _ rfl) (found _ rfl) (.single turn')

end WatchView
