import WatchView.Proofs.Children
import WatchView.View
/-!
# How far the work on a listing reaches

Asking a listing stays among the pages that it leads to, however far the answer
leads to others. A listing that was asked still shows its children through
what it showed them through before.
-/

namespace WatchView

open Bounded

variable {σ ν : Type} {P Q : Nat → Prop}

/-! ## What children are shown through -/

/-- What the children of a listing are shown through. -/
inductive Pane where
  /-- A page of a kept listing. -/
  | page (id : Nat)
  /-- A number of children known beforehand. -/
  | registers

namespace Listing

/-- Some children of a listing are shown through that. -/
inductive Has (pane : Pane) : Listing ν → Prop
  | page {id offset size : Nat} (here : pane = .page id) : Has pane (.page id offset size)
  | inlined {c : Context ν} {rule : ExpandedItemRule} {n : Nat} {l : Listing ν}
      (found : Has pane l) : Has pane (.inlined c rule (some (.counted n)) (some l))
  | pointee {c : Context ν} {pointer : SmartPointer} {l : Listing ν} (found : Has pane l) :
      Has pane (.pointee c pointer none (some l))
  | group {owner : Variable ν} {members : List (Listing ν)} {hideRawView : Bool} {limit : Nat}
      {l : Listing ν} (member : l ∈ members) (found : Has pane l) :
      Has pane (.group owner members hideRawView limit)
  | registers {n : Nat} {inner : Listing ν} (here : pane = .registers) :
      Has pane (.registers n inner)
  | behind {n : Nat} {inner : Listing ν} (found : Has pane inner) :
      Has pane (.registers n inner)
  | ofChild {parent : Variable ν} {index : Nat} {l : Listing ν} (found : Has pane l) :
      Has pane (.ofChild parent index (some l))

/-- Some children of some listing are shown through that. -/
def AnyHas (pane : Pane) (ls : List (Listing ν)) : Prop := ∃ l ∈ ls, l.Has pane

theorem anyHas_cons_iff {pane : Pane} {l : Listing ν} {ls : List (Listing ν)} :
    AnyHas pane (l :: ls) ↔ l.Has pane ∨ AnyHas pane ls := by
  unfold AnyHas
  rw [List.exists_mem_cons_iff]

section Has

variable {pane : Pane} {l : Listing ν}

theorem has_inlined_iff {c : Context ν} {rule : ExpandedItemRule} {n : Nat} :
    (inlined c rule (some (.counted n)) (some l)).Has pane ↔ l.Has pane :=
  ⟨fun has => by cases has; assumption, .inlined⟩

theorem has_pointee_iff {c : Context ν} {pointer : SmartPointer} :
    (pointee c pointer none (some l)).Has pane ↔ l.Has pane :=
  ⟨fun has => by cases has; assumption, .pointee⟩

theorem has_group_iff {owner : Variable ν} {members : List (Listing ν)} {hideRawView : Bool}
    {limit : Nat} : (group owner members hideRawView limit).Has pane ↔ AnyHas pane members := by
  constructor
  · intro has
    cases has with
    | group member found => exact ⟨_, member, found⟩
  · rintro ⟨l, member, found⟩
    exact .group member found

theorem has_ofChild_iff {parent : Variable ν} {index : Nat} :
    (ofChild parent index (some l)).Has pane ↔ l.Has pane :=
  ⟨fun has => by cases has; assumption, .ofChild⟩

end Has

/-- What a listing becomes when it is asked: it leads among the same pages,
and its children are shown through what they were shown through. -/
structure Grows (l : Listing ν) (Q : Nat → Prop) (l' : Listing ν) : Prop where
  within : l'.Within Q
  panes : ∀ pane, l.Has pane → l'.Has pane

/-- What the members of a group become. -/
structure GrowAll (ls : List (Listing ν)) (Q : Nat → Prop) (ls' : List (Listing ν)) : Prop where
  within : ∀ l ∈ ls', l.Within Q
  panes : ∀ pane, AnyHas pane ls → AnyHas pane ls'

variable {l l' : Listing ν} {ls ls' : List (Listing ν)}

theorem Grows.refl (led : l.Within Q) : l.Grows Q l := ⟨led, fun _ h => h⟩

theorem GrowAll.refl (led : ∀ l ∈ ls, l.Within Q) : GrowAll ls Q ls := ⟨led, fun _ h => h⟩

theorem Grows.trans {l'' : Listing ν} (h : l.Grows P l') (h' : l'.Grows Q l'') :
    l.Grows Q l'' :=
  ⟨h'.within, fun pane has => h'.panes pane (h.panes pane has)⟩

theorem GrowAll.trans {ls'' : List (Listing ν)} (h : GrowAll ls P ls') (h' : GrowAll ls' Q ls'') :
    GrowAll ls Q ls'' :=
  ⟨h'.within, fun pane has => h'.panes pane (h.panes pane has)⟩

theorem GrowAll.cons (h : l.Grows Q l') (h' : GrowAll ls Q ls') :
    GrowAll (l :: ls) Q (l' :: ls') where
  within := List.forall_mem_cons.mpr ⟨h.within, h'.within⟩
  panes pane := by
    rw [anyHas_cons_iff, anyHas_cons_iff]
    exact Or.imp (h.panes pane) (h'.panes pane)

theorem Grows.mono (more : ∀ id, P id → Q id) (h : l.Grows P l') : l.Grows Q l' :=
  ⟨h.within.mono more, h.panes⟩

theorem GrowAll.mono (more : ∀ id, P id → Q id) (h : GrowAll ls P ls') : GrowAll ls Q ls' :=
  ⟨fun l member => (h.within l member).mono more, h.panes⟩

/-- A listing whose page shows it leads to that page. -/
theorem Within.of_has {id : Nat} (led : l.Within Q) (h : l.Has (.page id)) : Q id := by
  induction h with
  | page here =>
    cases here
    cases led with
    | page here => exact here
  | inlined found ih =>
    cases led with
    | inlined settled inner => exact ih (inner _ rfl)
  | pointee found ih =>
    cases led with
    | pointee owner failed inner => exact ih (inner _ rfl)
  | group member found ih =>
    cases led with
    | group owner all => exact ih (all _ member)
  | registers here => cases here
  | behind found ih =>
    cases led with
    | registers inner => exact ih inner
  | ofChild found ih =>
    cases led with
    | ofChild parent inner => exact ih (inner _ rfl)

theorem grows_inlined {c : Context ν} {rule : ExpandedItemRule}
    {standing : Option (Standing ν)} {inner inner' : Option (Listing ν)} {st : Standing ν}
    (here : st.Within Q) (found : ∀ l ∈ inner', l.Within Q)
    (same : ∀ st', standing = some st' → (st, inner') = (st', inner)) :
    (inlined c rule standing inner).Grows Q (inlined c rule (some st) inner') := by
  refine ⟨.inlined (fun st' h => ?_) found, fun pane has => ?_⟩
  · cases h
    exact here
  · cases has with
    | inlined has =>
      cases same _ rfl
      exact .inlined has

theorem grows_pointee {c : Context ν} (led : c.owner.Within Q) {pointer : SmartPointer}
    {failure : Option (Variable ν)} {inner : Option (Listing ν)} {l l' : Listing ν}
    (failed : ∀ row ∈ failure, row.Within Q) (same : ∀ l', inner = some l' → l = l')
    (grown : l.Grows Q l') :
    (pointee c pointer failure inner).Grows Q (pointee c pointer failure (some l')) := by
  refine ⟨.pointee led failed fun l'' here => ?_, fun pane has => ?_⟩
  · cases here
    exact grown.within
  · cases has with
    | pointee has => exact .pointee (grown.panes pane (same _ rfl ▸ has))

theorem grows_failure {c : Context ν} (led : c.owner.Within Q) {pointer : SmartPointer}
    {failure : Option (Variable ν)} {inner : Option (Listing ν)} {row : Variable ν}
    (failed : row.Within Q) (found : ∀ l ∈ inner, l.Within Q)
    (absent : failure = none → inner = none) :
    (pointee c pointer failure inner).Grows Q (pointee c pointer (some row) inner) := by
  refine ⟨.pointee led (fun row' here => ?_) found, fun pane has => ?_⟩
  · cases here
    exact failed
  · cases has with
    | pointee has => cases absent rfl

theorem grows_group {owner : Variable ν} (led : owner.Within Q) {ls ls' : List (Listing ν)}
    {hideRawView : Bool} {limit : Nat} (grown : GrowAll ls Q ls') :
    (group owner ls hideRawView limit).Grows Q (group owner ls' hideRawView limit) := by
  refine ⟨.group led grown.within, fun pane has => ?_⟩
  exact has_group_iff.mpr (grown.panes pane (has_group_iff.mp has))

theorem grows_registers {n : Nat} {l l' : Listing ν} (grown : l.Grows Q l') :
    (registers n l).Grows Q (registers n l') := by
  refine ⟨.registers grown.within, fun pane has => ?_⟩
  cases has with
  | registers here => exact .registers here
  | behind has => exact .behind (grown.panes pane has)

theorem grows_ofChild {parent : Variable ν} (led : parent.Within Q) {index : Nat}
    {inner : Option (Listing ν)} {l l' : Listing ν} (same : ∀ l', inner = some l' → l = l')
    (grown : l.Grows Q l') :
    (ofChild parent index inner).Grows Q (ofChild parent index (some l')) := by
  refine ⟨.ofChild led fun l'' here => ?_, fun pane has => ?_⟩
  · cases here
    exact grown.within
  · cases has with
    | ofChild has => exact .ofChild (grown.panes pane (same _ rfl ▸ has))

end Listing

/-! ## One level further on -/

/-- **What can be asked one level further on** stays where it should. -/
structure Reach.Framed (reach : Reach σ ν) : Prop where
  text : ∀ {R k} kind v, v.Within (R.pages k) → Stays R k (reach.text kind v) fun _ _ => True
  count : ∀ {R k} l, l.Within (R.pages k) → Stays R k (reach.count l) fun P r => l.Grows P r.2
  rows : ∀ {R k} l start count, l.Within (R.pages k) →
    Stays R k (reach.rows l start count) fun P r => (∀ row ∈ r.1, row.Within P) ∧ l.Grows P r.2
  isSound : ∀ {R k} l, l.Within (R.pages k) →
    Stays R k (reach.isSound l) fun P r => l.Grows P r.2

theorem Reach.framed_nowhere : (nowhere : Reach σ ν).Framed where
  text _ _ _ := stays_unfinished
  count _ _ := stays_unfinished
  rows _ _ _ _ := stays_unfinished
  isSound _ _ := stays_unfinished

/-- **What asking a shared listing does** one level further on. -/
structure Reach.Asks (reach : Reach σ ν) : Prop where
  count : ∀ l s, l.Valid → Ensures (reach.count l) s fun r s' =>
    s'.listings = s.listings ∧ l.Onward r.2 ∧ l.Holds r.2 ∧ ∃ b, r.2.answer? = some (r.1, b)
  isSound : ∀ l s, l.Valid → Ensures (reach.isSound l) s fun r s' =>
    s'.listings = s.listings ∧ l.Onward r.2 ∧ l.Holds r.2
  rows : ∀ l s start count, l.Valid → Ensures (reach.rows l start count) s fun r s' =>
    s'.listings = s.listings ∧ l.Onward r.2 ∧
      (∀ P, l.Within P → ∀ row ∈ r.1, row.Within P) ∧
      ∀ n b, l.answer? = some (n, b) → ¬ r.2.IsShort →
        l.StandsBy r.2 ∧ r.1.length = min (windowEnd start count) n - start
  again : ∀ l s n b, l.answer? = some (n, b) →
    Ensures (reach.count l) s (fun r s' => r = (n, l) ∧ s' = s) ∧
      Ensures (reach.isSound l) s fun r s' => r = (b, l) ∧ s' = s

variable (engine : Engine σ ν) {reach : Reach σ ν}

theorem Engine.asks_reach (words : ∀ p, engine.options.get p < wordCount) :
    (bound : Nat) → (engine.reach bound).Asks
  | 0 => {
      count := fun _ _ _ => ensures_unfinished
      isSound := fun _ _ _ => ensures_unfinished
      rows := fun _ _ _ _ _ => ensures_unfinished
      again := fun _ _ _ _ _ => ⟨ensures_unfinished, ensures_unfinished⟩ }
  | bound + 1 => {
      count := fun l s valid r s' ended => by
        obtain ⟨same, onward, known⟩ :=
          valid.ensures_countWith words s (engine.reach bound) r s' ended
        refine ⟨same, onward, onward.holds fun a answered => ?_, known⟩
        cases (Listing.asked_again engine (engine.reach bound) s answered).1.symm.trans ended
        rfl
      isSound := fun l s valid r s' ended => by
        obtain ⟨same, onward, -⟩ :=
          valid.ensures_isSoundWith words s (engine.reach bound) r s' ended
        refine ⟨same, onward, onward.holds fun a answered => ?_⟩
        cases (Listing.asked_again engine (engine.reach bound) s answered).2.symm.trans ended
        rfl
      rows := fun _ s start count valid =>
        valid.ensures_rowsWith words s (engine.reach bound) start count
      again := fun _ s n b known => by
        obtain ⟨counted, asked⟩ := Listing.asked_again engine (engine.reach bound) s known
        exact ⟨ensures_of_eq counted ⟨rfl, rfl⟩, ensures_of_eq asked ⟨rfl, rfl⟩⟩ }

variable {R : Region} {k : Nat} (framed : reach.Framed)

include framed

/-! ## Texts -/

namespace Engine

theorem stays_child? {v : Variable ν} (led : v.Within (R.pages k)) (index : Nat) :
    Stays R k (engine.child? reach v index) fun P child => ∀ v ∈ child, v.Within P := by
  refine (engine.stays_childListing v led).bind fun k' l _ within => ?_
  refine (framed.rows l index 1 within).bind fun k'' r _ h => stays_pure fun v first => ?_
  exact h.1 v (List.mem_of_mem_head? first)

theorem stays_textWith (kind : TextKind) {k : Nat} : (v : Variable ν) → v.Within (R.pages k) →
    Stays R k (engine.textWith reach kind v) fun _ _ => True
  | .debugger handle, _ =>
    stays_of_quiet fun _ => ensures_bind_iff.mpr (ensures_get_iff.mpr (ensures_pure_iff.mpr
      ⟨rfl, trivial⟩))
  | .failure .., _ => stays_pure trivial
  | .renamed inner .., led => stays_textWith kind inner led
  | .ruled inner, led => by
    refine (engine.light_isRuled inner).quiet.stays_bind fun ruled => ?_
    split
    · exact engine.stays_ruleText kind (fun k' le => stays_textWith kind inner
        (Variable.Within.mono (fun id => R.mono le) (v := inner) led)) inner
    · exact stays_textWith kind inner led
  | .asChild inner index, led => by
    refine (engine.stays_child? framed (v := inner) led index).bind fun k' child _ h => ?_
    cases child with
    | none => exact stays_pure trivial
    | some v => exact framed.text kind v (h v rfl)
  | .more .., _ => stays_pure trivial
  | .synthetic owner scope rule text, led => by
    cases kind with
    | value => exact stays_pure trivial
    | stringView =>
      have plain (k' : Nat) (le : k ≤ k') :=
        stays_textWith .stringView owner (k := k')
          (Variable.Within.mono (fun id => R.mono le) (v := owner) led)
      refine (engine.stays_format .stringView (plain k (Nat.le_refl k)) _ owner scope).bind
        fun k' text le _ => ?_
      cases text with
      | error e => exact plain k' le
      | ok text => exact stays_pure trivial

end Engine

namespace Listing

/-! ## Listings within listings -/

variable {l : Listing ν}

theorem stays_settledSynthetic {l : SyntheticListing ν} (led : l.Within (R.pages k)) :
    Stays R k (l.settled engine reach) fun P r => r.1.Within P ∧ r.2.Within P := by
  have settled {P : Nat → Prop} (st : Standing ν) {l' : SyntheticListing ν} (here : st.Within P)
      (led : l'.Within P) : ({ l' with standing := some st } : SyntheticListing ν).Within P := by
    refine ⟨led.owner, fun st' h => ?_, led.row⟩
    cases h
    exact here
  unfold SyntheticListing.settled
  split
  · rename_i st here
    exact stays_pure ⟨led.standing st here, led⟩
  · refine Stays.bind (Standing.stays_settle SyntheticListing.Within led ?_) fun k' r _ h => ?_
    · have text := engine.stays_textWith framed .value l.context.owner led.owner
      refine (engine.stays_format .value text _ _ _).bind fun k' text le _ => ?_
      have led := led.mono fun id => R.mono le
      cases text with
      | error e => exact stays_pure led
      | ok text =>
        refine stays_pure ⟨led.owner, led.standing, fun row h => ?_⟩
        cases h
        exact led.owner
    · exact stays_pure ⟨h.1 _, settled r.1 (h.1 _) h.2⟩

theorem stays_settledInlined (c : Context ν) (rule : ExpandedItemRule)
    {standing : Option (Standing ν)} {inner : Option (Listing ν)}
    (settled : ∀ st ∈ standing, st.Within (R.pages k))
    (found : ∀ l ∈ inner, l.Within (R.pages k)) :
    Stays R k (settledInlined engine reach c rule standing inner) fun P r =>
      r.1.Within P ∧ (∀ l ∈ r.2, l.Within P) ∧ ∀ st, standing = some st → r = (st, inner) := by
  unfold settledInlined
  split
  · rename_i st
    refine stays_pure ⟨settled st rfl, found, fun st' h => ?_⟩
    cases h
    rfl
  · refine Stays.mono (Standing.stays_settle (fun P inner => ∀ l ∈ inner, l.Within P) found ?_)
      fun k' r _ h => ⟨h.1 _, h.2, fun _ h => nomatch h⟩
    unfold countInlined
    split
    · exact stays_pure found
    · refine (engine.stays_contextChildListing c _).bind fun k' result le h => ?_
      cases result with
      | error e => exact stays_pure fun l here => (found l here).mono fun id => R.mono le
      | ok l =>
        refine (framed.count l (h l rfl)).bind fun k'' r _ h => stays_pure fun l' found => ?_
        cases found
        exact h.within

/-- The children of an expression's value lead only to what is kept on the way. -/
theorem stays_untouched (c : Context ν) (rule : ExpandedItemRule) :
    Stays R k (settledInlined engine reach c rule none none) fun P r =>
      r.1.Within P ∧ ∀ l ∈ r.2, l.Within P := by
  have settled := stays_settledInlined engine framed c rule (R := R) (k := k)
    (fun st (h : st ∈ none) => nomatch h) fun l (h : l ∈ none) => nomatch h
  exact settled.mono fun k' r _ h => ⟨h.1, h.2.1⟩

omit framed in
/-- What a smart pointer points to leads only to what is kept on the way. -/
theorem stays_pointeeListing? (c : Context ν) (pointer : SmartPointer) :
    Stays R k (liftM (pointeeListing? engine c pointer) : Search σ ν _) fun P r =>
      ∀ l, r = .ok (some l) → l.Within P := by
  unfold pointeeListing?
  split
  · exact stays_lift_pure fun l h => nomatch h
  · refine stays_lift_bind ((Run.quiet_target _).stays_bind fun applied => ?_)
    rcases applied with e | _ | _
    · exact stays_lift_pure fun l h => nomatch h
    · exact stays_lift_pure fun l h => nomatch h
    · refine stays_lift_bind ((engine.stays_contextChildListing c _).bind
        fun k' result _ h => stays_lift_pure fun l hl => ?_)
      cases result with
      | error e => cases hl
      | ok l' =>
        cases hl
        exact h l rfl

omit framed in
theorem stays_resolvedPointee {c : Context ν} (led : c.owner.Within (R.pages k))
    (pointer : SmartPointer) {failure : Option (Variable ν)} {inner : Option (Listing ν)}
    (failed : ∀ row ∈ failure, row.Within (R.pages k))
    (found : ∀ l ∈ inner, l.Within (R.pages k)) :
    Stays R k (liftM (resolvedPointee engine c pointer failure inner) : Search σ ν _) fun P r =>
      (∀ row, r = .error row → row.Within P ∧ (failure = none → inner = none)) ∧
        ∀ l, r = .ok l → l.Within P ∧ ∀ l', inner = some l' → l = l' := by
  have listed {P : Nat → Prop} {l : Listing ν} {absent : Prop} (led : l.Within P) :
      (∀ row, (.ok l : Except (Variable ν) (Listing ν)) = .error row → row.Within P ∧ absent) ∧
        ∀ l', .ok l = (.ok l' : Except (Variable ν) (Listing ν)) →
          l'.Within P ∧ ∀ l'', (none : Option (Listing ν)) = some l'' → l' = l'' := by
    refine ⟨fun row h => (nomatch h), fun l' h => ?_⟩
    cases h
    exact ⟨led, fun _ h => nomatch h⟩
  cases failure with
  | some row =>
    refine stays_lift_pure ⟨fun row' h => ?_, fun l h => nomatch h⟩
    cases h
    exact ⟨failed row rfl, fun h => nomatch h⟩
  | none => cases inner with
    | some l =>
      refine stays_lift_pure ⟨fun row h => (nomatch h), fun l' h => ?_⟩
      cases h
      exact ⟨found l rfl, fun l' h => Option.some.inj h⟩
    | none =>
      -- without a pointer that can be followed the children of the owner are found, unless that is
      -- an error
      have plain (k' : Nat) (le : k ≤ k') :
          Stays R k' (liftM (do return .ok (← engine.childListing c.owner) :
            Run σ ν (Except (Variable ν) (Listing ν))) : Search σ ν _) fun P r =>
              (∀ row, r = .error row → row.Within P ∧
                ((none : Option (Variable ν)) = none → (none : Option (Listing ν)) = none)) ∧
                ∀ l, r = .ok l → l.Within P ∧ ∀ l', (none : Option (Listing ν)) = some l' → l = l' := by
        have owned := led.mono fun id => R.mono le
        exact stays_lift_bind ((engine.stays_childListing _ owned).bind fun k'' l _ led =>
          stays_lift_pure (listed led))
      have pointed := stays_pointeeListing? (R := R) (k := k) engine c pointer
      refine stays_lift_bind (pointed.bind fun k' result le h => ?_)
      rcases result with e | _ | l
      · dsimp only
        split
        · exact plain k' le
        · refine stays_lift_pure ⟨fun row h => ?_, fun l h => nomatch h⟩
          cases h
          exact ⟨Variable.within_error _, fun _ => rfl⟩
      · exact plain k' le
      · exact stays_lift_pure (listed (h l rfl))

theorem stays_resolvedChild {parent : Variable ν} (led : parent.Within (R.pages k)) (index : Nat)
    {inner : Option (Listing ν)} (found : ∀ l ∈ inner, l.Within (R.pages k)) :
    Stays R k (resolvedChild engine reach parent index inner) fun P l =>
      l.Within P ∧ ∀ l', inner = some l' → l = l' := by
  cases inner with
  | some l => exact stays_pure ⟨found l rfl, fun l' h => Option.some.inj h⟩
  | none =>
    refine (engine.stays_child? framed led index).bind fun k' child _ h => ?_
    cases child with
    | none => exact stays_pure ⟨within_empty, fun _ h => nomatch h⟩
    | some v => exact (engine.stays_childListing v (h v rfl)).mono fun k'' l _ led =>
        ⟨led, fun _ h => nomatch h⟩

/-! ## Groups -/

theorem stays_countAll {ls : List (Listing ν)} (led : ∀ l ∈ ls, l.Within (R.pages k)) :
    Stays R k (countAll reach ls) fun P r => GrowAll ls P r.2 := by
  induction ls generalizing k with
  | nil => exact stays_pure (.refl led)
  | cons l ls ih =>
    obtain ⟨here, rest⟩ := List.forall_mem_cons.mp led
    refine (framed.count l here).bind fun k' r le grown => ?_
    have rest := fun l member => (rest l member).mono fun id => R.mono le
    refine (ih rest).bind fun k'' rs le all => stays_pure ?_
    exact GrowAll.cons (grown.mono fun id => R.mono le) all

theorem stays_allSound {ls : List (Listing ν)} (led : ∀ l ∈ ls, l.Within (R.pages k)) :
    Stays R k (allSound reach ls) fun P r => GrowAll ls P r.2 := by
  induction ls generalizing k with
  | nil => exact stays_pure (.refl led)
  | cons l ls ih =>
    obtain ⟨here, rest⟩ := List.forall_mem_cons.mp led
    refine (framed.isSound l here).bind fun k' r le grown => ?_
    have rest := fun l member => (rest l member).mono fun id => R.mono le
    dsimp only
    split
    · refine (ih rest).bind fun k'' rs le all => stays_pure ?_
      exact GrowAll.cons (grown.mono fun id => R.mono le) all
    · exact stays_pure (GrowAll.cons grown (.refl rest))

theorem stays_showsRaw (hideRawView : Bool) {ls : List (Listing ν)}
    (led : ∀ l ∈ ls, l.Within (R.pages k)) :
    Stays R k (showsRaw reach hideRawView ls) fun P r => GrowAll ls P r.2 := by
  unfold showsRaw
  split
  · exact (stays_allSound framed led).bind fun k' r _ all => stays_pure all
  · exact stays_pure (.refl led)

theorem stays_groupCount (hideRawView : Bool) {ls : List (Listing ν)}
    (led : ∀ l ∈ ls, l.Within (R.pages k)) :
    Stays R k (groupCount reach hideRawView ls) fun P r => GrowAll ls P r.2 := by
  refine (stays_countAll framed led).bind fun k' r _ counted => ?_
  refine (stays_showsRaw framed hideRawView counted.within).bind fun k'' r' _ asked => ?_
  exact stays_pure (counted.trans asked)

/-- The rows of a group behind a member, joined to what the member shows. -/
def rowsBehind (reach : Reach σ ν) (start stop offset : Nat) (ls : List (Listing ν))
    (shown : List (Variable ν) × Listing ν) :
    Search σ ν (List (Variable ν) × List (Listing ν) × Nat) := do
  let (more, ls, last) ← rowsBetween reach start stop offset ls
  return (shown.1 ++ more, shown.2 :: ls, last)

omit framed in
/-- A member is counted, shows what of the window is its own, and the others follow. -/
theorem rowsBetween_cons (start stop offset : Nat) (l : Listing ν) (ls : List (Listing ν)) :
    rowsBetween reach start stop offset (l :: ls) = (do
      if stop ≤ offset then return ([], l :: ls, offset)
      else
        let counted ← reach.count l
        let low := max start offset
        let high := min stop (offset + counted.1)
        if low < high then
          reach.rows counted.2 (low - offset) (high - low) >>=
            rowsBehind reach start stop (offset + counted.1) ls
        else rowsBehind reach start stop (offset + counted.1) ls ([], counted.2)) := rfl

theorem stays_rowsBetween (start stop offset : Nat) {ls : List (Listing ν)}
    (led : ∀ l ∈ ls, l.Within (R.pages k)) :
    Stays R k (rowsBetween reach start stop offset ls) fun P r =>
      (∀ row ∈ r.1, row.Within P) ∧ GrowAll ls P r.2.1 := by
  induction ls generalizing offset k with
  | nil => exact stays_pure ⟨List.forall_mem_nil _, .refl led⟩
  | cons l ls ih =>
    rw [rowsBetween_cons]
    split
    · exact stays_pure ⟨List.forall_mem_nil _, .refl led⟩
    · obtain ⟨here, rest⟩ := List.forall_mem_cons.mp led
      refine (framed.count l here).bind fun k' r le counted => ?_
      have rest := fun l member => (rest l member).mono fun id => R.mono le
      dsimp only
      -- the rest of the members, after the window of the first
      have window (m : Nat) (r' : List (Variable ν) × Listing ν) (le : k' ≤ m)
          (shown : (∀ row ∈ r'.1, row.Within (R.pages m)) ∧ r.2.Grows (R.pages m) r'.2) :
          Stays R m (rowsBehind reach start stop (offset + r.1) ls r') fun P rs =>
            (∀ row ∈ rs.1, row.Within P) ∧ GrowAll (l :: ls) P rs.2.1 := by
        have rest := fun l member => (rest l member).mono fun id => R.mono le
        refine (ih _ rest).bind fun m' rs le more => stays_pure ⟨fun row h => ?_, ?_⟩
        · rcases List.mem_append.mp h with h | h
          · exact (shown.1 row h).mono fun id => R.mono le
          · exact more.1 row h
        · exact GrowAll.cons (counted.trans (shown.2.mono fun id => R.mono le)) more.2
      split
      · exact (framed.rows r.2 _ _ counted.within).bind window
      · exact window k' ([], r.2) (Nat.le_refl _) ⟨List.forall_mem_nil _, .refl counted.within⟩

theorem stays_groupRows {owner : Variable ν} (owned : owner.Within (R.pages k))
    (hideRawView : Bool) {ls : List (Listing ν)} (led : ∀ l ∈ ls, l.Within (R.pages k))
    (start count : Nat) :
    Stays R k (groupRows engine reach owner hideRawView ls start count) fun P r =>
      (∀ row ∈ r.1, row.Within P) ∧ GrowAll ls P r.2 := by
  refine (stays_rowsBetween framed start _ 0 led).bind fun k' r le shown => ?_
  dsimp only
  split
  · refine (stays_showsRaw framed hideRawView shown.2.within).bind fun k'' r' le' asked => ?_
    have grown := shown.2.trans asked
    have rows := fun row h => (shown.1 row h).mono fun id => R.mono le'
    split
    · have owned := owned.mono fun id => R.mono (Nat.le_trans le le')
      refine stays_bind_of_quiet (P := Variable.Within (R.pages k''))
        (fun s => ensures_lift_iff.mpr ⟨rfl, owned.rawView _ _⟩) fun row led => ?_
      refine stays_pure ⟨fun row' h => ?_, grown⟩
      rcases List.mem_append.mp h with h | h
      · exact rows row' h
      · rw [List.mem_singleton.mp h]
        exact led
    · exact stays_pure ⟨rows, grown⟩
  · exact stays_pure shown

/-! ## Pages -/

section Pages

omit framed

variable (asks : reach.Asks)

include asks

theorem stays_remaining {id : Nat} (here : R.pages k id) (offset size : Nat) :
    Stays R k (remaining reach id offset size) fun _ _ => True := by
  rw [remaining_eq]
  split
  case isFalse => exact stays_overflow
  rename_i fits
  refine Stays.bind (stays_withKept here (fun _ _ => True) fun l s valid _ => ?_)
    fun k' n _ _ => stays_pure trivial
  refine (asks.count _ s (valid.raisedFor fits)).mono fun r s' h => ?_
  obtain ⟨same, onward, holds, -⟩ := h
  refine ⟨same, (valid.onward_raisedFor fits).trans onward, fun limit whole => ?_, trivial⟩
  have raised : l.raisedFor offset size = l := raisedFor_eq_self_of_limit
    (Nat.le_antisymm (limit ▸ onward.limit) (valid.onward_raisedFor fits).limit)
  rw [raised] at holds
  exact holds limit whole

theorem stays_pageRows {id : Nat} (here : R.pages k id) (offset size start count : Nat) :
    Stays R k (pageRows reach id offset size start count) fun P rows =>
      ∀ row ∈ rows, row.Within P := by
  rw [pageRows_eq]
  split
  case isFalse => exact stays_overflow
  refine (stays_remaining asks here offset size).bind fun k' remaining le _ => ?_
  have here := R.mono le here
  -- the row that leads on shows the page that is shown here already
  have shown {m : Nat} (rows : List (Variable ν)) (here : R.pages m id)
      (led : ∀ row ∈ rows, row.Within (R.pages m)) (more : Prop) [Decidable more] :
      ∀ row ∈ (if more then rows ++ [.more id (offset + size) size] else rows),
        row.Within (R.pages m) := by
    split
    · intro row h
      rcases List.mem_append.mp h with h | h
      · exact led row h
      · rw [List.mem_singleton.mp h]
        exact here
    · exact led
  unfold exactRows
  dsimp only
  split
  · exact stays_pure (List.forall_mem_nil _)
  · split
    · refine Stays.bind (stays_withKept here (fun P rows => ∀ row ∈ rows, row.Within P)
        fun l s valid led => ?_) fun k'' rows le led =>
          stays_pure (shown rows (R.mono le here) led _)
      refine (asks.rows l s _ _ valid).mono fun r s' h => ?_
      obtain ⟨same, onward, leads, shown⟩ := h
      refine ⟨same, onward, fun _ whole => ⟨fun a known => ?_, onward.raised, fun a known => ?_⟩,
        leads _ led⟩
      · exact (shown a.1 a.2 known whole).1.answer a known
      · exact (shown a.1 a.2 known whole).1.ended a known
    · exact stays_pure (shown [] here (List.forall_mem_nil _) _)

end Pages

/-! ## Asking -/

section Settling

omit framed

variable {α β κ : Type}

theorem stays_answering {wrap : κ → Listing ν} {answer : α → β} {act : Search σ ν (α × κ)}
    {outcome : (Nat → Prop) → β × Listing ν → Prop}
    (h : Stays R k act fun P r => outcome P (answer r.1, wrap r.2)) :
    Stays R k (answering wrap answer act) outcome :=
  h.bind fun _ _ _ h => stays_pure h

theorem stays_item (answer : Standing ν → β) {l : ItemListing ν} (led : l.Within (R.pages k)) :
    Stays R k (answering item answer (liftM (l.settled engine.evaluator) : Search σ ν _))
      fun P r => (item l).Grows P r.2 := by
  refine stays_answering (stays_target fun t => ?_)
  refine (l.ensures_settled engine.evaluator t).mono fun r _ h => ?_
  exact ⟨.item (h.1.leads _ led), fun _ has => nomatch has⟩

theorem stays_indexList (answer : Standing ν → β) {l : IndexListing ν}
    (led : l.Within (R.pages k)) :
    Stays R k (answering indexList answer (liftM (l.settled engine.evaluator) : Search σ ν _))
      fun P r => (indexList l).Grows P r.2 := by
  refine stays_answering (stays_target fun t => ?_)
  refine (l.ensures_settled engine.evaluator t).mono fun r _ h => ?_
  exact ⟨.indexList (h.1.leads _ led), fun _ has => nomatch has⟩

theorem stays_array (answer : Standing ν → β) {l : ArrayListing ν} (led : l.Within (R.pages k)) :
    Stays R k (answering array answer (liftM (l.settled engine.evaluator) : Search σ ν _))
      fun P r => (array l).Grows P r.2 := by
  refine stays_answering (stays_target fun t => ?_)
  refine (l.ensures_settled engine.evaluator t).mono fun r _ h => ?_
  exact ⟨.array (h.1.leads _ led), fun _ has => nomatch has⟩

variable (words : ∀ p, engine.options.get p < wordCount) (bound : Nat)

include words

theorem stays_nodes (answer : Standing ν → β) {l : NodeListing ν} (led : l.Within (R.pages k)) :
    Stays R k (answering nodes answer
      (.ofTarget (l.settled engine.evaluator engine.options bound))) fun P r =>
      (nodes l).Grows P r.2 := by
  refine stays_answering (stays_ofTarget fun t => ?_)
  refine (l.ensures_settled engine.evaluator words bound t).mono fun r _ h => ?_
  exact ⟨.nodes (h.1.leads _ led), fun _ has => nomatch has⟩

theorem stays_custom {l : CustomListing ν} (valid : l.Valid) (led : l.Within (R.pages k)) :
    Stays R k (l.settled engine bound) fun P r => (custom l).Grows P (custom r.2) := by
  refine stays_of_quiet fun s => ?_
  refine (l.ensures_settled engine words bound valid s).mono fun r s' h => ?_
  exact ⟨h.1, .custom (h.2.1.valid valid) (h.2.1.leads _ led), fun _ has => nomatch has⟩

end Settling

theorem stays_synthetic {β : Type} (answer : Standing ν → β) {l : SyntheticListing ν}
    (led : l.Within (R.pages k)) :
    Stays R k (answering synthetic answer (l.settled engine reach)) fun P r =>
      (synthetic l).Grows P r.2 := by
  refine stays_answering ((stays_settledSynthetic engine framed led).mono fun k' r _ h => ?_)
  exact ⟨.synthetic h.2, fun _ has => nomatch has⟩

variable (asks : reach.Asks) (words : ∀ p, engine.options.get p < wordCount)

include asks words

/-- **Counting a listing** stays where the listing leads. -/
theorem stays_countWith {l : Listing ν} (led : l.Within (R.pages k)) :
    Stays R k (countWith engine reach l) fun P r => l.Grows P r.2 := by
  cases led with
  | fixed led => exact stays_pure (.refl (.fixed led))
  | item led => exact stays_item engine _ led
  | indexList led => exact stays_indexList engine _ led
  | array led => exact stays_array engine _ led
  | nodes led => exact stays_nodes engine words _ _ led
  | custom valid led => exact stays_answering (stays_custom engine words _ valid led)
  | synthetic led => exact stays_synthetic engine framed _ led
  | inlined settled found =>
    refine (stays_settledInlined engine framed _ _ settled found).bind fun k' r _ h =>
      stays_pure ?_
    exact grows_inlined h.1 h.2.1 h.2.2
  | pointee led failed found =>
    refine (stays_resolvedPointee engine led _ failed found).bind fun k' r le h => ?_
    have led := led.mono fun id => R.mono le
    have failed := fun row here => (failed row here).mono fun id => R.mono le
    have found := fun l here => (found l here).mono fun id => R.mono le
    cases r with
    | error row =>
      obtain ⟨here, absent⟩ := h.1 row rfl
      exact stays_pure (grows_failure led here found absent)
    | ok l =>
      obtain ⟨within, same⟩ := h.2 l rfl
      refine (framed.count l within).bind fun k'' r le grown => stays_pure ?_
      exact grows_pointee (led.mono fun id => R.mono le)
        (fun row here => (failed row here).mono fun id => R.mono le) same grown
  | unsupported led => exact stays_pure (.refl (.unsupported led))
  | group led all =>
    refine (stays_groupCount framed _ all).bind fun k' r le grown => stays_pure ?_
    exact grows_group (led.mono fun id => R.mono le) grown
  | page here =>
    rw [countWith_page_eq]
    split
    · exact (stays_remaining asks here _ _).bind fun k' n le _ =>
        stays_pure (.refl (.page (R.mono le here)))
    · exact stays_overflow
  | registers led => exact stays_pure (.refl (.registers led))
  | ofChild led found =>
    refine (stays_resolvedChild engine framed led _ found).bind fun k' l le h => ?_
    refine (framed.count l h.1).bind fun k'' r le' grown => stays_pure ?_
    exact grows_ofChild (led.mono fun id => R.mono (Nat.le_trans le le')) h.2 grown

/-- **Asking whether all children can be had** stays where the listing leads. -/
theorem stays_isSoundWith {l : Listing ν} (led : l.Within (R.pages k)) :
    Stays R k (isSoundWith engine reach l) fun P r => l.Grows P r.2 := by
  cases led with
  | fixed led => exact stays_pure (.refl (.fixed led))
  | item led => exact stays_item engine _ led
  | indexList led => exact stays_indexList engine _ led
  | array led => exact stays_array engine _ led
  | nodes led => exact stays_nodes engine words _ _ led
  | custom valid led =>
    exact (stays_custom engine words _ valid led).bind fun k' r _ grown => stays_pure grown
  | synthetic led => exact stays_synthetic engine framed _ led
  | inlined settled found =>
    refine (stays_settledInlined engine framed _ _ settled found).bind fun k' r _ h =>
      stays_pure ?_
    exact grows_inlined h.1 h.2.1 h.2.2
  | pointee led failed found =>
    refine (stays_resolvedPointee engine led _ failed found).bind fun k' r le h => ?_
    have led := led.mono fun id => R.mono le
    have failed := fun row here => (failed row here).mono fun id => R.mono le
    have found := fun l here => (found l here).mono fun id => R.mono le
    cases r with
    | error row =>
      obtain ⟨here, absent⟩ := h.1 row rfl
      exact stays_pure (grows_failure led here found absent)
    | ok l =>
      obtain ⟨within, same⟩ := h.2 l rfl
      exact stays_pure (grows_pointee led failed same (.refl within))
  | unsupported led => exact stays_pure (.refl (.unsupported led))
  | group led all =>
    refine (stays_allSound framed all).bind fun k' r le grown => stays_pure ?_
    exact grows_group (led.mono fun id => R.mono le) grown
  | page here =>
    refine Stays.bind (stays_withKept here (fun _ _ => True) fun l s valid _ => ?_)
      fun k' b le _ => stays_pure (.refl (.page (R.mono le here)))
    exact (asks.isSound l s valid).mono fun r s' h => ⟨h.1, h.2.1, h.2.2, trivial⟩
  | registers led =>
    exact (framed.isSound _ led).bind fun k' r _ grown => stays_pure (grows_registers grown)
  | ofChild led found => exact stays_pure (.refl (.ofChild led found))

/-- **A window of a listing** stays where the listing leads, and so do its
rows. -/
theorem stays_rowsWith (start count : Nat) {l : Listing ν} (led : l.Within (R.pages k)) :
    Stays R k (rowsWith engine reach start count l) fun P r =>
      (∀ row ∈ r.1, row.Within P) ∧ l.Grows P r.2 := by
  -- a window shows rows that lead nowhere else, because it shows no others
  have clipped {P : Nat → Prop} {rows : List (Variable ν)} (led : ∀ row ∈ rows, row.Within P) :
      ∀ row ∈ clip start count rows, row.Within P :=
    fun row h => led row (mem_of_mem_clip h)
  have single {P : Nat → Prop} {row : Variable ν} (led : row.Within P) :
      ∀ shown ∈ clip start count [row], shown.Within P :=
    fun shown h => eq_of_mem_clip_singleton h ▸ led
  cases led with
  | fixed led => exact stays_pure ⟨clipped led, .refl (.fixed led)⟩
  | @item l led =>
    refine stays_answering (stays_target fun t => ?_)
    refine (l.ensures_rows engine.evaluator start count t).mono fun r _ h => ?_
    exact ⟨h.2.1 _ led, .item (h.1.leads _ led), fun _ has => nomatch has⟩
  | @indexList l led =>
    refine stays_answering (stays_target fun t => ?_)
    refine (l.ensures_rows engine.evaluator start count t).mono fun r _ h => ?_
    exact ⟨h.2.1 _ led, .indexList (h.1.leads _ led), fun _ has => nomatch has⟩
  | @array l led =>
    refine stays_answering (stays_target fun t => ?_)
    refine (l.ensures_rows engine.evaluator start count t).mono fun r _ h => ?_
    exact ⟨h.2.1 _ led, .array (h.1.leads _ led), fun _ has => nomatch has⟩
  | @nodes l led =>
    refine stays_answering (stays_ofTarget fun t => ?_)
    refine (l.ensures_rows engine.evaluator words reach.bound start count t).mono fun r _ h => ?_
    exact ⟨h.2.1 _ led, .nodes (h.1.leads _ led), fun _ has => nomatch has⟩
  | @custom l valid led =>
    refine stays_answering (stays_of_quiet fun s => ?_)
    refine (l.ensures_rows engine words reach.bound valid start count s).mono fun r s' h => ?_
    exact ⟨h.1, h.2.2.1 _ led, .custom (h.2.1.valid valid) (h.2.1.leads _ led),
      fun _ has => nomatch has⟩
  | @synthetic l led =>
    refine stays_answering ((stays_settledSynthetic engine framed led).bind fun k' r _ h => ?_)
    obtain ⟨st, l'⟩ := r
    have grown : (synthetic l).Grows (R.pages k') (synthetic l') :=
      ⟨.synthetic h.2, fun _ has => nomatch has⟩
    cases st with
    | failed row => exact stays_pure ⟨single h.1, grown⟩
    | counted n =>
      refine stays_pure ⟨clipped fun row here => ?_, grown⟩
      exact h.2.row row (Option.mem_toList.mp here)
  | @inlined c rule standing inner settled found =>
    refine (stays_settledInlined engine framed c rule settled found).bind fun k' r _ h => ?_
    obtain ⟨st, inner'⟩ := r
    have grown : (inlined c rule standing inner).Grows (R.pages k')
        (inlined c rule (some st) inner') :=
      grows_inlined h.1 h.2.1 h.2.2
    rcases st with n | row
    · cases inner' with
      | none => exact stays_pure ⟨List.forall_mem_nil _, grown⟩
      | some l =>
        refine (framed.rows l start count (h.2.1 l rfl)).bind fun k'' r' _ shown => stays_pure ?_
        -- settling was the first work on the children, and their window is the second
        refine ⟨shown.1, grown.trans ⟨.inlined (fun st h => ?_) fun l' h => ?_, fun pane has => ?_⟩⟩
        · cases h
          trivial
        · cases h
          exact shown.2.within
        · cases has with
          | inlined has => exact .inlined (shown.2.panes pane has)
    · exact stays_pure ⟨single h.1, grown⟩
  | pointee led failed found =>
    refine (stays_resolvedPointee engine led _ failed found).bind fun k' r le h => ?_
    have led := led.mono fun id => R.mono le
    have failed := fun row here => (failed row here).mono fun id => R.mono le
    have found := fun l here => (found l here).mono fun id => R.mono le
    cases r with
    | error row =>
      obtain ⟨here, absent⟩ := h.1 row rfl
      exact stays_pure ⟨single here, grows_failure led here found absent⟩
    | ok l =>
      obtain ⟨within, same⟩ := h.2 l rfl
      refine (framed.rows l start count within).bind fun k'' r le shown => stays_pure ?_
      exact ⟨shown.1, grows_pointee (led.mono fun id => R.mono le)
        (fun row here => (failed row here).mono fun id => R.mono le) same shown.2⟩
  | unsupported led => exact stays_pure ⟨single led, .refl (.unsupported led)⟩
  | group led all =>
    refine (stays_groupRows engine framed led _ all start count).bind fun k' r le shown =>
      stays_pure ?_
    exact ⟨shown.1, grows_group (led.mono fun id => R.mono le) shown.2⟩
  | page here =>
    exact (stays_pageRows asks here _ _ start count).bind fun k' rows le led =>
      stays_pure ⟨led, .refl (.page (R.mono le here))⟩
  | registers led =>
    refine (framed.rows _ start count led).bind fun k' r _ shown => stays_pure ?_
    exact ⟨shown.1, grows_registers shown.2⟩
  | ofChild led found =>
    refine (stays_resolvedChild engine framed led _ found).bind fun k' l le h => ?_
    refine (framed.rows l start count h.1).bind fun k'' r le' shown => stays_pure ?_
    exact ⟨shown.1, grows_ofChild (led.mono fun id => R.mono (Nat.le_trans le le')) h.2 shown.2⟩

end Listing

omit framed in
/-- **Whatever can be asked of the engine** stays where what it asks about
leads. -/
theorem Engine.framed_reach (words : ∀ p, engine.options.get p < wordCount) (bound : Nat) :
    (engine.reach bound).Framed := by
  induction bound with
  | zero => exact Reach.framed_nowhere
  | succ bound ih =>
    have asks := engine.asks_reach words bound
    exact {
      text := fun kind v led => engine.stays_textWith ih kind v led
      count := fun l led => Listing.stays_countWith engine ih asks words led
      rows := fun l start count led => Listing.stays_rowsWith engine ih asks words start count led
      isSound := fun l led => Listing.stays_isSoundWith engine ih asks words led }

end WatchView
