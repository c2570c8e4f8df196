import WatchView.Proofs.Listing.Fit
/-!
# Listings that were just made

The listings the engine makes are fit. The elements of an expansion show a page
each, of a list that is kept for it, and lead to that list and to where the
expanded variable leads. So they are apart.
-/

namespace WatchView

open Bounded Listing

variable {σ ν α β : Type}

/-- After work that leaves the kept listings alone. -/
theorem Run.Quiet.ensures_bind {act : Run σ ν α} {next : α → Run σ ν β} {s : Session σ ν}
    {P : β → Session σ ν → Prop} (h : act.Quiet)
    (rest : ∀ a s', s'.listings = s.listings → Ensures (liftM (next a) : Search σ ν β) s' P) :
    Ensures (liftM (act >>= next) : Search σ ν β) s P :=
  ensures_lift_bind_iff.mpr ((h.ensures s).mono rest)

/-- A variable that leads to kept listings only. -/
abbrev Variable.KnownIn (s : Session σ ν) (v : Variable ν) : Prop :=
  v.Within (· < s.listings.size)

theorem Variable.KnownIn.of_listings_eq {s s' : Session σ ν} {v : Variable ν} (led : v.KnownIn s)
    (same : s'.listings = s.listings) : v.KnownIn s' := by
  unfold Variable.KnownIn
  rw [same]
  exact led

/-! ## Elements -/

/-- **An element that was just made**: it shows pages only that were kept for
it, and leads to these and to pages below a bound. -/
structure Listing.Own (below : Nat) (s : Session σ ν) (l : Listing ν) : Prop where
  element : ∀ t : Session σ ν, Element t l
  closed : s.Closed fun id => id < below ∨ l.Has (.page id)
  within : l.Within fun id => id < below ∨ l.Has (.page id)

theorem Listing.Own.frame {below : Nat} {s s' : Session σ ν} {R : Region} {l : Listing ν}
    (own : Own below s l) (frame : s.Frame R s') : Own below s' l :=
  { own with closed := own.closed.frame frame }

/-- Elements that were just made and show different pages are apart. -/
theorem Listing.Own.apart {below : Nat} {s : Session σ ν} {l l' : Listing ν} (own : Own below s l)
    (own' : Own below s l') (fresh : ∀ id, l.Has (.page id) → below ≤ id)
    (fresh' : ∀ id, l'.Has (.page id) → below ≤ id)
    (different : ∀ id, l.Has (.page id) → ¬ l'.Has (.page id)) : Apart s l l' := by
  refine ⟨⟨_, own'.closed, own'.within, fun id has here => ?_⟩,
    ⟨_, own.closed, own.within, fun id has here => ?_⟩⟩
  · rcases here with low | has'
    · exact Nat.not_le_of_lt low (fresh id has)
    · exact different id has has'
  · rcases here with low | has'
    · exact Nat.not_le_of_lt low (fresh' id has)
    · exact different id has' has

namespace Engine

variable (engine : Engine σ ν)

theorem Unpaged.element {c : Context ν} {l : Listing ν} (h : Unpaged c l) (s : Session σ ν) :
    Element s l := by
  cases h with
  | item rule => exact .simple fun _ h => nomatch h
  | synthetic rule => exact .simple ⟨fun _ => rfl, fun _ h => nomatch h⟩
  | inlined rule => exact .untouched
  | unsupported element => exact .simple trivial

theorem Unpaged.not_has {c : Context ν} {l : Listing ν} (h : Unpaged c l) {pane : Pane} :
    ¬ l.Has pane := by
  intro has
  cases h with
  | _ => cases has

section Elements

variable {c : Context ν} {below : Nat} (led : c.owner.Within (· < below))

include led

/-- An element is made with a page of its own at most. -/
theorem ensures_elementListing (element : ExpandItem) {s : Session σ ν}
    (closed : s.Closed (· < below)) (sound : s.Sound) (le : below ≤ s.listings.size) :
    Ensures (liftM (engine.elementListing c element) : Search σ ν (Listing ν)) s fun l s' =>
      s'.Sound ∧ s.Frame .known s' ∧ Own below s' l ∧
        ∀ id, l.Has (.page id) → s.listings.size ≤ id ∧ id < s'.listings.size := by
  have known := led.mono fun id (low : id < below) => Nat.lt_of_lt_of_le low le
  refine Ensures.mono (P := fun l s' => (s'.Sound ∧ s.Frame .known s' ∧ _) ∧
    ((∀ s, Element s l) ∧ s'.Closed fun id => id < below ∨ l.Has (.page id)) ∧
      (l.Within fun id => id < below ∨ l.Has (.page id)) ∧
        ∀ id, l.Has (.page id) → s.listings.size ≤ id ∧ id < s'.listings.size)
    (Ensures.and (engine.stays_elementListing known element s sound rfl) ?_) fun l s' h =>
      ⟨h.1.1, h.1.2.1, ⟨h.2.1.1, h.2.1.2, h.2.2.1⟩, h.2.2.2⟩
  rcases engine.elementListing_cases c element with ⟨l, made, unpaged⟩ |
    ⟨limit, l, made, valid, leads⟩
  · -- the element needs no page
    rw [made]
    refine ensures_lift_pure_iff.mpr ⟨⟨unpaged.element, fun id here => ?_⟩,
      unpaged.within (led.mono fun id => .inl), fun id has => (unpaged.not_has has).elim⟩
    obtain ⟨inside, led⟩ := closed id (here.resolve_right unpaged.not_has)
    exact ⟨inside, led.mono fun id => .inl⟩
  · -- its list is kept at the next place, and its page shows that
    rw [made]
    refine ensures_lift_iff.mpr ?_
    have size : (engine.firstPage limit l s).2.listings.size = s.listings.size + 1 :=
      Array.size_push _
    have kept (id : Nat) : (engine.firstPage limit l s).2.kept id =
        if id = s.listings.size then l else s.kept id :=
      Session.kept_push s l id
    have has (id : Nat) : (engine.firstPage limit l s).1.Has (.page id) ↔ id = s.listings.size := by
      constructor
      · intro has
        cases has with
        | page here => exact (Pane.page.inj here)
      · rintro rfl
        exact .page rfl
    have element (t : Session σ ν) : Element t (engine.firstPage limit l s).1 := .page
    have within (P : Nat → Prop) (here : P s.listings.size) :
        (engine.firstPage limit l s).1.Within P := .page here
    generalize engine.firstPage limit l s = r at size kept has element within
    refine ⟨⟨element, fun id here => ?_⟩, within _ (.inr ((has _).mpr rfl)), fun id shown => ?_⟩
    · rw [size, kept]
      rcases here with low | shown
      · obtain ⟨inside, led⟩ := closed id low
        rw [if_neg (Nat.ne_of_lt inside)]
        exact ⟨Nat.lt_succ_of_lt inside, led.mono fun id => Or.inl⟩
      · obtain rfl := (has id).mp shown
        rw [if_pos rfl]
        exact ⟨Nat.lt_succ_self _, leads _ (led.mono fun id => Or.inl)⟩
    · obtain rfl := (has id).mp shown
      rw [size]
      exact ⟨Nat.le_refl _, Nat.lt_succ_self _⟩

/-- **The elements of an expansion are made with different pages.** -/
theorem ensures_elementListings (elements : List ExpandItem) {s : Session σ ν}
    (closed : s.Closed (· < below)) (sound : s.Sound) (le : below ≤ s.listings.size) :
    Ensures (liftM (elements.mapM (engine.elementListing c)) : Search σ ν (List (Listing ν))) s
      fun ls s' => s.Frame .known s' ∧
        (∀ l ∈ ls, Own below s' l ∧ ∀ id, l.Has (.page id) → s.listings.size ≤ id) ∧
        ls.Pairwise fun l l' => ∀ id, l.Has (.page id) → ¬ l'.Has (.page id) := by
  induction elements generalizing s with
  | nil =>
    rw [List.mapM_nil]
    exact ensures_lift_pure_iff.mpr ⟨.refl s, List.forall_mem_nil _, .nil⟩
  | cons element elements ih =>
    rw [List.mapM_cons]
    refine ensures_lift_bind_iff.mpr
      ((engine.ensures_elementListing led element closed sound le).mono fun l s₁ h => ?_)
    obtain ⟨sound₁, frame₁, own, panes⟩ := h
    refine ensures_lift_bind_iff.mpr
      ((ih (closed.frame frame₁) sound₁ (Nat.le_trans le frame₁.size)).mono fun ls s₂ h => ?_)
    obtain ⟨frame₂, owns, different⟩ := h
    refine ensures_lift_pure_iff.mpr ⟨frame₁.trans frame₂, List.forall_mem_cons.mpr
      ⟨⟨own.frame frame₂, fun id has => (panes id has).1⟩, fun l' member => ?_⟩,
      List.pairwise_cons.mpr ⟨fun l' member id has has' => ?_, different⟩⟩
    · obtain ⟨own', fresh⟩ := owns l' member
      exact ⟨own', fun id has => Nat.le_trans frame₁.size (fresh id has)⟩
    · exact Nat.not_le_of_lt (panes id has).2 ((owns l' member).2 id has')

end Elements

/-! ## The children of a variable -/

/-- An expansion is fit when it is made. -/
theorem ensures_expandListing {c : Context ν} (expand : Expand) {s : Session σ ν} (sound : s.Sound)
    (led : c.owner.KnownIn s) :
    Ensures (liftM (engine.expandListing c expand) : Search σ ν (Listing ν)) s fun l s' =>
      Fit s' l := by
  refine ensures_lift_bind_iff.mpr ((engine.ensures_elementListings led expand.items
    (Session.closed_known sound) sound (Nat.le_refl _)).mono fun ls s' h => ?_)
  obtain ⟨-, owns, different⟩ := h
  refine ensures_lift_pure_iff.mpr (.group ⟨fun l member => (owns l member).1.element s', ?_⟩)
  refine different.imp_of_mem fun {l l'} member member' different => ?_
  obtain ⟨own, fresh⟩ := owns l member
  obtain ⟨own', fresh'⟩ := owns l' member'
  exact own.apart own' fresh fresh' different

/-- Work that makes a listing with a property for a variable. -/
def Yields (P : Session σ ν → Listing ν → Prop) (v : Variable ν) (act : Run σ ν (Listing ν)) :
    Prop :=
  ∀ s : Session σ ν, s.Sound → v.KnownIn s →
    Ensures (liftM act : Search σ ν (Listing ν)) s fun l s' => P s' l

/-- **A property of listings as they are made**: those have it that are set up
without their elements, and so have expansions and what is behind registers. -/
structure Begins (P : Session σ ν → Listing ν → Prop) : Prop where
  fixed : ∀ s rows, P s (.fixed rows)
  page : ∀ s id offset size, P s (.page id offset size)
  child : ∀ s parent index, P s (.ofChild parent index none)
  pointee : ∀ s c pointer, P s (.pointee c pointer none none)
  bare : ∀ s owner, P s (.group owner [] true 0)
  registers : ∀ s n l, P s l → P s (.registers n l)
  expansion : ∀ v scope expand, Yields P v (engine.expandListing { owner := v, scope } expand)

section Yields

variable {engine} {P : Session σ ν → Listing ν → Prop} (begins : Begins engine P)

include begins

theorem Begins.tagged {s : Session σ ν} (tag : Bool) (n : Nat) {l : Listing ν} (h : P s l) :
    P s (if tag then .registers n l else l) := by
  split
  · exact begins.registers s n l h
  · exact h

theorem yields_ruleListing {plain : Run σ ν (Listing ν)} {v : Variable ν} (h : Yields P v plain) :
    Yields P v (engine.ruleListing plain v) := by
  intro s sound led
  refine (engine.light_findRule v).quiet.ensures_bind fun found s₁ same₁ => ?_
  have sound₁ := sound.of_listings_eq same₁
  have led₁ := led.of_listings_eq same₁
  cases found with
  | none => exact h s₁ sound₁ led₁
  | some m =>
    refine (engine.light_facts v).quiet.ensures_bind fun f s₂ same₂ => ?_
    have sound₂ := sound₁.of_listings_eq same₂
    have led₂ := led₁.of_listings_eq same₂
    dsimp only
    split
    · refine ensures_lift_bind_iff.mpr ((begins.expansion v (scopeOf m) _ s₂ sound₂ led₂).mono
        fun l s₃ made => ensures_lift_pure_iff.mpr ?_)
      exact begins.tagged _ _ made
    · exact ensures_lift_pure_iff.mpr (begins.tagged _ _ (begins.pointee _ _ _))
    · exact h s₂ sound₂ led₂

/-- **The children of a variable** have it when they are made. -/
theorem yields_childListing : (v : Variable ν) → Yields P v (engine.childListing v)
  | .debugger handle => fun s _ _ =>
    Run.quiet_get.ensures_bind fun _ _ _ => ensures_lift_pure_iff.mpr (begins.fixed _ _)
  | .failure .. => fun _ _ _ => ensures_lift_pure_iff.mpr (begins.fixed _ _)
  | .renamed inner .. => yields_childListing inner
  | .ruled inner => fun s sound led => by
    refine (engine.light_isRuled inner).quiet.ensures_bind fun ruled s₁ same₁ => ?_
    have sound₁ := sound.of_listings_eq same₁
    have led₁ : inner.KnownIn s₁ := Variable.KnownIn.of_listings_eq (v := inner) led same₁
    split
    · exact yields_ruleListing begins (yields_childListing inner) s₁ sound₁ led₁
    · exact yields_childListing inner s₁ sound₁ led₁
  | .asChild inner index => fun _ _ _ => ensures_lift_pure_iff.mpr (begins.child _ _ _)
  | .more listing offset size => fun _ _ _ => ensures_lift_pure_iff.mpr (begins.page _ _ _ _)
  | .synthetic owner scope rule text => fun s sound led => by
    unfold childListing expandListing?
    split
    · exact begins.expansion owner scope _ s sound led
    · exact ensures_lift_pure_iff.mpr (begins.bare _ _)

end Yields

/-- Work that makes a sane listing for a variable. -/
def Makes (v : Variable ν) (act : Run σ ν (Listing ν)) : Prop :=
  ∀ s : Session σ ν, s.Sound → v.KnownIn s →
    Ensures (liftM act : Search σ ν (Listing ν)) s fun l s' => Sane s' l

theorem makes_expandListing (v : Variable ν) (scope : Scope (Variable ν)) (expand : Expand) :
    Makes v (engine.expandListing { owner := v, scope } expand) :=
  fun _ sound led => (engine.ensures_expandListing expand sound led).mono fun _ _ fit _ => fit

/-- Listings are sane when they are made; a tagged variable is shown through
registers. -/
theorem begins_sane : Begins engine (Sane (σ := σ) (ν := ν)) where
  fixed _ _ _ := .element (.simple trivial)
  page _ _ _ _ _ := .element .page
  child _ _ _ _ := .ofChild fun _ h => nomatch h
  pointee _ _ _ _ := .pointee fun _ _ h => nomatch h
  bare _ _ _ := .group ⟨List.forall_mem_nil _, .nil⟩
  registers _ _ _ _ whole := (whole (.inl (.registers rfl))).elim
  expansion := engine.makes_expandListing

theorem makes_ruleListing {plain : Run σ ν (Listing ν)} {v : Variable ν} (h : Makes v plain) :
    Makes v (engine.ruleListing plain v) :=
  yields_ruleListing engine.begins_sane h

/-- **The children of a variable** are sane when they are made. -/
theorem makes_childListing (v : Variable ν) : Makes v (engine.childListing v) :=
  yields_childListing engine.begins_sane v

/-- So have the children of an expression's value. -/
theorem yields_contextChildListing {engine : Engine σ ν} {P : Session σ ν → Listing ν → Prop}
    (begins : Begins engine P) (c : Context ν) (expression : String) {s : Session σ ν}
    (sound : s.Sound) :
    Ensures (liftM (c.childListing engine expression) : Search σ ν _) s fun r s' =>
      ∀ l, r = .ok l → P s' l := by
  refine (Run.quiet_target _).ensures_bind fun result s₁ same₁ => ?_
  have sound₁ := sound.of_listings_eq same₁
  cases result with
  | error e => exact ensures_lift_pure_iff.mpr fun l h => nomatch h
  | ok answer =>
    refine ensures_lift_bind_iff.mpr (ensures_lift_iff.mpr ?_)
    have led : (answer.toVariable.decorated engine.inspector s₁.target).KnownIn s₁ :=
      answer.within_toVariable.decorated _ _
    refine ensures_lift_bind_iff.mpr
      ((yields_childListing begins _ s₁ sound₁ led).mono fun l s₂ made => ?_)
    refine ensures_lift_pure_iff.mpr fun l' h => ?_
    cases h
    exact made

end Engine

namespace Listing

variable {engine : Engine σ ν} {P : Session σ ν → Listing ν → Prop}
  (begins : Engine.Begins engine P) {s : Session σ ν}

include begins

/-! ## Variables that are found when a listing is asked -/

theorem yields_pointeeListing? (c : Context ν) (pointer : SmartPointer) (sound : s.Sound) :
    Ensures (liftM (pointeeListing? engine c pointer) : Search σ ν _) s fun r s' =>
      ∀ l, r = .ok (some l) → P s' l := by
  unfold pointeeListing?
  split
  · exact ensures_lift_pure_iff.mpr fun l h => nomatch h
  · refine (Run.quiet_target _).ensures_bind fun applied s₁ same₁ => ?_
    rcases applied with e | _ | _
    · exact ensures_lift_pure_iff.mpr fun l h => nomatch h
    · exact ensures_lift_pure_iff.mpr fun l h => nomatch h
    · refine ensures_lift_bind_iff.mpr ((Engine.yields_contextChildListing begins c _
        (sound.of_listings_eq same₁)).mono fun result s₂ h => ensures_lift_pure_iff.mpr ?_)
      intro l hl
      cases result with
      | error e => cases hl
      | ok l' =>
        cases hl
        exact h l rfl

/-- What a smart pointer lists has the property. -/
theorem yields_resolvedPointee {c : Context ν} (sound : s.Sound) (led : c.owner.KnownIn s)
    (pointer : SmartPointer) {failure : Option (Variable ν)} {inner : Option (Listing ν)}
    (found : failure = none → ∀ l ∈ inner, P s l) :
    Ensures (liftM (resolvedPointee engine c pointer failure inner) : Search σ ν _) s fun r s' =>
      ∀ l, r = .ok l → failure = none ∧ P s' l := by
  -- without a pointer that can be followed the listing is that of the owner itself
  have plain {s₁ : Session σ ν} (sound : s₁.Sound) (led : c.owner.KnownIn s₁) :
      Ensures (liftM (do return .ok (← engine.childListing c.owner) :
        Run σ ν (Except (Variable ν) (Listing ν))) : Search σ ν _) s₁ fun r s' =>
          ∀ l, r = .ok l → (none : Option (Variable ν)) = none ∧ P s' l := by
    refine ensures_lift_bind_iff.mpr
      ((Engine.yields_childListing begins _ s₁ sound led).mono fun l s₂ made => ?_)
    refine ensures_lift_pure_iff.mpr fun l' h => ?_
    cases h
    exact ⟨rfl, made⟩
  cases failure with
  | some row => exact ensures_lift_pure_iff.mpr fun l h => nomatch h
  | none => cases inner with
    | some l =>
      refine ensures_lift_pure_iff.mpr fun l' h => ?_
      cases h
      exact ⟨rfl, found rfl l rfl⟩
    | none =>
      have pointed := (yields_pointeeListing? begins c pointer sound).and
        (stays_pointeeListing? engine c pointer s sound rfl)
      refine ensures_lift_bind_iff.mpr (pointed.mono fun result s₁ h => ?_)
      obtain ⟨h, sound₁, frame₁, -⟩ := h
      have led₁ : c.owner.KnownIn s₁ := led.mono fun id inside => Nat.lt_of_lt_of_le inside frame₁.size
      rcases result with e | _ | l
      · dsimp only
        split
        · exact plain sound₁ led₁
        · exact ensures_lift_pure_iff.mpr fun l h => nomatch h
      · exact plain sound₁ led₁
      · refine ensures_lift_pure_iff.mpr fun l' hl => ?_
        cases hl
        exact ⟨rfl, h l rfl⟩

end Listing

end WatchView
