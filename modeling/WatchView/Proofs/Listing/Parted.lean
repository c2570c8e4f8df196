import WatchView.Proofs.Listing.Asked
import WatchView.Proofs.Listing.Turns
/-!
# Elements keep to their own pages

The elements of an expansion show pages of lists that are kept for each of
them. Whatever an element finds out, its children come from these pages and
from those that are kept on the way (`Confined`), and work on the other
elements does not reach them (`Spares`). `Parted` says so of all groups in a
listing. The listings the engine makes are parted, and a turn leaves them so
(`Reach.Turn.parted`). So a turn of one member of a group leaves alone what the
others show.
-/

namespace WatchView

open Bounded Relation

variable {σ ν : Type}

namespace Listing

variable {s s' : Session σ ν} {l l' m : Listing ν} {Q : Nat → Prop} {R : Region}

/-- An element of an expansion. -/
def IsElement : Listing ν → Prop
  | page .. => True
  | inlined .. => True
  | l => l.Simple

/-- **Pages that an element keeps to**: all its children are shown through
these, or will be through pages that are not kept yet. -/
inductive Confined (s : Session σ ν) (Q : Nat → Prop) : Listing ν → Prop
  | simple {l : Listing ν} (simple : l.Simple) : Confined s Q l
  | page {id offset size : Nat} (here : Q id) : Confined s Q (.page id offset size)
  | inlined {c : Context ν} {rule : ExpandedItemRule} {standing : Option (Standing ν)}
      {inner : Option (Listing ν)} (closed : s.Closed Q) (settled : ∀ st ∈ standing, st.Within Q)
      (found : ∀ l ∈ inner, l.Within Q) : Confined s Q (.inlined c rule standing inner)

theorem Confined.of_has (h : Confined s Q l) {id : Nat} (has : l.Has (.page id)) : Q id := by
  cases h with
  | simple simple => exact (simple.not_has has).elim
  | page here =>
    cases has with
    | page same => exact Pane.page.inj same ▸ here
  | inlined _ _ found =>
    cases has with
    | inlined has => exact (found _ rfl).of_has has

theorem Confined.frame (h : Confined s Q l) (frame : s.Frame R s') : Confined s' Q l := by
  cases h with
  | simple simple => exact .simple simple
  | page here => exact .page here
  | inlined closed settled found => exact .inlined (closed.frame frame) settled found

/-- **Work on a listing spares an element**: it reaches none of the pages the
element keeps to. -/
def Spares (s : Session σ ν) (l m : Listing ν) : Prop :=
  ∃ Q, (∀ id, Q id → id < s.listings.size) ∧ Confined s Q m ∧ l.Avoids s Q

/-- Two elements that spare each other. -/
def Separate (s : Session σ ν) (l m : Listing ν) : Prop := Spares s l m ∧ Spares s m l

theorem Spares.frame (h : Spares s l m) (frame : s.Frame R s') : Spares s' l m := by
  obtain ⟨Q, known, confined, avoids⟩ := h
  exact ⟨Q, fun id here => Nat.lt_of_lt_of_le (known id here) frame.size, confined.frame frame,
    avoids.frame frame⟩

theorem Separate.symm (h : Separate s l m) : Separate s m l := And.symm h

theorem Separate.frame (h : Separate s l m) (frame : s.Frame R s') : Separate s' l m :=
  ⟨h.1.frame frame, h.2.frame frame⟩

/-- **A listing whose groups have elements that spare each other.** -/
inductive Parted (s : Session σ ν) : Listing ν → Prop
  | simple {l : Listing ν} (simple : l.Simple) : Parted s l
  | page {id offset size : Nat} : Parted s (.page id offset size)
  | inlined {c : Context ν} {rule : ExpandedItemRule} {standing : Option (Standing ν)}
      {inner : Option (Listing ν)} (untouched : standing = none → inner = none)
      (found : ∀ l ∈ inner, Parted s l) : Parted s (.inlined c rule standing inner)
  | pointee {c : Context ν} {pointer : SmartPointer} {failure : Option (Variable ν)}
      {inner : Option (Listing ν)} (found : failure = none → ∀ l ∈ inner, Parted s l) :
      Parted s (.pointee c pointer failure inner)
  | group {owner : Variable ν} {members : List (Listing ν)} {hideRawView : Bool} {limit : Nat}
      (elements : ∀ l ∈ members, l.IsElement) (all : ∀ l ∈ members, Parted s l)
      (separate : members.Pairwise (Separate s)) :
      Parted s (.group owner members hideRawView limit)
  | registers {n : Nat} {inner : Listing ν} (behind : Parted s inner) :
      Parted s (.registers n inner)
  | ofChild {parent : Variable ν} {index : Nat} {inner : Option (Listing ν)}
      (found : ∀ l ∈ inner, Parted s l) : Parted s (.ofChild parent index inner)

/-- **A parted listing stays parted**, whatever work there is elsewhere. -/
theorem Parted.frame (h : Parted s l) (frame : s.Frame R s') : Parted s' l := by
  induction h with
  | simple simple => exact .simple simple
  | page => exact .page
  | inlined untouched _ ih => exact .inlined untouched ih
  | pointee _ ih => exact .pointee ih
  | group elements _ separate ih =>
    exact .group elements ih (separate.imp fun h => h.frame frame)
  | registers _ ih => exact .registers ih
  | ofChild _ ih => exact .ofChild ih

/-! ## Listings that were just made -/

/-- An element before it was asked. -/
inductive IsNew : Listing ν → Prop
  | simple {l : Listing ν} (simple : l.Simple) : IsNew l
  | page {id offset size : Nat} : IsNew (.page id offset size)
  | inlined {c : Context ν} {rule : ExpandedItemRule} : IsNew (.inlined c rule none none)

theorem Simple.isElement (simple : l.Simple) : l.IsElement := by
  cases l with
  | _ => first | exact simple | exact simple.elim

theorem IsNew.isElement (h : l.IsNew) : l.IsElement := by
  cases h with
  | simple simple => exact simple.isElement
  | page => trivial
  | inlined => trivial

theorem IsNew.parted (h : l.IsNew) : Parted s l := by
  cases h with
  | simple simple => exact .simple simple
  | page => exact .page
  | inlined => exact .inlined (fun _ => rfl) fun _ h => nomatch h

/-- It keeps to the pages it shows. -/
theorem IsNew.confined (h : l.IsNew) (s : Session σ ν) :
    Confined s (fun id => l.Has (.page id)) l := by
  cases h with
  | simple simple => exact .simple simple
  | page => exact .page (.page rfl)
  | inlined =>
    refine .inlined (fun id has => ?_) (fun _ h => nomatch h) fun _ h => nomatch h
    cases has

theorem IsNew.separate (new : l.IsNew) (new' : l'.IsNew) (apart : Apart s l l')
    (led : l.KnownIn s) (led' : l'.KnownIn s) : Separate s l l' :=
  ⟨⟨_, fun _ has => led'.of_has has, new'.confined s, apart.2⟩,
    ⟨_, fun _ has => led.of_has has, new.confined s, apart.1⟩⟩

end Listing

open Listing

namespace Engine

variable (engine : Engine σ ν)

theorem Unpaged.isNew {c : Context ν} {l : Listing ν} (h : Unpaged c l) : l.IsNew := by
  cases h with
  | item rule => exact .simple fun _ h => nomatch h
  | synthetic rule => exact .simple ⟨fun _ => rfl, fun _ h => nomatch h⟩
  | inlined rule => exact .inlined
  | unsupported element => exact .simple trivial

theorem new_elementListings (c : Context ν) (elements : List ExpandItem) (s : Session σ ν) :
    Ensures (liftM (elements.mapM (engine.elementListing c)) : Search σ ν (List (Listing ν))) s
      fun ls _ => ∀ l ∈ ls, l.IsNew := by
  induction elements generalizing s with
  | nil =>
    rw [List.mapM_nil]
    exact ensures_lift_pure_iff.mpr (List.forall_mem_nil _)
  | cons element elements ih =>
    rw [List.mapM_cons]
    have first : Ensures (liftM (engine.elementListing c element) : Search σ ν (Listing ν)) s
        fun l _ => l.IsNew := by
      rcases engine.elementListing_cases c element with ⟨l, made, unpaged⟩ | ⟨limit, l, made, -⟩
      · rw [made]
        exact ensures_lift_pure_iff.mpr unpaged.isNew
      · rw [made]
        exact ensures_lift_iff.mpr .page
    refine ensures_lift_bind_iff.mpr (first.mono fun l s₁ new => ?_)
    refine ensures_lift_bind_iff.mpr ((ih s₁).mono fun ls s₂ others => ?_)
    exact ensures_lift_pure_iff.mpr (List.forall_mem_cons.mpr ⟨new, others⟩)

/-- **An expansion is parted** when it is made. -/
theorem parted_expandListing (v : Variable ν) (scope : Scope (Variable ν)) (expand : Expand) :
    Yields Parted v (engine.expandListing { owner := v, scope } expand) := by
  intro s sound led
  refine ensures_lift_bind_iff.mpr (((engine.ensures_elementListings led expand.items
    (Session.closed_known sound) sound (Nat.le_refl _)).and
      (engine.new_elementListings ⟨v, scope⟩ expand.items s)).mono fun ls s' h => ?_)
  obtain ⟨⟨-, owns, different⟩, new⟩ := h
  have known (l : Listing ν) (member : l ∈ ls) : l.KnownIn s' :=
    (owns l member).1.within.mono fun id here => ((owns l member).1.closed id here).1
  refine ensures_lift_pure_iff.mpr (.group (fun l member => (new l member).isElement)
    (fun l member => (new l member).parted) ?_)
  refine different.imp_of_mem fun {l l'} member member' different => ?_
  obtain ⟨own, fresh⟩ := owns l member
  obtain ⟨own', fresh'⟩ := owns l' member'
  exact (new l member).separate (new l' member') (own.apart own' fresh fresh' different)
    (known l member) (known l' member')

/-- So is every listing the engine makes. -/
theorem begins_parted : Begins engine (Parted (σ := σ) (ν := ν)) where
  fixed _ _ := .simple trivial
  page _ _ _ _ := .page
  child _ _ _ := .ofChild fun _ h => nomatch h
  pointee _ _ _ := .pointee fun _ _ h => nomatch h
  bare _ _ := .group (List.forall_mem_nil _) (List.forall_mem_nil _) .nil
  registers _ _ _ behind := .registers behind
  expansion := engine.parted_expandListing

end Engine

/-! ## Turns -/

section Turns

variable {reach : Reach σ ν} {s s' : Session σ ν} {l l' m : Listing ν} {Q : Nat → Prop}

/-- A turn stays where the listing leads. -/
theorem Reach.Turn.stays (turn : reach.Turn (s, l) (s', l')) (framed : reach.Framed) {R : Region}
    (free : s.Open R) (led : l.Within (R.pages s.listings.size)) :
    s'.Open R ∧ s.Frame R s' ∧ l.Grows (R.pages s'.listings.size) l' := by
  cases turn with
  | count ended => exact framed.count l led s free rfl _ _ ended
  | rows ended =>
    obtain ⟨free', frame, -, grown⟩ := framed.rows l _ _ led s free rfl _ _ ended
    exact ⟨free', frame, grown⟩
  | isSound ended => exact framed.isSound l led s free rfl _ _ ended

variable {engine : Engine σ ν} {bound : Nat}

theorem Reach.Turn.simple (turn : (engine.reach (bound + 1)).Turn (s, l) (s', l'))
    (simple : l.Simple) : l'.Simple := by
  cases turn with
  | count ended => exact (simple.ensures_countWith engine _ s _ _ ended).1
  | rows ended => exact simple.ensures_window engine _ s _ _ _ _ ended
  | isSound ended => exact simple.ensures_isSoundWith engine _ s _ _ ended

/-- An element stays one. -/
theorem Reach.Turn.isElement (turn : (engine.reach bound).Turn (s, l) (s', l'))
    (element : l.IsElement) : l'.IsElement := by
  cases bound with
  | zero => exact (not_turn_nowhere turn).elim
  | succ bound =>
    cases turn.becomes with
    | @own _ _ l _ own turn' =>
      have simple : l.Simple := by
        cases l with
        | _ => first | exact element | exact own.elim
      exact (turn.simple simple).isElement
    | page => trivial
    | inlined => trivial
    | inner => trivial
    | _ => exact element.elim

variable (words : ∀ p, engine.options.get p < wordCount)

include words

/-- **A turn of an element** leaves it confined to the pages it kept to, and to
those that were kept on the way. -/
theorem Reach.Turn.confined (turn : (engine.reach bound).Turn (s, l) (s', l')) (sound : s.Sound)
    (confined : Confined s Q l) :
    Confined s' ((Region.among Q s.listings.size).pages s'.listings.size) l' := by
  cases bound with
  | zero => exact (not_turn_nowhere turn).elim
  | succ bound =>
    -- what settles the children stays in the region, and so does the turn of what was found
    cases confined with
    | simple simple => exact .simple (turn.simple simple)
    | page here =>
      cases turn.becomes with
      | own own => exact own.elim
      | page => exact .page (.inl here)
    | @inlined c rule standing inner closed settled found =>
      have framed := engine.framed_reach words bound
      have free := closed.isOpen sound
      have stays := stays_settledInlined (R := .among Q s.listings.size) engine framed c rule
        (fun st here => (settled st here).mono fun _ => .inl)
        (fun l here => (found l here).mono fun _ => .inl) s free rfl
      cases turn.becomes with
      | own own => exact own.elim
      | inlined settles =>
        obtain ⟨after, frame, led, found', -⟩ := stays _ _ settles
        refine .inlined (closed.grown frame after) (fun st here => ?_) found'
        cases here
        exact led
      | @inner _ s₁ _ _ _ _ _ n inner₁ inner₂ settles turn' =>
        obtain ⟨after, frame, -, found', -⟩ := stays _ _ settles
        obtain ⟨after', frame', grown⟩ := turn'.stays framed after (found' _ rfl)
        refine .inlined (closed.grown (frame.trans frame') after') (fun st here => ?_)
          fun l here => ?_
        · cases here
          trivial
        · cases here
          exact grown.within

/-- **A turn of an element spares the others as before**, and leaves alone what
they show. -/
theorem Reach.Turn.separate (turn : (engine.reach bound).Turn (s, l) (s', l')) (sound : s.Sound)
    (separate : Separate s l m) :
    Separate s' l' m ∧ ∀ id, m.Has (.page id) → s'.kept id = s.kept id := by
  have framed := engine.framed_reach words bound
  obtain ⟨⟨Q, known, confined, P, closed, within, outside⟩,
    ⟨Q', known', confined', P', closed', within', outside'⟩⟩ := separate
  obtain ⟨after, frame, grown⟩ :=
    turn.stays framed (closed.isOpen sound) (within.mono fun _ => .inl)
  -- pages that `m` keeps to are neither where `l` led nor kept only now
  have away (id : Nat) (here : Q id) :
      ¬ (Region.among P s.listings.size).pages s'.listings.size id := by
    rintro (inside | fresh)
    · exact outside id here inside
    · exact Nat.not_le_of_lt (known id here) fresh.1
  refine ⟨⟨⟨Q, fun id here => ?_, confined.frame frame, _, closed.grown frame after, grown.within,
    away⟩, ⟨_, fun id here => ?_, turn.confined words sound confined', P', closed'.frame frame,
      within', fun id here inside => ?_⟩⟩, fun id has => ?_⟩
  · exact Nat.lt_of_lt_of_le (known id here) frame.size
  · rcases here with here | fresh
    · exact Nat.lt_of_lt_of_le (known' id here) frame.size
    · exact fresh.2
  · rcases here with here | fresh
    · exact outside' id here inside
    · exact Nat.not_le_of_lt (closed' id inside).1 fresh.1
  · exact frame.outside id (away id (confined.of_has has))

/-! ### The members of a group -/

omit words in
/-- **The members of a group** as turns leave them. -/
structure Listing.Spread (s : Session σ ν) (ls : List (Listing ν)) : Prop where
  sound : s.Sound
  led : ∀ l ∈ ls, l.KnownIn s
  elements : ∀ l ∈ ls, l.IsElement
  all : ∀ l ∈ ls, Parted s l
  separate : ls.Pairwise (Separate s)

/-- **A turn of one member** leaves alone what the others show. -/
theorem Listing.Spread.asked {before behind : List (Listing ν)}
    (spread : Spread s (before ++ l :: behind))
    (turn : (engine.reach bound).Turn (s, l) (s', l')) (parted : Parted s' l') :
    Spread s' (before ++ l' :: behind) ∧ s.Frame .known s' ∧
      ∀ m ∈ before ++ behind, ∀ id, m.Has (.page id) → s'.kept id = s.kept id := by
  have perm (l : Listing ν) : (before ++ l :: behind).Perm (l :: (before ++ behind)) :=
    List.perm_middle
  have split {P : Listing ν → Prop} (h : ∀ m ∈ before ++ l :: behind, P m) :
      P l ∧ ∀ m ∈ before ++ behind, P m :=
    List.forall_mem_cons.mp fun m member => h m ((perm l).mem_iff.mpr member)
  have join {P : Listing ν → Prop} (here : P l') (others : ∀ m ∈ before ++ behind, P m) :
      ∀ m ∈ before ++ l' :: behind, P m :=
    fun m member => List.forall_mem_cons.mpr ⟨here, others⟩ m ((perm l').mem_iff.mp member)
  obtain ⟨sound', frame, grown⟩ :=
    turn.stays (engine.framed_reach words bound) spread.sound (split spread.led).1
  obtain ⟨mine, others⟩ :=
    List.pairwise_cons.mp (((perm l).pairwise_iff Separate.symm).mp spread.separate)
  refine ⟨⟨sound', ?_, ?_, ?_, ?_⟩, frame,
    fun m member => (turn.separate words spread.sound (mine m member)).2⟩
  · exact join grown.within fun m member => ((split spread.led).2 m member).mono fun id inside =>
      Nat.lt_of_lt_of_le inside frame.size
  · exact join (turn.isElement (split spread.elements).1) (split spread.elements).2
  · exact join parted fun m member => ((split spread.all).2 m member).frame frame
  · refine ((perm l').pairwise_iff Separate.symm).mpr (List.pairwise_cons.mpr ⟨?_, ?_⟩)
    · exact fun m member => (turn.separate words spread.sound (mine m member)).1
    · exact others.imp fun h => h.frame frame

theorem Listing.Spread.turns {p q : Session σ ν × List (Listing ν)}
    (turns : ReflTransGen (MemberTurn (engine.reach bound)) p q)
    (keeps : ∀ {s s' : Session σ ν} {l l' : Listing ν},
      (engine.reach bound).Turn (s, l) (s', l') → s.Sound → l.KnownIn s → Parted s l → Parted s' l')
    (spread : Spread p.1 p.2) : Spread q.1 q.2 := by
  induction turns with
  | refl => exact spread
  | tail _ turn ih =>
    cases turn with
    | @asked _ _ before behind l l' turn =>
      have here : l ∈ before ++ l :: behind := List.mem_append_right _ List.mem_cons_self
      exact (ih.asked words turn (keeps turn ih.sound (ih.led l here) (ih.all l here))).1

/-! ### All kinds -/

omit words in
/-- Inlined children are parted when they are found. -/
theorem Listing.parted_settledInlined (engine : Engine σ ν) (c : Context ν) (rule : ExpandedItemRule)
    {standing : Option (Standing ν)} {inner : Option (Listing ν)} (sound : s.Sound)
    (untouched : standing = none → inner = none) (found : ∀ l ∈ inner, Parted s l)
    (counts : ∀ s l, s.Sound → l.KnownIn s → Parted s l →
      Ensures (reach.count l) s fun r s' => Parted s' r.2) :
    Ensures (settledInlined engine reach c rule standing inner) s fun r s' =>
      ∀ l ∈ r.2, Parted s' l := by
  unfold settledInlined
  split
  · exact ensures_pure_iff.mpr found
  · obtain rfl := untouched rfl
    have none_ {t : Session σ ν} : ∀ l ∈ (none : Option (Listing ν)), Parted t l :=
      fun l h => nomatch h
    unfold Standing.settle
    refine Ensures.bind (P := fun _ s' => s'.listings = s.listings)
      (ensures_target_iff.mpr (ensures_lift_iff.mpr rfl)) fun applied s₁ same₁ => ?_
    have sound₁ := sound.of_listings_eq same₁
    rcases applied with e | _ | _
    · exact ensures_pure_iff.mpr none_
    · exact ensures_pure_iff.mpr none_
    · refine Ensures.bind (P := fun (r : Except ExpandError Nat × Option (Listing ν)) s' =>
        ∀ l ∈ r.2, Parted s' l) ?_ fun r s₂ h => ensures_pure_iff.mpr h
      unfold countInlined
      split
      · exact ensures_pure_iff.mpr none_
      · refine ((Engine.yields_contextChildListing engine.begins_parted c rule.value sound₁).and
          (engine.stays_contextChildListing c rule.value s₁ sound₁ rfl)).bind fun result s₂ h => ?_
        obtain ⟨parted, sound₂, -, led⟩ := h
        cases result with
        | error e => exact ensures_pure_iff.mpr none_
        | ok l =>
          refine (counts s₂ l sound₂ (led l rfl) (parted l rfl)).bind fun r s₃ h =>
            ensures_pure_iff.mpr fun l' here => ?_
          cases here
          exact h

/-- **A turn leaves a listing parted.** -/
theorem Reach.Turn.parted (turn : (engine.reach bound).Turn (s, l) (s', l')) (sound : s.Sound)
    (led : l.KnownIn s) (parted : Parted s l) : Parted s' l' := by
  induction bound generalizing s s' l l' with
  | zero => exact (not_turn_nowhere turn).elim
  | succ bound ih =>
    have framed := engine.framed_reach words bound
    -- a listing inside takes its turn with the reach below, if it takes one
    have passed {s s' : Session σ ν} {l l' : Listing ν} (sound : s.Sound) (led : l.KnownIn s)
        (parted : Parted s l) (turn : ReflGen (engine.reach bound).Turn (s, l) (s', l')) :
        Parted s' l' := by
      rcases turn with _ | turn
      · exact parted
      · exact ih turn sound led parted
    have counts (s : Session σ ν) (l : Listing ν) (sound : s.Sound) (led : l.KnownIn s)
        (parted : Parted s l) :
        Ensures ((engine.reach bound).count l) s fun r s' => Parted s' r.2 :=
      fun _ _ ended => ih (.count ended) sound led parted
    -- every other kind is parted if what it passes questions to is; that is found first if need be
    cases parted with
    | simple simple => exact .simple (turn.simple simple)
    | page =>
      cases turn.becomes with
      | own own => exact own.elim
      | page => exact .page
    | @inlined c rule standing inner untouched found =>
      cases led with
      | inlined settledLed foundLed =>
        have stays := stays_settledInlined (R := .known) engine framed c rule settledLed foundLed
          s sound rfl
        have inner := parted_settledInlined engine c rule sound untouched found counts
        cases turn.becomes with
        | own own => exact own.elim
        | inlined settles => exact .inlined (fun h => nomatch h) (inner _ _ settles)
        | inner settles turn' =>
          obtain ⟨sound₁, -, -, led₁, -⟩ := stays _ _ settles
          refine .inlined (fun h => nomatch h) fun l here => ?_
          cases here
          exact ih turn' sound₁ (led₁ _ rfl) (inner _ _ settles _ rfl)
    | @pointee c pointer failure inner found =>
      cases led with
      | pointee owner failed foundLed =>
        have stays := stays_resolvedPointee (R := .known) engine owner pointer failed foundLed
          s sound rfl
        have yields := yields_resolvedPointee engine.begins_parted sound owner pointer found
        cases turn.becomes with
        | own own => exact own.elim
        | failure resolved => exact .pointee fun h => nomatch h
        | pointee resolved turn' =>
          have resolved : (liftM (resolvedPointee engine c pointer failure inner) : Search σ ν _) s = _ :=
            congrArg Except.ok resolved
          obtain ⟨sound₁, -, -, led₁⟩ := stays _ _ resolved
          refine .pointee fun _ l here => ?_
          cases here
          exact passed sound₁ (led₁ _ rfl).1 (yields _ _ resolved _ rfl).2 turn'
    | group elements all separate =>
      cases led with
      | group owner ledAll =>
        cases turn.becomes with
        | own own => exact own.elim
        | group turns =>
          have spread := Spread.turns words turns ih ⟨sound, ledAll, elements, all, separate⟩
          exact .group spread.elements spread.all spread.separate
    | registers behind =>
      cases led with
      | registers ledBehind =>
        cases turn.becomes with
        | own own => exact own.elim
        | registers turn' => exact .registers (passed sound ledBehind behind turn')
    | @ofChild parent index inner found =>
      cases led with
      | ofChild owner foundLed =>
        cases turn.becomes with
        | own own => exact own.elim
        | unasked => exact .ofChild found
        | ofChild resolved turn' =>
          obtain ⟨sound₁, -, led₁, -⟩ :=
            stays_resolvedChild (R := .known) engine framed owner index foundLed s sound rfl _ _ resolved
          have parted := yields_resolvedChild framed engine.begins_parted sound owner found _ _ resolved
          refine .ofChild fun l here => ?_
          cases here
          exact ih turn' sound₁ led₁ parted

end Turns

end WatchView
