import WatchView.Proofs.Listing.Alike
import WatchView.Proofs.Listing.Frames
/-!
# Work does the same in sessions that are alike

Whatever the engine is asked about a listing, it answers the same in two sessions that are alike
where the listing leads, and they are alike there afterwards (`Engine.congruent_reach`). So the
answer depends on nothing else: neither on what other listings have found out, nor on which
answers the rule book keeps.
-/

namespace WatchView

open Bounded Watch

variable {σ ν α β : Type} {engine : Engine σ ν} {R : Region} {k : Nat}

/-! ## Congruent work -/

/-- **Work that does the same in sessions that are alike**: if it ends in one of them it ends in
the other, with the same answer. -/
def Congruent (engine : Engine σ ν) (R : Region) (k : Nat) (act : Search σ ν α) : Prop :=
  ∀ p s, p.Open R → s.Open R → p.listings.size = k → p.Alike engine R s →
    Ensures act p fun a p' => Returns act s fun b s' => b = a ∧ p'.Alike engine R s'

section Rules

variable {act : Search σ ν α} {outcome : (Nat → Prop) → α → Prop}

theorem congruent_pure (a : α) : Congruent engine R k (pure a : Search σ ν α) :=
  fun _ _ _ _ _ same => ensures_pure_iff.mpr (returns_pure ⟨rfl, same⟩)

theorem congruent_unfinished : Congruent engine R k (unfinished : Search σ ν α) :=
  fun _ _ _ _ _ _ => ensures_unfinished

theorem congruent_overflow : Congruent engine R k (overflow : Search σ ν α) :=
  fun _ _ _ _ _ _ => ensures_overflow

/-- The work that stays in the region is followed by work that begins there. -/
theorem Congruent.bind {next : α → Search σ ν β} (first : Congruent engine R k act)
    (stays : Stays R k act outcome)
    (rest : ∀ k' a, k ≤ k' → outcome (R.pages k') a → Congruent engine R k' (next a)) :
    Congruent engine R k (act >>= next) := by
  intro p s free free' many same
  refine ((first p s free free' many same).and (stays p free many)).bind fun a p' h => ?_
  obtain ⟨returns, freed, frame, led⟩ := h
  intro b p'' ended
  have also := returns.and (stays s free' (same.size ▸ many))
  refine also.bind fun a' s' h => ?_
  obtain ⟨⟨rfl, same'⟩, freed', -⟩ := h
  -- both have stayed in the region, where the rest begins
  exact rest _ _ (many ▸ frame.size) led p' s' freed freed' rfl same' b p'' ended

/-- The work that leaves the kept listings alone. -/
theorem Congruent.bind_of_quiet {next : α → Search σ ν β} (first : Congruent engine R k act)
    (quiet : ∀ s, Ensures act s fun _ s' => s'.listings = s.listings)
    (rest : ∀ a, Congruent engine R k (next a)) : Congruent engine R k (act >>= next) := by
  have stays : Stays R k act fun P _ => P = R.pages k :=
    stays_of_quiet fun s => (quiet s).mono fun _ _ same => ⟨same, rfl⟩
  intro p s free free' many same
  refine ((first p s free free' many same).and (quiet p)).bind fun a p' h => ?_
  obtain ⟨returns, left⟩ := h
  intro b p'' ended
  refine (returns.and (quiet s)).bind fun a' s' h => ?_
  obtain ⟨⟨rfl, same'⟩, left'⟩ := h
  exact rest _ p' s' (free.of_listings_eq left) (free'.of_listings_eq left')
    ((congrArg Array.size left).trans many) same' b p'' ended

/-- The work whose answer only is told in another way. -/
theorem Congruent.bind_pure {next : α → Search σ ν β} (first : Congruent engine R k act)
    (rest : ∀ a, ∃ b, next a = pure b) : Congruent engine R k (act >>= next) := by
  intro p s free free' many same
  refine (first p s free free' many same).bind fun a p' h => ?_
  obtain ⟨b, told⟩ := rest a
  rw [told]
  refine ensures_pure_iff.mpr (h.bind fun a' s' h => ?_)
  obtain ⟨rfl, same'⟩ := h
  rw [told]
  exact returns_pure ⟨rfl, same'⟩

theorem Watch.Follows.congruent {act : Run σ ν α} (h : (Watch.alike engine R).Follows act act) :
    Congruent engine R k (liftM act : Search σ ν α) := by
  intro p s _ _ _ same
  obtain ⟨result, after⟩ := h.alike same
  exact ensures_lift_iff.mpr ⟨_, _, rfl, result.symm, after⟩

theorem congruent_ofTarget (act : Bounded σ α) :
    Congruent engine R k (Search.ofTarget act : Search σ ν α) := by
  intro p s _ _ _ same
  refine ensures_ofTarget_iff.mpr fun a t ended => ?_
  refine ⟨a, { s with target := t },
    ofTarget_eq_ok_iff.mpr ⟨t, same.target ▸ ended, rfl⟩, rfl, ?_⟩
  exact { same with target := rfl }

theorem congruent_target (act : StateM σ α) :
    Congruent engine R k (liftM act : Search σ ν α) :=
  congruent_ofTarget (Bounded.ofTotal act)

/-- What is done with what is read off a session. -/
theorem congruent_get_bind {next : Session σ ν → Search σ ν α}
    (same : ∀ p s, p.Alike engine R s → next p = next s)
    (rest : ∀ s, Congruent engine R k (next s)) : Congruent engine R k (get >>= next) := by
  intro p s free free' many alike
  refine ensures_bind_iff.mpr (ensures_get_iff.mpr ?_)
  intro a p' ended
  have also := rest p p s free free' many alike a p' ended
  rwa [same p s alike] at also

theorem congruent_setDepth (depth : Nat) :
    Congruent engine R k (Engine.setDepth depth : Search σ ν Unit) := by
  intro p s _ _ _ same
  exact ensures_modify_iff.mpr ⟨_, _, rfl, rfl, { same with depth := rfl }⟩

theorem quiet_setDepth (depth : Nat) (s : Session σ ν) :
    Ensures (Engine.setDepth depth : Search σ ν Unit) s fun _ s' => s'.listings = s.listings :=
  ensures_modify_iff.mpr rfl

/-! ### Kept listings -/

theorem returns_withKept {id : Nat} {act : Listing ν → Search σ ν (α × Listing ν)}
    {s : Session σ ν} {P : α → Session σ ν → Prop}
    (h : Returns (act (s.kept id)) s fun r s' =>
      P r.1 { s' with listings := s'.listings.setIfInBounds id r.2 }) :
    Returns (withKept id act) s P := by
  obtain ⟨r, s', ended, holds⟩ := h
  exact ⟨r.1, _, bind_eq_ok_iff.mpr ⟨(s, s), rfl, bind_eq_ok_iff.mpr ⟨(r, s'), ended, rfl⟩⟩,
    holds⟩

/-- **Work on a kept listing of the region.** -/
theorem congruent_withKept {id : Nat} (here : R.pages k id)
    {act : Listing ν → Search σ ν (α × Listing ν)}
    (quiet : ∀ l s, l.Valid → Ensures (act l) s fun _ s' => s'.listings = s.listings)
    (acts : ∀ l, l.Valid → l.Within (R.pages k) → Congruent engine R k (act l)) :
    Congruent engine R k (withKept id act) := by
  intro p s free free' many same
  subst many
  have kept := same.kept id here
  have left (s : Session σ ν) (free : s.Open R) := quiet (s.kept id) s (free.valid id)
  have acted := acts (p.kept id) (free.valid id) (free.closed id here) p s free free' rfl same
  refine ensures_withKept ((acted.and (left p free)).mono fun r p' h => ?_)
  obtain ⟨returns, unchanged⟩ := h
  rw [kept] at returns
  refine returns_withKept ((returns.and (left s free')).mono fun r' s' h => ?_)
  obtain ⟨⟨rfl, same'⟩, unchanged'⟩ := h
  refine ⟨rfl, { same' with size := ?_, kept := fun other inside => ?_ }⟩
  · rw [Array.size_setIfInBounds, Array.size_setIfInBounds, same'.size]
  · rw [Array.size_setIfInBounds, unchanged] at inside
    rw [Session.kept_put unchanged, Session.kept_put unchanged', same.size, same.kept other inside]

end Rules

/-! ## One level further on -/

/-- What can be asked one level further on. -/
structure Reach.Congruent (engine : Engine σ ν) (reach : Reach σ ν) : Prop where
  text : ∀ {R k} kind v, v.Within (R.pages k) → WatchView.Congruent engine R k (reach.text kind v)
  count : ∀ {R k} l, l.Within (R.pages k) → WatchView.Congruent engine R k (reach.count l)
  rows : ∀ {R k} l start count, l.Within (R.pages k) →
    WatchView.Congruent engine R k (reach.rows l start count)
  isSound : ∀ {R k} l, l.Within (R.pages k) → WatchView.Congruent engine R k (reach.isSound l)

theorem Reach.congruent_nowhere : (nowhere : Reach σ ν).Congruent engine where
  text _ _ _ := congruent_unfinished
  count _ _ := congruent_unfinished
  rows _ _ _ _ := congruent_unfinished
  isSound _ _ := congruent_unfinished

variable {reach : Reach σ ν}

section Asking

variable (framed : reach.Framed) (further : reach.Congruent engine)
  (names : engine.inspector.NamesTypes)

/-! ## Texts -/

namespace Engine

include names

/-- A text by templates is the same if the plain text is. -/
theorem congruent_format (kind : TextKind) {plain : Search σ ν String}
    (h : Congruent engine R k plain) (stays : Stays R k plain fun _ _ => True)
    (templates : List GuardedText) (v : Variable ν) (scope : Scope (Variable ν)) :
    Congruent engine R k (engine.format kind plain templates v scope) := by
  have left (k' depth : Nat) (text : Except EvalError String) :
      Congruent engine R k' (do setDepth depth; return text) :=
    (congruent_setDepth depth).bind_of_quiet (quiet_setDepth depth) fun _ => congruent_pure text
  refine congruent_get_bind (fun p s alike => by dsimp only; rw [alike.depth]) fun s => ?_
  dsimp only
  split
  · exact congruent_pure _
  · refine (congruent_setDepth _).bind_of_quiet (quiet_setDepth _) fun _ => ?_
    refine (follows_first (follows_value names kind _) v scope templates).congruent.bind_of_quiet
      (engine.light_firstText (engine.light_valueText kind _) v scope templates).quiet.ensures
        fun text => ?_
    rcases text with e | _ | text
    · exact left k s.depth _
    · exact h.bind stays fun k' text _ _ => left k' s.depth _
    · exact left k s.depth _

/-- A text by the rule is the same if the plain text is. -/
theorem congruent_ruleText (kind : TextKind) {plain : Search σ ν String}
    (h : ∀ k', k ≤ k' → Congruent engine R k' plain)
    (stays : ∀ k', k ≤ k' → Stays R k' plain fun _ _ => True) (v : Variable ν) :
    Congruent engine R k (engine.ruleText kind plain v) := by
  refine (follows_templates names kind v).congruent.bind_of_quiet
    (engine.light_templatesFor kind v).quiet.ensures fun found => ?_
  refine (congruent_format names kind (h k (Nat.le_refl k)) (stays k (Nat.le_refl k)) _ _ _).bind
    (engine.stays_format kind (stays k (Nat.le_refl k)) _ _ _) fun k' text le _ => ?_
  cases text with
  | error e => exact h k' le
  | ok text => exact congruent_pure text

include framed further

theorem congruent_child? {v : Variable ν} (led : v.Within (R.pages k)) (index : Nat) :
    Congruent engine R k (engine.child? reach v index) := by
  refine (follows_childListing names v).congruent.bind (engine.stays_childListing v led)
    fun k' l _ within => ?_
  exact (further.rows l index 1 within).bind (framed.rows l index 1 within)
    fun k'' r _ _ => congruent_pure _

theorem congruent_textWith (kind : TextKind) {k : Nat} : (v : Variable ν) → v.Within (R.pages k) →
    Congruent engine R k (engine.textWith reach kind v)
  | .debugger handle, _ =>
    (follows_read (fun t => engine.debugger.text t kind handle) fun _ => rfl).congruent
  | .failure .., _ => congruent_pure _
  | .renamed inner .., led => congruent_textWith kind inner led
  | .ruled inner, led => by
    refine (follows_ruled names inner).congruent.bind_of_quiet (engine.light_isRuled inner).quiet.ensures
      fun ruled => ?_
    have later {k' : Nat} (le : k ≤ k') : inner.Within (R.pages k') :=
      Variable.Within.mono (fun id => R.mono le) (v := inner) led
    split
    · exact congruent_ruleText names kind (fun k' le => congruent_textWith kind inner (later le))
        (fun k' le => engine.stays_textWith framed kind inner (later le)) inner
    · exact congruent_textWith kind inner led
  | .asChild inner index, led => by
    refine (congruent_child? framed further names (v := inner) led index).bind
      (engine.stays_child? framed (v := inner) led index) fun k' child _ h => ?_
    cases child with
    | none => exact congruent_pure _
    | some v => exact further.text kind v (h v rfl)
  | .more .., _ => congruent_pure _
  | .synthetic owner scope rule text, led => by
    cases kind with
    | value => exact congruent_pure _
    | stringView =>
      have owned {k' : Nat} (le : k ≤ k') : owner.Within (R.pages k') :=
        Variable.Within.mono (fun id => R.mono le) (v := owner) led
      have plain := engine.stays_textWith framed .stringView owner led
      refine (congruent_format names .stringView (congruent_textWith .stringView owner led) plain
        _ owner scope).bind (engine.stays_format .stringView plain _ owner scope)
          fun k' text le _ => ?_
      cases text with
      | error e => exact congruent_textWith .stringView owner (owned le)
      | ok text => exact congruent_pure _

end Engine

/-! ## Elements of an expansion -/

omit names in
/-- Settling an element does the same if its count does. -/
theorem Standing.congruent_settle {κ : Type} (guard : Guard)
    (applies : StateM σ (Except EvalError Bool))
    {count : κ → Search σ ν (Except ExpandError Nat × κ)} {l : κ}
    (counts : Congruent engine R k (count l)) :
    Congruent engine R k
      (settle guard (liftM applies) count l : Search σ ν (Standing ν × κ)) := by
  have left (s : Session σ ν) : Ensures (liftM applies : Search σ ν (Except EvalError Bool)) s
      fun _ s' => s'.listings = s.listings :=
    ensures_target_iff.mpr (ensures_lift_iff.mpr rfl)
  unfold settle
  refine (congruent_target applies).bind_of_quiet left fun applied => ?_
  rcases applied with e | _ | _
  · exact congruent_pure _
  · exact congruent_pure _
  · exact counts.bind_pure fun r => ⟨_, rfl⟩

namespace Listing

/-! ## Listings within listings -/

section

include framed further names

theorem congruent_settledSynthetic {l : SyntheticListing ν} (led : l.Within (R.pages k)) :
    Congruent engine R k (l.settled engine reach) := by
  have text := Engine.congruent_textWith framed further names .value l.context.owner led.owner
  have texted := engine.stays_textWith framed .value l.context.owner led.owner
  unfold SyntheticListing.settled
  split
  · exact congruent_pure _
  · refine (Standing.congruent_settle _ _ ?_).bind_pure fun r => ⟨_, rfl⟩
    refine (Engine.congruent_format names .value text texted _ _ _).bind_pure fun text => ?_
    cases text with
    | error e => exact ⟨_, rfl⟩
    | ok text => exact ⟨_, rfl⟩

omit framed in
theorem congruent_settledInlined (c : Context ν) (rule : ExpandedItemRule)
    (standing : Option (Standing ν)) (inner : Option (Listing ν)) :
    Congruent engine R k (settledInlined engine reach c rule standing inner) := by
  unfold settledInlined
  split
  · exact congruent_pure _
  · refine Standing.congruent_settle _ _ ?_
    unfold countInlined
    split
    · exact congruent_pure _
    · refine (Engine.follows_contextChildListing names c _).congruent.bind
        (engine.stays_contextChildListing c _) fun k' result _ h => ?_
      cases result with
      | error e => exact congruent_pure _
      | ok l => exact (further.count l (h l rfl)).bind_pure fun r => ⟨_, rfl⟩

theorem congruent_resolvedChild {parent : Variable ν} (led : parent.Within (R.pages k))
    (index : Nat) (inner : Option (Listing ν)) :
    Congruent engine R k (resolvedChild engine reach parent index inner) := by
  cases inner with
  | some l => exact congruent_pure _
  | none =>
    refine (Engine.congruent_child? framed further names led index).bind
      (engine.stays_child? framed led index) fun k' child _ _ => ?_
    cases child with
    | none => exact congruent_pure _
    | some v => exact (Engine.follows_childListing names v).congruent

end

/-! ## Groups -/

section Groups

omit names

include framed further

theorem congruent_countAll {ls : List (Listing ν)} (led : ∀ l ∈ ls, l.Within (R.pages k)) :
    Congruent engine R k (countAll reach ls) := by
  induction ls generalizing k with
  | nil => exact congruent_pure _
  | cons l ls ih =>
    obtain ⟨here, rest⟩ := List.forall_mem_cons.mp led
    refine (further.count l here).bind (framed.count l here) fun k' r le _ => ?_
    exact (ih fun l member => (rest l member).mono fun id => R.mono le).bind_pure fun r => ⟨_, rfl⟩

theorem congruent_allSound {ls : List (Listing ν)} (led : ∀ l ∈ ls, l.Within (R.pages k)) :
    Congruent engine R k (allSound reach ls) := by
  induction ls generalizing k with
  | nil => exact congruent_pure _
  | cons l ls ih =>
    obtain ⟨here, rest⟩ := List.forall_mem_cons.mp led
    refine (further.isSound l here).bind (framed.isSound l here) fun k' r le _ => ?_
    dsimp only
    split
    · exact (ih fun l member => (rest l member).mono fun id => R.mono le).bind_pure
        fun r => ⟨_, rfl⟩
    · exact congruent_pure _

theorem congruent_showsRaw (hideRawView : Bool) {ls : List (Listing ν)}
    (led : ∀ l ∈ ls, l.Within (R.pages k)) :
    Congruent engine R k (showsRaw reach hideRawView ls) := by
  unfold showsRaw
  split
  · exact (congruent_allSound framed further led).bind_pure fun r => ⟨_, rfl⟩
  · exact congruent_pure _

theorem congruent_groupCount (hideRawView : Bool) {ls : List (Listing ν)}
    (led : ∀ l ∈ ls, l.Within (R.pages k)) :
    Congruent engine R k (groupCount reach hideRawView ls) := by
  refine (congruent_countAll framed further led).bind (stays_countAll framed led)
    fun k' r _ counted => ?_
  exact (congruent_showsRaw framed further hideRawView counted.within).bind_pure fun r => ⟨_, rfl⟩

/-- **Members listed one after the other** list the same rows. -/
theorem congruent_rowsBetween (start stop offset : Nat) {ls : List (Listing ν)}
    (led : ∀ l ∈ ls, l.Within (R.pages k)) :
    Congruent engine R k (rowsBetween reach start stop offset ls) := by
  induction ls generalizing offset k with
  | nil => exact congruent_pure _
  | cons l ls ih =>
    rw [rowsBetween_cons]
    split
    · exact congruent_pure _
    · obtain ⟨here, rest⟩ := List.forall_mem_cons.mp led
      refine (further.count l here).bind (framed.count l here) fun k' r le counted => ?_
      have behind {m : Nat} (le' : k' ≤ m) (shown : List (Variable ν) × Listing ν) :
          Congruent engine R m (rowsBehind reach start stop (offset + r.1) ls shown) :=
        (ih _ fun l member => (rest l member).mono fun id => R.mono (Nat.le_trans le le')).bind_pure
          fun r => ⟨_, rfl⟩
      dsimp only
      split
      · exact (further.rows r.2 _ _ counted.within).bind (framed.rows r.2 _ _ counted.within)
          fun m shown le' _ => behind le' shown
      · exact behind (Nat.le_refl k') _

theorem congruent_groupRows (owner : Variable ν) (hideRawView : Bool) {ls : List (Listing ν)}
    (led : ∀ l ∈ ls, l.Within (R.pages k)) (start count : Nat) :
    Congruent engine R k (groupRows engine reach owner hideRawView ls start count) := by
  refine (congruent_rowsBetween framed further start _ 0 led).bind
    (stays_rowsBetween framed start _ 0 led) fun k' r _ shown => ?_
  dsimp only
  split
  · refine (congruent_showsRaw framed further hideRawView shown.2.within).bind
      (stays_showsRaw framed hideRawView shown.2.within) fun k'' r' _ _ => ?_
    split
    · exact (Engine.follows_rawView owner).congruent.bind_pure fun row => ⟨_, rfl⟩
    · exact congruent_pure _
  · exact congruent_pure _

end Groups

/-! ## Pages -/

section Pages

variable (asks : reach.Asks)

omit names framed

include asks further

theorem congruent_remaining {id : Nat} (here : R.pages k id) (offset size : Nat) :
    Congruent engine R k (remaining reach id offset size) := by
  rw [remaining_eq]
  split
  case isFalse => exact congruent_overflow
  rename_i fits
  refine (congruent_withKept here (fun l s valid => ?_) fun l valid led => ?_).bind_pure
    fun n => ⟨_, rfl⟩
  · exact (asks.count _ s (valid.raisedFor fits)).mono fun _ _ h => h.1
  · exact further.count _ ((valid.onward_raisedFor fits).leads _ led)

theorem congruent_pageRows {id : Nat} (here : R.pages k id) (offset size start count : Nat) :
    Congruent engine R k (pageRows reach id offset size start count) := by
  rw [pageRows_eq]
  split
  case isFalse => exact congruent_overflow
  refine (congruent_remaining further asks here offset size).bind
    (stays_remaining asks here offset size) fun k' remaining le _ => ?_
  unfold exactRows
  dsimp only
  split
  · exact congruent_pure _
  · split
    · refine (congruent_withKept (R.mono le here) (fun l s valid => ?_)
        fun l valid led => ?_).bind_pure fun rows => ⟨_, rfl⟩
      · exact (asks.rows l s _ _ valid).mono fun _ _ h => h.1
      · exact further.rows l _ _ led
    · exact congruent_pure _

end Pages

/-! ## Custom lists -/

section Custom

omit framed further names

theorem congruent_settledCustom (bound : Nat) (l : CustomListing ν) :
    Congruent engine R k (l.settled engine bound) := by
  unfold CustomListing.settled
  split
  · exact congruent_pure _
  · refine (Standing.congruent_settle _ _ ?_).bind_pure fun r => ⟨_, rfl⟩
    refine (Engine.follows_started l).congruent.bind_of_quiet (fun s =>
      (l.ensures_started engine.evaluator s).mono fun _ _ h => h.1) fun result => ?_
    cases result with
    | error e => exact congruent_pure _
    | ok l =>
      dsimp only
      split
      · exact congruent_pure _
      · exact (congruent_ofTarget _).bind_pure fun l => ⟨_, rfl⟩

theorem congruent_rowsCustom (words : ∀ p, engine.options.get p < wordCount) (bound : Nat)
    {l : CustomListing ν} (valid : l.Valid) (start count : Nat) :
    Congruent engine R k (l.rows engine bound start count) := by
  refine (congruent_settledCustom bound l).bind_of_quiet (fun s =>
    (l.ensures_settled engine words bound valid s).mono fun _ _ h => h.1) fun r => ?_
  obtain ⟨st, l'⟩ := r
  cases st with
  | failed row => exact congruent_pure _
  | counted n => exact (congruent_ofTarget _).bind_pure fun _ => ⟨_, rfl⟩

end Custom

/-! ## All kinds -/

section Kinds

omit framed further names in
theorem congruent_answering {κ : Type} (wrap : κ → Listing ν) (answer : α → β)
    {act : Search σ ν (α × κ)} (h : Congruent engine R k act) :
    Congruent engine R k (answering wrap answer act) :=
  h.bind_pure fun _ => ⟨_, rfl⟩

variable (asks : reach.Asks) {l : Listing ν} (led : l.Within (R.pages k))

include framed further names asks led

/-- **Counting** does the same. -/
theorem congruent_countWith : Congruent engine R k (countWith engine reach l) := by
  cases led with
  | fixed => exact congruent_pure _
  | item => exact congruent_answering _ _ (congruent_target _)
  | indexList => exact congruent_answering _ _ (congruent_target _)
  | array => exact congruent_answering _ _ (congruent_target _)
  | nodes => exact congruent_answering _ _ (congruent_ofTarget _)
  | custom => exact congruent_answering _ _ (congruent_settledCustom _ _)
  | synthetic led =>
    exact congruent_answering _ _ (congruent_settledSynthetic framed further names led)
  | inlined => exact (congruent_settledInlined further names _ _ _ _).bind_pure fun r => ⟨_, rfl⟩
  | pointee led failed found =>
    refine (Engine.follows_resolvedPointee names _ _ _ _).congruent.bind
      (stays_resolvedPointee engine led _ failed found) fun k' r _ h => ?_
    cases r with
    | error row => exact congruent_pure _
    | ok l => exact (further.count l (h.2 l rfl).1).bind_pure fun r => ⟨_, rfl⟩
  | unsupported => exact congruent_pure _
  | group _ all => exact (congruent_groupCount framed further _ all).bind_pure fun r => ⟨_, rfl⟩
  | page here =>
    rw [countWith_page_eq]
    split
    · exact (congruent_remaining further asks here _ _).bind_pure fun n => ⟨_, rfl⟩
    · exact congruent_overflow
  | registers => exact congruent_pure _
  | ofChild led found =>
    exact (congruent_resolvedChild framed further names led _ _).bind
      (stays_resolvedChild engine framed led _ found) fun k' l _ h =>
        (further.count l h.1).bind_pure fun r => ⟨_, rfl⟩

/-- **Asking whether all children can be had** does the same. -/
theorem congruent_isSoundWith : Congruent engine R k (isSoundWith engine reach l) := by
  cases led with
  | fixed => exact congruent_pure _
  | item => exact congruent_answering _ _ (congruent_target _)
  | indexList => exact congruent_answering _ _ (congruent_target _)
  | array => exact congruent_answering _ _ (congruent_target _)
  | nodes => exact congruent_answering _ _ (congruent_ofTarget _)
  | custom => exact (congruent_settledCustom _ _).bind_pure fun r => ⟨_, rfl⟩
  | synthetic led =>
    exact congruent_answering _ _ (congruent_settledSynthetic framed further names led)
  | inlined => exact (congruent_settledInlined further names _ _ _ _).bind_pure fun r => ⟨_, rfl⟩
  | pointee led failed found =>
    refine (Engine.follows_resolvedPointee names _ _ _ _).congruent.bind_pure fun r => ?_
    cases r with
    | error row => exact ⟨_, rfl⟩
    | ok l => exact ⟨_, rfl⟩
  | unsupported => exact congruent_pure _
  | group _ all => exact (congruent_allSound framed further all).bind_pure fun r => ⟨_, rfl⟩
  | page here =>
    refine (congruent_withKept here (fun l s valid => ?_) fun l _ led => ?_).bind_pure
      fun b => ⟨_, rfl⟩
    · exact (asks.isSound l s valid).mono fun _ _ h => h.1
    · exact further.isSound l led
  | registers led => exact (further.isSound _ led).bind_pure fun r => ⟨_, rfl⟩
  | ofChild => exact congruent_pure _

/-- **A window** shows the same rows. -/
theorem congruent_rowsWith (words : ∀ p, engine.options.get p < wordCount) (start count : Nat) :
    Congruent engine R k (rowsWith engine reach start count l) := by
  -- each kind does the same with sessions that agree on the lists it leads to
  cases led with
  | fixed => exact congruent_pure _
  | item => exact congruent_answering _ _ (congruent_target _)
  | indexList => exact congruent_answering _ _ (congruent_target _)
  | array => exact congruent_answering _ _ (congruent_target _)
  | nodes => exact congruent_answering _ _ (congruent_ofTarget _)
  | custom valid => exact congruent_answering _ _ (congruent_rowsCustom words _ valid _ _)
  | synthetic led =>
    refine congruent_answering _ _
      ((congruent_settledSynthetic framed further names led).bind_pure fun r => ?_)
    obtain ⟨st, l'⟩ := r
    cases st with
    | failed row => exact ⟨_, rfl⟩
    | counted n => exact ⟨_, rfl⟩
  | inlined settled found =>
    refine (congruent_settledInlined further names _ _ _ _).bind
      (stays_settledInlined engine framed _ _ settled found) fun k' r _ h => ?_
    obtain ⟨st, inner⟩ := r
    rcases st with n | row
    · cases inner with
      | none => exact congruent_pure _
      | some l => exact (further.rows l start count (h.2.1 l rfl)).bind_pure fun r => ⟨_, rfl⟩
    · exact congruent_pure _
  | pointee led failed found =>
    refine (Engine.follows_resolvedPointee names _ _ _ _).congruent.bind
      (stays_resolvedPointee engine led _ failed found) fun k' r _ h => ?_
    cases r with
    | error row => exact congruent_pure _
    | ok l => exact (further.rows l start count (h.2 l rfl).1).bind_pure fun r => ⟨_, rfl⟩
  | unsupported => exact congruent_pure _
  | group _ all =>
    exact (congruent_groupRows framed further _ _ all start count).bind_pure fun r => ⟨_, rfl⟩
  | page here =>
    exact (congruent_pageRows further asks here _ _ start count).bind_pure fun rows => ⟨_, rfl⟩
  | registers led => exact (further.rows _ start count led).bind_pure fun r => ⟨_, rfl⟩
  | ofChild led found =>
    exact (congruent_resolvedChild framed further names led _ _).bind
      (stays_resolvedChild engine framed led _ found) fun k' l _ h =>
        (further.rows l start count h.1).bind_pure fun r => ⟨_, rfl⟩

end Kinds

end Listing

end Asking

/-- **Whatever the engine can be asked**, it answers the same in sessions that are alike where
the question leads. -/
theorem Engine.congruent_reach (names : engine.inspector.NamesTypes)
    (words : ∀ p, engine.options.get p < wordCount) (bound : Nat) :
    (engine.reach bound).Congruent engine := by
  induction bound with
  | zero => exact Reach.congruent_nowhere
  | succ bound ih =>
    have framed := engine.framed_reach words bound
    have asks := engine.asks_reach words bound
    exact {
      text := fun kind v led => congruent_textWith framed ih names kind v led
      count := fun l led => Listing.congruent_countWith framed ih names asks led
      rows := fun l start count led =>
        Listing.congruent_rowsWith framed ih names asks led words start count
      isSound := fun l led => Listing.congruent_isSoundWith framed ih names asks led }

end WatchView
