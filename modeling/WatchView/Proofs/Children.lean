import WatchView.Listing.Nested
import WatchView.Proofs.Display
import WatchView.Proofs.Kept
/-!
# How far the making of children reaches

Finding the text of a variable and making its children stays among the pages
that the variable leads to.
-/

namespace WatchView

open Bounded

variable {σ ν α β κ : Type} {R : Region} {k : Nat}

/-! ## Work on the debugger -/

theorem stays_target {act : StateM σ α} {outcome : (Nat → Prop) → α → Prop}
    (h : ∀ t, Ensures (liftM act : Bounded σ α) t fun a _ => outcome (R.pages k) a) :
    Stays R k (liftM act : Search σ ν α) outcome :=
  stays_of_quiet fun s => ensures_target_iff.mpr ((h s.target).mono fun _ _ h => ⟨rfl, h⟩)

theorem stays_ofTarget {act : Bounded σ α} {outcome : (Nat → Prop) → α → Prop}
    (h : ∀ t, Ensures act t fun a _ => outcome (R.pages k) a) :
    Stays R k (Search.ofTarget act : Search σ ν α) outcome :=
  stays_of_quiet fun s => ensures_ofTarget_iff.mpr ((h s.target).mono fun _ _ h => ⟨rfl, h⟩)

/-- Settling an element stays where its count stays. The standing leads
nowhere. -/
theorem Standing.stays_settle {guard : Guard} {applies : StateM σ (Except EvalError Bool)}
    {count : κ → Search σ ν (Except ExpandError Nat × κ)} {l : κ}
    (outcome : (Nat → Prop) → κ → Prop) (start : outcome (R.pages k) l)
    (counts : Stays R k (count l) fun P r => outcome P r.2) :
    Stays R k (settle guard (liftM applies) count l) fun P (r : Standing ν × κ) =>
      (∀ P, r.1.Within P) ∧ outcome P r.2 := by
  unfold settle
  refine stays_bind_of_quiet (P := fun _ => True)
    (fun s => ensures_target_iff.mpr (ensures_lift_iff.mpr ⟨rfl, trivial⟩)) fun applied _ => ?_
  have nowhere (result : Except ExpandError Nat) (P : Nat → Prop) :
      (ofResult guard result : Standing ν).Within P := within_ofResult guard result
  rcases applied with e | _ | _
  · exact stays_pure ⟨nowhere (.error (.evaluation e)), start⟩
  · exact stays_pure ⟨fun P => trivial, start⟩
  · exact counts.bind fun k' r _ h => stays_pure ⟨nowhere r.1, h⟩

/-! ## Texts -/

namespace Engine

variable (engine : Engine σ ν)

theorem stays_format (kind : TextKind) {plain : Search σ ν String}
    (h : Stays R k plain fun _ _ => True) (templates : List GuardedText) (v : Variable ν)
    (scope : Scope (Variable ν)) :
    Stays R k (engine.format kind plain templates v scope) fun _ _ => True := by
  have depth (k n : Nat) {α : Type} {next : Unit → Search σ ν α}
      (rest : Stays R k (next ()) fun _ _ => True) :
      Stays R k (setDepth n >>= next) fun _ _ => True :=
    stays_bind_of_quiet (P := fun _ => True)
      (fun s => ensures_modify_iff.mpr ⟨rfl, trivial⟩) fun _ _ => rest
  unfold format
  refine stays_bind_of_quiet (P := fun _ => True)
    (fun s => ensures_get_iff.mpr ⟨rfl, trivial⟩) fun s _ => ?_
  dsimp only
  split
  · exact stays_pure trivial
  · refine depth k _ ?_
    refine (engine.light_firstText (engine.light_valueText kind _) v scope templates).quiet.stays_bind
      fun text => ?_
    have rest (k' : Nat) (text : Except EvalError String) :
        Stays R k' (do setDepth s.depth; return text) fun _ _ => True :=
      depth k' _ (stays_pure trivial)
    rcases text with e | _ | text
    · exact rest k _
    · exact h.bind fun k' text _ _ => rest k' _
    · exact rest k _

theorem stays_ruleText (kind : TextKind) {plain : Search σ ν String}
    (h : ∀ k', k ≤ k' → Stays R k' plain fun _ _ => True) (v : Variable ν) :
    Stays R k (engine.ruleText kind plain v) fun _ _ => True := by
  refine (engine.light_templatesFor kind v).quiet.stays_bind fun found => ?_
  refine (engine.stays_format kind (h k (Nat.le_refl k)) found.1 v found.2).bind
    fun k' text le _ => ?_
  cases text with
  | error e => exact h k' le
  | ok text => exact stays_pure trivial

end Engine

/-! ## The children of a variable -/

theorem stays_mapM {f : α → Run σ ν β} {outcome : (Nat → Prop) → β → Prop}
    (h : ∀ k', k ≤ k' → ∀ a, Stays R k' (liftM (f a) : Search σ ν β) outcome)
    (mono : ∀ P Q b, (∀ id, P id → Q id) → outcome P b → outcome Q b) (as : List α) :
    Stays R k (liftM (as.mapM f) : Search σ ν (List β)) fun P bs => ∀ b ∈ bs, outcome P b := by
  induction as generalizing k with
  | nil =>
    rw [List.mapM_nil]
    exact stays_lift_pure (List.forall_mem_nil _)
  | cons a as ih =>
    rw [List.mapM_cons]
    refine stays_lift_bind ((h k (Nat.le_refl k) a).bind fun k' b le first => ?_)
    have rest := ih fun k'' le' => h k'' (Nat.le_trans le le')
    refine stays_lift_bind (rest.bind fun k'' bs le' rest => stays_lift_pure ?_)
    exact List.forall_mem_cons.mpr ⟨mono _ _ b (fun id => R.mono le') first, rest⟩

namespace Engine

variable (engine : Engine σ ν)

theorem stays_firstPage (limit : Property) {l : Listing ν} (valid : l.Valid)
    (led : l.Within (R.pages k)) :
    Stays R k (liftM (engine.firstPage limit l) : Search σ ν (Listing ν)) Listing.Within := by
  refine stays_lift_bind ((stays_keepListing valid led).bind fun k' id _ here => ?_)
  exact stays_lift_pure (.page here)

theorem valid_indexList (c : Context ν) (rule : IndexListRule) :
    (Listing.indexList { context := c, rule }).Valid := fun _ h => nomatch h

theorem valid_array (c : Context ν) (rule : ArrayRule) :
    (Listing.array { context := c, rule }).Valid := fun _ h => nomatch h

theorem valid_nodes (c : Context ν) (rule : NodeRule) :
    (Listing.nodes { context := c, rule }).Valid where
  limit := (by decide : 0 < wordCount)
  found := (by decide : 0 < wordCount)
  counted _ h := nomatch h
  enough _ h := nomatch h
  ended h := nomatch h
  stale h := nomatch h

theorem valid_custom (c : Context ν) (rule : CustomListRule) :
    (Listing.custom { context := c, rule }).Valid where
  limit := (by decide : 0 < wordCount)
  shown := (by decide : 0 < wordCount)
  size _ h := nomatch h
  fresh _ := rfl
  counted h := nomatch h

/-- The listing of an element that is not paged, as it is made. -/
inductive Unpaged (c : Context ν) : Listing ν → Prop
  | item (rule : ItemRule) : Unpaged c (.item { context := c, rule })
  | synthetic (rule : SyntheticRule) : Unpaged c (.synthetic { context := c, rule })
  | inlined (rule : ExpandedItemRule) : Unpaged c (.inlined c rule none none)
  | unsupported (element : String) : Unpaged c (.unsupported (unsupportedRow element))

/-- The listing of an element leads where the variable leads that is
expanded. -/
theorem Unpaged.within {c : Context ν} {l : Listing ν} (h : Unpaged c l) {P : Nat → Prop}
    (led : c.owner.Within P) : l.Within P := by
  cases h with
  | item rule => exact .item ⟨led, fun _ h => (nomatch h), fun _ h => nomatch h⟩
  | synthetic rule => exact .synthetic ⟨led, fun _ h => (nomatch h), fun _ h => nomatch h⟩
  | inlined rule => exact .inlined (fun _ h => nomatch h) fun _ h => nomatch h
  | unsupported element => exact .unsupported (Variable.within_warning _)

/-- The listing of an element is not paged, or the first page of one that is
kept. -/
theorem elementListing_cases (c : Context ν) (element : ExpandItem) :
    (∃ l, engine.elementListing c element = pure l ∧ Unpaged c l) ∨
      ∃ limit l, engine.elementListing c element = engine.firstPage limit l ∧ l.Valid ∧
        ∀ P, c.owner.Within P → l.Within P := by
  cases element with
  | item rule => exact .inl ⟨_, rfl, .item rule⟩
  | synthetic rule => exact .inl ⟨_, rfl, .synthetic rule⟩
  | expandedItem rule => exact .inl ⟨_, rfl, .inlined rule⟩
  | indexList rule =>
    exact .inr ⟨_, _, rfl, valid_indexList c rule, fun P led =>
      .indexList ⟨led, fun _ h => (nomatch h), Kept.within_nil⟩⟩
  | array rule =>
    exact .inr ⟨_, _, rfl, valid_array c rule, fun P led =>
      .array ⟨led, fun _ h => (nomatch h), Kept.within_nil⟩⟩
  | nodes rule =>
    refine .inr ⟨_, _, rfl, valid_nodes c rule, fun P led => .nodes ⟨led, fun _ h => (nomatch h),
      fun _ h => (nomatch h), fun _ h => ?_, fun _ h => (nomatch h), Kept.within_nil⟩⟩
    exact absurd h (Array.not_mem_empty _)
  | customList rule =>
    dsimp only [elementListing]
    split
    · refine .inr ⟨_, _, rfl, valid_custom c rule, fun P led => .custom (valid_custom c rule)
        ⟨led, trivial, fun _ h => ?_, fun _ h => nomatch h⟩⟩
      exact absurd h (Array.not_mem_empty _)
    · exact .inl ⟨_, rfl, .unsupported _⟩
  | unsupported element => exact .inl ⟨_, rfl, .unsupported element⟩

theorem stays_elementListing {c : Context ν} (led : c.owner.Within (R.pages k))
    (element : ExpandItem) :
    Stays R k (liftM (engine.elementListing c element) : Search σ ν (Listing ν))
      Listing.Within := by
  rcases engine.elementListing_cases c element with ⟨l, made, unpaged⟩ |
    ⟨limit, l, made, valid, leads⟩
  · rw [made]
    exact stays_lift_pure (unpaged.within led)
  · rw [made]
    exact engine.stays_firstPage limit valid (leads _ led)

theorem stays_expandListing {c : Context ν} (led : c.owner.Within (R.pages k)) (expand : Expand) :
    Stays R k (liftM (engine.expandListing c expand) : Search σ ν (Listing ν))
      Listing.Within := by
  have elements := stays_mapM (fun k' le => engine.stays_elementListing (k := k')
    (led.mono fun id => R.mono le)) (fun P Q l h => Listing.Within.mono h) expand.items
  refine stays_lift_bind (elements.bind fun k' ls le all => ?_)
  exact stays_lift_pure (.group (led.mono fun id => R.mono le) all)

theorem stays_expandListing? {c : Context ν} (led : c.owner.Within (R.pages k))
    (expand : Option Expand) :
    Stays R k (liftM (engine.expandListing? c expand) : Search σ ν (Listing ν))
      Listing.Within := by
  cases expand with
  | none => exact stays_lift_pure (.group led (List.forall_mem_nil _))
  | some expand => exact engine.stays_expandListing led expand

theorem stays_ruleListing {plain : Run σ ν (Listing ν)} {v : Variable ν}
    (led : v.Within (R.pages k))
    (h : Stays R k (liftM plain : Search σ ν (Listing ν)) Listing.Within) :
    Stays R k (liftM (engine.ruleListing plain v) : Search σ ν (Listing ν)) Listing.Within := by
  have tagged {P : Nat → Prop} (tag : Bool) (n : Nat) {l : Listing ν} (led : l.Within P) :
      (if tag then .registers n l else l : Listing ν).Within P := by
    split
    · exact .registers led
    · exact led
  refine stays_lift_bind ((engine.light_findRule v).quiet.stays_bind fun found => ?_)
  cases found with
  | none => exact h
  | some m =>
    refine stays_lift_bind ((engine.light_facts v).quiet.stays_bind fun f => ?_)
    dsimp only
    split
    · have listed := engine.stays_expandListing (c := ⟨v, scopeOf m⟩) led
      refine stays_lift_bind ((listed _).bind fun k' l _ within => ?_)
      exact stays_lift_pure (tagged _ _ within)
    · refine stays_lift_pure (tagged _ _ (.pointee led ?_ ?_))
      · exact fun _ h => nomatch h
      · exact fun _ h => nomatch h
    · exact h

/-- **The children of a variable** lead where the variable does. -/
theorem stays_childListing : (v : Variable ν) → v.Within (R.pages k) →
    Stays R k (liftM (engine.childListing v) : Search σ ν (Listing ν)) Listing.Within
  | .debugger handle, _ => by
    refine stays_lift_bind (Run.quiet_get.stays_bind fun s => stays_lift_pure (.fixed ?_))
    intro row h
    obtain ⟨child, -, rfl⟩ := List.mem_map.mp h
    trivial
  | .failure .., _ => stays_lift_pure Listing.within_empty
  | .renamed inner .., led => stays_childListing inner led
  | .ruled inner, led => by
    refine stays_lift_bind ((engine.light_isRuled inner).quiet.stays_bind fun ruled => ?_)
    split
    · exact engine.stays_ruleListing led (stays_childListing inner led)
    · exact stays_childListing inner led
  | .asChild inner index, led => stays_lift_pure (.ofChild led fun _ h => nomatch h)
  | .more .., here => stays_lift_pure (.page here)
  | .synthetic .., led => engine.stays_expandListing? led _

/-- The children of an expression's value lead only to what is kept on the
way. -/
theorem stays_contextChildListing (c : Context ν) (expression : String) :
    Stays R k (liftM (c.childListing engine expression) : Search σ ν _) fun P r =>
      ∀ l, r = .ok l → l.Within P := by
  refine stays_lift_bind ((Run.quiet_target _).stays_bind fun result => ?_)
  cases result with
  | error e => exact stays_lift_pure fun l h => nomatch h
  | ok answer =>
    refine stays_lift_bind (stays_bind_of_quiet (P := Variable.Within (R.pages k))
      (fun s => ensures_lift_iff.mpr ⟨rfl, answer.within_toVariable.decorated _ _⟩)
      fun v led => ?_)
    refine stays_lift_bind ((engine.stays_childListing v led).bind fun k' l _ within => ?_)
    refine stays_lift_pure fun l' h => ?_
    cases h
    exact within

/-! ## Whether there are children -/

theorem light_ruleMightHaveChildren {plain : Run σ ν Bool} (h : plain.Light) (v : Variable ν) :
    (engine.ruleMightHaveChildren plain v).Light := by
  refine (engine.light_findRule v).bind fun found => ?_
  cases found with
  | none => exact h
  | some m =>
    dsimp only
    split
    · split
      · exact Run.light_pure _
      · split
        · exact Run.light_pure _
        · exact h
    · split
      · exact Run.light_pure _
      · exact h

/-- Telling whether a variable may have children makes none. -/
theorem light_mightHaveChildren : (v : Variable ν) → (engine.mightHaveChildren v).Light
  | .debugger handle => fun _ => ⟨_, _, rfl⟩
  | .failure .. => Run.light_pure _
  | .renamed inner .. => light_mightHaveChildren inner
  | .ruled inner => by
    refine (engine.light_isRuled inner).bind fun ruled => ?_
    split
    · exact engine.light_ruleMightHaveChildren (light_mightHaveChildren inner) inner
    · exact light_mightHaveChildren inner
  | .asChild .. => Run.light_pure _
  | .more .. => Run.light_pure _
  | .synthetic .. => Run.light_pure _

end Engine

end WatchView
