import WatchView.Proofs.Listing.Made
/-!
# Asking a fit listing

A listing that is asked stays fit, and one that was counted is settled with the
number it gave (`keeps_reach`), unless it shows only a part. The elements of a
group are asked one after the other. Each leaves the pages of the others alone,
so those that were settled before stay so.
-/

namespace WatchView

open Bounded Listing

variable {σ ν α : Type}

/-! ## One level further on -/

/-- Asking keeps listings fit. An element stays one, and shows no pages of
others. -/
def Listing.Keeps (ask : Listing ν → Search σ ν (α × Listing ν)) : Prop :=
  ∀ (s : Session σ ν) (l : Listing ν), s.Sound → l.KnownIn s → Sane s l →
    Ensures (ask l) s fun r s' => ¬ r.2.Partial s' →
      Fit s' r.2 ∧ (Element s l → Moves s s' l r.2)

/-- Counting settles listings with the number it gives. -/
def Listing.Settles (count : Listing ν → Search σ ν (Nat × Listing ν)) : Prop :=
  ∀ (s : Session σ ν) (l : Listing ν), s.Sound → l.KnownIn s → Sane s l →
    Ensures (count l) s fun r s' => ¬ r.2.Partial s' → ∃ b, Settled s' r.2 r.1 b

/-- **What asking does to fit listings** one level further on. -/
structure Reach.Keeps (reach : Reach σ ν) : Prop where
  count : Listing.Keeps reach.count
  settles : Listing.Settles reach.count
  rows : ∀ start count, Listing.Keeps fun l => reach.rows l start count
  isSound : Listing.Keeps reach.isSound

namespace Listing

variable {engine : Engine σ ν} {reach : Reach σ ν} {s s' : Session σ ν} {l l' : Listing ν}
  {ls ls' pre : List (Listing ν)} {answers : List (Nat × Bool)} {n : Nat} {b : Bool}

/-! ## The members of a group -/

/-- The members of a group, ready to be asked. -/
structure Ready (s : Session σ ν) (ls : List (Listing ν)) : Prop where
  sound : s.Sound
  led : ∀ l ∈ ls, l.KnownIn s
  sane : SaneAll s ls

theorem Ready.quiet (ready : Ready s ls) (same : s'.listings = s.listings) : Ready s' ls where
  sound := ready.sound.of_listings_eq same
  led l member := by
    unfold KnownIn
    rw [same]
    exact ready.led l member
  sane := ready.sane.quiet same

theorem growAll_middle {Q : Nat → Prop} (led : ∀ m ∈ pre ++ ls, m.Within Q)
    (grown : l.Grows Q l') : GrowAll (pre ++ l :: ls) Q (pre ++ l' :: ls) := by
  induction pre with
  | nil => exact .cons grown (.refl fun m member => led m member)
  | cons m pre ih =>
    obtain ⟨here, rest⟩ := List.forall_mem_cons.mp led
    exact .cons (.refl here) (ih rest)

/-- Members stay settled while what their pages show stays as it is. -/
theorem SettledAll.of_kept (h : SettledAll s ls answers)
    (same : ∀ l ∈ ls, ∀ id, l.Has (.page id) → s'.kept id = s.kept id) :
    SettledAll s' ls answers := by
  induction h with
  | nil => exact .nil
  | cons here _ ih =>
    obtain ⟨first, rest⟩ := List.forall_mem_cons.mp same
    refine .cons (here.congr fun id has => ?_) (ih rest)
    rw [first id has]
    exact .refl _

/-- **Asking one member** leaves what the others show as it is. -/
theorem Ready.ensures_member {ask : Listing ν → Search σ ν (α × Listing ν)} (keeps : Keeps ask)
    (stays : ∀ {R k} l, l.Within (R.pages k) → Stays R k (ask l) fun P r => l.Grows P r.2)
    (ready : Ready s (pre ++ l :: ls)) :
    Ensures (ask l) s fun r s' => Ready s' (pre ++ r.2 :: ls) ∧
      (¬ AnyPartial s' (pre ++ r.2 :: ls) →
        ∀ m ∈ pre ++ ls, ∀ id, m.Has (.page id) → s'.kept id = s.kept id) := by
  intro r s' ended
  have led (m : Listing ν) (member : m ∈ l :: (pre ++ ls)) : m.KnownIn s :=
    ready.led m (List.perm_middle.mem_iff.mpr member)
  obtain ⟨here, others⟩ := List.forall_mem_cons.mp led
  obtain ⟨sound, frame, grown⟩ := stays l here s ready.sound rfl r s' ended
  have all : GrowAll (pre ++ l :: ls) (· < s'.listings.size) (pre ++ r.2 :: ls) :=
    growAll_middle (fun m member => (others m member).mono fun id inside =>
      Nat.lt_of_lt_of_le inside frame.size) grown
  have replaced (whole : ¬ AnyPartial s' (pre ++ r.2 :: ls)) :
      Members s' (r.2 :: (pre ++ ls)) ∧
        ∀ m ∈ pre ++ ls, ∀ id, m.Has (.page id) → s'.kept id = s.kept id := by
    have members := (ready.sane fun part => whole (part.mono all frame)).perm List.perm_middle
    have element := members.element l List.mem_cons_self
    refine members.replace ready.sound led (fun R free within => ?_)
      ((keeps s l ready.sound here (fun _ => .element element) r s' ended fun part => ?_).2 element)
    · obtain ⟨free', frame', grown'⟩ := stays l within s free rfl r s' ended
      exact ⟨free', frame', grown'.within⟩
    · exact whole ⟨r.2, List.mem_append_right _ List.mem_cons_self, part⟩
  exact ⟨⟨sound, all.within, fun whole => (replaced whole).1.perm List.perm_middle.symm⟩,
    fun whole => (replaced whole).2⟩

section Groups

variable (keeps : reach.Keeps) (framed : reach.Framed)

include keeps framed

/-- Counting one member settles it, and those stay settled that were. -/
theorem Ready.ensures_count (ready : Ready s (pre ++ l :: ls))
    (settled : ¬ AnyPartial s (pre ++ l :: ls) → SettledAll s pre answers) :
    Ensures (reach.count l) s fun r s' => Ready s' (pre ++ r.2 :: ls) ∧
      ∃ b, ¬ AnyPartial s' (pre ++ r.2 :: ls) →
        SettledAll s' (pre ++ [r.2]) (answers ++ [(r.1, b)]) := by
  intro r s' ended
  have here : l ∈ pre ++ l :: ls := List.mem_append_right _ List.mem_cons_self
  obtain ⟨ready', same⟩ := ready.ensures_member keeps.count framed.count r s' ended
  refine ⟨ready', ?_⟩
  by_cases part : AnyPartial s' (pre ++ r.2 :: ls)
  · exact ⟨false, fun whole => absurd part whole⟩
  obtain ⟨-, frame, grown⟩ := framed.count l (ready.led l here) s ready.sound rfl r s' ended
  have others (m : Listing ν) (member : m ∈ pre ++ ls) : m.KnownIn s' :=
    ready'.led m (List.perm_middle.mem_iff.mpr (List.mem_cons_of_mem _ member))
  have whole : ¬ AnyPartial s (pre ++ l :: ls) := fun before =>
    part (before.mono (growAll_middle others grown) frame)
  have sane : Sane s l := fun _ => .element ((ready.sane whole).element l here)
  obtain ⟨b, counted⟩ := keeps.settles s l ready.sound (ready.led l here) sane r s' ended
    fun h => part ⟨r.2, List.mem_append_right _ List.mem_cons_self, h⟩
  refine ⟨b, fun _ => List.rel_append ?_ (.cons counted .nil)⟩
  exact (settled whole).of_kept fun m member => same part m (List.mem_append_left _ member)

/-- Counting all members settles them. -/
theorem Ready.ensures_countAll (ready : Ready s (pre ++ ls))
    (settled : ¬ AnyPartial s (pre ++ ls) → SettledAll s pre answers) :
    Ensures (countAll reach ls) s fun r s' => Ready s' (pre ++ r.2) ∧
      (¬ AnyPartial s' (pre ++ r.2) →
        ∃ more, SettledAll s' (pre ++ r.2) (answers ++ more) ∧ r.1 = (more.map Prod.fst).sum) := by
  induction ls generalizing pre answers s with
  | nil =>
    refine ensures_pure_iff.mpr ⟨ready, fun whole => ⟨[], ?_, rfl⟩⟩
    rw [List.append_nil] at settled whole ⊢
    rw [List.append_nil]
    exact settled whole
  | cons l ls ih =>
    refine (ready.ensures_count keeps framed settled).bind fun r s₁ h => ?_
    obtain ⟨ready₁, b, settled₁⟩ := h
    rw [List.append_cons] at ready₁ settled₁
    refine (ih ready₁ settled₁).bind fun rs s₂ h => ensures_pure_iff.mpr ?_
    dsimp only
    rw [List.append_cons]
    refine ⟨h.1, fun whole => ?_⟩
    obtain ⟨more, all, sum⟩ := h.2 whole
    refine ⟨(r.1, b) :: more, ?_, ?_⟩
    · rw [List.append_cons answers]
      exact all
    · rw [List.map_cons, List.sum_cons, sum]

/-- Asking members whether they are sound keeps them ready. -/
theorem Ready.ensures_allSound (ready : Ready s (pre ++ ls)) :
    Ensures (allSound reach ls) s fun r s' => Ready s' (pre ++ r.2) := by
  induction ls generalizing pre s with
  | nil => exact ensures_pure_iff.mpr ready
  | cons l ls ih =>
    refine (ready.ensures_member keeps.isSound framed.isSound).bind fun r s₁ h => ?_
    have ready₁ := h.1
    dsimp only
    split
    · rw [List.append_cons] at ready₁
      refine (ih ready₁).bind fun rs s₂ ready₂ => ensures_pure_iff.mpr ?_
      dsimp only
      rw [List.append_cons]
      exact ready₂
    · exact ensures_pure_iff.mpr ready₁

theorem Ready.ensures_showsRaw (ready : Ready s ls) (hideRawView : Bool) :
    Ensures (showsRaw reach hideRawView ls) s fun r s' => Ready s' r.2 := by
  unfold showsRaw
  split
  · have all : Ready s ([] ++ ls) := ready
    exact (all.ensures_allSound keeps framed).bind fun r s₁ ready₁ => ensures_pure_iff.mpr ready₁
  · exact ensures_pure_iff.mpr ready

/-- A window of the members keeps them ready. -/
theorem Ready.ensures_rowsBetween (ready : Ready s (pre ++ ls)) (start stop offset : Nat) :
    Ensures (rowsBetween reach start stop offset ls) s fun r s' => Ready s' (pre ++ r.2.1) := by
  induction ls generalizing pre offset s with
  | nil => exact ensures_pure_iff.mpr ready
  | cons l ls ih =>
    rw [rowsBetween_cons]
    split
    · exact ensures_pure_iff.mpr ready
    · refine (ready.ensures_member keeps.count framed.count).bind fun r s₁ h => ?_
      have ready₁ := h.1
      dsimp only
      -- the rest of the members, after the window of the first
      have window (r' : List (Variable ν) × Listing ν) (s₂ : Session σ ν)
          (ready₂ : Ready s₂ (pre ++ r'.2 :: ls)) :
          Ensures (rowsBehind reach start stop (offset + r.1) ls r') s₂ fun rs s' =>
            Ready s' (pre ++ rs.2.1) := by
        rw [List.append_cons] at ready₂
        refine (ih ready₂ _).bind fun rs s₃ ready₃ => ensures_pure_iff.mpr ?_
        dsimp only
        rw [List.append_cons]
        exact ready₃
      split
      · refine (ready₁.ensures_member (keeps.rows _ _) fun l led => ?_).bind fun r' s₂ h =>
          window r' s₂ h.1
        exact (framed.rows l _ _ led).mono fun _ _ _ h => h.2
      · exact window ([], r.2) s₁ ready₁

theorem Ready.ensures_groupRows (ready : Ready s ls) (owner : Variable ν) (hideRawView : Bool)
    (start count : Nat) :
    Ensures (groupRows engine reach owner hideRawView ls start count) s fun r s' =>
      Ready s' r.2 := by
  have all : Ready s ([] ++ ls) := ready
  refine (all.ensures_rowsBetween keeps framed start _ 0).bind fun r s₁ ready₁ => ?_
  dsimp only
  split
  · refine (Ready.ensures_showsRaw keeps framed ready₁ hideRawView).bind fun r' s₂ ready₂ => ?_
    split
    · exact ((engine.light_rawView owner).quiet.ensures s₂).bind fun row s' same =>
        ensures_pure_iff.mpr (ready₂.quiet same)
    · exact ensures_pure_iff.mpr ready₂
  · exact ensures_pure_iff.mpr ready₁

/-- **Counting a group** settles its members. -/
theorem Ready.ensures_groupCount (again : Again reach) (ready : Ready s ls) (hideRawView : Bool) :
    Ensures (groupCount reach hideRawView ls) s fun r s' => Ready s' r.2 ∧
      (¬ AnyPartial s' r.2 →
        ∃ answers, SettledAll s' r.2 answers ∧ r.1 = groupTotal hideRawView answers) := by
  have all : Ready s ([] ++ ls) := ready
  refine (all.ensures_countAll keeps framed fun _ => .nil).bind fun r s₁ h => ?_
  obtain ⟨ready₁, settled⟩ := h
  obtain ⟨n, members⟩ := r
  rw [List.nil_append] at ready₁ settled
  by_cases part : AnyPartial s₁ members
  · refine ((Ready.ensures_showsRaw keeps framed ready₁ hideRawView).and
      (stays_showsRaw framed hideRawView ready₁.led s₁ ready₁.sound rfl)).bind fun r s₂ h =>
        ensures_pure_iff.mpr ⟨h.1, fun whole => ?_⟩
    exact absurd (part.mono h.2.2.2 h.2.2.1) whole
  · obtain ⟨answers, all, sum⟩ := settled part
    rw [List.nil_append] at all
    refine (Listing.ensures_showsRaw again hideRawView all).bind_same ?_
    refine ensures_pure_iff.mpr ⟨ready₁, fun _ => ⟨answers, all, ?_⟩⟩
    dsimp only at sum ⊢
    rw [sum, groupTotal_eq]

end Groups

/-! ## Elements -/

theorem moves_simple (simple : l'.Simple) : Moves s s' l l' :=
  ⟨.simple simple, fun _ has => (simple.not_has has).elim⟩

theorem moves_page {id offset size : Nat} :
    Moves s s' (.page id offset size) (.page id offset size) :=
  ⟨.page, fun _ has => .inl has⟩

section Simple

variable (engine) (reach) (simple : l.Simple) (s)

include simple

/-- A listing that stands for itself has an answer once it was counted. -/
theorem Simple.ensures_countWith :
    Ensures (countWith engine reach l) s fun r _ =>
      r.2.Simple ∧ ∃ b, r.2.answer? = some (r.1, b) := by
  cases l with
  | fixed rows => exact ensures_pure_iff.mpr ⟨simple, true, rfl⟩
  | item l =>
    refine ensures_answering (ensures_target_iff.mpr
      ((l.ensures_settled engine.evaluator _).mono fun r t h => ?_))
    exact ⟨h.1.valid simple, _, congrArg (Option.map standingAnswer) h.2.1⟩
  | synthetic l =>
    refine ensures_answering ((SyntheticListing.ensures_settled engine reach simple s).mono
      fun r s' h => ?_)
    exact ⟨h.1, _, congrArg (Option.map standingAnswer) h.2.1⟩
  | unsupported row => exact ensures_pure_iff.mpr ⟨simple, true, rfl⟩
  | _ => exact simple.elim

theorem Simple.ensures_isSoundWith :
    Ensures (isSoundWith engine reach l) s fun r _ => r.2.Simple := by
  cases l with
  | fixed rows => exact ensures_pure_iff.mpr simple
  | item l =>
    exact ensures_answering (ensures_target_iff.mpr
      ((l.ensures_settled engine.evaluator _).mono fun r t h => h.1.valid simple))
  | synthetic l =>
    exact ensures_answering ((SyntheticListing.ensures_settled engine reach simple s).mono
      fun r s' h => h.1)
  | unsupported row => exact ensures_pure_iff.mpr simple
  | _ => exact simple.elim

theorem Simple.ensures_window (start count : Nat) :
    Ensures (rowsWith engine reach start count l) s fun r _ => r.2.Simple := by
  cases l with
  | fixed rows => exact ensures_pure_iff.mpr simple
  | item l =>
    exact ensures_answering (ensures_target_iff.mpr
      ((l.ensures_rows engine.evaluator start count _).mono fun r t h => h.1.valid simple))
  | synthetic l =>
    refine ensures_answering ?_
    unfold SyntheticListing.rows
    refine (SyntheticListing.ensures_settled engine reach simple s).bind fun r s' h => ?_
    obtain ⟨st, l'⟩ := r
    cases st with
    | failed row => exact ensures_pure_iff.mpr h.1
    | counted n => exact ensures_pure_iff.mpr h.1
  | unsupported row => exact ensures_pure_iff.mpr simple
  | _ => exact simple.elim

end Simple

section Elements

variable (keeps : reach.Keeps) (framed : reach.Framed)

theorem settled_ofError {c : Context ν} {rule : ExpandedItemRule} (guard : Guard)
    (e : ExpandError) :
    Settled s (.inlined c rule (some (.ofResult guard (.error e))) none)
      (Standing.ofResult guard (.error e) : Standing ν).count
      (Standing.ofResult guard (.error e) : Standing ν).isSound := by
  unfold Standing.ofResult
  dsimp only
  split
  · exact .absent
  · exact .failed

include keeps in
/-- Inlined children are settled when they are asked for the first time. -/
theorem ensures_settledInlined (c : Context ν) (rule : ExpandedItemRule) (sound : s.Sound) :
    Ensures (settledInlined engine reach c rule none none) s fun r s' =>
      ¬ (inlined c rule (some r.1) r.2).Partial s' →
        Settled s' (.inlined c rule (some r.1) r.2) r.1.count r.1.isSound := by
  unfold settledInlined Standing.settle
  refine Ensures.bind (P := fun _ s' => s'.listings = s.listings)
    (ensures_target_iff.mpr (ensures_lift_iff.mpr rfl)) fun applied s₁ same₁ => ?_
  have sound₁ := sound.of_listings_eq same₁
  rcases applied with e | _ | _
  · exact ensures_pure_iff.mpr fun _ => settled_ofError _ _
  · exact ensures_pure_iff.mpr fun _ => .absent
  · refine Ensures.bind (P := fun (r : Except ExpandError Nat × Option (Listing ν)) s' =>
      ¬ (inlined c rule (some (.ofResult rule.guard r.1)) r.2).Partial s' →
        Settled s' (.inlined c rule (some (.ofResult rule.guard r.1)) r.2)
          (Standing.ofResult rule.guard r.1 : Standing ν).count
          (Standing.ofResult rule.guard r.1 : Standing ν).isSound) ?_
      fun r s₂ h => ensures_pure_iff.mpr h
    -- a blank expression has no children; otherwise they are found and counted, and the count is
    -- the answer
    unfold countInlined
    split
    · exact ensures_pure_iff.mpr fun _ => .absent
    · refine ((Engine.yields_contextChildListing engine.begins_sane c rule.value sound₁).and
        (engine.stays_contextChildListing c rule.value s₁ sound₁ rfl)).bind fun result s₂ h => ?_
      obtain ⟨sane, sound₂, -, led⟩ := h
      cases result with
      | error e => exact ensures_pure_iff.mpr fun _ => settled_ofError _ _
      | ok l =>
        refine (keeps.settles s₂ l sound₂ (led l rfl) (sane l rfl)).bind fun r s₃ h =>
          ensures_pure_iff.mpr fun whole => ?_
        obtain ⟨b, settled⟩ := h fun part => whole (part.of_panes fun _ => .inlined)
        exact .inlined settled

include framed in
/-- They are shown through pages only that were kept for them. -/
theorem panes_settledInlined (c : Context ν) (rule : ExpandedItemRule) (sound : s.Sound) :
    Ensures (settledInlined engine reach c rule none none) s fun r _ =>
      ∀ st id, (inlined c rule st r.2).Has (.page id) → s.listings.size ≤ id := by
  have closed : s.Closed fun _ => False := fun _ h => h.elim
  refine (stays_untouched engine framed c rule s (closed.isOpen sound) rfl).mono
    fun r s' h st id has => ?_
  obtain ⟨first, inner⟩ := r
  obtain ⟨-, -, -, within⟩ := h
  cases has with
  | inlined has => exact (((within _ rfl).of_has has).resolve_left False.elim).1

variable (again : Again reach) (asks : reach.Asks)

include asks in
/-- A page that was counted is settled. -/
theorem ensures_remaining_settled (sound : s.Sound) {id : Nat} (inside : id < s.listings.size)
    (offset size : Nat) :
    Ensures (remaining reach id offset size) s fun r s' => ∃ n b,
      (s'.kept id).answer? = some (n, b) ∧ (s'.kept id).Covers offset size ∧ r = n - offset := by
  have valid := sound.valid id
  rw [remaining_eq]
  split
  case isFalse => exact ensures_overflow
  rename_i fits
  refine Ensures.bind (P := fun n s' => ∃ b, (s'.kept id).answer? = some (n, b) ∧
    (s'.kept id).Covers offset size) (ensures_withKept ?_) fun n s' h => ?_
  · refine (asks.count _ s (valid.raisedFor fits)).mono fun r s' h => ?_
    obtain ⟨same, onward, -, b, known⟩ := h
    rw [Session.kept_put same id r.2, if_pos ⟨rfl, inside⟩]
    exact ⟨b, known, fits, onward.raised _ _ (raisedFor_raisedFor _ _ _)⟩
  · obtain ⟨b, known, covers⟩ := h
    exact ensures_pure_iff.mpr ⟨n, b, known, covers, rfl⟩

include keeps framed again asks

/-- **Counting an element** settles it. -/
theorem Element.ensures_countWith (h : Element s l) (sound : s.Sound) (led : l.KnownIn s) :
    Ensures (countWith engine reach l) s fun r s' => ¬ r.2.Partial s' →
      Moves s s' l r.2 ∧ ∃ b, Settled s' r.2 r.1 b := by
  cases h with
  | simple simple =>
    refine (simple.ensures_countWith engine reach s).mono fun r s' h _ => ?_
    obtain ⟨b, known⟩ := h.2
    exact ⟨moves_simple h.1, b, .simple h.1 known⟩
  | page =>
    cases led with
    | page inside =>
      rw [countWith_page_eq]
      split
      case isFalse => exact ensures_overflow
      refine (ensures_remaining_settled asks sound inside _ _).bind fun n s' h =>
        ensures_pure_iff.mpr fun _ => ?_
      obtain ⟨n, b, known, covers, rfl⟩ := h
      exact ⟨moves_page, b, .page known covers⟩
  | @untouched c rule =>
    refine ((ensures_settledInlined keeps c rule sound).and
      (panes_settledInlined framed c rule sound)).bind fun r s' h =>
        ensures_pure_iff.mpr fun whole => ?_
    have settled := h.1 whole
    exact ⟨⟨.inlined settled, fun id has => .inr (h.2 _ id has)⟩, _, settled⟩
  | inlined settled =>
    refine (settled.ensures_again again asks).1.mono fun r s' h _ => ?_
    obtain ⟨rfl, rfl⟩ := h
    exact ⟨⟨.inlined settled, fun _ has => .inl has⟩, _, settled⟩

/-- Asking an element whether it is sound. -/
theorem Element.ensures_isSoundWith (h : Element s l) (sound : s.Sound) :
    Ensures (isSoundWith engine reach l) s fun r s' => ¬ r.2.Partial s' →
      Moves s s' l r.2 := by
  cases h with
  | simple simple =>
    exact (simple.ensures_isSoundWith engine reach s).mono fun r s' h _ => moves_simple h
  | page => exact (ensures_true _ s).bind fun b s' _ => ensures_pure_iff.mpr fun _ => moves_page
  | @untouched c rule =>
    refine ((ensures_settledInlined keeps c rule sound).and
      (panes_settledInlined framed c rule sound)).bind fun r s' h =>
        ensures_pure_iff.mpr fun whole => ?_
    exact ⟨.inlined (h.1 whole), fun id has => .inr (h.2 _ id has)⟩
  | inlined settled =>
    refine (settled.ensures_again again asks).2.mono fun r s' h _ => ?_
    obtain ⟨rfl, rfl⟩ := h
    exact ⟨.inlined settled, fun _ has => .inl has⟩

omit keeps framed again asks in
/-- A window of inlined children leaves them inlined, with a standing. -/
theorem ensures_rows_inlined (c : Context ν) (rule : ExpandedItemRule)
    (standing : Option (Standing ν)) (inner : Option (Listing ν)) (start count : Nat) :
    Ensures (rowsWith engine reach start count (.inlined c rule standing inner)) s fun r _ =>
      ∃ st inner, r.2 = .inlined c rule (some st) inner := by
  refine (ensures_true _ s).bind fun r s₁ _ => ?_
  obtain ⟨st, inner⟩ := r
  rcases st with n | row
  · cases inner with
    | none => exact ensures_pure_iff.mpr ⟨_, _, rfl⟩
    | some l =>
      exact (ensures_true _ s₁).bind fun r s₂ _ => ensures_pure_iff.mpr ⟨_, _, rfl⟩
  · exact ensures_pure_iff.mpr ⟨_, _, rfl⟩

omit keeps in
/-- A window of settled inlined children. -/
theorem ensures_rows_settledInlined (windows : Windows reach) {c : Context ν}
    {rule : ExpandedItemRule} {st : Standing ν} {inner : Option (Listing ν)} (sound : s.Sound)
    (led : (inlined c rule (some st) inner).KnownIn s)
    (settled : Settled s (.inlined c rule (some st) inner) n b) (start count : Nat) :
    Ensures (rowsWith engine reach start count (.inlined c rule (some st) inner)) s fun r s' =>
      ¬ r.2.Partial s' → Moves s s' (.inlined c rule (some st) inner) r.2 := by
  refine ((ensures_rows_inlined c rule (some st) inner start count).and
    (settled.ensures_rowsWith engine again windows framed asks sound led start count)).mono
      fun r s' h whole => ?_
  obtain ⟨⟨st', inner', same⟩, shown⟩ := h
  obtain ⟨settled', -, panes, -⟩ := shown whole
  rw [same] at settled' panes ⊢
  exact ⟨.inlined settled', fun id has => .inl (panes _ has)⟩

/-- A window of an element. -/
theorem Element.ensures_rowsWith (words : ∀ p, engine.options.get p < wordCount)
    (windows : Windows reach) (h : Element s l) (sound : s.Sound) (led : l.KnownIn s)
    (start count : Nat) :
    Ensures (rowsWith engine reach start count l) s fun r s' => ¬ r.2.Partial s' →
      Moves s s' l r.2 := by
  cases h with
  | simple simple =>
    exact (simple.ensures_window engine reach s start count).mono fun r s' h _ => moves_simple h
  | page =>
    exact (ensures_true _ s).bind fun rows s' _ => ensures_pure_iff.mpr fun _ => moves_page
  | @untouched c rule =>
    -- The children are inlined first, and the window is one of those that were inlined.
    have first : rowsWith engine reach start count (.inlined c rule none none) =
        settledInlined engine reach c rule none none >>= fun r =>
          rowsWith engine reach start count (.inlined c rule (some r.1) r.2) := rfl
    rw [first]
    refine ((ensures_settledInlined keeps c rule sound).and
      ((panes_settledInlined framed c rule sound).and
        (stays_untouched engine framed c rule s sound rfl))).bind fun r s₁ h => ?_
    obtain ⟨settled, panes, sound₁, frame₁, here, found⟩ := h
    have led₁ : (Listing.inlined c rule (some r.1) r.2).KnownIn s₁ :=
      .inlined (fun st h => Option.some.inj h ▸ here) found
    by_cases part : (Listing.inlined c rule (some r.1) r.2).Partial s₁
    · -- what shows only a part now does so after the window
      refine (stays_rowsWith engine framed asks words start count led₁ s₁ sound₁ rfl).mono
        fun r' s₂ h whole => ?_
      exact absurd (part.mono h.2.2.2 h.2.1) whole
    · refine (ensures_rows_settledInlined framed again asks windows sound₁ led₁ (settled part)
        start count).mono fun r' s₂ h whole => ?_
      obtain ⟨element, more⟩ := h whole
      refine ⟨element, fun id has => .inr ?_⟩
      rcases more id has with old | fresh
      · exact panes _ id old
      · exact Nat.le_trans frame₁.size fresh
  | inlined settled =>
    exact ensures_rows_settledInlined framed again asks windows sound led settled start count

end Elements

/-! ## Listings of other variables -/

section Others

variable (keeps : reach.Keeps) (framed : reach.Framed) {c : Context ν} {pointer : SmartPointer}
  {failure : Option (Variable ν)} {inner : Option (Listing ν)} {parent : Variable ν} {index : Nat}

include framed in
/-- The children of a child have the property of listings as they are made. -/
theorem yields_resolvedChild {P : Session σ ν → Listing ν → Prop} (begins : Engine.Begins engine P)
    (sound : s.Sound) (led : parent.KnownIn s) (found : ∀ l ∈ inner, P s l) :
    Ensures (resolvedChild engine reach parent index inner) s fun l s' => P s' l := by
  cases inner with
  | some l => exact ensures_pure_iff.mpr (found l rfl)
  | none =>
    refine Ensures.bind (engine.stays_child? framed led index s sound rfl) fun child s₁ h => ?_
    obtain ⟨sound₁, -, h⟩ := h
    cases child with
    | none => exact ensures_pure_iff.mpr (begins.fixed _ _)
    | some v => exact Engine.yields_childListing begins v s₁ sound₁ (h v rfl)

/-- What a listing that passes on the children of another shows only a part of,
it passes on. -/
theorem whole_pointee (whole : ¬ (pointee c pointer none (some l)).Partial s) :
    ¬ l.Partial s :=
  fun part => whole (part.of_panes fun _ => .pointee)

theorem whole_ofChild (whole : ¬ (ofChild parent index (some l)).Partial s) : ¬ l.Partial s :=
  fun part => whole (part.of_panes fun _ => .ofChild)

/-- What a smart pointer lists is known and sane. -/
theorem ensures_resolvedPointee (sound : s.Sound)
    (led : (pointee c pointer failure inner).KnownIn s)
    (found : failure = none → ∀ l ∈ inner, Fit s l) :
    Ensures (liftM (resolvedPointee engine c pointer failure inner) : Search σ ν _) s fun r s' =>
      s'.Sound ∧ ∀ l, r = .ok l → l.KnownIn s' ∧ failure = none ∧ Sane s' l := by
  cases led with
  | pointee owner failed known =>
    refine ((yields_resolvedPointee engine.begins_sane sound owner pointer
      fun h l here _ => found h l here).and
      (stays_resolvedPointee engine owner pointer failed known s sound rfl)).mono fun r s' h => ?_
    obtain ⟨sane, sound', -, -, led⟩ := h
    exact ⟨sound', fun l hl => ⟨(led l hl).1, sane l hl⟩⟩

include framed in
/-- What a child lists is known and sane. -/
theorem ensures_resolvedChild (sound : s.Sound) (led : (ofChild parent index inner).KnownIn s)
    (found : ∀ l ∈ inner, Fit s l) :
    Ensures (resolvedChild engine reach parent index inner) s fun l s' =>
      s'.Sound ∧ l.KnownIn s' ∧ Sane s' l := by
  cases led with
  | ofChild owner known =>
    refine ((yields_resolvedChild framed engine.begins_sane sound owner
      fun l here _ => found l here).and
      (stays_resolvedChild engine framed owner index known s sound rfl)).mono fun l s' h => ?_
    obtain ⟨sane, sound', -, led, -⟩ := h
    exact ⟨sound', led, sane⟩

include keeps

theorem ensures_count_pointee (sound : s.Sound)
    (led : (pointee c pointer failure inner).KnownIn s)
    (found : failure = none → ∀ l ∈ inner, Fit s l) :
    Ensures (countWith engine reach (.pointee c pointer failure inner)) s fun r s' =>
      ¬ r.2.Partial s' → Fit s' r.2 ∧ ∃ b, Settled s' r.2 r.1 b := by
  refine (ensures_resolvedPointee sound led found).bind fun r s₁ h => ?_
  obtain ⟨sound₁, h⟩ := h
  cases r with
  | error row => exact ensures_pure_iff.mpr fun _ => ⟨.pointee fun h => (nomatch h), _, .failure⟩
  | ok l =>
    obtain ⟨known, rfl, sane⟩ := h l rfl
    refine ((keeps.count s₁ l sound₁ known sane).and
      (keeps.settles s₁ l sound₁ known sane)).bind fun r s₂ h => ensures_pure_iff.mpr fun whole => ?_
    obtain ⟨b, settled⟩ := h.2 (whole_pointee whole)
    exact ⟨(h.1 (whole_pointee whole)).1.pointee_some, true, .pointee settled⟩

omit keeps in
theorem ensures_isSound_pointee (sound : s.Sound)
    (led : (pointee c pointer failure inner).KnownIn s)
    (found : failure = none → ∀ l ∈ inner, Fit s l) :
    Ensures (isSoundWith engine reach (.pointee c pointer failure inner)) s fun r s' =>
      ¬ r.2.Partial s' → Fit s' r.2 := by
  refine (ensures_resolvedPointee sound led found).bind fun r s₁ h => ?_
  cases r with
  | error row => exact ensures_pure_iff.mpr fun _ => .pointee fun h => nomatch h
  | ok l =>
    obtain ⟨-, rfl, sane⟩ := h.2 l rfl
    exact ensures_pure_iff.mpr fun whole => (sane (whole_pointee whole)).pointee_some

theorem ensures_rows_pointee (sound : s.Sound)
    (led : (pointee c pointer failure inner).KnownIn s)
    (found : failure = none → ∀ l ∈ inner, Fit s l) (start count : Nat) :
    Ensures (rowsWith engine reach start count (.pointee c pointer failure inner)) s fun r s' =>
      ¬ r.2.Partial s' → Fit s' r.2 := by
  refine (ensures_resolvedPointee sound led found).bind fun r s₁ h => ?_
  obtain ⟨sound₁, h⟩ := h
  cases r with
  | error row => exact ensures_pure_iff.mpr fun _ => .pointee fun h => nomatch h
  | ok l =>
    obtain ⟨known, rfl, sane⟩ := h l rfl
    exact (keeps.rows start count s₁ l sound₁ known sane).bind fun r s₂ h =>
      ensures_pure_iff.mpr fun whole => (h (whole_pointee whole)).1.pointee_some

include framed

theorem ensures_count_ofChild (sound : s.Sound) (led : (ofChild parent index inner).KnownIn s)
    (found : ∀ l ∈ inner, Fit s l) :
    Ensures (countWith engine reach (.ofChild parent index inner)) s fun r s' =>
      ¬ r.2.Partial s' → Fit s' r.2 ∧ ∃ b, Settled s' r.2 r.1 b := by
  refine (ensures_resolvedChild framed sound led found).bind fun l s₁ h => ?_
  obtain ⟨sound₁, known, sane⟩ := h
  refine ((keeps.count s₁ l sound₁ known sane).and
    (keeps.settles s₁ l sound₁ known sane)).bind fun r s₂ h => ensures_pure_iff.mpr fun whole => ?_
  obtain ⟨b, settled⟩ := h.2 (whole_ofChild whole)
  exact ⟨(h.1 (whole_ofChild whole)).1.ofChild_some, true, .ofChild settled⟩

theorem ensures_rows_ofChild (sound : s.Sound) (led : (ofChild parent index inner).KnownIn s)
    (found : ∀ l ∈ inner, Fit s l) (start count : Nat) :
    Ensures (rowsWith engine reach start count (.ofChild parent index inner)) s fun r s' =>
      ¬ r.2.Partial s' → Fit s' r.2 := by
  refine (ensures_resolvedChild framed sound led found).bind fun l s₁ h => ?_
  obtain ⟨sound₁, known, sane⟩ := h
  exact (keeps.rows start count s₁ l sound₁ known sane).bind fun r s₂ h =>
    ensures_pure_iff.mpr fun whole => (h (whole_ofChild whole)).1.ofChild_some

end Others

/-! ## Fit listings -/

theorem Members.ready {owner : Variable ν} {hideRawView : Bool} {limit : Nat}
    (all : Members s ls) (sound : s.Sound) (led : (group owner ls hideRawView limit).KnownIn s) :
    Ready s ls := by
  cases led with
  | group _ known => exact ⟨sound, known, fun _ => all⟩

theorem Ready.fit {owner : Variable ν} {hideRawView : Bool} {limit : Nat} (ready : Ready s ls)
    (whole : ¬ (group owner ls hideRawView limit).Partial s) :
    Fit s (.group owner ls hideRawView limit) :=
  .group (ready.sane fun part => whole part.group)

section Fit

variable (keeps : reach.Keeps) (framed : reach.Framed) (again : Again reach) (asks : reach.Asks)

include keeps framed again asks

/-- **Counting a fit listing** settles it. -/
theorem Fit.ensures_countWith (h : Fit s l) (sound : s.Sound) (led : l.KnownIn s) :
    Ensures (countWith engine reach l) s fun r s' => ¬ r.2.Partial s' →
      (Fit s' r.2 ∧ (Element s l → Moves s s' l r.2)) ∧ ∃ b, Settled s' r.2 r.1 b := by
  cases h with
  | element element =>
    refine (element.ensures_countWith keeps framed again asks sound led).mono fun r s' h whole => ?_
    obtain ⟨moves, settled⟩ := h whole
    exact ⟨⟨.element moves.element, fun _ => moves⟩, settled⟩
  | pointee found =>
    refine (ensures_count_pointee keeps sound led found).mono fun r s' h whole => ?_
    exact ⟨⟨(h whole).1, fun h => nomatch h⟩, (h whole).2⟩
  | group all =>
    refine ((all.ready sound led).ensures_groupCount keeps framed again _).bind fun r s' h =>
      ensures_pure_iff.mpr fun whole => ?_
    obtain ⟨answers, settled, total⟩ := h.2 fun part => whole part.group
    dsimp only
    rw [total]
    exact ⟨⟨h.1.fit whole, fun h => nomatch h⟩, _, settled.group _ _ _⟩
  | ofChild found =>
    refine (ensures_count_ofChild keeps framed sound led found).mono fun r s' h whole => ?_
    exact ⟨⟨(h whole).1, fun h => nomatch h⟩, (h whole).2⟩

/-- Asking a fit listing whether it is sound keeps it fit. -/
theorem Fit.ensures_isSoundWith (h : Fit s l) (sound : s.Sound) (led : l.KnownIn s) :
    Ensures (isSoundWith engine reach l) s fun r s' => ¬ r.2.Partial s' →
      Fit s' r.2 ∧ (Element s l → Moves s s' l r.2) := by
  cases h with
  | element element =>
    refine (element.ensures_isSoundWith keeps framed again asks sound).mono fun r s' h whole => ?_
    exact ⟨.element (h whole).element, fun _ => h whole⟩
  | pointee found =>
    refine (ensures_isSound_pointee sound led found).mono fun r s' h whole => ?_
    exact ⟨h whole, fun h => nomatch h⟩
  | group all =>
    have ready : Ready s ([] ++ _) := all.ready sound led
    refine (ready.ensures_allSound keeps framed).bind fun r s' h =>
      ensures_pure_iff.mpr fun whole => ?_
    exact ⟨Ready.fit h whole, fun h => nomatch h⟩
  | ofChild found =>
    exact ensures_pure_iff.mpr fun _ => ⟨.ofChild found, fun h => nomatch h⟩

/-- A window of a fit listing keeps it fit. -/
theorem Fit.ensures_rowsWith (words : ∀ p, engine.options.get p < wordCount)
    (windows : Windows reach) (h : Fit s l) (sound : s.Sound) (led : l.KnownIn s)
    (start count : Nat) :
    Ensures (rowsWith engine reach start count l) s fun r s' => ¬ r.2.Partial s' →
      Fit s' r.2 ∧ (Element s l → Moves s s' l r.2) := by
  cases h with
  | element element =>
    refine (element.ensures_rowsWith keeps framed again asks words windows sound led start
      count).mono fun r s' h whole => ?_
    exact ⟨.element (h whole).element, fun _ => h whole⟩
  | pointee found =>
    refine (ensures_rows_pointee keeps sound led found start count).mono fun r s' h whole => ?_
    exact ⟨h whole, fun h => nomatch h⟩
  | group all =>
    refine (Ready.ensures_groupRows keeps framed (all.ready sound led) _ _ start count).bind
      fun r s' ready => ensures_pure_iff.mpr fun whole => ?_
    exact ⟨ready.fit whole, fun h => nomatch h⟩
  | ofChild found =>
    refine (ensures_rows_ofChild keeps framed sound led found start count).mono
      fun r s' h whole => ?_
    exact ⟨h whole, fun h => nomatch h⟩

end Fit

/-- Once a listing shows only a part, it does so for good; so what is asked may
take it to be fit. -/
theorem Sane.ensures {ask : Search σ ν (α × Listing ν)} {P : α × Listing ν → Session σ ν → Prop}
    (sane : Sane s l)
    (stays : Stays .known s.listings.size ask fun Q r => l.Grows Q r.2) (sound : s.Sound)
    (fit : Fit s l → Ensures ask s fun r s' => ¬ r.2.Partial s' → P r s') :
    Ensures ask s fun r s' => ¬ r.2.Partial s' → P r s' := by
  by_cases part : l.Partial s
  · exact (stays s sound rfl).mono fun r s' h whole => absurd (part.mono h.2.2 h.2.1) whole
  · exact fit (sane part)

end Listing

/-- **Whatever can be asked of the engine** keeps listings fit, and what was
counted is settled. -/
theorem Engine.keeps_reach (engine : Engine σ ν) (words : ∀ p, engine.options.get p < wordCount)
    (bound : Nat) : (engine.reach bound).Keeps := by
  induction bound with
  | zero => exact ⟨fun _ _ _ _ _ => ensures_unfinished, fun _ _ _ _ _ => ensures_unfinished,
      fun _ _ _ _ _ _ _ => ensures_unfinished, fun _ _ _ _ _ => ensures_unfinished⟩
  | succ bound ih =>
    have framed := engine.framed_reach words bound
    have framed' := engine.framed_reach words (bound + 1)
    have again := again_reach engine words bound
    have asks := engine.asks_reach words bound
    have windows := windows_reach engine words bound
    have counted (s : Session σ ν) (l : Listing ν) (sound : s.Sound) (led : l.KnownIn s)
        (sane : Sane s l) := sane.ensures (framed'.count l led) sound fun fit =>
      fit.ensures_countWith ih framed again asks sound led
    exact {
      count := fun s l sound led sane =>
        (counted s l sound led sane).mono fun _ _ h whole => (h whole).1
      settles := fun s l sound led sane =>
        (counted s l sound led sane).mono fun _ _ h whole => (h whole).2
      rows := fun start count s l sound led sane =>
        sane.ensures ((framed'.rows l start count led).mono fun _ _ _ h => h.2) sound fun fit =>
          fit.ensures_rowsWith ih framed again asks words windows sound led start count
      isSound := fun s l sound led sane =>
        sane.ensures (framed'.isSound l led) sound fun fit =>
          fit.ensures_isSoundWith ih framed again asks sound led }

end WatchView
