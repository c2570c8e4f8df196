import WatchView.Proofs.Listing.Lasting
/-!
# Rows that were asked for are held

After a listing was asked for a window, its rows are held (`gathers_reach`), and
an element that was counted is answered. For a group the members are followed one
by one: what those in front hold is not touched by a turn of one behind them.
-/

namespace WatchView

open Bounded Relation Listing

variable {σ ν : Type}

/-- **What is asked within a bound is held**: the rows of a window, and the answer of an
element. -/
structure Engine.Gathers (engine : Engine σ ν) (bound : Nat) : Prop where
  rows : ∀ (s : Session σ ν) (l : Listing ν) (start count : Nat), s.Sound → l.KnownIn s →
    Parted s l → Ensures ((engine.reach bound).rows l start count) s fun r s' =>
      ∃ rows', Held engine.inspector s' s' bound r.2 start count r.1 rows'
  count : ∀ (s : Session σ ν) (l : Listing ν), s.Sound → l.KnownIn s → l.IsElement →
    Ensures ((engine.reach bound).count l) s fun r s' => ∃ b, Answered s' bound r.2 r.1 b

variable {engine : Engine σ ν} {s : Session σ ν} {l : Listing ν} {bound : Nat}

namespace Listing

variable (words : ∀ p, engine.options.get p < wordCount)

include words

/-! ## Pages -/

omit words in
/-- A page cannot be counted where nothing can be asked. -/
theorem ensures_remaining_nowhere {id offset size : Nat} {P : Nat → Session σ ν → Prop} :
    Ensures (remaining (Reach.nowhere : Reach σ ν) id offset size) s P := by
  rw [remaining_eq]
  split
  · exact ensures_bind_iff.mpr (ensures_withKept ensures_unfinished)
  · exact ensures_overflow

/-- A window of a list that a page has raised leaves its rows at hand. -/
theorem supplies_withKept (sound : s.Sound) {id offset size n : Nat} {b : Bool}
    (inside : id < s.listings.size) (known : (s.kept id).answer? = some (n, b))
    (covers : (s.kept id).Covers offset size) (start count : Nat) :
    Ensures (withKept id fun l => (engine.reach (bound + 1)).rows l start count) s fun rows s' =>
      ∃ b', (s'.kept id).answer? = some (n, b') ∧ (s'.kept id).Covers offset size ∧
        (s'.kept id).Supplies (bound - 1) start count rows := by
  refine ensures_withKept fun r s' ended => ?_
  have leaf : (s.kept id).IsLeaf := .inr (sound.valid id)
  obtain ⟨same, onward⟩ :=
    (engine.asks_reach words (bound + 1)).turn (.rows ended) (sound.valid id)
  obtain ⟨b', known', -⟩ := leaf.answer_rows words ended known
  have here := (leaf.ensures_supplies words (engine.reach bound) _ _ s _ _ ended).1
  rw [bound_reach] at here
  dsimp only
  rw [Session.kept_put same id r.2, if_pos ⟨rfl, inside⟩]
  exact ⟨b', known', ⟨covers.fits, onward.raised _ _ covers.raised⟩, here⟩

/-- **A page leaves its rows at hand** in the list that it shows. -/
theorem pageSupplies_pageRows (sound : s.Sound) {id : Nat} (inside : id < s.listings.size)
    (offset size start count : Nat) :
    Ensures (pageRows (engine.reach (bound + 1)) id offset size start count) s fun rows s' =>
      ∃ n b, (s'.kept id).answer? = some (n, b) ∧ (s'.kept id).Covers offset size ∧
        (s'.kept id).PageSupplies (bound - 1) id offset size start count (n - offset) rows := by
  have asks := engine.asks_reach words (bound + 1)
  rw [pageRows_eq]
  split
  case isFalse => exact ensures_overflow
  refine ((ensures_remaining_settled asks sound inside offset size).and
    (stays_remaining asks (R := .known) inside offset size s sound rfl)).bind fun left s₁ h => ?_
  obtain ⟨⟨n, b, known, covers, rfl⟩, sound₁, frame, -⟩ := h
  have inside₁ : id < s₁.listings.size := Nat.lt_of_lt_of_le inside frame.size
  unfold exactRows
  dsimp only
  split
  · rename_i past
    refine ensures_pure_iff.mpr ⟨n, b, known, covers, ?_⟩
    unfold PageSupplies
    rw [if_pos past]
  · rename_i before
    split
    · rename_i within
      refine (supplies_withKept words sound₁ inside₁ known covers _ _).bind fun shown s' h => ?_
      obtain ⟨b', known', covers', here⟩ := h
      refine ensures_pure_iff.mpr ⟨n, b', known', covers', ?_⟩
      unfold PageSupplies
      rw [if_neg before]
      refine ⟨shown, ?_, rfl⟩
      rwa [if_pos within]
    · rename_i outside
      refine ensures_pure_iff.mpr ⟨n, b, known, covers, ?_⟩
      unfold PageSupplies
      rw [if_neg before]
      refine ⟨[], ?_, rfl⟩
      rw [if_neg outside]

/-! ## Elements -/

/-- **An element that was counted is answered.** -/
theorem IsElement.ensures_answered (element : l.IsElement) (sound : s.Sound) (led : l.KnownIn s) :
    Ensures ((engine.reach bound).count l) s fun r s' => ∃ b, Answered s' bound r.2 r.1 b := by
  cases bound with
  | zero => exact ensures_unfinished
  | succ bound =>
    have simple (simple : l.Simple) : Ensures ((engine.reach (bound + 1)).count l) s fun r s' =>
        ∃ b, Answered s' (bound + 1) r.2 r.1 b :=
      (simple.ensures_countWith engine _ s).mono fun r s' h =>
        ⟨h.2.choose, .simple h.1 h.2.choose_spec⟩
    cases l with
    | page id offset size =>
      cases bound with
      | zero =>
        exact ensures_bind_iff.mpr ensures_remaining_nowhere
      | succ bound =>
        cases led with
        | page inside =>
          change Ensures (countWith engine (engine.reach (bound + 1)) (.page id offset size)) s _
          rw [countWith_page_eq]
          split
          case isFalse => exact ensures_overflow
          refine (ensures_remaining_settled (engine.asks_reach words (bound + 1)) sound inside
            offset size).bind fun left s₁ h => ensures_pure_iff.mpr ?_
          obtain ⟨n, b, known, covers, rfl⟩ := h
          exact ⟨b, .page known covers⟩
    | inlined c rule standing inner =>
      exact (ensures_true _ s).bind fun r s' _ => ensures_pure_iff.mpr ⟨_, .inlined⟩
    | _ => exact simple element

/-! ## Groups -/

omit words in
/-- **Members that were all looked at are answered.** -/
theorem Between.answers {answered : Listing ν → Nat → Bool → Prop}
    {held : Listing ν → Nat → Nat → List (Variable ν) → List (Variable ν) → Prop}
    {start stop offset last : Nat} {ls : List (Listing ν)} {rows rows' : List (Variable ν)}
    (h : Between answered held start stop offset ls rows rows' last) (reached : last < stop) :
    ∃ answers : List (Nat × Bool), List.Forall₂ (fun l a => answered l a.1 a.2) ls answers := by
  induction h with
  | nil => exact ⟨[], .nil⟩
  | past past => exact absurd reached (Nat.not_lt_of_le past)
  | @skipped _ n _ b _ _ _ _ _ counted _ _ ih =>
    obtain ⟨answers, all⟩ := ih reached
    exact ⟨(n, b) :: answers, .cons counted all⟩
  | @shown _ n _ b _ _ _ _ _ _ _ counted _ _ _ ih =>
    obtain ⟨answers, all⟩ := ih reached
    exact ⟨(n, b) :: answers, .cons counted all⟩

/-- What the members in front show stays, and what is left of the others. -/
structure Passing (s : Session σ ν) (front : List (Listing ν)) (s' : Session σ ν)
    (behind : List (Listing ν)) : Prop where
  spread : Spread s' (front ++ behind)
  same : ∀ m ∈ front, ∀ id, m.Has (.page id) → s'.kept id = s.kept id

/-- A turn of the member that is looked at. -/
theorem Spread.passing {s' : Session σ ν} {l' : Listing ν} {front behind : List (Listing ν)}
    (spread : Spread s (front ++ l :: behind))
    (turn : (engine.reach bound).Turn (s, l) (s', l')) : Passing s front s' (l' :: behind) := by
  have here : l ∈ front ++ l :: behind := List.mem_append_right _ List.mem_cons_self
  have parted := turn.parted words spread.sound (spread.led l here) (spread.all l here)
  obtain ⟨spread', -, same⟩ := spread.asked words turn parted
  exact ⟨spread', fun m member => same m (List.mem_append_left _ member)⟩

omit words in
theorem Passing.trans {s' s'' : Session σ ν} {front behind behind' : List (Listing ν)}
    (h : Passing s front s' behind) (h' : Passing s' front s'' behind') :
    Passing s front s'' behind' where
  spread := h'.spread
  same m member id has := (h'.same m member id has).trans (h.same m member id has)

/-- **The rows of members are held** after they were asked for, one after the
other; and what the members in front show is left alone. -/
theorem passing_rowsBetween (gathers : engine.Gathers bound) (start stop offset : Nat)
    (front ls : List (Listing ν)) (spread : Spread s (front ++ ls)) :
    Ensures (rowsBetween (engine.reach bound) start stop offset ls) s fun r s' =>
      Passing s front s' r.2.1 ∧ ∃ rows', Between (Answered s' bound)
        (Held engine.inspector s' s' bound) start stop offset r.2.1 r.1 rows' r.2.2 := by
  induction ls generalizing s front offset with
  | nil => exact ensures_pure_iff.mpr ⟨⟨spread, fun _ _ _ _ => rfl⟩, [], .nil⟩
  | cons l ls ih =>
    rw [rowsBetween_cons]
    split
    · rename_i past
      exact ensures_pure_iff.mpr ⟨⟨spread, fun _ _ _ _ => rfl⟩, [], .past past⟩
    · rename_i before
      -- the members behind one that was looked at, which do not touch what that one shows
      have behind {s₂ : Session σ ν} {l₂ : Listing ν} (passing : Passing s front s₂ (l₂ :: ls))
          (offset : Nat) : Ensures (rowsBetween (engine.reach bound) start stop offset ls) s₂
            fun r s₃ => Passing s front s₃ (l₂ :: r.2.1) ∧
              (∀ id, l₂.Has (.page id) → s₃.kept id = s₂.kept id) ∧
              ∃ rows', Between (Answered s₃ bound) (Held engine.inspector s₃ s₃ bound) start stop
                offset r.2.1 r.1 rows' r.2.2 := by
        have spread := passing.spread
        rw [List.append_cons] at spread
        refine (ih offset (front ++ [l₂]) spread).mono fun r s₃ h => ?_
        obtain ⟨⟨spread', same⟩, found⟩ := h
        rw [List.append_assoc] at spread'
        exact ⟨passing.trans ⟨spread', fun m member => same m (List.mem_append_left _ member)⟩,
          same l₂ (List.mem_append_right _ List.mem_cons_self), found⟩
      have here (m : Listing ν) : m ∈ front ++ m :: ls :=
        List.mem_append_right _ List.mem_cons_self
      refine Ensures.bind (P := fun r s₁ => Passing s front s₁ (r.2 :: ls) ∧
        ∃ b, Answered s₁ bound r.2 r.1 b) (fun r s₁ ended => ⟨spread.passing words (.count ended),
          gathers.count s l spread.sound (spread.led l (here l)) (spread.elements l (here l)) _ _
            ended⟩) fun r s₁ h => ?_
      obtain ⟨n, l₁⟩ := r
      obtain ⟨passing, b, counted⟩ := h
      have spread₁ := passing.spread
      dsimp only
      split
      · rename_i inside
        refine ensures_bind_iff.mpr fun r s₂ ended => ?_
        have turn : (engine.reach bound).Turn (s₁, l₁) (s₂, r.2) := .rows ended
        have led₁ := spread₁.led l₁ (here l₁)
        have parted₁ := spread₁.all l₁ (here l₁)
        obtain ⟨own, held⟩ := gathers.rows s₁ l₁ _ _ spread₁.sound led₁ parted₁ _ _ ended
        obtain ⟨b', counted'⟩ := (turn.upholds words spread₁.sound led₁ parted₁ (.refl s₁)
          engine.inspector bound).answer n b counted
        refine (behind (passing.trans (spread₁.passing words turn)) _).bind fun rs s₃ h =>
          ensures_pure_iff.mpr ?_
        obtain ⟨passing', same, rows', others⟩ := h
        exact ⟨passing', _,
          .shown before (counted'.congr same) inside (held.congr same) others⟩
      · rename_i away
        refine (behind passing _).bind fun rs s₃ h => ensures_pure_iff.mpr ?_
        obtain ⟨passing', same, rows', others⟩ := h
        exact ⟨passing', rows', .skipped before (counted.congr same) away others⟩

omit words in
/-- What members answer now, they say now. -/
theorem Said.of_answers {ls : List (Listing ν)} {answers : List (Nat × Bool)}
    (h : List.Forall₂ (fun l a => Answered s bound l a.1 a.2) ls answers) :
    List.Forall₂ (fun l a => Said s s bound l a.1 a.2) ls
      (answers.map fun a => (a.2, a.2)) := by
  rw [List.forall₂_map_right_iff]
  exact h.imp fun l a answered => ⟨⟨a.1, answered⟩, .inl rfl⟩

/-- **The rows of a group are held**, with the row of the raw value. -/
theorem held_groupRows (gathers : engine.Gathers bound) {members : List (Listing ν)}
    (spread : Spread s members) (owner : Variable ν) (hideRawView : Bool)
    (limit start count : Nat) :
    Ensures (groupRows engine (engine.reach bound) owner hideRawView members start count) s
      fun r s' => ∃ rows', Held engine.inspector s' s' (bound + 1)
        (.group owner r.2 hideRawView limit) start count r.1 rows' := by
  refine (passing_rowsBetween words gathers start _ 0 [] members spread).bind fun r s₁ h => ?_
  obtain ⟨-, rows', between⟩ := h
  dsimp only
  split
  · rename_i reached
    obtain ⟨from_, upto⟩ : start ≤ r.2.2 ∧ r.2.2 < windowEnd start count := by simpa using reached
    obtain ⟨answers, all⟩ := between.answers upto
    refine ensures_bind_iff.mpr (ensures_of_eq (showsRaw_again all engine hideRawView) ?_)
    have said := Said.of_answers all
    dsimp only
    split
    · rename_i shown
      refine ensures_bind_iff.mpr (ensures_of_eq (rawView_apply engine owner s₁) ?_)
      rw [Bool.not_eq_true'] at shown
      refine ensures_pure_iff.mpr ⟨_,
        .group between (.raw ⟨from_, upto⟩ said ?_ s₁.target s₁.target)⟩
      rw [List.all_map]
      exact shown
    · rename_i hidden
      rw [Bool.not_eq_true', Bool.not_eq_false] at hidden
      refine ensures_pure_iff.mpr ⟨rows', .group between (.hidden ⟨from_, upto⟩ said ?_)⟩
      rw [List.all_map]
      exact hidden
  · rename_i away
    refine ensures_pure_iff.mpr ⟨rows', .group between (.away ?_)⟩
    simpa using away

/-! ## All kinds -/

/-- **The rows of a window are held** after it was asked for, if this is so one level
further on. -/
theorem Parted.held_rowsWith (gathers : engine.Gathers bound) (sound : s.Sound) (led : l.KnownIn s)
    (parted : Parted s l) (start count : Nat) :
    Ensures (rowsWith engine (engine.reach bound) start count l) s fun r s' => ∃ rows',
      Held engine.inspector s' s' (bound + 1) r.2 start count r.1 rows' := by
  have framed := engine.framed_reach words bound
  -- the rows of a listing whose children are passed on
  have passed {s : Session σ ν} {l : Listing ν} (outer : Listing ν → Listing ν)
      (passes : ∀ l, PassesOn l l (outer l) (outer l)) (sound : s.Sound) (led : l.KnownIn s)
      (parted : Parted s l) :
      Ensures ((engine.reach bound).rows l start count) s fun r s' => ∃ rows',
        Held engine.inspector s' s' (bound + 1) (outer r.2) start count r.1 rows' := by
    refine (gathers.rows s l start count sound led parted).mono fun r s' h => ?_
    obtain ⟨rows', held⟩ := h
    exact ⟨rows', .passed (passes r.2) held⟩
  cases parted with
  | simple simple =>
    refine fun r s' ended => ⟨r.1, ?_⟩
    have turn : (engine.reach (bound + 1)).Turn (s, l) (s', r.2) := .rows ended
    have here := (IsLeaf.ensures_supplies words (.inl simple) (engine.reach bound) start count s
      _ _ ended).1
    rw [bound_reach] at here
    exact .own (.inl (turn.simple simple)) here
  | @page id offset size =>
    cases led with
    | page inside =>
      cases bound with
      | zero =>
        exact ensures_bind_iff.mpr (ensures_bind_iff.mpr ensures_remaining_nowhere)
      | succ bound =>
        refine (pageSupplies_pageRows words sound inside offset size start count).bind
          fun rows s' h => ensures_pure_iff.mpr ?_
        obtain ⟨n, b, known, covers, here⟩ := h
        exact ⟨rows, .page known covers here⟩
  | @inlined c rule standing inner untouched found =>
    cases led with
    | inlined settledLed foundLed =>
      have counts (s : Session σ ν) (l : Listing ν) (sound : s.Sound) (led : l.KnownIn s)
          (parted : Parted s l) :
          Ensures ((engine.reach bound).count l) s fun r s' => Parted s' r.2 :=
        fun _ _ ended => Reach.Turn.parted words (.count ended) sound led parted
      refine ((stays_settledInlined (R := .known) engine framed c rule settledLed foundLed s sound
        rfl).and (parted_settledInlined engine c rule sound untouched found counts)).bind
          fun r s₁ h => ?_
      obtain ⟨st, inner₁⟩ := r
      obtain ⟨⟨sound₁, -, -, led₁, -⟩, parted₁⟩ := h
      cases st with
      | failed row => exact ensures_pure_iff.mpr ⟨_, .failed⟩
      | counted n =>
        cases inner₁ with
        | none => exact ensures_pure_iff.mpr ⟨_, .absent⟩
        | some l =>
          exact (passed (fun l => .inlined c rule (some (.counted n)) (some l)) (fun _ => .inlined)
            sound₁ (led₁ _ rfl) (parted₁ _ rfl)).bind fun r s₂ h => ensures_pure_iff.mpr h
  | @pointee c pointer failure inner found =>
    cases led with
    | pointee owner failed foundLed =>
      refine ((stays_resolvedPointee (R := .known) engine owner pointer failed foundLed s sound
        rfl).and (yields_resolvedPointee engine.begins_parted sound owner pointer found)).bind
          fun r s₁ h => ?_
      obtain ⟨⟨sound₁, -, -, led₁⟩, yields⟩ := h
      cases r with
      | error row => exact ensures_pure_iff.mpr ⟨_, .failure⟩
      | ok l =>
        obtain ⟨rfl, parted₁⟩ := yields l rfl
        exact (passed (fun l => .pointee c pointer none (some l)) (fun _ => .pointee) sound₁
          (led₁ _ rfl).1 parted₁).bind fun r s₂ h => ensures_pure_iff.mpr h
  | @group owner members hideRawView limit elements all separate =>
    cases led with
    | group _ ledAll =>
      exact (held_groupRows words gathers ⟨sound, ledAll, elements, all, separate⟩ owner hideRawView
        limit start count).bind fun r s' h => ensures_pure_iff.mpr h
  | @registers n inner behind =>
    cases led with
    | registers ledBehind =>
      exact (passed (.registers n) (fun _ => .registers) sound ledBehind behind).bind
        fun r s' h => ensures_pure_iff.mpr h
  | @ofChild parent index inner found =>
    cases led with
    | ofChild owner foundLed =>
      refine ((stays_resolvedChild (R := .known) engine framed owner index foundLed s sound rfl).and
        (yields_resolvedChild framed engine.begins_parted sound owner found)).bind fun l s₁ h => ?_
      obtain ⟨⟨sound₁, -, led₁, -⟩, parted₁⟩ := h
      exact (passed (fun l => .ofChild parent index (some l)) (fun _ => .ofChild) sound₁ led₁
        parted₁).bind fun r s₂ h => ensures_pure_iff.mpr h

end Listing

/-- **The rows of a window are held** after it was asked for, within any bound. -/
theorem Engine.gathers_reach (engine : Engine σ ν)
    (words : ∀ p, engine.options.get p < wordCount) (bound : Nat) : engine.Gathers bound := by
  induction bound with
  | zero => exact ⟨fun _ _ _ _ _ _ _ => ensures_unfinished, fun _ _ _ _ _ => ensures_unfinished⟩
  | succ bound ih =>
    exact ⟨fun _ _ start count sound led parted =>
        parted.held_rowsWith words ih sound led start count,
      fun _ _ sound led element => element.ensures_answered words sound led⟩

end WatchView
