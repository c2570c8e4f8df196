import WatchView.Proofs.Listing.Settled
/-!
# Windows of settled listings

A window of a settled listing has the rows of its answer, and the listing stays
settled (`windows_reach`). Two kinds of listings are left out (`Partial`):
those that show registers, which count their elements, not their rows, and
those with a page of a custom list that failed before it had the rows it
declares.
-/

namespace WatchView

open Bounded

variable {σ ν : Type}

/-- The pages of the listings that are kept. -/
def Region.known : Region where
  base := 0
  pages n id := id < n
  mono le inside := Nat.lt_of_lt_of_le inside le
  fresh _ := Nat.lt_succ_self _
  old before _ := before

/-- **A session as the work of the engine leaves it**: what is kept is
well-formed, and leads to kept listings only. -/
abbrev Session.Sound (s : Session σ ν) : Prop := s.Open .known

/-- A listing that leads to kept listings only. -/
abbrev Listing.KnownIn (s : Session σ ν) (l : Listing ν) : Prop := l.Within (· < s.listings.size)

namespace Listing

variable {s s' : Session σ ν} {l l' : Listing ν} {ls ls' : List (Listing ν)} {n : Nat} {b : Bool}

/-! ## Listings that show only a part -/

/-- A listing with children that are shown through registers, or through a page
of a list that is short of rows. -/
def Partial (s : Session σ ν) (l : Listing ν) : Prop :=
  l.Has .registers ∨ ∃ id, l.Has (.page id) ∧ (s.kept id).IsShort

theorem Partial.of_panes (h : l.Partial s) (panes : ∀ pane, l.Has pane → l'.Has pane) :
    l'.Partial s := by
  rcases h with has | ⟨id, has, short⟩
  · exact .inl (panes _ has)
  · exact .inr ⟨id, panes _ has, short⟩

theorem Partial.frame {R : Region} (h : l.Partial s) (frame : s.Frame R s') : l.Partial s' := by
  rcases h with has | ⟨id, has, short⟩
  · exact .inl has
  · exact .inr ⟨id, has, frame.short id short⟩

/-- Once a listing shows only a part, it does so for good. -/
theorem Partial.mono {Q : Nat → Prop} {R : Region} (h : l.Partial s) (grown : l.Grows Q l')
    (frame : s.Frame R s') : l'.Partial s' :=
  (h.frame frame).of_panes grown.panes

/-- Some member of a group shows only a part. -/
def AnyPartial (s : Session σ ν) (ls : List (Listing ν)) : Prop := ∃ l ∈ ls, l.Partial s

theorem AnyPartial.mono {Q : Nat → Prop} {R : Region} (h : AnyPartial s ls)
    (grown : GrowAll ls Q ls') (frame : s.Frame R s') : AnyPartial s' ls' := by
  obtain ⟨l, member, has | ⟨id, has, short⟩⟩ := h
  · obtain ⟨l', member', has'⟩ := grown.panes _ ⟨l, member, has⟩
    exact ⟨l', member', .inl has'⟩
  · obtain ⟨l', member', has'⟩ := grown.panes _ ⟨l, member, has⟩
    exact ⟨l', member', .inr ⟨id, has', frame.short id short⟩⟩

theorem AnyPartial.group {owner : Variable ν} {hideRawView : Bool} {limit : Nat}
    (h : AnyPartial s ls) : (group owner ls hideRawView limit).Partial s := by
  obtain ⟨l, member, part⟩ := h
  exact part.of_panes fun _ has => .group member has

/-! ## Windows -/

/-- What a window of a settled listing shows, and what it leaves. -/
structure Shown (s s' : Session σ ν) (l l' : Listing ν) (n : Nat) (b : Bool) (many : Nat)
    (rows : List (Variable ν)) : Prop where
  settled : Settled s' l' n b
  stands : ∀ id, (s.kept id).StandsBy (s'.kept id)
  panes : ∀ pane, l'.Has pane → l.Has pane
  length : rows.length = many

/-- **A window of a settled listing has the rows of its answer**, unless the
listing shows only a part. -/
def Windows (reach : Reach σ ν) : Prop :=
  ∀ (s : Session σ ν) (l : Listing ν) (n : Nat) (b : Bool) (start count : Nat),
    s.Sound → l.KnownIn s → Settled s l n b →
    Ensures (reach.rows l start count) s fun r s' => ¬ r.2.Partial s' →
      Shown s s' l r.2 n b (min (windowEnd start count) n - start) r.1

theorem stands_of_eq (same : s'.listings = s.listings) (id : Nat) :
    (s.kept id).StandsBy (s'.kept id) := by
  rw [Session.kept_congr same]
  exact .refl _

/-! ## Listings that stand for themselves -/

variable (engine : Engine σ ν) (reach : Reach σ ν)

theorem Simple.ensures_rowsWith (simple : l.Simple) (known : l.answer? = some (n, b))
    (start count : Nat) :
    Ensures (rowsWith engine reach start count l) s fun r s' =>
      Shown s s' l r.2 n b (min (windowEnd start count) n - start) r.1 := by
  -- each of these was counted before, and counts one row or the rows it has
  cases l with
  | fixed rows =>
    cases known
    exact ensures_pure_iff.mpr
      ⟨.simple simple rfl, fun _ => .refl _, fun _ has => has, length_clip _ _ _⟩
  | item l =>
    obtain ⟨st, here, answered⟩ := Option.map_eq_some_iff.mp known
    cases answered
    refine ensures_answering (ensures_target_iff.mpr
      ((l.ensures_rows engine.evaluator start count _).mono fun r t h => ?_))
    obtain ⟨onward, -, same⟩ := h
    obtain ⟨kept, many⟩ := same st simple here
    refine ⟨.simple (onward.valid simple) ?_, stands_of_eq rfl, fun _ has => (nomatch has), many⟩
    exact congrArg (Option.map standingAnswer) kept
  | synthetic l =>
    obtain ⟨st, here, answered⟩ := Option.map_eq_some_iff.mp known
    cases answered
    refine ensures_answering ?_
    unfold SyntheticListing.rows
    refine (ensures_of_eq (settled_synthetic engine reach s here) ⟨rfl, rfl⟩).bind_same ?_
    have settled : Settled s (synthetic l) st.count st.isSound := .simple simple known
    cases st with
    | failed row =>
      exact ensures_pure_iff.mpr
        ⟨settled, fun _ => .refl _, fun _ has => has, length_clip _ _ _⟩
    | counted n =>
      refine ensures_pure_iff.mpr
        ⟨settled, fun _ => .refl _, fun _ has => has, (length_clip _ _ _).trans ?_⟩
      rw [SyntheticListing.Valid.counted simple n here]
      rfl
  | unsupported row =>
    cases known
    exact ensures_pure_iff.mpr
      ⟨.simple simple rfl, fun _ => .refl _, fun _ has => has, length_clip _ _ _⟩
  | _ => exact simple.elim

/-! ## Pages -/

theorem Valid.answer_lt (valid : l.Valid) (known : l.answer? = some (n, b)) : n < wordCount := by
  have counts {st : Standing ν} (h : ∀ m, st = .counted m → m < wordCount) :
      st.count < wordCount := by
    cases st with
    | counted m => exact h m rfl
    | failed row => exact (by decide : 1 < wordCount)
  cases l with
  | fixed rows =>
    cases known
    rw [show rows = [] from valid]
    exact (by decide : 0 < wordCount)
  | indexList l =>
    obtain ⟨st, here, answered⟩ := Option.map_eq_some_iff.mp known
    cases answered
    exact counts fun m hm => valid m (hm ▸ here)
  | array l =>
    obtain ⟨st, here, answered⟩ := Option.map_eq_some_iff.mp known
    cases answered
    exact counts fun m hm => (valid m (hm ▸ here)).1
  | nodes l =>
    obtain ⟨-, st, here, answered⟩ := answer?_nodes_iff.mp known
    cases answered
    exact counts fun m hm => NodeListing.Valid.counted valid m (hm ▸ here)
  | custom l =>
    obtain ⟨current, answered⟩ := answer?_custom_iff.mp known
    cases answered
    have valid : l.Valid := valid
    refine counts fun m hm => ?_
    rcases valid.counted current m hm with rfl | declared | ⟨-, few⟩
    · exact (by decide : 0 < wordCount)
    · exact (valid.size m declared).1
    · exact Nat.lt_of_le_of_lt few valid.shown
  | _ => exact valid.elim

/-- The window of the shared listing that a window of a page asks for has as
many rows as are asked. -/
theorem length_ofPage {offset start stop : Nat} (inside : start < stop) (known : offset + stop ≤ n)
    (small : n < wordCount) :
    min (windowEnd (offset + start) (stop - start)) n - (offset + start) = stop - start := by
  unfold windowEnd
  omega

/-- A window of a page: the rows of its own, and the row that leads on. -/
theorem length_page {size remaining start stop : Nat} (inside : start < stop)
    (le : stop ≤ pageLength size remaining) :
    (min stop (min remaining size) - start) + (if min remaining size < stop then 1 else 0) =
      stop - start := by
  unfold pageLength at le
  split at le
  · split
    · omega
    · omega
  · rw [if_neg (by omega)]
    omega

theorem length_append_if (rows : List (Variable ν)) (row : Variable ν) (more : Prop)
    [Decidable more] :
    (if more then rows ++ [row] else rows).length = rows.length + if more then 1 else 0 := by
  split
  · exact List.length_append
  · rfl

variable {reach}

/-- **A window of a page** has the rows of its count, and all kept listings stand
by their answers, unless the one it shows is short of rows. -/
theorem ensures_pageRows (asks : reach.Asks) (sound : s.Sound) {id offset size : Nat}
    (known : (s.kept id).answer? = some (n, b))
    (covers : (s.kept id).Covers offset size) (start count : Nat) :
    Ensures (pageRows reach id offset size start count) s fun rows s' =>
      ¬ (s'.kept id).IsShort → (∀ id, (s.kept id).StandsBy (s'.kept id)) ∧
        rows.length = min (windowEnd start count) (pageLength size (n - offset)) - start := by
  have small : n < wordCount := (sound.valid id).answer_lt known
  rw [pageRows_eq, if_pos covers.fits]
  refine (ensures_remaining asks known covers).bind_same ?_
  unfold exactRows
  dsimp only
  -- the window ends where the page does, and its last row may be the one that leads on
  generalize hstop : min (windowEnd start count) (pageLength size (n - offset)) = stop
  have le : stop ≤ pageLength size (n - offset) := hstop ▸ Nat.min_le_right _ _
  split
  · rename_i empty
    exact ensures_pure_iff.mpr fun _ => ⟨fun _ => .refl _, (Nat.sub_eq_zero_of_le empty).symm⟩
  · rename_i inside
    have inside : start < stop := Nat.lt_of_not_le inside
    split
    · rename_i own
      have own' : start < min stop (min (n - offset) size) := Nat.lt_min.mpr ⟨inside, own⟩
      refine Ensures.bind (P := fun rows s' => ¬ (s'.kept id).IsShort →
        (∀ id, (s.kept id).StandsBy (s'.kept id)) ∧
          rows.length = min stop (min (n - offset) size) - start)
        (ensures_withKept ?_) fun rows s' h => ensures_pure_iff.mpr fun whole => ?_
      · refine (asks.rows _ s _ _ (sound.valid id)).mono fun r s' h => ?_
        obtain ⟨same, -, -, shown⟩ := h
        have inside' : id < s.listings.size := by
          by_contra outside
          rw [Session.kept_of_le (Nat.le_of_not_lt outside)] at known
          have zero : 0 = n := congrArg Prod.fst (Option.some.inj known)
          omega
        have kept := Session.kept_put same id r.2
        intro whole
        rw [kept, if_pos ⟨rfl, inside'⟩] at whole
        obtain ⟨stands, many⟩ := shown n b known whole
        refine ⟨fun other => ?_, many.trans ?_⟩
        · rw [kept]
          split
          · rename_i h
            obtain rfl := h.1
            exact stands
          · exact .refl _
        · exact length_ofPage own' (by omega) small
      · obtain ⟨stands, many⟩ := h whole
        refine ⟨stands, ?_⟩
        rw [length_append_if, many]
        exact length_page inside le
    · rename_i own
      refine ensures_pure_iff.mpr fun _ => ⟨fun _ => .refl _, ?_⟩
      rw [length_append_if, ← length_page inside le]
      have none : min stop (min (n - offset) size) - start = 0 := by omega
      rw [none]
      rfl

/-! ## Groups -/

section Groups

variable (again : Again reach) (windows : Windows reach) (framed : reach.Framed)
  {answers : List (Nat × Bool)}

include again windows framed

/-- **The rows of members between two positions**, and how far the members that
were looked at reach. -/
theorem ensures_rowsBetween (start : Nat) {stop : Nat} (small : stop < wordCount) (offset : Nat)
    (sound : s.Sound) (led : ∀ l ∈ ls, l.KnownIn s) (settled : SettledAll s ls answers) :
    Ensures (rowsBetween reach start stop offset ls) s fun r s' => ¬ AnyPartial s' r.2.1 →
      SettledAll s' r.2.1 answers ∧ (∀ id, (s.kept id).StandsBy (s'.kept id)) ∧
        (∀ pane, AnyHas pane r.2.1 → AnyHas pane ls) ∧
        r.1.length = min stop (offset + (answers.map Prod.fst).sum) - max start offset ∧
        (r.2.2 = offset + (answers.map Prod.fst).sum ∨
          stop ≤ r.2.2 ∧ r.2.2 ≤ offset + (answers.map Prod.fst).sum) := by
  induction ls generalizing offset s answers with
  | nil =>
    cases settled
    refine ensures_pure_iff.mpr fun _ => ⟨.nil, fun _ => .refl _, fun _ has => has, ?_, .inl rfl⟩
    simp only [List.map_nil, List.sum_nil, List.length_nil]
    omega
  | cons l ls ih =>
    obtain ⟨a, answers, here, rest, rfl⟩ := List.forall₂_cons_left_iff.mp settled
    rw [rowsBetween_cons, List.map_cons, List.sum_cons]
    generalize htotal : (answers.map Prod.fst).sum = total
    split
    · rename_i past
      refine ensures_pure_iff.mpr fun _ =>
        ⟨.cons here rest, fun _ => .refl _, fun _ has => has, ?_, .inr ?_⟩
      · simp only [List.length_nil]
        omega
      · dsimp only
        omega
    · rename_i within
      obtain ⟨ledHere, ledRest⟩ := List.forall_mem_cons.mp led
      refine (again _ _ _ _ here).1.bind_same ?_
      dsimp only
      -- the rest of the members, after the window of the first
      have window (r : List (Variable ν) × Listing ν) (s₂ : Session σ ν) (sound₂ : s₂.Sound)
          (more : s.listings.size ≤ s₂.listings.size)
          (many : ¬ r.2.Partial s₂ → Shown s s₂ l r.2 a.1 a.2
            (min stop (offset + a.1) - max start offset) r.1) :
          Ensures (rowsBehind reach start stop (offset + a.1) ls r) s₂ fun r s' =>
            ¬ AnyPartial s' r.2.1 →
              SettledAll s' r.2.1 (a :: answers) ∧ (∀ id, (s.kept id).StandsBy (s'.kept id)) ∧
                (∀ pane, AnyHas pane r.2.1 → AnyHas pane (l :: ls)) ∧
                r.1.length = min stop (offset + (a.1 + total)) - max start offset ∧
                (r.2.2 = offset + (a.1 + total) ∨
                  stop ≤ r.2.2 ∧ r.2.2 ≤ offset + (a.1 + total)) := by
        have ledRest : ∀ l ∈ ls, l.KnownIn s₂ := fun l member =>
          (ledRest l member).mono fun id inside => Nat.lt_of_lt_of_le inside more
        by_cases part : r.2.Partial s₂
        · -- then so do the members, however the others come out
          refine (stays_rowsBetween framed start stop _ ledRest s₂ sound₂ rfl).bind fun rs s' h =>
            ensures_pure_iff.mpr fun whole => ?_
          exact absurd ⟨r.2, List.mem_cons_self, part.frame h.2.1⟩ whole
        · obtain ⟨settled, stands, panes, many⟩ := many part
          refine (ih _ sound₂ ledRest (SettledAll.congr rest stands)).bind fun rs s' h =>
            ensures_pure_iff.mpr fun whole => ?_
          obtain ⟨more, ls', last⟩ := rs
          rw [htotal] at h
          obtain ⟨rest', stands', panes', many', reached⟩ := h fun ⟨l, member, part⟩ =>
            whole ⟨l, List.mem_cons_of_mem _ member, part⟩
          refine ⟨.cons (settled.congr fun id _ => stands' id) rest',
            fun id => (stands id).trans (stands' id), fun pane => ?_, ?_, ?_⟩
          · rw [anyHas_cons_iff, anyHas_cons_iff]
            exact Or.imp (panes pane) (panes' pane)
          · rw [List.length_append, many, many']
            omega
          · dsimp only at reached ⊢
            omega
      split
      · rename_i shown
        refine ((windows _ _ _ _ _ _ sound ledHere here).and
          (framed.rows l _ _ ledHere s sound rfl)).bind fun r s₂ h => ?_
        refine window r s₂ h.2.1 h.2.2.1.size fun whole => ?_
        obtain ⟨settled, stands, panes, many⟩ := h.1 whole
        refine ⟨settled, stands, panes, many.trans ?_⟩
        unfold windowEnd
        omega
      · refine window ([], l) s sound (Nat.le_refl _) fun _ =>
          ⟨here, fun _ => .refl _, fun _ has => has, ?_⟩
        simp only [List.length_nil]
        omega

/-- **A window of a group** has the rows of its count. -/
theorem ensures_groupRows (owner : Variable ν) (hideRawView : Bool) (start count : Nat)
    (sound : s.Sound) (led : ∀ l ∈ ls, l.KnownIn s) (settled : SettledAll s ls answers) :
    Ensures (groupRows engine reach owner hideRawView ls start count) s fun r s' =>
      ¬ AnyPartial s' r.2 →
        SettledAll s' r.2 answers ∧ (∀ id, (s.kept id).StandsBy (s'.kept id)) ∧
          (∀ pane, AnyHas pane r.2 → AnyHas pane ls) ∧
          r.1.length = min (windowEnd start count) (groupTotal hideRawView answers) - start := by
  have small := windowEnd_lt start count
  unfold groupRows groupTotal
  refine ((ensures_rowsBetween again windows framed start small 0 sound led settled).and
    (stays_rowsBetween framed start _ 0 led s sound rfl)).bind fun r s₁ h => ?_
  obtain ⟨shown, sound₁, -, -, grown⟩ := h
  obtain ⟨rows, members, last⟩ := r
  dsimp only at shown grown ⊢
  split
  · rename_i beyond
    have beyond : start ≤ last ∧ last < windowEnd start count := by simpa using beyond
    -- a group that is short of rows promises nothing; otherwise the raw value is behind the rows,
    -- if it is shown
    by_cases part : AnyPartial s₁ members
    · refine (stays_showsRaw framed hideRawView grown.within s₁ sound₁ rfl).bind fun r s₂ h => ?_
      have part' := part.mono h.2.2 h.2.1
      split
      · refine ((engine.light_rawView owner).quiet.ensures s₂).bind fun row s' same =>
          ensures_pure_iff.mpr fun whole => ?_
        exact absurd (part'.mono (.refl h.2.2.within) (.of_listings_eq (R := .known) same)) whole
      · exact ensures_pure_iff.mpr fun whole => absurd part' whole
    · obtain ⟨settled, stands, panes, many, reached⟩ := shown part
      refine (ensures_showsRaw again hideRawView settled).bind_same ?_
      dsimp only
      cases hidden : hideRawView && answers.all Prod.snd with
      | true =>
        refine ensures_pure_iff.mpr fun _ => ⟨settled, stands, panes, many.trans ?_⟩
        simp only [if_true]
        omega
      | false =>
        refine ((engine.light_rawView owner).quiet.ensures s₁).bind fun row s' same =>
          ensures_pure_iff.mpr fun _ => ?_
        have stands' := stands_of_eq same
        refine ⟨settled.congr stands', fun id => (stands id).trans (stands' id), panes, ?_⟩
        rw [List.length_append, many]
        simp only [List.length_singleton, Bool.false_eq_true, if_false]
        omega
  · rename_i covered
    have covered : ¬ (start ≤ last ∧ last < windowEnd start count) := by simpa using covered
    refine ensures_pure_iff.mpr fun whole => ?_
    obtain ⟨settled, stands, panes, many, reached⟩ := shown whole
    refine ⟨settled, stands, panes, many.trans ?_⟩
    split
    · omega
    · omega

omit again framed in
/-- A listing that passes on the children of another shows its windows. -/
theorem ensures_passedOn (wrap : Listing ν → Listing ν) (sound : s.Sound)
    (led : l.KnownIn s) (found : Settled s l n b)
    (panes : ∀ l pane, l.Has pane ↔ (wrap l).Has pane)
    (settles : ∀ (s : Session σ ν) l, Settled s l n b → Settled s (wrap l) n true)
    (start count : Nat) :
    Ensures (do
      let (rows, l) ← reach.rows l start count
      return (rows, wrap l)) s fun r s' => ¬ r.2.Partial s' →
        Shown s s' (wrap l) r.2 n true (min (windowEnd start count) n - start) r.1 := by
  refine (windows s l n b start count sound led found).bind fun r s' h =>
    ensures_pure_iff.mpr fun whole => ?_
  obtain ⟨settled, stands, same, many⟩ :=
    h fun part => whole (part.of_panes fun pane => (panes r.2 pane).mp)
  refine ⟨settles s' r.2 settled, stands, fun pane has => ?_, many⟩
  exact (panes l pane).mp (same pane ((panes r.2 pane).mpr has))

/-- **A window of a settled listing has the rows of its answer.** -/
theorem Settled.ensures_rowsWith (asks : reach.Asks) (sound : s.Sound)
    (led : l.KnownIn s) (h : Settled s l n b) (start count : Nat) :
    Ensures (rowsWith engine reach start count l) s fun r s' => ¬ r.2.Partial s' →
      Shown s s' l r.2 n b (min (windowEnd start count) n - start) r.1 := by
  -- a listing that passes on the children of another has the rows that one has
  cases h with
  | simple simple known =>
    exact (simple.ensures_rowsWith engine reach known start count).mono fun _ _ h _ => h
  | @page id offset size n b known covers =>
    refine (ensures_pageRows asks sound known covers start count).bind fun rows s' h =>
      ensures_pure_iff.mpr fun whole => ?_
    obtain ⟨stands, many⟩ := h fun short => whole (.inr ⟨id, .page rfl, short⟩)
    have settled : Settled s (.page id offset size) _ b := .page known covers
    exact ⟨settled.congr fun id _ => stands id, stands, fun _ has => has, many⟩
  | failed =>
    exact ensures_pure_iff.mpr fun _ =>
      ⟨.failed, fun _ => .refl _, fun _ has => has, length_clip _ _ _⟩
  | absent =>
    refine ensures_pure_iff.mpr fun _ => ⟨.absent, fun _ => .refl _, fun _ has => has, ?_⟩
    rw [Nat.min_zero, Nat.zero_sub]
    rfl
  | @inlined c rule l n b found =>
    cases led with
    | inlined _ inner =>
      exact ensures_passedOn windows (fun l => .inlined c rule (some (.counted n)) (some l)) sound
        (inner l rfl) found (fun _ _ => has_inlined_iff.symm) (fun _ _ => .inlined) start count
  | failure =>
    exact ensures_pure_iff.mpr fun _ =>
      ⟨.failure, fun _ => .refl _, fun _ has => has, length_clip _ _ _⟩
  | @pointee c pointer l n b found =>
    cases led with
    | pointee _ _ inner =>
      exact ensures_passedOn windows (fun l => .pointee c pointer none (some l)) sound
        (inner l rfl) found (fun _ _ => has_pointee_iff.symm) (fun _ _ => .pointee) start count
  | @group owner members hideRawView limit answers length all =>
    cases led with
    | group _ inner =>
      have settled : SettledAll s members answers := List.forall₂_iff_get.mpr ⟨length, all⟩
      refine (ensures_groupRows engine again windows framed owner hideRawView start count sound
        inner settled).bind fun r s' h => ensures_pure_iff.mpr fun whole => ?_
      obtain ⟨settled, stands, panes, many⟩ := h fun part => whole part.group
      refine ⟨settled.group owner hideRawView limit, stands, fun pane has => ?_, many⟩
      exact has_group_iff.mpr (panes pane (has_group_iff.mp has))
  | @ofChild parent index l n b found =>
    cases led with
    | ofChild _ inner =>
      exact ensures_passedOn windows (fun l => .ofChild parent index (some l)) sound
        (inner l rfl) found (fun _ _ => has_ofChild_iff.symm) (fun _ _ => .ofChild) start count

end Groups

theorem windows_reach (words : ∀ p, engine.options.get p < wordCount) (bound : Nat) :
    Windows (engine.reach bound) := by
  induction bound with
  | zero => exact fun _ _ _ _ _ _ _ _ _ => ensures_unfinished
  | succ bound ih =>
    have asks := engine.asks_reach words bound
    have framed := engine.framed_reach words bound
    exact fun _ _ _ _ start count sound led settled =>
      settled.ensures_rowsWith engine (again_reach engine words bound) ih framed asks sound led
        start count

end Listing

end WatchView
