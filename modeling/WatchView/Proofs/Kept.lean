import WatchView.Listing.Page
import WatchView.Proofs.Listing.Shared
/-!
# Work on the kept listings

Pages share listings that are kept in the session. Work reaches a kept listing
only through a variable or a listing that leads to it. So work that begins
among some pages stays among them and those that are kept on the way (`Stays`):
all others are left as they were. What is kept stays well-formed, and once a
custom list is short of rows it stays so.
-/

namespace WatchView

open Bounded

variable {σ ν α β : Type}

/-! ## What is kept -/

/-- The listing kept under an identifier; an empty one if none is. -/
def Session.kept (s : Session σ ν) (id : Nat) : Listing ν := s.listings[id]?.getD .empty

namespace Session

theorem kept_congr {s s' : Session σ ν} (h : s'.listings = s.listings) : s'.kept = s.kept := by
  funext id
  unfold kept
  rw [h]

theorem kept_of_le {s : Session σ ν} {id : Nat} (h : s.listings.size ≤ id) :
    s.kept id = .empty := by
  unfold kept
  rw [Array.getElem?_eq_none h]
  rfl

theorem kept_push (s : Session σ ν) (l : Listing ν) (id : Nat) :
    ({ s with listings := s.listings.push l } : Session σ ν).kept id =
      if id = s.listings.size then l else s.kept id := by
  unfold kept
  rw [Array.getElem?_push]
  split
  · rfl
  · rfl

/-- What is kept after a listing was replaced. Nothing is kept under an
identifier that was not given out. -/
theorem kept_set (s : Session σ ν) (id : Nat) (l : Listing ν) (other : Nat) :
    ({ s with listings := s.listings.setIfInBounds id l } : Session σ ν).kept other =
      if other = id ∧ id < s.listings.size then l else s.kept other := by
  unfold kept
  rw [Array.getElem?_setIfInBounds]
  split
  · rename_i same
    obtain rfl : id = other := same
    split
    · rename_i inside
      rw [if_pos ⟨rfl, inside⟩]
      rfl
    · rename_i outside
      rw [if_neg (fun h => outside h.2), Array.getElem?_eq_none (Nat.le_of_not_lt outside)]
  · rename_i different
    rw [if_neg (fun h => different h.1.symm)]

theorem kept_put {s s' : Session σ ν} (same : s'.listings = s.listings) (id : Nat)
    (l : Listing ν) (other : Nat) :
    ({ s' with listings := s'.listings.setIfInBounds id l } : Session σ ν).kept other =
      if other = id ∧ id < s.listings.size then l else s.kept other := by
  rw [kept_set, same, kept_congr same]

end Session

/-! ## Regions -/

/-- **A region of pages.** It grows by the listings that are kept while one
works in it, and by no others. -/
structure Region where
  /-- The number of listings that were kept when the work began. -/
  base : Nat
  /-- The pages of the region once so many listings are kept. -/
  pages : Nat → Nat → Prop
  mono : ∀ {m n id : Nat}, m ≤ n → pages m id → pages n id
  fresh : ∀ {n : Nat}, base ≤ n → pages (n + 1) n
  old : ∀ {n id : Nat}, id < n → pages (n + 1) id → pages n id

namespace Session

/-- **A session in which work in a region stays there**: what the pages of the
region show leads nowhere else. -/
structure Open (R : Region) (s : Session σ ν) : Prop where
  base : R.base ≤ s.listings.size
  valid : ∀ id, (s.kept id).Valid
  closed : ∀ id, R.pages s.listings.size id → (s.kept id).Within (R.pages s.listings.size)

/-- **What work in a region does to the kept listings.** -/
structure Frame (R : Region) (s s' : Session σ ν) : Prop where
  size : s.listings.size ≤ s'.listings.size
  outside : ∀ id, ¬ R.pages s'.listings.size id → s'.kept id = s.kept id
  short : ∀ id, (s.kept id).IsShort → (s'.kept id).IsShort
  leads : ∀ id, id < s.listings.size → ∀ P, (s.kept id).Within P → (s'.kept id).Within P
  limit : ∀ id, id < s.listings.size → (s.kept id).limit ≤ (s'.kept id).limit
  holds : ∀ id, id < s.listings.size → (s.kept id).Holds (s'.kept id)

variable {R : Region} {s s' s'' : Session σ ν}

theorem Open.of_listings_eq (h : s.Open R) (same : s'.listings = s.listings) : s'.Open R where
  base := by
    rw [same]
    exact h.base
  valid id := by
    rw [kept_congr same]
    exact h.valid id
  closed id := by
    rw [kept_congr same, same]
    exact h.closed id

theorem Frame.of_listings_eq (same : s'.listings = s.listings) : s.Frame R s' where
  size := Nat.le_of_eq (congrArg Array.size same).symm
  outside id _ := congrFun (kept_congr same) id
  short id := by
    rw [kept_congr same]
    exact fun h => h
  leads id _ P := by
    rw [kept_congr same]
    exact fun h => h
  limit id _ := Nat.le_of_eq (congrArg (fun kept => (kept id).limit) (kept_congr same)).symm
  holds id _ := by
    rw [kept_congr same]
    exact .refl _

theorem Frame.refl (s : Session σ ν) : s.Frame R s := .of_listings_eq rfl

theorem Frame.trans (h : s.Frame R s') (h' : s'.Frame R s'') : s.Frame R s'' where
  size := Nat.le_trans h.size h'.size
  outside id away :=
    (h'.outside id away).trans (h.outside id fun inside => away (R.mono h'.size inside))
  short id short := h'.short id (h.short id short)
  leads id inside P led := h'.leads id (Nat.lt_of_lt_of_le inside h.size) P (h.leads id inside P led)
  limit id inside :=
    Nat.le_trans (h.limit id inside) (h'.limit id (Nat.lt_of_lt_of_le inside h.size))
  holds id inside same whole := by
    have inside' := Nat.lt_of_lt_of_le inside h.size
    have first := h.limit id inside
    have second := h'.limit id inside'
    have stands := h.holds id inside (by omega) fun short => whole (h'.short id short)
    exact stands.trans (h'.holds id inside' (by omega) whole)

end Session

/-! ## Work that stays -/

/-- **Work that stays in a region**, from any session with so many listings.
What is said of the outcome is said for the pages of the region after it. -/
def Stays (R : Region) (k : Nat) (act : Search σ ν α) (outcome : (Nat → Prop) → α → Prop) :
    Prop :=
  ∀ s, s.Open R → s.listings.size = k → Ensures act s fun a s' =>
    s'.Open R ∧ s.Frame R s' ∧ outcome (R.pages s'.listings.size) a

variable {R : Region} {k : Nat} {act : Search σ ν α} {outcome : (Nat → Prop) → α → Prop}

theorem Stays.bind {next : α → Search σ ν β} {outcome' : (Nat → Prop) → β → Prop}
    (h : Stays R k act outcome)
    (h' : ∀ k' a, k ≤ k' → outcome (R.pages k') a → Stays R k' (next a) outcome') :
    Stays R k (act >>= next) outcome' := by
  intro s free many
  refine (h s free many).bind fun a s' first => ?_
  have more : k ≤ s'.listings.size := many ▸ first.2.1.size
  refine (h' _ a more first.2.2 s' first.1 rfl).mono fun b s'' second => ?_
  exact ⟨second.1, first.2.1.trans second.2.1, second.2.2⟩

theorem Stays.mono {outcome' : (Nat → Prop) → α → Prop} (h : Stays R k act outcome)
    (weaker : ∀ k' a, k ≤ k' → outcome (R.pages k') a → outcome' (R.pages k') a) :
    Stays R k act outcome' :=
  fun s free many => (h s free many).mono fun a _ h =>
    ⟨h.1, h.2.1, weaker _ a (many ▸ h.2.1.size) h.2.2⟩

theorem stays_pure {a : α} (h : outcome (R.pages k) a) :
    Stays R k (pure a : Search σ ν α) outcome :=
  fun s free many => ensures_pure_iff.mpr ⟨free, .refl s, many ▸ h⟩

theorem stays_unfinished : Stays R k (unfinished : Search σ ν α) outcome :=
  fun _ _ _ => ensures_unfinished

theorem stays_overflow : Stays R k (overflow : Search σ ν α) outcome :=
  fun _ _ _ => ensures_overflow

/-- Work that leaves the kept listings alone stays where it is. -/
theorem stays_of_quiet
    (h : ∀ s, Ensures act s fun a s' => s'.listings = s.listings ∧ outcome (R.pages k) a) :
    Stays R k act outcome := by
  intro s free many
  refine (h s).mono fun a s' h => ⟨free.of_listings_eq h.1, .of_listings_eq h.1, ?_⟩
  rw [h.1, many]
  exact h.2

/-- After work that leaves the kept listings alone. -/
theorem stays_bind_of_quiet {act : Search σ ν α} {next : α → Search σ ν β} {P : α → Prop}
    {outcome : (Nat → Prop) → β → Prop}
    (h : ∀ s, Ensures act s fun a s' => s'.listings = s.listings ∧ P a)
    (rest : ∀ a, P a → Stays R k (next a) outcome) : Stays R k (act >>= next) outcome := by
  intro s free many
  refine (h s).bind fun a s' h => ?_
  have many' : s'.listings.size = k := (congrArg Array.size h.1).trans many
  refine (rest a h.2 s' (free.of_listings_eq h.1) many').mono fun b s'' second => ?_
  exact ⟨second.1, (Session.Frame.of_listings_eq h.1).trans second.2.1, second.2.2⟩

theorem Run.Quiet.stays_bind {act : Run σ ν α} {next : α → Search σ ν β}
    {outcome : (Nat → Prop) → β → Prop} (h : act.Quiet)
    (rest : ∀ a, Stays R k (next a) outcome) : Stays R k (liftM act >>= next) outcome :=
  stays_bind_of_quiet (P := fun _ => True) (fun s => ensures_lift_iff.mpr ⟨h s, trivial⟩)
    fun a _ => rest a

theorem stays_lift_bind {act : Run σ ν α} {next : α → Run σ ν β}
    {outcome : (Nat → Prop) → β → Prop}
    (h : Stays R k ((liftM act : Search σ ν α) >>= fun a => liftM (next a)) outcome) :
    Stays R k (liftM (act >>= next) : Search σ ν β) outcome :=
  fun s free many => ensures_lift_bind_iff.mpr (ensures_bind_iff.mp (h s free many))

theorem stays_lift_pure {a : α} (h : outcome (R.pages k) a) :
    Stays R k (liftM (pure a : Run σ ν α) : Search σ ν α) outcome :=
  stays_pure h

/-- Keep a listing for pages to share. -/
theorem stays_keepListing {l : Listing ν} (valid : l.Valid) (led : l.Within (R.pages k)) :
    Stays R k (liftM (Engine.keepListing l : Run σ ν Nat) : Search σ ν Nat) fun P id => P id := by
  intro s free many
  have size : (s.listings.push l).size = s.listings.size + 1 := Array.size_push _
  -- the listing has the next place, and all others are where they were
  have elsewhere (id : Nat) (h : id ≠ s.listings.size) :
      ({ s with listings := s.listings.push l } : Session σ ν).kept id = s.kept id := by
    rw [Session.kept_push, if_neg h]
  have here : ({ s with listings := s.listings.push l } : Session σ ν).kept s.listings.size = l := by
    rw [Session.kept_push, if_pos rfl]
  have more : s.listings.size ≤ (s.listings.push l).size := by
    rw [size]
    exact Nat.le_succ _
  have grown {other : Listing ν} (led : other.Within (R.pages s.listings.size)) :
      other.Within (R.pages (s.listings.push l).size) :=
    led.mono fun id => R.mono more
  have fresh : R.pages (s.listings.push l).size s.listings.size := by
    rw [size]
    exact R.fresh free.base
  refine ensures_lift_iff.mpr ⟨⟨Nat.le_trans free.base more, fun id => ?_, fun id inside => ?_⟩,
    ⟨more, fun id away => ?_, fun id short => ?_, fun id inside P led' => ?_,
      fun id inside => ?_, fun id inside => ?_⟩, fresh⟩
  · rcases eq_or_ne id s.listings.size with rfl | h
    · exact here.symm ▸ valid
    · exact (elsewhere id h).symm ▸ free.valid id
  · change (({ s with listings := s.listings.push l } : Session σ ν).kept id).Within
      (R.pages (s.listings.push l).size)
    change R.pages (s.listings.push l).size id at inside
    rcases Nat.lt_trichotomy id s.listings.size with before | rfl | behind
    · rw [elsewhere id (Nat.ne_of_lt before)]
      rw [size] at inside
      exact grown (free.closed id (R.old before inside))
    · rw [here]
      exact grown (many ▸ led)
    · rw [elsewhere id (Nat.ne_of_gt behind), Session.kept_of_le (Nat.le_of_lt behind)]
      exact Listing.within_empty
  · refine elsewhere id fun h => away ?_
    exact h ▸ fresh
  · rcases eq_or_ne id s.listings.size with rfl | h
    · rw [Session.kept_of_le (Nat.le_refl _)] at short
      exact short.elim
    · exact (elsewhere id h).symm ▸ short
  · exact (elsewhere id (Nat.ne_of_lt inside)).symm ▸ led'
  · exact (elsewhere id (Nat.ne_of_lt inside)).symm ▸ Nat.le_refl _
  · exact (elsewhere id (Nat.ne_of_lt inside)).symm ▸ .refl _

/-- What work on a kept listing ensures, from what the listing ensures. -/
theorem ensures_withKept {id : Nat} {act : Listing ν → Search σ ν (α × Listing ν)}
    {s : Session σ ν} {P : α → Session σ ν → Prop}
    (h : Ensures (act (s.kept id)) s fun r s' =>
      P r.1 { s' with listings := s'.listings.setIfInBounds id r.2 }) :
    Ensures (withKept id act) s P := by
  unfold withKept
  refine ensures_bind_iff.mpr (ensures_get_iff.mpr ?_)
  refine h.bind fun r s' h => ?_
  exact ensures_bind_iff.mpr (ensures_modify_iff.mpr (ensures_pure_iff.mpr h))

/-- Replace a kept listing by what work on it has made of it. -/
theorem stays_set {s s' : Session σ ν} (free : s.Open R) {id : Nat}
    (here : R.pages s.listings.size id) {l : Listing ν} (onward : (s.kept id).Onward l)
    (holds : (s.kept id).Holds l) (same : s'.listings = s.listings) :
    ({ s' with listings := s'.listings.setIfInBounds id l } : Session σ ν).Open R ∧
      s.Frame R { s' with listings := s'.listings.setIfInBounds id l } := by
  -- at its own place the listing went onward, and all others are as they were
  have kept := Session.kept_put same id l
  have size : (s'.listings.setIfInBounds id l).size = s.listings.size := by
    rw [Array.size_setIfInBounds, same]
  refine ⟨⟨Nat.le_trans free.base (Nat.le_of_eq size.symm), fun other => ?_, fun other inside => ?_⟩,
    ⟨Nat.le_of_eq size.symm, fun other away => ?_, fun other short => ?_, fun other _ P led => ?_,
      fun other _ => ?_, fun other _ => ?_⟩⟩
  · rw [kept]
    split
    · exact onward.valid
    · exact free.valid other
  · dsimp only at inside ⊢
    rw [size] at inside ⊢
    rw [kept]
    split
    · exact onward.leads _ (free.closed id here)
    · exact free.closed other inside
  · dsimp only at away
    rw [size] at away
    rw [kept, if_neg]
    rintro ⟨rfl, -⟩
    exact away here
  · rw [kept]
    split
    · rename_i h
      exact onward.short (h.1 ▸ short)
    · exact short
  · rw [kept]
    split
    · rename_i h
      exact onward.leads P (h.1 ▸ led)
    · exact led
  · rw [kept]
    split
    · rename_i h
      exact h.1 ▸ onward.limit
    · exact Nat.le_refl _
  · rw [kept]
    split
    · rename_i h
      exact h.1 ▸ holds
    · exact .refl _

/-- **Work on a kept listing stays among the pages that show it.** -/
theorem stays_withKept {id : Nat} (here : R.pages k id)
    {act : Listing ν → Search σ ν (α × Listing ν)} (outcome : (Nat → Prop) → α → Prop)
    (acts : ∀ l s, l.Valid → l.Within (R.pages k) → Ensures (act l) s fun r s' =>
      s'.listings = s.listings ∧ l.Onward r.2 ∧ l.Holds r.2 ∧ outcome (R.pages k) r.1) :
    Stays R k (withKept id act) outcome := by
  intro s free many
  subst many
  refine ensures_withKept ((acts _ s (free.valid id) (free.closed id here)).mono fun r s' h => ?_)
  obtain ⟨same, onward, holds, done⟩ := h
  obtain ⟨free', frame⟩ := stays_set free here onward holds same
  refine ⟨free', frame, ?_⟩
  have size : (s'.listings.setIfInBounds id r.2).size = s.listings.size := by
    rw [Array.size_setIfInBounds, same]
  dsimp only
  rw [size]
  exact done

end WatchView
