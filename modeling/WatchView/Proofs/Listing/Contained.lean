import WatchView.Proofs.Listing.Congruent
import WatchView.Proofs.Listing.Failing
import WatchView.Proofs.Listing.Served
/-!
# Failures are contained

The elements of an expansion show their children one after the other (`Shows`). One that fails
shows its failure in its place, or nothing; the others show what they show without it. The raw
value comes last, unless it is hidden and all elements can be had.
-/

namespace WatchView

open Bounded Relation Listing

variable {σ ν : Type}

/-! ## Elements one after the other -/

/-- **Listings that show all their children one after the other**: each is counted and then asked
for that many. -/
inductive Reach.Shows (reach : Reach σ ν) : Session σ ν → List (Listing ν) → List (Variable ν) →
    Nat → List (Listing ν) → Session σ ν → Prop
  | nil {s : Session σ ν} : Shows reach s [] [] 0 [] s
  | cons {s s₁ s₂ s' : Session σ ν} {l l₁ l₂ : Listing ν} {ls ls' : List (Listing ν)} {n m : Nat}
      {rows more : List (Variable ν)} (counted : reach.count l s = .ok ((n, l₁), s₁))
      (own : (if 0 < n then reach.rows l₁ 0 n else pure ([], l₁)) s₁ = .ok ((rows, l₂), s₂))
      (others : Shows reach s₂ ls more m ls' s') :
      Shows reach s (l :: ls) (rows ++ more) (n + m) (l₂ :: ls') s'

namespace Reach.Shows

variable {reach : Reach σ ν} {s s₁ s' : Session σ ν} {ls ls' as as' : List (Listing ν)}
  {rows more : List (Variable ν)} {n m : Nat}

/-- Some listings, and then others. -/
theorem append (first : reach.Shows s as rows n as' s₁) (rest : reach.Shows s₁ ls more m ls' s') :
    reach.Shows s (as ++ ls) (rows ++ more) (n + m) (as' ++ ls') s' := by
  induction first with
  | nil =>
    rw [Nat.zero_add]
    exact rest
  | cons counted own _ ih =>
    rw [List.append_assoc, Nat.add_assoc]
    exact .cons counted own (ih rest)

/-- The rows of members are all shown if the window has room for one more. -/
theorem rowsBetween_eq (h : reach.Shows s ls rows n ls' s') (stop offset : Nat)
    (room : offset + n < stop) :
    rowsBetween reach 0 stop offset ls s = .ok ((rows, ls', offset + n), s') := by
  induction h generalizing offset with
  | nil => rfl
  | @cons s s₁ s₂ s' l l₁ l₂ ls ls' n m rows more counted own _ ih =>
    have low : max 0 offset = offset := Nat.max_eq_right (Nat.zero_le offset)
    have high : min stop (offset + n) = offset + n := by omega
    have behind := ih (offset + n) (by omega)
    rw [rowsBetween_cons, if_neg (by omega)]
    refine bind_eq_ok_iff.mpr ⟨_, counted, ?_⟩
    dsimp only
    rw [low, high, Nat.sub_self, Nat.add_sub_cancel_left, ← Nat.add_assoc]
    have shown : rowsBehind reach 0 stop (offset + n) ls (rows, l₂) s₂ =
        .ok ((rows ++ more, l₂ :: ls', offset + n + m), s') :=
      bind_eq_ok_iff.mpr ⟨_, behind, rfl⟩
    split at own
    · rw [if_pos (by omega)]
      exact bind_eq_ok_iff.mpr ⟨_, own, shown⟩
    · rw [if_neg (by omega)]
      cases own
      exact shown

end Reach.Shows

/-- Conversely, a window with room for one more shows all. -/
theorem Reach.exists_shows {reach : Reach σ ν} {s s' : Session σ ν} {ls ls' : List (Listing ν)}
    {rows : List (Variable ν)} {stop offset last : Nat}
    (h : rowsBetween reach 0 stop offset ls s = .ok ((rows, ls', last), s')) (room : last < stop) :
    ∃ n, last = offset + n ∧ reach.Shows s ls rows n ls' s' := by
  induction ls generalizing offset s rows ls' with
  | nil =>
    cases h
    exact ⟨0, rfl, .nil⟩
  | cons l ls ih =>
    rw [rowsBetween_cons] at h
    split at h
    · rename_i past
      cases h
      omega
    · obtain ⟨⟨⟨n, l₁⟩, s₁⟩, counted, h⟩ := bind_eq_ok_iff.mp h
      dsimp only at h
      -- what the others show tells how far this one reaches
      have behind {shown : List (Variable ν) × Listing ν} {s₂ : Session σ ν}
          (ended : rowsBehind reach 0 stop (offset + n) ls shown s₂ =
            .ok ((rows, ls', last), s')) :
          ∃ more ls₂ m, rows = shown.1 ++ more ∧ ls' = shown.2 :: ls₂ ∧ last = offset + n + m ∧
            reach.Shows s₂ ls more m ls₂ s' := by
        obtain ⟨⟨⟨more, ls₂, last'⟩, s₃⟩, found, same⟩ := bind_eq_ok_iff.mp ended
        cases same
        obtain ⟨m, reached, others⟩ := ih found
        exact ⟨more, ls₂, m, rfl, rfl, reached, others⟩
      have low : max 0 offset = offset := Nat.max_eq_right (Nat.zero_le offset)
      split at h
      · rename_i inside
        obtain ⟨⟨⟨own, l₂⟩, s₂⟩, shown, ended⟩ := bind_eq_ok_iff.mp h
        obtain ⟨more, ls₂, m, rfl, rfl, rfl, others⟩ := behind ended
        have high : min stop (offset + n) = offset + n := by omega
        rw [low, high, Nat.sub_self, Nat.add_sub_cancel_left] at shown
        refine ⟨n + m, Nat.add_assoc .., .cons counted ?_ others⟩
        rw [if_pos (by omega)]
        exact shown
      · rename_i outside
        obtain ⟨more, ls₂, m, rfl, rfl, rfl, others⟩ := behind h
        have own : (if 0 < n then reach.rows l₁ 0 n else pure ([], l₁)) s₁ =
            .ok (([], l₁), s₁) := by
          rw [if_neg (by omega)]
          rfl
        exact ⟨n + m, Nat.add_assoc .., .cons counted own others⟩

/-! ## What the others keep -/

section Members

variable {engine : Engine σ ν} {s s' p p' : Session σ ν} {l x : Listing ν}
  {ls ls' bs : List (Listing ν)} {rows : List (Variable ν)} {bound n : Nat} {b : Bool} {R : Region}

theorem answered_congr {answers : List (Nat × Bool)}
    (h : List.Forall₂ (fun l a => Answered s bound l a.1 a.2) ls answers)
    (same : ∀ m ∈ ls, ∀ id, m.Has (.page id) → s'.kept id = s.kept id) :
    List.Forall₂ (fun l a => Answered s' bound l a.1 a.2) ls answers := by
  induction h with
  | nil => exact .nil
  | cons here _ ih =>
    obtain ⟨first, others⟩ := List.forall_mem_cons.mp same
    exact .cons (here.congr first) (ih others)

namespace Listing.Spread

theorem perm (spread : Spread s ls) (h : ls.Perm ls') : Spread s ls' where
  sound := spread.sound
  led l member := spread.led l (h.mem_iff.mpr member)
  elements l member := spread.elements l (h.mem_iff.mpr member)
  all l member := spread.all l (h.mem_iff.mpr member)
  separate := (h.pairwise_iff Separate.symm).mp spread.separate

theorem sublist (spread : Spread s ls) (h : ls'.Sublist ls) : Spread s ls' where
  sound := spread.sound
  led l member := spread.led l (h.subset member)
  elements l member := spread.elements l (h.subset member)
  all l member := spread.all l (h.subset member)
  separate := spread.separate.sublist h

/-- They are spread in a session that keeps the same listings. -/
theorem of_listings_eq (spread : Spread s ls) (same : s'.listings = s.listings) : Spread s' ls where
  sound := spread.sound.of_listings_eq same
  led l member := (spread.led l member).mono fun id inside => by rw [same]; exact inside
  elements := spread.elements
  all l member := (spread.all l member).frame (R := .known) (.of_listings_eq same)
  separate := spread.separate.imp fun h => h.frame (R := .known) (.of_listings_eq same)

/-- **Where the others lead** is apart from what the first shows. -/
theorem exists_apart (spread : Spread s (x :: bs)) :
    ∃ P, s.Closed P ∧ (∀ b ∈ bs, b.Within P) ∧ ∀ id, x.Has (.page id) → ¬ P id := by
  obtain ⟨mine, -⟩ := List.pairwise_cons.mp spread.separate
  -- all that leads nowhere to what the first shows
  refine ⟨fun id => ∃ P, s.Closed P ∧ (∀ id, x.Has (.page id) → ¬ P id) ∧ P id, ?_, ?_, ?_⟩
  · rintro id ⟨P, closed, apart, here⟩
    exact ⟨(closed id here).1,
      (closed id here).2.mono fun other inside => ⟨P, closed, apart, inside⟩⟩
  · intro b member
    obtain ⟨-, Q, -, confined, P, closed, within, outside⟩ := mine b member
    have apart (id : Nat) (has : x.Has (.page id)) : ¬ P id := outside id (confined.of_has has)
    exact within.mono fun id inside => ⟨P, closed, apart, inside⟩
  · rintro id has ⟨P, -, apart, here⟩
    exact apart id has here

variable (words : ∀ p, engine.options.get p < wordCount)

include words

/-- Members that showed all their children were counted, and what the others show is left alone. -/
theorem shows {front : List (Listing ν)} (spread : Spread s (front ++ ls))
    (h : (engine.reach bound).Shows s ls rows n ls' s') : Passing s front s' ls' ∧
      ∃ answers,
        List.Forall₂ (fun l (a : Nat × Bool) => Answered s' bound l a.1 a.2) ls' answers := by
  have room : 0 + n < n + 1 := by omega
  have ended := h.rowsBetween_eq (n + 1) 0 room
  obtain ⟨passing, rows', between⟩ := passing_rowsBetween words
    (engine.gathers_reach words bound) 0 (n + 1) 0 front ls spread _ _ ended
  exact ⟨passing, between.answers room⟩

end Listing.Spread

/-- A session that is like an open one is open. -/
theorem Session.Open.alike (free : p.Open R) (same : p.Alike engine R s) (sound : s.Sound) :
    s.Open R where
  base := same.size ▸ free.base
  valid := sound.valid
  closed id here := by
    rw [← same.size] at here ⊢
    rw [← same.kept id here]
    exact free.closed id here

/-- A session is like itself. -/
theorem Session.Alike.refl (trusts : s.Trusts engine) : s.Alike engine R s :=
  ⟨rfl, rfl, rfl, rfl, trusts, trusts, rfl, fun _ _ => rfl⟩

/-- **Listings show the same in sessions that are alike where they lead.** -/
theorem Reach.Shows.alike (names : engine.inspector.NamesTypes)
    (words : ∀ p, engine.options.get p < wordCount)
    (h : (engine.reach bound).Shows p ls rows n ls' p') (free : p.Open R) (free' : s.Open R)
    (same : p.Alike engine R s) (led : ∀ l ∈ ls, l.Within (R.pages p.listings.size)) :
    ∃ s', (engine.reach bound).Shows s ls rows n ls' s' ∧ p'.Alike engine R s' ∧
      ∀ l ∈ ls', l.Within (R.pages p'.listings.size) := by
  have framed := engine.framed_reach words bound
  have ended := h.rowsBetween_eq (n + 1) 0 (by omega)
  obtain ⟨-, -, -, grown⟩ := stays_rowsBetween framed 0 (n + 1) 0 led p free rfl _ _ ended
  obtain ⟨r, s', ended', rfl, same'⟩ := congruent_rowsBetween framed
    (engine.congruent_reach names words bound) 0 (n + 1) 0 led p s free free' rfl same _ _ ended
  obtain ⟨m, last, shows⟩ := Reach.exists_shows ended' (by omega)
  obtain rfl : n = m := by omega
  exact ⟨s', shows, same', grown.within⟩

section Known

variable (words : ∀ p, engine.options.get p < wordCount)
  (h : (engine.reach bound).Shows s ls rows n ls' s') (sound : s.Sound)
  (led : ∀ l ∈ ls, l.KnownIn s)

include words h sound led

theorem Reach.Shows.frame : s.Frame .known s' := by
  have ended := h.rowsBetween_eq (n + 1) 0 (by omega)
  obtain ⟨-, frame, -⟩ :=
    stays_rowsBetween (engine.framed_reach words bound) 0 (n + 1) 0 led s sound rfl _ _ ended
  exact frame

/-- What the rule book keeps stays right. -/
theorem Reach.Shows.trusts (names : engine.inspector.NamesTypes) (trusts : s.Trusts engine) :
    s'.Trusts engine := by
  obtain ⟨_, -, same, -⟩ := h.alike names words sound sound (.refl trusts) led
  exact same.trusts

end Known

end Members

/-! ## An element that fails -/

/-- The rows of an element that lists no children of its own: that of its failure, if any. -/
def Standing.rows : Standing ν → List (Variable ν)
  | counted _ => []
  | failed row => [row]

namespace Engine

variable {engine : Engine σ ν} {c : Context ν} {s s' : Session σ ν} {item : ExpandItem}
  {x : Listing ν} {st : Standing ν} {k bound : Nat}

theorem NewElement.congr (new : NewElement c s item x) (more : s.listings.size ≤ s'.listings.size)
    (same : ∀ id, x.Has (.page id) → s'.kept id = s.kept id) : NewElement c s' item x := by
  cases new with
  | item rule => exact .item rule
  | synthetic rule => exact .synthetic rule
  | inlined rule => exact .inlined rule
  | page inside fresh room fits =>
    exact .page (Nat.lt_of_lt_of_le inside more) ((same _ (.page rfl)).symm ▸ fresh) room fits

theorem NewElement.inside (new : NewElement c s item x) {id : Nat} (has : x.Has (.page id)) :
    id < s.listings.size := by
  cases new with
  | page inside =>
    cases has with
    | page same => exact Pane.page.inj same ▸ inside
  | _ => cases has

/-- What it comes to is all that it shows. -/
theorem Drops.shows {x' : Listing ν} (h : engine.Drops c s item st k)
    (comes : engine.ComesTo bound s x st k s' x') :
    (engine.reach bound).Shows s [x] st.rows st.count [x'] s' := by
  have own : (if 0 < st.count then (engine.reach bound).rows x' 0 st.count else pure ([], x')) s' =
      .ok ((st.rows, x'), s') := by
    cases st with
    | counted n =>
      obtain rfl := h.counted_eq_zero rfl
      rfl
    | failed row => exact comes.row row rfl
  have shows := Reach.Shows.cons comes.counted own .nil
  rwa [List.append_nil] at shows

variable {s₁ s₂ s₃ : Session σ ν} {as as' bs bs' : List (Listing ν)}
  {rowsA rowsB : List (Variable ν)} {nA nB : Nat}

/-- **An element that fails is contained.** The elements in front of it show their children, and
those behind it show theirs in a session that knows nothing of it but how many scratch names are
given out. Then all of them show these children, with the row of the failure in between, and
whether the others can be had is as without it. -/
theorem shows_around (names : engine.inspector.NamesTypes) (stateless : engine.debugger.Stateless)
    (words : ∀ p, engine.options.get p < wordCount) (trusts : s₁.Trusts engine)
    (spread : Spread s₁ (as ++ x :: bs)) (new : NewElement c s₁ item x)
    (front : (engine.reach (bound + 2)).Shows s₁ as rowsA nA as' s₂)
    (drops : engine.Drops c s₂ item st k)
    (behind : (engine.reach (bound + 2)).Shows
      { s₂ with scratchCount := s₂.scratchCount + k } bs rowsB nB bs' s₃) :
    ∃ x' s₄ answersA answersB,
      (engine.reach (bound + 2)).Shows s₁ (as ++ x :: bs) (rowsA ++ (st.rows ++ rowsB))
        (nA + (st.count + nB)) (as' ++ x' :: bs') s₄ ∧
      List.Forall₂ (fun l (a : Nat × Bool) => Answered s₃ (bound + 2) l a.1 a.2) (as' ++ bs')
        (answersA ++ answersB) ∧
      List.Forall₂ (fun l (a : Nat × Bool) => Answered s₄ (bound + 2) l a.1 a.2) (as' ++ x' :: bs')
        (answersA ++ (st.count, st.isSound) :: answersB) := by
  have ledA (m : Listing ν) (member : m ∈ as) : m.KnownIn s₁ :=
    spread.led m (List.mem_append_left _ member)
  -- the elements in front leave alone what this one and the others show
  obtain ⟨passing, answersA, answeredA⟩ :=
    (spread.perm List.perm_append_comm : Spread s₁ (x :: bs ++ as)).shows words front
  have new₂ : NewElement c s₂ item x := new.congr (front.frame words spread.sound ledA).size
    (passing.same x List.mem_cons_self)
  have trusts₂ : s₂.Trusts engine := front.trusts words spread.sound ledA names trusts
  have spread₂ : Spread s₂ (as' ++ x :: bs) := passing.spread.perm List.perm_append_comm
  -- this one comes to its standing, and leaves them alone in turn
  obtain ⟨s₂', x', comes⟩ :=
    drops.comesTo words bound names stateless new₂ spread₂.sound trusts₂
  have passed : Passing s₂ as' s₂' (x' :: bs) := spread₂.passing words (.count comes.counted)
  -- those behind do the same as in a session that knows nothing of it
  have spreadX : Spread s₂ (x :: bs) := spread₂.sublist (List.sublist_append_right as' _)
  obtain ⟨P, closed, within, apart⟩ := spreadX.exists_apart
  let R := Region.among P s₂.listings.size
  have inside {id : Nat} (here : R.pages s₂.listings.size id) : P id :=
    here.resolve_right fun fresh => Nat.lt_irrefl _ (Nat.lt_of_le_of_lt fresh.1 fresh.2)
  have same := comes.alike R fun id has here => apart id has (inside here)
  have free : Session.Open R { s₂ with scratchCount := s₂.scratchCount + k } :=
    (closed.isOpen spread₂.sound).of_listings_eq rfl
  obtain ⟨s₄, behind', same', withinR⟩ := behind.alike names words free
    (free.alike same passed.spread.sound) same fun b member => (within b member).mono fun id => .inl
  have spreadB : Spread { s₂ with scratchCount := s₂.scratchCount + k } (as' ++ bs) :=
    (spread₂.sublist ((List.sublist_cons_self x bs).append_left as')).of_listings_eq rfl
  obtain ⟨passingB, answersB, answeredB⟩ := spreadB.shows words behind
  have spread₂' := passed.spread
  rw [List.append_cons] at spread₂'
  obtain ⟨passing', -⟩ := spread₂'.shows words behind'
  -- whether they can be had is known from the pages that they show
  have answersA₃ := answered_congr answeredA passingB.same
  have answersA₄ := answered_congr answeredA fun m member id has =>
    (passing'.same m (List.mem_append_left _ member) id has).trans (passed.same m member id has)
  have answerX := comes.answered.congr
    (passing'.same x' (List.mem_append_right _ List.mem_cons_self))
  have answersB₄ := answered_congr answeredB fun m member id has =>
    (same'.kept id ((withinR m member).of_has has)).symm
  exact ⟨x', s₄, answersA, answersB, front.append ((drops.shows comes).append behind'),
    List.rel_append answersA₃ answeredB, List.rel_append answersA₄ (.cons answerX answersB₄)⟩

end Engine

/-! ## The row of the raw value -/

section Raw

variable {engine : Engine σ ν} {reach : Reach σ ν} {s s' : Session σ ν}
  {ls ls' : List (Listing ν)} {valid : List Bool} {bound n : Nat} {rows : List (Variable ν)}

/-- **Whether listings can be had**, as they say when they are asked; nothing changes by that. -/
def Reach.Tells (reach : Reach σ ν) (s : Session σ ν) (ls : List (Listing ν))
    (valid : List Bool) : Prop :=
  List.Forall₂ (fun l b => reach.isSound l s = .ok ((b, l), s)) ls valid

theorem tells_of_answered (engine : Engine σ ν) {answers : List (Nat × Bool)}
    (h : List.Forall₂ (fun l (a : Nat × Bool) => Answered s bound l a.1 a.2) ls answers) :
    (engine.reach bound).Tells s ls (answers.map Prod.snd) := by
  induction h with
  | nil => exact .nil
  | cons here _ ih => exact .cons (here.again engine).2 ih

theorem Reach.Tells.allSound (h : reach.Tells s ls valid) :
    allSound reach ls s = .ok ((valid.all id, ls), s) := by
  induction h with
  | nil => rfl
  | @cons l b ls valid here _ ih =>
    refine bind_eq_ok_iff.mpr ⟨_, here, ?_⟩
    rw [List.all_cons]
    cases b with
    | true => exact bind_eq_ok_iff.mpr ⟨_, ih, rfl⟩
    | false => rfl

/-- The row of the raw value behind elements of which these can be had: it is hidden if that is
asked for and all of them can. -/
def Engine.rawRows (engine : Engine σ ν) (owner : Variable ν) (hideRawView : Bool)
    (valid : List Bool) (s : Session σ ν) : List (Variable ν) :=
  if hideRawView && valid.all id then [] else [owner.rawView engine.inspector s.target]

/-- **A window of a group with room for all** shows what the members show, and then the row of the
raw value. -/
theorem Reach.Shows.rows_group (h : (engine.reach bound).Shows s ls rows n ls' s')
    (told : (engine.reach bound).Tells s' ls' valid) (owner : Variable ν) (hideRawView : Bool)
    (limit : Nat) {count : Nat} (room : n < windowEnd 0 count) :
    engine.rows (bound + 1) (.group owner ls hideRawView limit) 0 count s =
      .ok ((rows ++ engine.rawRows owner hideRawView valid s',
        .group owner ls' hideRawView limit), s') := by
  have between := h.rowsBetween_eq (windowEnd 0 count) 0 (by omega)
  have raw : showsRaw (engine.reach bound) hideRawView ls' s' =
      .ok ((!(hideRawView && valid.all id), ls'), s') := by
    cases hideRawView with
    | true => exact bind_eq_ok_iff.mpr ⟨_, told.allSound, rfl⟩
    | false => rfl
  have shown : groupRows engine (engine.reach bound) owner hideRawView ls 0 count s =
      .ok ((rows ++ engine.rawRows owner hideRawView valid s', ls'), s') := by
    refine bind_eq_ok_iff.mpr ⟨_, between, ?_⟩
    dsimp only
    rw [if_pos (by simpa using room)]
    refine bind_eq_ok_iff.mpr ⟨_, raw, ?_⟩
    unfold Engine.rawRows
    cases hideRawView && valid.all id with
    | true =>
      rw [if_pos rfl, List.append_nil]
      rfl
    | false => rfl
  exact bind_eq_ok_iff.mpr ⟨_, shown, rfl⟩

end Raw

/-! ## Expansions -/

namespace Engine

variable {engine : Engine σ ν} {c : Context ν} {s : Session σ ν}

/-- What limits the pages of elements. -/
def pageLimits : List Property :=
  [.indexListLimit, .arrayLimit, .linkedListLimit, .treeLimit, .customListLimit]

variable (room : ∀ p ∈ pageLimits, 0 < engine.options.get p ∧ engine.options.get p + 1 < wordCount)

include room

/-- **The listing of an element is new** when it is made, and others are left alone. -/
theorem newElement_elementListing (c : Context ν) (item : ExpandItem) (s : Session σ ν) :
    s.listings.size ≤ (engine.elementListing c item s).2.listings.size ∧
    (∀ id < s.listings.size, (engine.elementListing c item s).2.kept id = s.kept id) ∧
    (engine.supports item = true → NewElement c (engine.elementListing c item s).2 item
      (engine.elementListing c item s).1) := by
  -- the list of an element that is kept for its pages
  have paged (limit : Property) {l : Listing ν} (here : limit ∈ pageLimits)
      (fresh : Fresh c item l) :
      s.listings.size ≤ (engine.firstPage limit l s).2.listings.size ∧
      (∀ id < s.listings.size, (engine.firstPage limit l s).2.kept id = s.kept id) ∧
      NewElement c (engine.firstPage limit l s).2 item (engine.firstPage limit l s).1 := by
    have kept (id : Nat) : (engine.firstPage limit l s).2.kept id =
        if id = s.listings.size then l else s.kept id := Session.kept_push s l id
    have size : (engine.firstPage limit l s).2.listings.size = s.listings.size + 1 :=
      Array.size_push l
    refine ⟨by omega, fun id old => (kept id).trans (if_neg (Nat.ne_of_lt old)), ?_⟩
    refine NewElement.page (by omega) ?_ (room limit here).1 (room limit here).2
    rw [kept, if_pos rfl]
    exact fresh
  have plain {l : Listing ν} (new : NewElement c s item l) :
      s.listings.size ≤ s.listings.size ∧ (∀ id < s.listings.size, s.kept id = s.kept id) ∧
        (engine.supports item = true → NewElement c s item l) :=
    ⟨Nat.le_refl _, fun _ _ => rfl, fun _ => new⟩
  cases item with
  | item rule => exact plain (.item rule)
  | synthetic rule => exact plain (.synthetic rule)
  | expandedItem rule => exact plain (.inlined rule)
  | indexList rule =>
    obtain ⟨more, old, new⟩ := paged .indexListLimit (by decide) (.indexList rule)
    exact ⟨more, old, fun _ => new⟩
  | array rule =>
    obtain ⟨more, old, new⟩ := paged .arrayLimit (by decide) (.array rule)
    exact ⟨more, old, fun _ => new⟩
  | nodes rule =>
    have here : rule.links.limitProperty ∈ pageLimits := by
      cases rule.links with
      | list next => exact (by decide : Property.linkedListLimit ∈ pageLimits)
      | tree left right => exact (by decide : Property.treeLimit ∈ pageLimits)
    obtain ⟨more, old, new⟩ := paged _ here (.nodes rule 0)
    exact ⟨more, old, fun _ => new⟩
  | customList rule =>
    unfold elementListing supports
    split
    · obtain ⟨more, old, new⟩ := paged .customListLimit (by decide) (.custom rule 0)
      exact ⟨more, old, fun _ => new⟩
    · rename_i off
      exact ⟨Nat.le_refl _, fun _ _ => rfl, fun on => absurd on off⟩
  | unsupported element => exact ⟨Nat.le_refl _, fun _ _ => rfl, fun on => nomatch on⟩

/-- Others are left alone when the listings of several elements are made. -/
theorem kept_elementListings (c : Context ν) (items : List ExpandItem) (s : Session σ ν) :
    s.listings.size ≤ (items.mapM (engine.elementListing c) s).2.listings.size ∧
    ∀ id < s.listings.size, (items.mapM (engine.elementListing c) s).2.kept id = s.kept id := by
  induction items generalizing s with
  | nil => exact ⟨Nat.le_refl _, fun _ _ => rfl⟩
  | cons item items ih =>
    rw [List.mapM_cons]
    obtain ⟨more, old, -⟩ := newElement_elementListing room c item s
    obtain ⟨more', old'⟩ := ih (engine.elementListing c item s).2
    refine ⟨Nat.le_trans more more', fun id before => ?_⟩
    exact (old' id (Nat.lt_of_lt_of_le before more)).trans (old id before)

omit room in
/-- The members of an expansion are made one after the other. -/
theorem elementListings_append (engine : Engine σ ν) (c : Context ν)
    (before behind : List ExpandItem) (item : ExpandItem) (s : Session σ ν) : ∃ as x bs sA sX s₁,
      before.mapM (engine.elementListing c) s = (as, sA) ∧
      engine.elementListing c item sA = (x, sX) ∧
      behind.mapM (engine.elementListing c) sX = (bs, s₁) ∧
      (before ++ item :: behind).mapM (engine.elementListing c) s = (as ++ x :: bs, s₁) := by
  refine ⟨_, _, _, _, _, _, rfl, rfl, rfl, ?_⟩
  rw [List.mapM_append, List.mapM_cons]
  rfl

omit room in
/-- They are spread. -/
theorem spread_expandListing (sound : s.Sound) (led : c.owner.KnownIn s) {expand : Expand}
    {members : List (Listing ν)} {s₁ : Session σ ν} (made : engine.expandListing c expand s =
      (.group c.owner members expand.hideRawView 0, s₁)) : Spread s₁ members := by
  have lists : Lists engine c.owner (engine.expandListing c expand) := .expansion c.scope expand
  obtain ⟨sound', led', parted⟩ := lists.placed sound led
  rw [made] at sound' led' parted
  cases led' with
  | group owner ledAll =>
    cases parted with
    | simple simple => exact simple.elim
    | group elements all separate => exact ⟨sound', ledAll, elements, all, separate⟩

/-- **Failures are contained.** The members of an expansion show their children one after the other,
and behind them there is the raw value unless it is to be hidden and all of them can be had.

An element among them that is hidden, or that fails when it is its turn, shows what it comes to: a
row of the failure, or nothing if it is optional or hidden. The others show the same as without it,
if the names of scratch variables go on as if it had taken its own; and whether they can be had is
the same as well. -/
theorem failures_contained (names : engine.inspector.NamesTypes)
    (stateless : engine.debugger.Stateless) (words : ∀ p, engine.options.get p < wordCount)
    (sound : s.Sound) (trusts : s.Trusts engine) (led : c.owner.KnownIn s) (expand : Expand) :
    ∃ members s₁,
      engine.expandListing c expand s = (.group c.owner members expand.hideRawView 0, s₁) ∧
      (∀ bound rows n members' s', (engine.reach bound).Shows s₁ members rows n members' s' →
        (∃ valid, (engine.reach bound).Tells s' members' valid) ∧
        ∀ valid count, (engine.reach bound).Tells s' members' valid → n < windowEnd 0 count →
          engine.rows (bound + 1) (.group c.owner members expand.hideRawView 0) 0 count s₁ =
            .ok ((rows ++ engine.rawRows c.owner expand.hideRawView valid s',
              .group c.owner members' expand.hideRawView 0), s')) ∧
      ∀ before item behind, expand.items = before ++ item :: behind →
        engine.supports item = true → ∃ as x bs sA sX,
          before.mapM (engine.elementListing c) s = (as, sA) ∧
          engine.elementListing c item sA = (x, sX) ∧
          behind.mapM (engine.elementListing c) sX = (bs, s₁) ∧ members = as ++ x :: bs ∧
          ∀ bound st k rowsA nA as' s₂ rowsB nB bs' s₃,
            (engine.reach (bound + 2)).Shows s₁ as rowsA nA as' s₂ →
            engine.Drops c s₂ item st k →
            (engine.reach (bound + 2)).Shows { s₂ with scratchCount := s₂.scratchCount + k } bs
              rowsB nB bs' s₃ →
            ∃ x' s₄ validA validB,
              (engine.reach (bound + 2)).Shows s₁ members (rowsA ++ (st.rows ++ rowsB))
                (nA + (st.count + nB)) (as' ++ x' :: bs') s₄ ∧
              (engine.reach (bound + 2)).Tells s₄ (as' ++ x' :: bs')
                (validA ++ st.isSound :: validB) ∧
              (engine.reach (bound + 2)).Tells s₃ (as' ++ bs') (validA ++ validB) ∧
              (k = 0 → (engine.reach (bound + 2)).Shows s₁ (as ++ bs) (rowsA ++ rowsB) (nA + nB)
                (as' ++ bs') s₃) := by
  obtain ⟨members, s₁, listed⟩ :
      ∃ members s₁, expand.items.mapM (engine.elementListing c) s = (members, s₁) := ⟨_, _, rfl⟩
  have made : engine.expandListing c expand s =
      (.group c.owner members expand.hideRawView 0, s₁) := by
    unfold expandListing
    rw [bind_apply, listed]
    rfl
  have spread : Spread s₁ members := spread_expandListing sound led made
  have same := ((follows_expandListing (R := .known) c expand).alike (.refl trusts)).2
  rw [made] at same
  refine ⟨members, s₁, made, fun bound rows n members' s' shows => ?_,
    fun before item behind' split on => ?_⟩
  · have alone : Spread s₁ ([] ++ members) := spread
    obtain ⟨-, answers, all⟩ := alone.shows words shows
    exact ⟨⟨_, tells_of_answered engine all⟩, fun valid count told room =>
      shows.rows_group told c.owner expand.hideRawView 0 room⟩
  -- the members are those in front of the element, its own and those behind
  · obtain ⟨as, x, bs, sA, sX, s₁', madeA, madeX, madeB, all⟩ :=
      elementListings_append engine c before behind' item s
    rw [split, all] at listed
    cases listed
    refine ⟨as, x, bs, sA, sX, madeA, madeX, madeB, rfl,
      fun bound st k rowsA nA as' s₂ rowsB nB bs' s₃ front drops behind => ?_⟩
    obtain ⟨-, -, new⟩ := newElement_elementListing room c item sA
    obtain ⟨more, old⟩ := kept_elementListings room c behind' sX
    rw [madeX] at new
    rw [madeB] at more old
    -- making the members behind leaves alone what the element was given
    have new₁ : NewElement c s₁ item x :=
      (new on).congr more fun id has => old id ((new on).inside has)
    obtain ⟨x', s₄, answersA, answersB, shows, others, all⟩ :=
      shows_around names stateless words same.trusts spread new₁ front drops behind
    refine ⟨x', s₄, answersA.map Prod.snd, answersB.map Prod.snd, shows, ?_, ?_, ?_⟩
    · have told := tells_of_answered engine all
      rwa [List.map_append, List.map_cons] at told
    · have told := tells_of_answered engine others
      rwa [List.map_append] at told
    · rintro rfl
      exact front.append behind

end Engine

/-! ## Two types -/

namespace TwoTypes

/-- The values: a row, its two members, and what these have. -/
inductive Value where
  | row
  | a
  | b
  | one
  | two

/-- A debugger that knows the two members of a row. They are of different types, which may have
the same name. -/
def debugger (shared : Bool) : Debugger Unit Value where
  facts _ v :=
    match v with
    | .row => { name := "v", typeName := "Row", isTruthy := true, hierarchy := [] }
    | .a => { name := "a", typeName := "T", isTruthy := true, hierarchy := [⟨"One", "One"⟩] }
    | .b =>
      { name := "b", typeName := if shared then "T" else "U", isTruthy := true,
        hierarchy := [⟨"Two", "Two"⟩] }
    | .one => { name := "one", typeName := "int", isTruthy := true, hierarchy := [] }
    | .two => { name := "two", typeName := "int", isTruthy := true, hierarchy := [] }
  pointee? _ _ := none
  snapshot? _ _ _ := none
  text _ _ _ := ""
  mightHaveChildren _ _ := false
  children _ _ := []
  fast _ e _ _ := pure <|
    if e.value = "a" then .ok .a
    else if e.value = "b" then .ok .b
    else if e.value = "one" then .ok .one
    else if e.value = "two" then .ok .two
    else .error ⟨.other, "gone"⟩
  full _ _ _ := pure (.error "gone")
  path _ _ := pure none

/-- The engine. -/
def engine (shared : Bool) : Engine Unit Value := ⟨debugger shared, {}⟩

/-- The rule of a type. It shows one child of that name. -/
def rule (type child : String) : Visualizer where
  name := type
  display := [{ value := child }]
  expand := some { hideRawView := true, items := [.item { name := child, value := child }] }

/-- A session with the rules of two types. -/
def session : Session Unit Value where
  target := ()
  book :=
    { catalogue := Catalogue.append {}
        [{ origin := "types", visualizers := [rule "One" "one", rule "Two" "two"] }] }

/-- A row whose text shows the first member, and something that is not there. -/
def gone : SyntheticRule where
  name := "s"
  display := [{ value := "\x7ba\x7d\x7bgone\x7d" }]

/-- The children of the second member. -/
def second : ExpandItem := .expandedItem { value := "b" }

/-- The context. -/
def context : Context Value := ⟨.debugger .row, {}⟩

/-- The names of rows. -/
def names (shared : Bool) (rows : List (Variable Value)) : List String :=
  rows.map fun v => (v.facts (engine shared).inspector ()).name

/-- The names of the rows that an expansion shows, where the raw value is to be hidden. -/
def shown (shared : Bool) (items : List ExpandItem) : Except Stop (List String) :=
  let (l, s) := (engine shared).expandListing context { hideRawView := true, items } session
  ((engine shared).rows 6 l 0 9 s).map fun r => names shared r.1.1

theorem stateless (shared : Bool) : (debugger shared).Stateless :=
  ⟨fun _ _ _ _ _ => rfl, fun _ _ _ _ => rfl, fun _ _ _ => rfl⟩

/-- The ancestors of a type, where names are not shared. -/
def tree (name : String) : List TypeRecord :=
  if name = "T" then [⟨"One", "One"⟩] else if name = "U" then [⟨"Two", "Two"⟩] else []

theorem namesTypes : (engine false).inspector.NamesTypes := by
  have told (s : Unit) (v : Value) : ((engine false).inspector.facts s v).hierarchy =
      tree ((engine false).inspector.facts s v).typeName := by
    cases v <;> rfl
  refine Inspector.namesTypes_of_tree rfl told fun s v tag => ?_
  cases s
  cases v <;> cases tag <;> decide

/-- **If the types have different names, the failure is contained**: behind its row stands the child
of the second member, as without it. The raw value, which was to be hidden, is shown. -/
theorem shown_of_different : ∃ rows n ls s', ((engine false).reach 5).Shows session
      [.inlined context { value := "b" } none none] rows n ls s' ∧ names false rows = ["two"] ∧
    ∃ rows' l s'', (engine false).rows 6 (.group (.debugger .row)
      [.synthetic { context, rule := gone }, .inlined context { value := "b" } none none] true 0)
        0 9 session = .ok ((rows', l), s'') ∧
      names false rows' = ["<Error>", "two", "[Raw View]"] := by
  have words (p : Property) : (engine false).options.get p < wordCount := by
    cases p <;> decide
  have room : ∀ p ∈ Engine.pageLimits, 0 < (engine false).options.get p ∧
      (engine false).options.get p + 1 < wordCount := by decide
  have trusts : session.Trusts (engine false) := RuleBook.faithful_of_forgotten _
  -- the second member alone
  have alone : (Listing.rowsBetween ((engine false).reach 5) 0 9 0
      [.inlined context { value := "b" } none none] session).map
        (fun r => (names false r.1.1, r.1.2.2)) = .ok (["two"], 1) := by
    decide +kernel
  obtain ⟨⟨⟨rows, ls, last⟩, s'⟩, ended, same⟩ := Bounded.map_eq_ok_iff.mp alone
  obtain ⟨two, rfl⟩ : names false rows = ["two"] ∧ last = 1 := Prod.mk.inj same
  obtain ⟨n, reached, behind⟩ := Reach.exists_shows ended (by decide)
  -- the text that fails
  have fails : ((engine false).firstText ((engine false).valueText .value 9) context.owner
      context.scope gone.display { session with depth := 1 }).1.isOk = false := by
    decide +kernel
  obtain ⟨e, text⟩ : ∃ e, ((engine false).firstText ((engine false).valueText .value 9)
      context.owner context.scope gone.display { session with depth := 1 }).1 = .error e := by
    cases text : ((engine false).firstText ((engine false).valueText .value 9) context.owner
        context.scope gone.display { session with depth := 1 }).1 with
    | ok text' =>
      rw [text] at fails
      cases fails
    | error e => exact ⟨e, rfl⟩
  have drops : (engine false).Drops context session (.synthetic gone)
      (.failed (.error (Variable.failureText e.message))) 0 :=
    .start rfl (.text rfl text)
  obtain ⟨members, s₁, -, all, around⟩ := Engine.failures_contained (s := session) (c := context)
    room namesTypes (stateless false) words (Session.sound_of_empty rfl) trusts trivial
    { hideRawView := true, items := [.synthetic gone, second] }
  obtain ⟨as, x, bs, sA, sX, madeA, madeX, madeB, rfl, around⟩ :=
    around [] (.synthetic gone) [second] rfl rfl
  obtain ⟨rfl, rfl⟩ : [] = as ∧ session = sA := Prod.mk.inj madeA
  obtain ⟨rfl, rfl⟩ : .synthetic { context, rule := gone } = x ∧ session = sX :=
    Prod.mk.inj madeX
  obtain ⟨rfl, rfl⟩ : [.inlined context { value := "b" } none none] = bs ∧ session = s₁ :=
    Prod.mk.inj madeB
  obtain ⟨x', s₄, validA, validB, shows, told, -⟩ :=
    around 3 _ 0 [] 0 [] session rows n ls s' .nil drops behind
  have end_ : windowEnd 0 9 = 9 := windowEnd_zero (by decide)
  have one : 0 + (1 + n) < windowEnd 0 9 := by omega
  refine ⟨rows, n, ls, s', behind, two, _, _, _, (all 5 _ _ _ _ shows).2 _ 9 told one, ?_⟩
  have unsound : (true && (validA ++ false :: validB).all id) = false := by simp
  have raw : (engine false).rawRows context.owner true (validA ++ false :: validB) s₄ =
      [context.owner.rawView (engine false).inspector s₄.target] := by
    rw [Engine.rawRows, unsound]
    rfl
  have named : names false ([.error (Variable.failureText e.message)] ++ rows ++
      [context.owner.rawView (engine false).inspector s₄.target]) =
        ["<Error>"] ++ names false rows ++ ["[Raw View]"] := by
    unfold names
    rw [List.map_append, List.map_append]
    rfl
  rw [two, ← raw] at named
  exact named

/-- **If the types have the same name, it is not**: while the text was made the rule of the first
member was looked up, and is then taken for the second. -/
theorem shown_of_shared : (debugger true).Stateless ∧
    shown true [.synthetic gone, second] = .ok ["<Error>", "one", "[Raw View]"] ∧
      shown true [second] = .ok ["two"] := by
  refine ⟨stateless true, ?_, ?_⟩
  · decide +kernel
  · decide +kernel

end TwoTypes

end WatchView
