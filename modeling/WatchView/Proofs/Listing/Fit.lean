import WatchView.Proofs.Listing.Rows
/-!
# Listings as work leaves them

No two elements of an expansion show pages of the same list, and work on one
of them does not reach the pages another shows (`Apart`). So an element that
was settled stays so while the others are asked. `Fit` says this of all groups
in a listing. A listing that inlines another has counted it for good; this too
is part of `Fit`, since the inlined listing may be asked by others later.
-/

namespace WatchView

variable {σ ν : Type}

/-! ## Pages that lead to each other only -/

/-- The region of some pages and of those that are kept from now on. -/
def Region.among (P : Nat → Prop) (base : Nat) : Region where
  base := base
  pages n id := P id ∨ base ≤ id ∧ id < n
  mono le := Or.imp_right fun inside => ⟨inside.1, Nat.lt_of_lt_of_le inside.2 le⟩
  fresh le := .inr ⟨le, Nat.lt_succ_self _⟩
  old before := Or.imp_right fun inside => ⟨inside.1, before⟩

namespace Session

variable {s s' : Session σ ν} {P : Nat → Prop} {R : Region}

/-- Pages that are kept and lead to each other only. -/
def Closed (s : Session σ ν) (P : Nat → Prop) : Prop :=
  ∀ id, P id → id < s.listings.size ∧ (s.kept id).Within P

theorem Closed.frame (closed : s.Closed P) (frame : s.Frame R s') : s'.Closed P := by
  intro id here
  obtain ⟨inside, led⟩ := closed id here
  exact ⟨Nat.lt_of_lt_of_le inside frame.size, frame.leads id inside P led⟩

/-- Work on closed pages stays among them. -/
theorem Closed.isOpen (closed : s.Closed P) (sound : s.Sound) :
    s.Open (.among P s.listings.size) where
  base := Nat.le_refl _
  valid := sound.valid
  closed id inside := by
    refine (closed id (inside.resolve_right fun h => ?_)).2.mono fun _ => .inl
    exact Nat.lt_irrefl _ (Nat.lt_of_le_of_lt h.1 h.2)

/-- What was kept on the way is closed with them. -/
theorem Closed.grown (closed : s.Closed P) (frame : s.Frame R s')
    (after : s'.Open (.among P s.listings.size)) :
    s'.Closed ((Region.among P s.listings.size).pages s'.listings.size) := by
  intro id here
  refine ⟨?_, after.closed id here⟩
  rcases here with old | fresh
  · exact Nat.lt_of_lt_of_le (closed id old).1 frame.size
  · exact fresh.2

theorem closed_known (sound : s.Sound) : s.Closed (· < s.listings.size) :=
  fun id inside => ⟨inside, sound.closed id inside⟩

end Session

namespace Listing

variable {s s' : Session σ ν} {l l' : Listing ν} {ls ls' : List (Listing ν)} {P : Nat → Prop}
  {R : Region}

/-! ## Listings that are apart -/

/-- Work on a listing does not reach some pages. -/
def Avoids (s : Session σ ν) (away : Nat → Prop) (l : Listing ν) : Prop :=
  ∃ P, s.Closed P ∧ l.Within P ∧ ∀ id, away id → ¬ P id

/-- **Two listings that are apart**: work on one of them does not reach the
pages the other shows. -/
def Apart (s : Session σ ν) (l l' : Listing ν) : Prop :=
  l'.Avoids s (fun id => l.Has (.page id)) ∧ l.Avoids s fun id => l'.Has (.page id)

theorem Avoids.frame {away : Nat → Prop} (h : l.Avoids s away) (frame : s.Frame R s') :
    l.Avoids s' away := by
  obtain ⟨P, closed, within, outside⟩ := h
  exact ⟨P, closed.frame frame, within, outside⟩

theorem Apart.symm (h : Apart s l l') : Apart s l' l := And.symm h

theorem Apart.frame (h : Apart s l l') (frame : s.Frame R s') : Apart s' l l' :=
  ⟨h.1.frame frame, h.2.frame frame⟩

/-! ## Elements -/

theorem Simple.not_has {pane : Pane} (h : l.Simple) : ¬ l.Has pane := by
  intro has
  cases has with
  | _ => exact h

/-- **An element of an expansion**, as work on it leaves it. -/
inductive Element (s : Session σ ν) : Listing ν → Prop
  | simple {l : Listing ν} (simple : l.Simple) : Element s l
  | page {id offset size : Nat} : Element s (.page id offset size)
  | untouched {c : Context ν} {rule : ExpandedItemRule} : Element s (.inlined c rule none none)
  | inlined {c : Context ν} {rule : ExpandedItemRule} {standing : Standing ν}
      {inner : Option (Listing ν)} {n : Nat} {b : Bool}
      (settled : Settled s (.inlined c rule (some standing) inner) n b) :
      Element s (.inlined c rule (some standing) inner)

/-- A listing inlines children of a page. They are counted for good. -/
inductive Inlines (id : Nat) : Listing ν → Prop
  | inlined {c : Context ν} {rule : ExpandedItemRule} {standing : Option (Standing ν)}
      {inner : Option (Listing ν)} (has : (inlined c rule standing inner).Has (.page id)) :
      Inlines id (.inlined c rule standing inner)
  | pointee {c : Context ν} {pointer : SmartPointer} {l : Listing ν} (found : Inlines id l) :
      Inlines id (.pointee c pointer none (some l))
  | group {owner : Variable ν} {members : List (Listing ν)} {hideRawView : Bool} {limit : Nat}
      {l : Listing ν} (member : l ∈ members) (found : Inlines id l) :
      Inlines id (.group owner members hideRawView limit)
  | ofChild {parent : Variable ν} {index : Nat} {l : Listing ν} (found : Inlines id l) :
      Inlines id (.ofChild parent index (some l))

theorem Inlines.has {id : Nat} (h : l.Inlines id) : l.Has (.page id) := by
  induction h with
  | inlined has => exact has
  | pointee _ ih => exact .pointee ih
  | group member _ ih => exact .group member ih
  | ofChild _ ih => exact .ofChild ih

theorem Element.congr (h : Element s l)
    (stands : ∀ id, l.Inlines id → (s.kept id).StandsBy (s'.kept id)) : Element s' l := by
  cases h with
  | simple simple => exact .simple simple
  | page => exact .page
  | untouched => exact .untouched
  | inlined settled => exact .inlined (settled.congr fun id has => stands id (.inlined has))

/-! ## The elements of an expansion -/

/-- The elements of one expansion, as work on them leaves them. -/
structure Members (s : Session σ ν) (ls : List (Listing ν)) : Prop where
  element : ∀ l ∈ ls, Element s l
  apart : ls.Pairwise (Apart s)

theorem Members.perm (h : Members s ls) (perm : ls.Perm ls') : Members s ls' where
  element l member := h.element l (perm.mem_iff.mpr member)
  apart := (perm.pairwise_iff Apart.symm).mp h.apart

theorem Members.congr (h : Members s ls) (frame : s.Frame R s')
    (stands : ∀ l ∈ ls, ∀ id, l.Inlines id → (s.kept id).StandsBy (s'.kept id)) :
    Members s' ls where
  element l member := (h.element l member).congr (stands l member)
  apart := h.apart.imp fun apart => apart.frame frame

/-- What work on an element makes of it. It shows no pages but those it showed
and some that were not kept before. -/
structure Moves (s s' : Session σ ν) (l l' : Listing ν) : Prop where
  element : Element s' l'
  panes : ∀ id, l'.Has (.page id) → l.Has (.page id) ∨ s.listings.size ≤ id

/-- **Work on one element leaves the pages of the others alone**, and the
elements stay apart. -/
theorem Members.replace (h : Members s (l :: ls)) (sound : s.Sound)
    (led : ∀ m ∈ l :: ls, m.KnownIn s)
    (stays : ∀ R : Region, s.Open R → l.Within (R.pages s.listings.size) →
      s'.Open R ∧ s.Frame R s' ∧ l'.Within (R.pages s'.listings.size))
    (moves : Moves s s' l l') :
    Members s' (l' :: ls) ∧ ∀ m ∈ ls, ∀ id, m.Has (.page id) → s'.kept id = s.kept id := by
  obtain ⟨apart, others⟩ := List.pairwise_cons.mp h.apart
  obtain ⟨-, frame, -⟩ := stays .known sound (led l List.mem_cons_self)
  have shown (m : Listing ν) (member : m ∈ ls) (id : Nat) (has : m.Has (.page id)) :
      id < s.listings.size :=
    (led m (List.mem_cons_of_mem _ member)).of_has has
  -- another member shows no list where the work stayed, and so its lists are as they were
  have same (m : Listing ν) (member : m ∈ ls) (id : Nat) (has : m.Has (.page id)) :
      s'.kept id = s.kept id := by
    obtain ⟨P, closed, within, outside⟩ := (apart m member).2
    obtain ⟨-, frame, -⟩ := stays _ (closed.isOpen sound) (within.mono fun _ => .inl)
    refine frame.outside id fun inside => ?_
    rcases inside with old | fresh
    · exact outside id has old
    · exact Nat.not_le_of_lt (shown m member id has) fresh.1
  refine ⟨⟨List.forall_mem_cons.mpr ⟨moves.element, fun m member => ?_⟩,
    List.pairwise_cons.mpr ⟨fun m member => ⟨?_, ?_⟩, others.imp fun h => h.frame frame⟩⟩, same⟩
  · -- the others are the elements they were
    refine (h.element m (List.mem_cons_of_mem _ member)).congr fun id inlines => ?_
    rw [same m member id inlines.has]
    exact .refl _
  · -- they do not reach what was kept for the new element only now
    obtain ⟨P, closed, within, outside⟩ := (apart m member).1
    refine ⟨P, closed.frame frame, within, fun id has here => ?_⟩
    rcases moves.panes id has with old | fresh
    · exact outside id old here
    · exact Nat.not_le_of_lt (closed id here).1 fresh
  · -- and work on the new one stayed where the old one led
    obtain ⟨P, closed, within, outside⟩ := (apart m member).2
    obtain ⟨after, frame, within'⟩ := stays _ (closed.isOpen sound) (within.mono fun _ => .inl)
    refine ⟨_, closed.grown frame after, within', fun id has inside => ?_⟩
    rcases inside with old | fresh
    · exact outside id has old
    · exact Nat.not_le_of_lt (shown m member id has) fresh.1

/-! ## Fit listings -/

/-- **A listing as the engine makes it and work on it leaves it**, if it is not
shown through registers. -/
inductive Fit (s : Session σ ν) : Listing ν → Prop
  | element {l : Listing ν} (element : Element s l) : Fit s l
  | pointee {c : Context ν} {pointer : SmartPointer} {failure : Option (Variable ν)}
      {inner : Option (Listing ν)} (found : failure = none → ∀ l ∈ inner, Fit s l) :
      Fit s (.pointee c pointer failure inner)
  | group {owner : Variable ν} {members : List (Listing ν)} {hideRawView : Bool} {limit : Nat}
      (all : Members s members) : Fit s (.group owner members hideRawView limit)
  | ofChild {parent : Variable ν} {index : Nat} {inner : Option (Listing ν)}
      (found : ∀ l ∈ inner, Fit s l) : Fit s (.ofChild parent index inner)

theorem Fit.members {owner : Variable ν} {members : List (Listing ν)} {hideRawView : Bool}
    {limit : Nat} (h : Fit s (.group owner members hideRawView limit)) : Members s members := by
  cases h with
  | element element =>
    cases element with
    | simple simple => exact simple.elim
  | group all => exact all

theorem Fit.pointee_some {c : Context ν} {pointer : SmartPointer} {failure : Option (Variable ν)}
    (h : Fit s l) : Fit s (.pointee c pointer failure (some l)) := by
  refine .pointee fun _ l' here => ?_
  cases here
  exact h

theorem Fit.ofChild_some {parent : Variable ν} {index : Nat} (h : Fit s l) :
    Fit s (.ofChild parent index (some l)) := by
  refine .ofChild fun l' here => ?_
  cases here
  exact h

/-- **A fit listing stays fit** if the listings whose children it inlines stand
by their answers. -/
theorem Fit.congr (h : Fit s l) (frame : s.Frame R s')
    (stands : ∀ id, l.Inlines id → (s.kept id).StandsBy (s'.kept id)) : Fit s' l := by
  induction h with
  | element element => exact .element (element.congr stands)
  | pointee _ ih =>
    refine .pointee fun unfailed l here => ih unfailed l here fun id inlines => stands id ?_
    cases here
    cases unfailed
    exact .pointee inlines
  | group all =>
    exact .group (all.congr frame fun l member id inlines => stands id (.group member inlines))
  | ofChild _ ih =>
    refine .ofChild fun l here => ih l here fun id inlines => stands id ?_
    cases here
    exact .ofChild inlines

/-- A listing is fit unless it shows only a part. -/
def Sane (s : Session σ ν) (l : Listing ν) : Prop := ¬ l.Partial s → Fit s l

/-- The members of a group are fit unless one of them shows only a part. -/
def SaneAll (s : Session σ ν) (ls : List (Listing ν)) : Prop := ¬ AnyPartial s ls → Members s ls

/-- Work that leaves the kept listings alone leaves members as they were. -/
theorem SaneAll.quiet (h : SaneAll s ls) (same : s'.listings = s.listings) : SaneAll s' ls := by
  intro whole
  have members := h fun ⟨l, member, part⟩ =>
    whole ⟨l, member, part.frame (.of_listings_eq (R := .known) same)⟩
  exact members.congr (.of_listings_eq (R := .known) same) fun _ _ id _ => stands_of_eq same id

end Listing

end WatchView
