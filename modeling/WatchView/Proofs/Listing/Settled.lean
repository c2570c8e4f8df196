import Mathlib.Algebra.GroupWithZero.Nat
import WatchView.Proofs.Listing.Frames
/-!
# Settled listings

A listing is settled (`Settled`) once all that its children come from has an
answer. Asked again it gives the same answer and changes nothing. A window of
it has the rows of the answer, and it stays settled; unless one of its pages
shows a custom list that is short of rows, or it shows registers.
-/

namespace WatchView

open Bounded

variable {σ ν : Type}

/-! ## Listings that stand for themselves -/

/-- A synthetic row as work on it leaves it: there is a row if one is
counted. -/
structure SyntheticListing.Valid (l : SyntheticListing ν) : Prop where
  fresh : l.standing = none → l.row = none
  counted : ∀ n, l.standing = some (.counted n) → l.row.toList.length = n

namespace SyntheticListing

variable (engine : Engine σ ν) (reach : Reach σ ν)

theorem ensures_count (l : SyntheticListing ν) (s : Session σ ν) :
    Ensures (l.count engine reach) s fun r _ =>
      (∃ e, r = (.error e, l)) ∨ ∃ row, r = (.ok 1, { l with row := some row }) := by
  unfold count
  refine Ensures.bind (ensures_true _ s) fun text s₁ _ => ?_
  cases text with
  | error e => exact ensures_pure_iff.mpr (.inl ⟨_, rfl⟩)
  | ok text => exact ensures_pure_iff.mpr (.inr ⟨_, rfl⟩)

/-- A row that was settled stands as it is, and any other is settled. -/
theorem ensures_settled {l : SyntheticListing ν} (valid : l.Valid) (s : Session σ ν) :
    Ensures (l.settled engine reach) s fun r _ =>
      r.2.Valid ∧ r.2.standing = some r.1 ∧ ∀ st, l.standing = some st → r = (st, l) := by
  unfold settled
  split
  · rename_i st here
    refine ensures_pure_iff.mpr ⟨valid, here, fun st' h => ?_⟩
    rw [here] at h
    cases h
    rfl
  · rename_i here
    have settled : Ensures (Standing.settle l.rule.guard
        (liftM (l.context.applies engine.evaluator l.rule.guard) : Search σ ν _)
        (fun l => l.count engine reach) l) s fun (r : Standing ν × SyntheticListing ν) _ =>
          ∀ n, r.1 = .counted n → r.2.row.toList.length = n := by
      -- an element that is not shown counts no rows and has none
      have refused (e : ExpandError) (n : Nat)
          (h : (Standing.ofResult l.rule.guard (.error e) : Standing ν) = .counted n) :
          l.row.toList.length = n := by
        have zero : 0 = n := (Standing.counts_ofError e rfl).counted n h
        rw [valid.fresh here, ← zero]
        rfl
      unfold Standing.settle
      refine Ensures.bind (ensures_true _ s) fun applied s₁ _ => ?_
      rcases applied with e | _ | _
      · exact ensures_pure_iff.mpr (refused _)
      · refine ensures_pure_iff.mpr fun n h => ?_
        cases h
        rw [valid.fresh here]
        rfl
      · refine (l.ensures_count engine reach s₁).bind fun r s₂ h => ensures_pure_iff.mpr ?_
        rcases h with ⟨e, rfl⟩ | ⟨row, rfl⟩
        · exact refused e
        · intro n h
          cases h
          rfl
    refine settled.bind fun r s' h => ensures_pure_iff.mpr ⟨⟨fun unsettled => ?_, fun n hn => ?_⟩, rfl, ?_⟩
    · cases unsettled
    · exact h n (Option.some.inj hn)
    · intro st h
      rw [here] at h
      cases h

end SyntheticListing

namespace Listing

/-- A listing that shows nothing of others, as work on it leaves it. -/
def Simple : Listing ν → Prop
  | fixed _ => True
  | item l => l.Valid
  | synthetic l => l.Valid
  | unsupported _ => True
  | _ => False

/-! ## Settled listings -/

/-- The number of rows of a group whose members have these answers. -/
def groupTotal (hideRawView : Bool) (answers : List (Nat × Bool)) : Nat :=
  (answers.map Prod.fst).sum + if hideRawView && answers.all Prod.snd then 0 else 1

/-- The raw view is one more row, unless it is hidden and all members can be had. -/
theorem groupTotal_eq (hideRawView : Bool) (answers : List (Nat × Bool)) :
    groupTotal hideRawView answers =
      if !(hideRawView && answers.all Prod.snd) then (answers.map Prod.fst).sum + 1
      else (answers.map Prod.fst).sum := by
  unfold groupTotal
  cases hideRawView && answers.all Prod.snd with
  | true => rfl
  | false => rfl

/-- **A listing all of whose children come from what has an answer**, with the
number of children and whether all can be had. -/
inductive Settled (s : Session σ ν) : Listing ν → Nat → Bool → Prop
  | simple {l : Listing ν} {n : Nat} {b : Bool} (simple : l.Simple)
      (known : l.answer? = some (n, b)) : Settled s l n b
  | page {id offset size n : Nat} {b : Bool} (known : (s.kept id).answer? = some (n, b))
      (covers : (s.kept id).Covers offset size) :
      Settled s (.page id offset size) (pageLength size (n - offset)) b
  | failed {c : Context ν} {rule : ExpandedItemRule} {row : Variable ν}
      {inner : Option (Listing ν)} :
      Settled s (.inlined c rule (some (.failed row)) inner) 1 false
  | absent {c : Context ν} {rule : ExpandedItemRule} :
      Settled s (.inlined c rule (some (.counted 0)) none) 0 true
  | inlined {c : Context ν} {rule : ExpandedItemRule} {l : Listing ν} {n : Nat} {b : Bool}
      (found : Settled s l n b) :
      Settled s (.inlined c rule (some (.counted n)) (some l)) n true
  | failure {c : Context ν} {pointer : SmartPointer} {row : Variable ν}
      {inner : Option (Listing ν)} : Settled s (.pointee c pointer (some row) inner) 1 false
  | pointee {c : Context ν} {pointer : SmartPointer} {l : Listing ν} {n : Nat} {b : Bool}
      (found : Settled s l n b) : Settled s (.pointee c pointer none (some l)) n true
  | group {owner : Variable ν} {members : List (Listing ν)} {hideRawView : Bool} {limit : Nat}
      {answers : List (Nat × Bool)} (length : members.length = answers.length)
      (all : ∀ i (h : i < members.length) (h' : i < answers.length),
        Settled s (members.get ⟨i, h⟩) (answers.get ⟨i, h'⟩).1 (answers.get ⟨i, h'⟩).2) :
      Settled s (.group owner members hideRawView limit) (groupTotal hideRawView answers)
        (answers.all Prod.snd)
  | ofChild {parent : Variable ν} {index : Nat} {l : Listing ν} {n : Nat} {b : Bool}
      (found : Settled s l n b) : Settled s (.ofChild parent index (some l)) n true

/-- The members of a group are settled with these answers. -/
def SettledAll (s : Session σ ν) (ls : List (Listing ν)) (answers : List (Nat × Bool)) : Prop :=
  List.Forall₂ (fun l a => Settled s l a.1 a.2) ls answers

theorem SettledAll.group {s : Session σ ν} {members : List (Listing ν)}
    {answers : List (Nat × Bool)} (h : SettledAll s members answers) (owner : Variable ν)
    (hideRawView : Bool) (limit : Nat) :
    Settled s (.group owner members hideRawView limit) (groupTotal hideRawView answers)
      (answers.all Prod.snd) := by
  obtain ⟨length, all⟩ := List.forall₂_iff_get.mp h
  exact .group length all

theorem Settled.members {s : Session σ ν} {owner : Variable ν} {members : List (Listing ν)}
    {hideRawView : Bool} {limit n : Nat} {b : Bool}
    (h : Settled s (.group owner members hideRawView limit) n b) :
    ∃ answers, SettledAll s members answers ∧ n = groupTotal hideRawView answers ∧
      b = answers.all Prod.snd := by
  cases h with
  | simple simple known => exact simple.elim
  | group length all => exact ⟨_, List.forall₂_iff_get.mpr ⟨length, all⟩, rfl, rfl⟩

variable {s s' : Session σ ν} {l : Listing ν} {n : Nat} {b : Bool}

/-- **A settled listing stays settled** if the listings its pages show stand by
their answers. -/
theorem Settled.congr (h : Settled s l n b)
    (stands : ∀ id, l.Has (.page id) → (s.kept id).StandsBy (s'.kept id)) :
    Settled s' l n b := by
  induction h with
  | simple simple known => exact .simple simple known
  | page known covers =>
    have stands := stands _ (.page rfl)
    exact .page (stands.answer _ known) (stands.covers covers)
  | failed => exact .failed
  | absent => exact .absent
  | inlined found ih => exact .inlined (ih fun id has => stands id (.inlined has))
  | failure => exact .failure
  | pointee found ih => exact .pointee (ih fun id has => stands id (.pointee has))
  | group length all ih =>
    refine .group length fun i h h' => ih i h h' fun id has => stands id ?_
    exact .group (List.get_mem _ _) has
  | ofChild found ih => exact .ofChild (ih fun id has => stands id (.ofChild has))

theorem SettledAll.congr {ls : List (Listing ν)} {answers : List (Nat × Bool)}
    (h : SettledAll s ls answers) (stands : ∀ id, (s.kept id).StandsBy (s'.kept id)) :
    SettledAll s' ls answers :=
  h.imp fun _ _ settled => settled.congr fun id _ => stands id

/-! ## Asked again -/

/-- Nothing changes when a listing is put back as it was. -/
theorem set_kept (s : Session σ ν) (id : Nat) :
    ({ s with listings := s.listings.setIfInBounds id (s.kept id) } : Session σ ν) = s := by
  have same : s.listings.setIfInBounds id (s.kept id) = s.listings := by
    refine Array.ext_getElem? fun i => ?_
    rw [Array.getElem?_setIfInBounds]
    split
    · rename_i here
      obtain rfl : id = i := here
      split
      · rename_i inside
        rw [Session.kept, Array.getElem?_eq_getElem inside]
        rfl
      · rename_i outside
        exact (Array.getElem?_eq_none (Nat.le_of_not_lt outside)).symm
    · rfl
  rw [same]

theorem ensures_withKept_same {α : Type} {id : Nat} {a : α}
    {act : Listing ν → Search σ ν (α × Listing ν)}
    (h : Ensures (act (s.kept id)) s fun r s' => r = (a, s.kept id) ∧ s' = s) :
    Ensures (withKept id act) s fun r s' => r = a ∧ s' = s := by
  refine ensures_withKept (h.mono fun r s' same => ?_)
  obtain ⟨rfl, rfl⟩ := same
  exact ⟨rfl, set_kept s' id⟩

/-- A settled listing gives its answer again, and nothing changes. -/
def Again (reach : Reach σ ν) : Prop :=
  ∀ (s : Session σ ν) (l : Listing ν) (n : Nat) (b : Bool), Settled s l n b →
    Ensures (reach.count l) s (fun r s' => r = (n, l) ∧ s' = s) ∧
      Ensures (reach.isSound l) s fun r s' => r = (b, l) ∧ s' = s

section Again

variable {engine : Engine σ ν} {reach : Reach σ ν} (again : Again reach)
  {ls : List (Listing ν)} {answers : List (Nat × Bool)}

section Groups

include again

theorem ensures_countAll (h : SettledAll s ls answers) :
    Ensures (countAll reach ls) s fun r s' => r = ((answers.map Prod.fst).sum, ls) ∧ s' = s := by
  induction h with
  | nil => exact ensures_same _ _
  | cons here rest ih =>
    exact (again _ _ _ _ here).1.bind_same (ih.bind_same (ensures_same _ _))

/-- A listing that passes on the number of another gives it again. -/
theorem ensures_countedOn (wrap : Listing ν → Listing ν) (found : Settled s l n b) :
    Ensures (do
      let (n, l) ← reach.count l
      return (n, wrap l)) s fun r s' => r = (n, wrap l) ∧ s' = s :=
  (again _ _ _ _ found).1.bind_same (ensures_same _ _)

theorem ensures_allSound (h : SettledAll s ls answers) :
    Ensures (allSound reach ls) s fun r s' => r = (answers.all Prod.snd, ls) ∧ s' = s := by
  induction h with
  | nil => exact ensures_same _ _
  | @cons l a ls answers here rest ih =>
    refine (again _ _ _ _ here).2.bind_same ?_
    rw [List.all_cons]
    cases a.2 with
    | true => exact ih.bind_same (ensures_same _ _)
    | false => exact ensures_same _ _

theorem ensures_showsRaw (hideRawView : Bool) (h : SettledAll s ls answers) :
    Ensures (showsRaw reach hideRawView ls) s fun r s' =>
      r = (!(hideRawView && answers.all Prod.snd), ls) ∧ s' = s := by
  cases hideRawView with
  | true => exact (ensures_allSound again h).bind_same (ensures_same _ _)
  | false => exact ensures_same _ _

theorem ensures_groupCount (hideRawView : Bool) (h : SettledAll s ls answers) :
    Ensures (groupCount reach hideRawView ls) s fun r s' =>
      r = (groupTotal hideRawView answers, ls) ∧ s' = s := by
  refine (ensures_countAll again h).bind_same ((ensures_showsRaw again hideRawView h).bind_same ?_)
  rw [groupTotal_eq]
  exact ensures_same _ _

end Groups

section Pages

variable (asks : reach.Asks)

include asks

theorem ensures_remaining {id offset size : Nat} (known : (s.kept id).answer? = some (n, b))
    (covers : (s.kept id).Covers offset size) :
    Ensures (remaining reach id offset size) s fun r s' => r = n - offset ∧ s' = s := by
  rw [remaining_eq, if_pos covers.fits]
  refine Ensures.bind_same (ensures_withKept_same ?_) (ensures_same _ _)
  rw [covers.raised]
  exact (asks.again _ s n b known).1

include again

/-- **A settled listing gives its answer again**, and nothing changes. -/
theorem Settled.ensures_again (h : Settled s l n b) :
    Ensures (countWith engine reach l) s (fun r s' => r = (n, l) ∧ s' = s) ∧
      Ensures (isSoundWith engine reach l) s fun r s' => r = (b, l) ∧ s' = s := by
  cases h with
  | simple simple known =>
    obtain ⟨counted, asked⟩ := asked_again engine reach s known
    exact ⟨ensures_of_eq counted ⟨rfl, rfl⟩, ensures_of_eq asked ⟨rfl, rfl⟩⟩
  | @page id offset size n b known covers =>
    constructor
    · rw [countWith_page_eq, if_pos covers.fits]
      exact (ensures_remaining asks known covers).bind_same (ensures_same _ _)
    · exact Ensures.bind_same (ensures_withKept_same (asks.again _ s n b known).2)
        (ensures_same _ _)
  | failed => exact ⟨ensures_same _ _, ensures_same _ _⟩
  | absent => exact ⟨ensures_same _ _, ensures_same _ _⟩
  | inlined found => exact ⟨ensures_same _ _, ensures_same _ _⟩
  | failure => exact ⟨ensures_same _ _, ensures_same _ _⟩
  | @pointee c pointer l n b found =>
    exact ⟨ensures_countedOn again (fun l => .pointee c pointer none (some l)) found,
      ensures_same _ _⟩
  | @group owner members hideRawView limit answers length all =>
    have settled : SettledAll s members answers := List.forall₂_iff_get.mpr ⟨length, all⟩
    constructor
    · exact (ensures_groupCount again hideRawView settled).bind_same (ensures_same _ _)
    · exact (ensures_allSound again settled).bind_same (ensures_same _ _)
  | @ofChild parent index l n b found =>
    exact ⟨ensures_countedOn again (fun l => .ofChild parent index (some l)) found,
      ensures_same _ _⟩

end Pages

end Again

theorem again_reach (engine : Engine σ ν) (words : ∀ p, engine.options.get p < wordCount)
    (bound : Nat) : Again (engine.reach bound) := by
  induction bound with
  | zero => exact fun _ _ _ _ _ => ⟨ensures_unfinished, ensures_unfinished⟩
  | succ bound ih => exact fun _ _ _ _ settled =>
      settled.ensures_again ih (engine.asks_reach words bound)

end Listing

end WatchView
