import WatchView.Proofs.Listing.Frames
import WatchView.Proofs.Listing.Windows
import WatchView.Proofs.OneVariable
import Mathlib.Algebra.GroupWithZero.Nat
import Mathlib.Data.List.Forall2
/-!
# A group shows its members one after the other

A group counts its members on the way through a window, and stops when the
window ends. Where the row of the raw value stands is told by how far it has
come. Still the window is clipped from one list: the rows of all members in
turn, and the row of the raw value behind them if it is shown
(`groupShown`). Windows that adjoin each other therefore have the rows of
the window they make up, over the ends of members and through empty ones
(`group_concatenates`).

`Stands` says what a group relies on.
-/

namespace WatchView

variable {σ ν α : Type}

/-! ## What a group relies on -/

/-- What a member shows. -/
structure Part (ν : Type) where
  rows : List (Variable ν)
  /-- Whether all of them could be had. -/
  sound : Bool

/-- Listings that stand for parts: in every session to which they may lead,
they count the rows of the part, their windows are clipped from them, and
they are sound if the part is; and all this is so again afterwards. -/
structure Stands (reach : Reach σ ν) (inv : Session σ ν → Prop)
    (standsFor : Listing ν → Part ν → Prop) : Prop where
  count {l : Listing ν} {part : Part ν} {s : Session σ ν} (h : standsFor l part) (hs : inv s) :
    Bounded.Returns (reach.count l) s fun r s' =>
      r.1 = part.rows.length ∧ standsFor r.2 part ∧ inv s'
  window (start count : Nat) {l : Listing ν} {part : Part ν} {s : Session σ ν}
    (h : standsFor l part) (hs : inv s) :
    Bounded.Returns (reach.rows l start count) s fun r s' =>
      r.1 = clip start count part.rows ∧ standsFor r.2 part ∧ inv s'
  isSound {l : Listing ν} {part : Part ν} {s : Session σ ν} (h : standsFor l part) (hs : inv s) :
    Bounded.Returns (reach.isSound l) s fun r s' =>
      r.1 = part.sound ∧ standsFor r.2 part ∧ inv s'

/-! ## What a group shows -/

/-- The rows of all members in turn. -/
def membersShown (parts : List (Part ν)) : List (Variable ν) := parts.flatMap Part.rows

/-- Whether the row of the raw value is left out. -/
def hidesRaw (hideRawView : Bool) (parts : List (Part ν)) : Bool :=
  hideRawView && parts.all Part.sound

/-- What a group shows in a state of the debugger, on which the name of the
raw value's row depends. -/
def groupShown (engine : Engine σ ν) (owner : Variable ν) (hideRawView : Bool)
    (parts : List (Part ν)) (target : σ) : List (Variable ν) :=
  membersShown parts ++
    if hidesRaw hideRawView parts then [] else [owner.rawView engine.inspector target]

/-- A cut of two lists in turn is a cut of each. -/
theorem drop_take_append (xs ys : List α) (start stop : Nat) :
    ((xs ++ ys).take stop).drop start =
      (xs.take stop).drop start ++ (ys.take (stop - xs.length)).drop (start - xs.length) := by
  rw [List.take_append, List.drop_append, List.length_take]
  by_cases whole : xs.length ≤ stop
  · rw [Nat.min_eq_right whole]
  · rw [Nat.sub_eq_zero_of_le (by omega : stop ≤ xs.length), List.take_zero, List.drop_nil,
      List.drop_nil]

/-- The window of a member that a window of all members needs. -/
theorem clip_member {start stop offset : Nat} (fits : stop < wordCount) (rows : List α)
    (inside : max start offset < min stop (offset + rows.length)) :
    clip (max start offset - offset)
        (min stop (offset + rows.length) - max start offset) rows =
      (rows.take (stop - offset)).drop (start - offset) := by
  have low : max start offset - offset = start - offset := by omega
  have high : windowEnd (start - offset) (min stop (offset + rows.length) - max start offset) =
      min (stop - offset) rows.length := by
    unfold windowEnd
    omega
  rw [low]
  unfold clip
  rw [high, ← List.take_eq_take_min]

/-- A member outside the window shows nothing in it. -/
theorem drop_take_outside {start stop offset : Nat} (rows : List α)
    (outside : ¬ max start offset < min stop (offset + rows.length)) :
    (rows.take (stop - offset)).drop (start - offset) = [] := by
  rw [List.drop_eq_nil_iff, List.length_take]
  omega

/-- Among fewer rows than there are words, a window is cut by its own end. -/
theorem clip_eq_drop_take {xs : List α} (fits : xs.length < wordCount) (start count : Nat) :
    clip start count xs = (xs.drop start).take count := by
  unfold clip windowEnd
  rw [List.drop_take]
  by_cases saturated : wordCount - 1 < start + count
  · rw [Nat.min_eq_right (by omega), List.take_of_length_le, List.take_of_length_le]
    · rw [List.length_drop]
      omega
    · rw [List.length_drop]
      omega
  · rw [Nat.min_eq_left (by omega), Nat.add_sub_cancel_left]

namespace Stands

open Bounded Listing

/-! ## One request -/

section

variable {reach : Reach σ ν} {inv : Session σ ν → Prop} {standsFor : Listing ν → Part ν → Prop}
  {members : List (Listing ν)} {parts : List (Part ν)} {s : Session σ ν}

theorem returns_countAll (stands : Stands reach inv standsFor)
    (h : List.Forall₂ standsFor members parts) (hs : inv s) :
    Returns (countAll reach members) s fun r s' =>
      r.1 = (membersShown parts).length ∧ List.Forall₂ standsFor r.2 parts ∧ inv s' := by
  induction h generalizing s with
  | nil => exact returns_pure ⟨rfl, .nil, hs⟩
  | @cons l part ls parts first _ ih =>
    unfold countAll
    refine (stands.count first hs).bind ?_
    rintro ⟨n, l'⟩ s₁ ⟨rfl, first', hs₁⟩
    refine (ih hs₁).bind ?_
    rintro ⟨total, ls'⟩ s₂ ⟨rfl, rest', hs₂⟩
    refine returns_pure ⟨?_, .cons first' rest', hs₂⟩
    unfold membersShown
    rw [List.flatMap_cons, List.length_append]

theorem returns_allSound (stands : Stands reach inv standsFor)
    (h : List.Forall₂ standsFor members parts) (hs : inv s) :
    Returns (allSound reach members) s fun r s' =>
      r.1 = parts.all Part.sound ∧ List.Forall₂ standsFor r.2 parts ∧ inv s' := by
  induction h generalizing s with
  | nil => exact returns_pure ⟨rfl, .nil, hs⟩
  | @cons l part ls parts first rest ih =>
    unfold allSound
    refine (stands.isSound first hs).bind ?_
    rintro ⟨sound, l'⟩ s₁ ⟨rfl, first', hs₁⟩
    rw [List.all_cons]
    dsimp only
    cases part.sound with
    | false => exact returns_pure ⟨rfl, .cons first' rest, hs₁⟩
    | true =>
      refine (ih hs₁).bind ?_
      rintro ⟨sound, ls'⟩ s₂ ⟨rfl, rest', hs₂⟩
      exact returns_pure ⟨rfl, .cons first' rest', hs₂⟩

theorem returns_showsRaw (stands : Stands reach inv standsFor) (hideRawView : Bool)
    (h : List.Forall₂ standsFor members parts) (hs : inv s) :
    Returns (showsRaw reach hideRawView members) s fun r s' =>
      r.1 = !hidesRaw hideRawView parts ∧ List.Forall₂ standsFor r.2 parts ∧ inv s' := by
  unfold showsRaw hidesRaw
  cases hideRawView with
  | false => exact returns_pure ⟨rfl, h, hs⟩
  | true =>
    refine (stands.returns_allSound h hs).bind ?_
    rintro ⟨sound, members'⟩ s₁ ⟨rfl, h', hs₁⟩
    exact returns_pure ⟨rfl, h', hs₁⟩

/-- The rows between two positions are cut from the rows of the members. The
members that were looked at end where all members end, or else not before the
end of the window. -/
theorem returns_rowsBetween (stands : Stands reach inv standsFor) (start : Nat) {stop : Nat}
    (fits : stop < wordCount) (offset : Nat) (h : List.Forall₂ standsFor members parts)
    (hs : inv s) :
    Returns (rowsBetween reach start stop offset members) s fun r s' =>
      r.1 = ((membersShown parts).take (stop - offset)).drop (start - offset) ∧
        (r.2.2 = offset + (membersShown parts).length ∨
          stop ≤ r.2.2 ∧ r.2.2 ≤ offset + (membersShown parts).length) ∧
        List.Forall₂ standsFor r.2.1 parts ∧ inv s' := by
  induction h generalizing s offset with
  | nil => exact returns_pure ⟨by simp [membersShown], .inl rfl, .nil, hs⟩
  | @cons l part ls parts first rest ih =>
    have shown : membersShown (part :: parts) = part.rows ++ membersShown parts := rfl
    rw [rowsBetween_cons]
    split
    · rename_i beyond
      refine returns_pure ⟨?_, .inr ⟨beyond, Nat.le_add_right _ _⟩, .cons first rest, hs⟩
      rw [Nat.sub_eq_zero_of_le beyond, List.take_zero, List.drop_nil]
    · refine (stands.count first hs).bind ?_
      rintro ⟨n, l₁⟩ s₁ ⟨rfl, first₁, hs₁⟩
      -- the rows of the other members, behind those of this one in the window
      have others (r : List (Variable ν) × Listing ν) (s₂ : Session σ ν)
          (own : r.1 = (part.rows.take (stop - offset)).drop (start - offset) ∧
            standsFor r.2 part ∧ inv s₂) :
          Returns (rowsBehind reach start stop (offset + part.rows.length) ls r) s₂ fun r s' =>
              r.1 = ((membersShown (part :: parts)).take (stop - offset)).drop (start - offset) ∧
                (r.2.2 = offset + (membersShown (part :: parts)).length ∨
                  stop ≤ r.2.2 ∧ r.2.2 ≤ offset + (membersShown (part :: parts)).length) ∧
                List.Forall₂ standsFor r.2.1 (part :: parts) ∧ inv s' := by
        obtain ⟨rows, l₂⟩ := r
        obtain ⟨rfl, first₂, hs₂⟩ := own
        refine (ih (offset + part.rows.length) hs₂).bind ?_
        rintro ⟨more, ls', last⟩ s₃ ⟨rfl, reached, rest₃, hs₃⟩
        refine returns_pure ⟨?_, ?_, .cons first₂ rest₃, hs₃⟩
        · rw [shown, drop_take_append, ← Nat.sub_sub, ← Nat.sub_sub]
        · rw [shown, List.length_append]
          dsimp only at reached ⊢
          omega
      dsimp only
      split
      · rename_i inside
        rw [← clip_member fits part.rows inside] at others
        exact (stands.window _ _ first₁ hs₁).bind others
      · rename_i outside
        exact others ([], l₁) s₁ ⟨(drop_take_outside part.rows outside).symm, first₁, hs₁⟩

variable (engine : Engine σ ν) (owner : Variable ν) (hideRawView : Bool) (limit : Nat)

/-- **A group counts what it shows.** -/
theorem returns_countWith (stands : Stands reach inv standsFor)
    (h : List.Forall₂ standsFor members parts) (hs : inv s) :
    Returns (countWith engine reach (.group owner members hideRawView limit)) s fun r s' =>
      r.1 = (groupShown engine owner hideRawView parts s'.target).length ∧
        ∃ members', r.2 = .group owner members' hideRawView limit ∧
          List.Forall₂ standsFor members' parts ∧ inv s' := by
  have total : Returns (groupCount reach hideRawView members) s fun r s' =>
      r.1 = (groupShown engine owner hideRawView parts s'.target).length ∧
        List.Forall₂ standsFor r.2 parts ∧ inv s' := by
    unfold groupCount groupShown
    refine (stands.returns_countAll h hs).bind ?_
    rintro ⟨n, members₁⟩ s₁ ⟨rfl, h₁, hs₁⟩
    refine (stands.returns_showsRaw hideRawView h₁ hs₁).bind ?_
    rintro ⟨raw, members₂⟩ s₂ ⟨rfl, h₂, hs₂⟩
    refine returns_pure ⟨?_, h₂, hs₂⟩
    cases hidesRaw hideRawView parts <;> simp
  rw [countWith]
  refine total.bind ?_
  rintro ⟨n, members'⟩ s' ⟨rfl, h', hs'⟩
  exact returns_pure ⟨rfl, members', rfl, h', hs'⟩

/-- **A window of a group is clipped from what the group shows.** -/
theorem returns_rowsWith (stands : Stands reach inv standsFor)
    (h : List.Forall₂ standsFor members parts) (hs : inv s) (start count : Nat) :
    Returns (rowsWith engine reach start count (.group owner members hideRawView limit)) s
      fun r s' =>
        r.1 = clip start count (groupShown engine owner hideRawView parts s'.target) ∧
          ∃ members', r.2 = .group owner members' hideRawView limit ∧
            List.Forall₂ standsFor members' parts ∧ inv s' := by
  have window : Returns (groupRows engine reach owner hideRawView members start count) s
      fun r s' =>
        r.1 = clip start count (groupShown engine owner hideRawView parts s'.target) ∧
          List.Forall₂ standsFor r.2 parts ∧ inv s' := by
    unfold groupRows groupShown clip
    refine (stands.returns_rowsBetween start (windowEnd_lt start count) 0 h hs).bind ?_
    rintro ⟨rows, members₁, last⟩ s₁ ⟨rfl, reached, h₁, hs₁⟩
    dsimp only at reached ⊢
    simp only [drop_take_append, Nat.sub_zero]
    split
    · rename_i beyond
      have beyond : start ≤ last ∧ last < windowEnd start count := by simpa using beyond
      -- the members ended within the window, so the row of the raw value is next
      have behind : last = (membersShown parts).length := by omega
      refine (stands.returns_showsRaw hideRawView h₁ hs₁).bind ?_
      rintro ⟨raw, members₂⟩ s₂ ⟨rfl, h₂, hs₂⟩
      dsimp only
      cases hidesRaw hideRawView parts with
      | true => exact returns_pure ⟨by simp, h₂, hs₂⟩
      | false =>
        have start₀ : start - (membersShown parts).length = 0 := by omega
        refine Returns.bind (P := fun row s' =>
          row = owner.rawView engine.inspector s₂.target ∧ s' = s₂) ⟨_, _, rfl, rfl, rfl⟩ ?_
        rintro row s' ⟨rfl, rfl⟩
        refine returns_pure ⟨?_, h₂, hs₂⟩
        have whole : [owner.rawView engine.inspector s'.target].take
            (windowEnd start count - (membersShown parts).length) =
              [owner.rawView engine.inspector s'.target] := by
          refine List.take_of_length_le ?_
          rw [List.length_singleton]
          omega
        simp only [Bool.false_eq_true, if_false, start₀, List.drop_zero, whole]
    · rename_i covered
      have covered : ¬ (start ≤ last ∧ last < windowEnd start count) := by simpa using covered
      refine returns_pure ⟨?_, h₁, hs₁⟩
      -- the window ends before the row of the raw value or begins behind it
      have none (raw : List (Variable ν)) (single : raw.length ≤ 1) :
          (raw.take (windowEnd start count - (membersShown parts).length)).drop
            (start - (membersShown parts).length) = [] := by
        rw [List.drop_eq_nil_iff, List.length_take]
        omega
      rw [none _ (by split <;> simp), List.append_nil]
  rw [rowsWith]
  refine window.bind ?_
  rintro ⟨rows, members'⟩ s' ⟨rfl, h', hs'⟩
  exact returns_pure ⟨rfl, members', rfl, h', hs'⟩

end

end Stands

/-! ## Adjoining windows -/

namespace Listing

/-- Ask for windows of these widths, each where the one before ends. -/
def adjoining (engine : Engine σ ν) (reach : Reach σ ν) :
    Nat → List Nat → Listing ν → Search σ ν (List (Variable ν) × Listing ν)
  | _, [], l => return ([], l)
  | start, width :: widths, l => do
    let (rows, l) ← rowsWith engine reach start width l
    let (more, l) ← adjoining engine reach (start + width) widths l
    return (rows ++ more, l)

end Listing

theorem length_groupShown_le (engine : Engine σ ν) (owner : Variable ν) (hideRawView : Bool)
    (parts : List (Part ν)) (target : σ) :
    (groupShown engine owner hideRawView parts target).length ≤
      (membersShown parts).length + 1 := by
  unfold groupShown
  rw [List.length_append]
  split <;> simp

/-- A window that ends before the row of the raw value does not depend on it. -/
theorem clip_groupShown_of_le (engine : Engine σ ν) (owner : Variable ν) (hideRawView : Bool)
    (parts : List (Part ν)) {start count : Nat}
    (le : windowEnd start count ≤ (membersShown parts).length) (target : σ) :
    clip start count (groupShown engine owner hideRawView parts target) =
      clip start count (membersShown parts) := by
  unfold groupShown clip
  rw [List.take_append_of_le_length le]

/-- A window that begins behind all rows is empty. -/
theorem clip_groupShown_of_lt (engine : Engine σ ν) (owner : Variable ν) (hideRawView : Bool)
    (parts : List (Part ν)) {start : Nat} (count : Nat)
    (lt : (membersShown parts).length < start) (target : σ) :
    clip start count (groupShown engine owner hideRawView parts target) = [] := by
  have short := length_groupShown_le engine owner hideRawView parts target
  rw [← List.length_eq_zero_iff, length_clip]
  omega

/-- Two windows that adjoin are one. -/
theorem clip_append_clip {start width count : Nat} (fits : start + width + count < wordCount)
    (xs : List α) :
    clip start width xs ++ clip (start + width) count xs = clip start (width + count) xs := by
  have first : windowEnd start width = start + width := by
    unfold windowEnd
    omega
  have both : windowEnd start (width + count) = start + width + count := by
    unfold windowEnd
    omega
  have second : windowEnd (start + width) count = start + width + count := by
    unfold windowEnd
    omega
  unfold clip
  rw [first, both, second, List.drop_take, List.drop_take, List.drop_take, ← List.drop_drop]
  have whole : start + width + count - start = width + count := by omega
  rw [whole, Nat.add_sub_cancel_left, Nat.add_sub_cancel_left, List.take_add]

namespace Stands

open Bounded Listing

variable {reach : Reach σ ν} {inv : Session σ ν → Prop} {standsFor : Listing ν → Part ν → Prop}

/-- **Adjoining windows of a group have the rows of the window they make up**,
the row of the raw value as it was when it was asked for. -/
theorem returns_adjoining (stands : Stands reach inv standsFor) (engine : Engine σ ν)
    (owner : Variable ν) (hideRawView : Bool) (limit : Nat) {parts : List (Part ν)}
    (widths : List Nat) {start : Nat} (fits : start + widths.sum < wordCount)
    {members : List (Listing ν)} (h : List.Forall₂ standsFor members parts)
    {s : Session σ ν} (hs : inv s) :
    Returns (adjoining engine reach start widths (.group owner members hideRawView limit)) s
      fun r s' =>
        (∃ s₁, inv s₁ ∧ r.1 = clip start widths.sum
          (groupShown engine owner hideRawView parts s₁.target)) ∧
        ∃ members', r.2 = .group owner members' hideRawView limit ∧
          List.Forall₂ standsFor members' parts ∧ inv s' := by
  induction widths generalizing start members s with
  | nil =>
    refine returns_pure ⟨⟨s, hs, ?_⟩, members, rfl, h, hs⟩
    rw [List.sum_nil, eq_comm, ← List.length_eq_zero_iff, length_clip]
    unfold windowEnd
    omega
  | cons width widths ih =>
    rw [List.sum_cons] at fits ⊢
    unfold adjoining
    refine (stands.returns_rowsWith engine owner hideRawView limit h hs start width).bind ?_
    rintro ⟨rows, l'⟩ s₁ ⟨rfl, members₁, rfl, h₁, hs₁⟩
    have inside : start + width + widths.sum < wordCount := by omega
    refine (ih inside h₁ hs₁).bind ?_
    rintro ⟨more, l''⟩ s' ⟨⟨s₂, hs₂, rfl⟩, members', rfl, h', hs'⟩
    refine returns_pure ⟨?_, members', rfl, h', hs'⟩
    -- the row of the raw value is in the first window, if not among the others
    by_cases met : (membersShown parts).length < start + width
    · refine ⟨s₁, hs₁, ?_⟩
      rw [← clip_append_clip (by omega),
        clip_groupShown_of_lt engine owner hideRawView parts _ met s₁.target,
        clip_groupShown_of_lt engine owner hideRawView parts _ met s₂.target]
    · have before : windowEnd start width ≤ (membersShown parts).length := by
        unfold windowEnd
        omega
      refine ⟨s₂, hs₂, ?_⟩
      rw [← clip_append_clip (by omega),
        clip_groupShown_of_le engine owner hideRawView parts before s₁.target,
        clip_groupShown_of_le engine owner hideRawView parts before s₂.target]

/-- **A group is its members one after the other.** Let the members stand for
parts. Then the group counts the rows of all parts and the row of the raw
value, which is left out exactly if the rule hides it and all parts are
sound; each of its windows is clipped from these rows, also one that reaches
past the largest word; and windows that adjoin each other, asked for in turn,
have the rows of the window they make up. Each answer comes with a group of
members that stand for the same parts. -/
theorem group_concatenates (stands : Stands reach inv standsFor) (engine : Engine σ ν)
    (owner : Variable ν) (hideRawView : Bool) (limit : Nat) {members : List (Listing ν)}
    {parts : List (Part ν)} (h : List.Forall₂ standsFor members parts)
    {s : Session σ ν} (hs : inv s) :
    Returns (countWith engine reach (.group owner members hideRawView limit)) s (fun r s' =>
      r.1 = (groupShown engine owner hideRawView parts s'.target).length ∧
        ∃ members', r.2 = .group owner members' hideRawView limit ∧
          List.Forall₂ standsFor members' parts ∧ inv s') ∧
    (∀ start count,
      Returns (rowsWith engine reach start count (.group owner members hideRawView limit)) s
        fun r s' =>
          r.1 = clip start count (groupShown engine owner hideRawView parts s'.target) ∧
          ∃ members', r.2 = .group owner members' hideRawView limit ∧
            List.Forall₂ standsFor members' parts ∧ inv s') ∧
    (∀ start widths, start + widths.sum < wordCount →
      Returns (adjoining engine reach start widths (.group owner members hideRawView limit)) s
        fun r s' =>
          (∃ s₁, inv s₁ ∧ r.1 = clip start widths.sum
            (groupShown engine owner hideRawView parts s₁.target)) ∧
          ∃ members', r.2 = .group owner members' hideRawView limit ∧
            List.Forall₂ standsFor members' parts ∧ inv s') ∧
    ∀ start count target, (groupShown engine owner hideRawView parts target).length < wordCount →
      clip start count (groupShown engine owner hideRawView parts target) =
        ((groupShown engine owner hideRawView parts target).drop start).take count :=
  ⟨stands.returns_countWith engine owner hideRawView limit h hs,
    stands.returns_rowsWith engine owner hideRawView limit h hs,
    fun _ widths fits => stands.returns_adjoining engine owner hideRawView limit widths fits h hs,
    fun start count _ fits => clip_eq_drop_take fits start count⟩

end Stands

/-! ## Members that are at hand -/

namespace Listing

open Bounded

/-- Listings that have their rows at hand: those that only hold them, and the
one row of a smart pointer that failed. -/
inductive HoldsRows : Listing ν → Part ν → Prop
  | fixed (rows : List (Variable ν)) : HoldsRows (.fixed rows) ⟨rows, true⟩
  | unsupported (row : Variable ν) : HoldsRows (.unsupported row) ⟨[row], true⟩
  | failed (c : Context ν) (pointer : SmartPointer) (row : Variable ν)
      (inner : Option (Listing ν)) : HoldsRows (.pointee c pointer (some row) inner) ⟨[row], false⟩

/-- They stand for their rows in every session. -/
theorem stands_holdsRows (engine : Engine σ ν) (bound : Nat) :
    Stands (engine.reach (bound + 1)) (fun _ => True) HoldsRows where
  count h _ := by
    cases h with
    | fixed rows => exact ⟨_, _, rfl, rfl, .fixed rows, trivial⟩
    | unsupported row => exact ⟨_, _, rfl, rfl, .unsupported row, trivial⟩
    | failed c pointer row inner => exact ⟨_, _, rfl, rfl, .failed c pointer row inner, trivial⟩
  window start count l part s h _ := by
    cases h with
    | fixed rows => exact ⟨_, _, rfl, rfl, .fixed rows, trivial⟩
    | unsupported row => exact ⟨_, _, rfl, rfl, .unsupported row, trivial⟩
    | failed c pointer row inner => exact ⟨_, _, rfl, rfl, .failed c pointer row inner, trivial⟩
  isSound h _ := by
    cases h with
    | fixed rows => exact ⟨_, _, rfl, rfl, .fixed rows, trivial⟩
    | unsupported row => exact ⟨_, _, rfl, rfl, .unsupported row, trivial⟩
    | failed c pointer row inner => exact ⟨_, _, rfl, rfl, .failed c pointer row inner, trivial⟩

/-- The members of a group whose last one failed. -/
def brokenMembers : List (Listing Unit) :=
  [.fixed [OneVariable.named "a", OneVariable.named "b"], .fixed [],
    .pointee OneVariable.context { value := "p" } (some (.error "gone")) none]

/-- What they stand for. -/
def brokenParts : List (Part Unit) :=
  [⟨[OneVariable.named "a", OneVariable.named "b"], true⟩, ⟨[], true⟩, ⟨[.error "gone"], false⟩]

/-- The raw value is shown although the rule hides it, and the middle window
of three goes over the end of the first member and the empty one. -/
theorem adjoining_brokenMembers :
    ∃ raw l' s', adjoining OneVariable.engine (OneVariable.engine.reach 1) 0 [1, 2, 5]
        (.group OneVariable.it brokenMembers true 0) (OneVariable.session #[]) =
      .ok (([OneVariable.named "a", OneVariable.named "b", .error "gone", raw], l'), s') := by
  have holding : List.Forall₂ HoldsRows brokenMembers brokenParts :=
    .cons (.fixed _) (.cons (.fixed _) (.cons (.failed ..) .nil))
  obtain ⟨-, -, windows, -⟩ := Stands.group_concatenates
    (stands_holdsRows OneVariable.engine 0) OneVariable.engine OneVariable.it true 0 holding
    (s := OneVariable.session #[]) trivial
  obtain ⟨⟨rows, l'⟩, s', asked, ⟨s₁, -, rfl⟩, -⟩ := windows 0 [1, 2, 5] (by decide)
  exact ⟨OneVariable.it.rawView OneVariable.engine.inspector s₁.target, l', s', asked⟩

end Listing

end WatchView
