import Mathlib.Logic.Relation
import WatchView.Proofs.Listing.Settled
/-!
# What a question does

A listing is asked for the number of its children, for a window of them, or
whether all can be had. Each is a turn of that listing. Most kinds pass it on:
a page asks the list it shows, a group its members, and a listing that stands
for another asks that one. `Becomes` says for each kind what a turn may do, in
terms of the turns one level further on (`Reach.Turn.becomes`).
-/

namespace WatchView

open Bounded Relation

variable {σ ν α : Type}

/-- **One question to a listing**, whichever it is. -/
inductive Reach.Turn (reach : Reach σ ν) :
    Session σ ν × Listing ν → Session σ ν × Listing ν → Prop
  | count {s s' : Session σ ν} {l l' : Listing ν} {n : Nat}
      (ended : reach.count l s = .ok ((n, l'), s')) : Turn reach (s, l) (s', l')
  | rows {s s' : Session σ ν} {l l' : Listing ν} {start count : Nat} {rows : List (Variable ν)}
      (ended : reach.rows l start count s = .ok ((rows, l'), s')) : Turn reach (s, l) (s', l')
  | isSound {s s' : Session σ ν} {l l' : Listing ν} {sound : Bool}
      (ended : reach.isSound l s = .ok ((sound, l'), s')) : Turn reach (s, l) (s', l')

theorem Reach.not_turn_nowhere {p q : Session σ ν × Listing ν} :
    ¬ (nowhere : Reach σ ν).Turn p q := by
  intro turn
  cases turn with
  | count ended => cases ended
  | rows ended => cases ended
  | isSound ended => cases ended

/-- A listing that pages share goes on in its turn, and leaves the others alone. -/
theorem Reach.Asks.turn {reach : Reach σ ν} (asks : reach.Asks) {s s' : Session σ ν}
    {l l' : Listing ν} (turn : reach.Turn (s, l) (s', l')) (valid : l.Valid) :
    s'.listings = s.listings ∧ l.Onward l' := by
  cases turn with
  | count ended =>
    obtain ⟨same, onward, -⟩ := asks.count l s valid _ _ ended
    exact ⟨same, onward⟩
  | rows ended =>
    obtain ⟨same, onward, -⟩ := asks.rows l s _ _ valid _ _ ended
    exact ⟨same, onward⟩
  | isSound ended =>
    obtain ⟨same, onward, -⟩ := asks.isSound l s valid _ _ ended
    exact ⟨same, onward⟩

namespace Listing

/-- A listing that passes on no question. -/
def IsOwn : Listing ν → Prop
  | inlined .. => False
  | pointee .. => False
  | group .. => False
  | page .. => False
  | registers .. => False
  | ofChild .. => False
  | _ => True

/-- One member of a group is asked. -/
inductive MemberTurn (reach : Reach σ ν) :
    Session σ ν × List (Listing ν) → Session σ ν × List (Listing ν) → Prop
  | asked {s s' : Session σ ν} {before behind : List (Listing ν)} {l l' : Listing ν}
      (turn : reach.Turn (s, l) (s', l')) :
      MemberTurn reach (s, before ++ l :: behind) (s', before ++ l' :: behind)

/-- The list a page shows is asked, perhaps for more children than before. -/
inductive PageTurn (reach : Reach σ ν) (id offset size : Nat) :
    Session σ ν → Session σ ν → Prop
  | asked {s s' : Session σ ν} {l l' : Listing ν}
      (here : l = s.kept id ∨
        offset + size + 1 < wordCount ∧ l = (s.kept id).raisedFor offset size)
      (turn : reach.Turn (s, l) (s', l')) :
      PageTurn reach id offset size s { s' with listings := s'.listings.setIfInBounds id l' }

/-- **What a listing and the session become in one turn.** -/
inductive Becomes (engine : Engine σ ν) (bound : Nat) :
    Session σ ν × Listing ν → Session σ ν × Listing ν → Prop
  | own {s s' : Session σ ν} {l l' : Listing ν} (own : l.IsOwn)
      (turn : (engine.reach (bound + 1)).Turn (s, l) (s', l')) : Becomes engine bound (s, l) (s', l')
  | page {s s' : Session σ ν} {id offset size : Nat}
      (turns : ReflTransGen (PageTurn (engine.reach bound) id offset size) s s') :
      Becomes engine bound (s, .page id offset size) (s', .page id offset size)
  /-- The children of a value are found and counted. -/
  | inlined {s s₁ : Session σ ν} {c : Context ν} {rule : ExpandedItemRule}
      {standing : Option (Standing ν)} {inner inner₁ : Option (Listing ν)} {st : Standing ν}
      (settled : settledInlined engine (engine.reach bound) c rule standing inner s =
        .ok ((st, inner₁), s₁)) :
      Becomes engine bound (s, .inlined c rule standing inner) (s₁, .inlined c rule (some st) inner₁)
  /-- And then asked for. -/
  | inner {s s₁ s₂ : Session σ ν} {c : Context ν} {rule : ExpandedItemRule}
      {standing : Option (Standing ν)} {inner : Option (Listing ν)} {n : Nat} {l l' : Listing ν}
      (settled : settledInlined engine (engine.reach bound) c rule standing inner s =
        .ok ((.counted n, some l), s₁))
      (turn : (engine.reach bound).Turn (s₁, l) (s₂, l')) :
      Becomes engine bound (s, .inlined c rule standing inner)
        (s₂, .inlined c rule (some (.counted n)) (some l'))
  /-- What a pointer points to cannot be had. -/
  | failure {s s₁ : Session σ ν} {c : Context ν} {pointer : SmartPointer}
      {failure : Option (Variable ν)} {inner : Option (Listing ν)} {row : Variable ν}
      (resolved : resolvedPointee engine c pointer failure inner s = (.error row, s₁)) :
      Becomes engine bound (s, .pointee c pointer failure inner)
        (s₁, .pointee c pointer (some row) inner)
  | pointee {s s₁ s₂ : Session σ ν} {c : Context ν} {pointer : SmartPointer}
      {failure : Option (Variable ν)} {inner : Option (Listing ν)} {l l' : Listing ν}
      (resolved : resolvedPointee engine c pointer failure inner s = (.ok l, s₁))
      (turn : ReflGen (engine.reach bound).Turn (s₁, l) (s₂, l')) :
      Becomes engine bound (s, .pointee c pointer failure inner)
        (s₂, .pointee c pointer failure (some l'))
  | group {s s' : Session σ ν} {owner : Variable ν} {members members' : List (Listing ν)}
      {hideRawView : Bool} {limit : Nat}
      (turns : ReflTransGen (MemberTurn (engine.reach bound)) (s, members) (s', members')) :
      Becomes engine bound (s, .group owner members hideRawView limit)
        (s', .group owner members' hideRawView limit)
  | registers {s s' : Session σ ν} {n : Nat} {l l' : Listing ν}
      (turn : ReflGen (engine.reach bound).Turn (s, l) (s', l')) :
      Becomes engine bound (s, .registers n l) (s', .registers n l')
  /-- A child is not looked for when only its soundness is asked. -/
  | unasked {s : Session σ ν} {parent : Variable ν} {index : Nat} {inner : Option (Listing ν)} :
      Becomes engine bound (s, .ofChild parent index inner) (s, .ofChild parent index inner)
  | ofChild {s s₁ s₂ : Session σ ν} {parent : Variable ν} {index : Nat}
      {inner : Option (Listing ν)} {l l' : Listing ν}
      (resolved : resolvedChild engine (engine.reach bound) parent index inner s = .ok (l, s₁))
      (turn : (engine.reach bound).Turn (s₁, l) (s₂, l')) :
      Becomes engine bound (s, .ofChild parent index inner) (s₂, .ofChild parent index (some l'))

/-! ## Members of a group -/

section Groups

variable {reach : Reach σ ν}

/-- The turns of some members are turns of all. -/
theorem MemberTurn.among {p q : Session σ ν × List (Listing ν)} (before : List (Listing ν))
    (turn : MemberTurn reach p q) : MemberTurn reach (p.1, before ++ p.2) (q.1, before ++ q.2) := by
  cases turn with
  | asked turn =>
    dsimp only
    rw [← List.append_assoc, ← List.append_assoc]
    exact .asked turn

theorem memberTurns_among {p q : Session σ ν × List (Listing ν)} (before : List (Listing ν))
    (turns : ReflTransGen (MemberTurn reach) p q) :
    ReflTransGen (MemberTurn reach) (p.1, before ++ p.2) (q.1, before ++ q.2) := by
  induction turns with
  | refl => exact .refl
  | tail _ turn ih => exact ih.tail (turn.among before)

/-- A turn of the first member, and then turns of the others. -/
theorem memberTurns_cons {s s₁ s₂ : Session σ ν} {l l₁ : Listing ν} {ls ls₂ : List (Listing ν)}
    (first : reach.Turn (s, l) (s₁, l₁))
    (others : ReflTransGen (MemberTurn reach) (s₁, ls) (s₂, ls₂)) :
    ReflTransGen (MemberTurn reach) (s, l :: ls) (s₂, l₁ :: ls₂) := by
  have head : MemberTurn reach (s, [] ++ l :: ls) (s₁, [] ++ l₁ :: ls) := .asked first
  exact .head head (memberTurns_among [l₁] others)

theorem turns_countAll (ls : List (Listing ν)) (s : Session σ ν) :
    Ensures (countAll reach ls) s fun r s' =>
      ReflTransGen (MemberTurn reach) (s, ls) (s', r.2) := by
  induction ls generalizing s with
  | nil => exact ensures_pure_iff.mpr .refl
  | cons l ls ih =>
    refine ensures_bind_iff.mpr fun r s₁ ended => ?_
    refine (ih s₁).bind fun r' s₂ others => ensures_pure_iff.mpr ?_
    exact memberTurns_cons (.count ended) others

theorem turns_allSound (ls : List (Listing ν)) (s : Session σ ν) :
    Ensures (allSound reach ls) s fun r s' =>
      ReflTransGen (MemberTurn reach) (s, ls) (s', r.2) := by
  induction ls generalizing s with
  | nil => exact ensures_pure_iff.mpr .refl
  | cons l ls ih =>
    refine ensures_bind_iff.mpr fun r s₁ ended => ?_
    dsimp only
    split
    · refine (ih s₁).bind fun r' s₂ others => ensures_pure_iff.mpr ?_
      exact memberTurns_cons (.isSound ended) others
    · exact ensures_pure_iff.mpr (memberTurns_cons (.isSound ended) .refl)

theorem turns_showsRaw (hideRawView : Bool) (ls : List (Listing ν)) (s : Session σ ν) :
    Ensures (showsRaw reach hideRawView ls) s fun r s' =>
      ReflTransGen (MemberTurn reach) (s, ls) (s', r.2) := by
  unfold showsRaw
  split
  · exact (turns_allSound ls s).bind fun r s' turns => ensures_pure_iff.mpr turns
  · exact ensures_pure_iff.mpr .refl

theorem turns_groupCount (hideRawView : Bool) (ls : List (Listing ν)) (s : Session σ ν) :
    Ensures (groupCount reach hideRawView ls) s fun r s' =>
      ReflTransGen (MemberTurn reach) (s, ls) (s', r.2) := by
  refine (turns_countAll ls s).bind fun r s₁ counted => ?_
  refine (turns_showsRaw hideRawView r.2 s₁).bind fun r' s₂ asked => ?_
  exact ensures_pure_iff.mpr (counted.trans asked)

theorem turns_rowsBetween (start stop offset : Nat) (ls : List (Listing ν)) (s : Session σ ν) :
    Ensures (rowsBetween reach start stop offset ls) s fun r s' =>
      ReflTransGen (MemberTurn reach) (s, ls) (s', r.2.1) := by
  induction ls generalizing offset s with
  | nil => exact ensures_pure_iff.mpr .refl
  | cons l ls ih =>
    rw [rowsBetween_cons]
    split
    · exact ensures_pure_iff.mpr .refl
    · refine ensures_bind_iff.mpr fun r s₁ ended => ?_
      -- the turns behind the member, once it was asked
      have behind (r' : List (Variable ν) × Listing ν) (s₂ : Session σ ν)
          (turned : ReflTransGen (MemberTurn reach) (s, l :: ls) (s₂, r'.2 :: ls)) :
          Ensures (rowsBehind reach start stop (offset + r.1) ls r') s₂ fun rs s' =>
            ReflTransGen (MemberTurn reach) (s, l :: ls) (s', rs.2.1) := by
        refine (ih _ s₂).bind fun rs s₃ others => ensures_pure_iff.mpr ?_
        exact turned.trans (memberTurns_among [r'.2] others)
      dsimp only
      split
      · refine ensures_bind_iff.mpr fun r' s₂ ended' => behind r' s₂ ?_
        exact (memberTurns_cons (.count ended) .refl).trans (memberTurns_cons (.rows ended') .refl)
      · exact behind ([], r.2) s₁ (memberTurns_cons (.count ended) .refl)

/-- The row of the raw value is made without work. -/
theorem rawView_apply (engine : Engine σ ν) (owner : Variable ν) (s : Session σ ν) :
    (liftM (engine.rawView owner) : Search σ ν (Variable ν)) s =
      .ok (owner.rawView engine.inspector s.target, s) := rfl

theorem turns_groupRows (engine : Engine σ ν) (owner : Variable ν) (hideRawView : Bool)
    (ls : List (Listing ν)) (start count : Nat) (s : Session σ ν) :
    Ensures (groupRows engine reach owner hideRawView ls start count) s fun r s' =>
      ReflTransGen (MemberTurn reach) (s, ls) (s', r.2) := by
  refine (turns_rowsBetween start _ 0 ls s).bind fun r s₁ shown => ?_
  dsimp only
  split
  · refine (turns_showsRaw hideRawView r.2.1 s₁).bind fun r' s₂ asked => ?_
    split
    · refine (ensures_of_eq (rawView_apply engine owner s₂) rfl : Ensures _ s₂ fun _ s' =>
        s' = s₂).bind fun row s' same => ensures_pure_iff.mpr ?_
      exact same ▸ shown.trans asked
    · exact ensures_pure_iff.mpr (shown.trans asked)
  · exact ensures_pure_iff.mpr shown

end Groups

/-! ## Pages -/

section Pages

variable {reach : Reach σ ν} {id offset size : Nat}

theorem turns_withKept {act : Listing ν → Search σ ν (α × Listing ν)} {s : Session σ ν}
    (turn : Ensures (act (s.kept id)) s fun r s' => ∃ l,
      (l = s.kept id ∨ offset + size + 1 < wordCount ∧ l = (s.kept id).raisedFor offset size) ∧
        reach.Turn (s, l) (s', r.2)) :
    Ensures (withKept id act) s fun _ s' => PageTurn reach id offset size s s' := by
  refine ensures_withKept (turn.mono fun r s' h => ?_)
  obtain ⟨l, here, turn⟩ := h
  exact .asked here turn

theorem turns_remaining (s : Session σ ν) :
    Ensures (remaining reach id offset size) s fun _ s' => PageTurn reach id offset size s s' := by
  rw [remaining_eq]
  split
  case isFalse => exact ensures_overflow
  rename_i fits
  refine Ensures.bind (turns_withKept fun r s' ended => ?_) fun n s' turn => ensures_pure_iff.mpr turn
  exact ⟨_, .inr ⟨fits, rfl⟩, .count ended⟩

theorem turns_pageRows (start count : Nat) (s : Session σ ν) :
    Ensures (pageRows reach id offset size start count) s fun _ s' =>
      ReflTransGen (PageTurn reach id offset size) s s' := by
  rw [pageRows_eq]
  split
  case isFalse => exact ensures_overflow
  refine (turns_remaining s).bind fun n s₁ counted => ?_
  unfold exactRows
  dsimp only
  split
  · exact ensures_pure_iff.mpr (.single counted)
  · split
    · have turned : Ensures (withKept id fun l =>
          reach.rows l (offset + start) (min (min (windowEnd start count) (pageLength size n))
            (min n size) - start)) s₁ fun _ s' => PageTurn reach id offset size s₁ s' :=
        turns_withKept fun r s' ended => ⟨_, .inl rfl, .rows ended⟩
      exact turned.bind fun rows s₂ turn =>
        ensures_pure_iff.mpr ((ReflTransGen.single counted).tail turn)
    · exact ensures_pure_iff.mpr (.single counted)

end Pages

end Listing

/-! ## All kinds -/

open Listing

variable {engine : Engine σ ν} {bound : Nat}

/-- A pointer is resolved by work that comes to an end. -/
theorem resolvedPointee_eq {c : Context ν} {pointer : SmartPointer} {failure : Option (Variable ν)}
    {inner : Option (Listing ν)} {s s' : Session σ ν} {r : Except (Variable ν) (Listing ν)}
    (ended : (liftM (resolvedPointee engine c pointer failure inner) : Search σ ν _) s =
      .ok (r, s')) : resolvedPointee engine c pointer failure inner s = (r, s') :=
  Except.ok.inj ended

theorem becomes_countWith (s : Session σ ν) (l : Listing ν) :
    Ensures (countWith engine (engine.reach bound) l) s fun r s' =>
      Becomes engine bound (s, l) (s', r.2) := by
  cases l with
  | inlined c rule standing inner =>
    exact ensures_bind_iff.mpr fun r s₁ settled => ensures_pure_iff.mpr (.inlined settled)
  | pointee c pointer failure inner =>
    refine ensures_bind_iff.mpr fun r s₁ resolved => ?_
    cases r with
    | error row => exact ensures_pure_iff.mpr (.failure (resolvedPointee_eq resolved))
    | ok l =>
      refine ensures_bind_iff.mpr fun r s₂ ended => ensures_pure_iff.mpr ?_
      exact .pointee (resolvedPointee_eq resolved) (.single (.count ended))
  | group owner members hideRawView limit =>
    exact (turns_groupCount hideRawView members s).bind fun r s' turns =>
      ensures_pure_iff.mpr (.group turns)
  | page id offset size =>
    rw [countWith_page_eq]
    split
    · exact (turns_remaining s).bind fun n s' turn => ensures_pure_iff.mpr (.page (.single turn))
    · exact ensures_overflow
  | registers n inner => exact ensures_pure_iff.mpr (.registers .refl)
  | ofChild parent index inner =>
    refine ensures_bind_iff.mpr fun l s₁ resolved => ?_
    exact ensures_bind_iff.mpr fun r s₂ ended => ensures_pure_iff.mpr (.ofChild resolved (.count ended))
  | _ => exact fun r s' ended => .own trivial (.count ended)

theorem becomes_rowsWith (s : Session σ ν) (l : Listing ν) (start count : Nat) :
    Ensures (rowsWith engine (engine.reach bound) start count l) s fun r s' =>
      Becomes engine bound (s, l) (s', r.2) := by
  cases l with
  | inlined c rule standing inner =>
    refine ensures_bind_iff.mpr fun r s₁ settled => ?_
    obtain ⟨n | row, _ | l⟩ := r
    · exact ensures_pure_iff.mpr (.inlined settled)
    · exact ensures_bind_iff.mpr fun r s₂ ended => ensures_pure_iff.mpr (.inner settled (.rows ended))
    · exact ensures_pure_iff.mpr (.inlined settled)
    · exact ensures_pure_iff.mpr (.inlined settled)
  | pointee c pointer failure inner =>
    refine ensures_bind_iff.mpr fun r s₁ resolved => ?_
    cases r with
    | error row => exact ensures_pure_iff.mpr (.failure (resolvedPointee_eq resolved))
    | ok l =>
      refine ensures_bind_iff.mpr fun r s₂ ended => ensures_pure_iff.mpr ?_
      exact .pointee (resolvedPointee_eq resolved) (.single (.rows ended))
  | group owner members hideRawView limit =>
    exact (turns_groupRows engine owner hideRawView members start count s).bind fun r s' turns =>
      ensures_pure_iff.mpr (.group turns)
  | page id offset size =>
    exact (turns_pageRows start count s).bind fun rows s' turns => ensures_pure_iff.mpr (.page turns)
  | registers n inner =>
    exact ensures_bind_iff.mpr fun r s' ended =>
      ensures_pure_iff.mpr (.registers (.single (.rows ended)))
  | ofChild parent index inner =>
    refine ensures_bind_iff.mpr fun l s₁ resolved => ?_
    exact ensures_bind_iff.mpr fun r s₂ ended => ensures_pure_iff.mpr (.ofChild resolved (.rows ended))
  | _ => exact fun r s' ended => .own trivial (.rows ended)

theorem becomes_isSoundWith (s : Session σ ν) (l : Listing ν) :
    Ensures (isSoundWith engine (engine.reach bound) l) s fun r s' =>
      Becomes engine bound (s, l) (s', r.2) := by
  cases l with
  | inlined c rule standing inner =>
    exact ensures_bind_iff.mpr fun r s₁ settled => ensures_pure_iff.mpr (.inlined settled)
  | pointee c pointer failure inner =>
    refine ensures_bind_iff.mpr fun r s₁ resolved => ?_
    cases r with
    | error row => exact ensures_pure_iff.mpr (.failure (resolvedPointee_eq resolved))
    | ok l => exact ensures_pure_iff.mpr (.pointee (resolvedPointee_eq resolved) .refl)
  | group owner members hideRawView limit =>
    exact (turns_allSound members s).bind fun r s' turns => ensures_pure_iff.mpr (.group turns)
  | page id offset size =>
    have turned : Ensures (withKept id (engine.reach bound).isSound) s fun _ s' =>
        PageTurn (engine.reach bound) id offset size s s' :=
      turns_withKept fun r s' ended => ⟨_, .inl rfl, .isSound ended⟩
    exact turned.bind fun b s' turn => ensures_pure_iff.mpr (.page (.single turn))
  | registers n inner =>
    exact ensures_bind_iff.mpr fun r s' ended =>
      ensures_pure_iff.mpr (.registers (.single (.isSound ended)))
  | ofChild parent index inner => exact ensures_pure_iff.mpr .unasked
  | _ => exact fun r s' ended => .own trivial (.isSound ended)

/-- **What one turn does**, in terms of turns one level further on. -/
theorem Reach.Turn.becomes {p q : Session σ ν × Listing ν}
    (turn : (engine.reach (bound + 1)).Turn p q) : Becomes engine bound p q := by
  cases turn with
  | count ended => exact becomes_countWith _ _ _ _ ended
  | rows ended => exact becomes_rowsWith _ _ _ _ _ _ ended
  | isSound ended => exact becomes_isSoundWith _ _ _ _ ended

end WatchView
