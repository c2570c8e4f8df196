import WatchView.Proofs.Listing.Held
/-!
# What lasts

What a listing holds can be told later as well, while the listing and the kept lists that
it shows have found out no less: `Upholds`. It is put together from the parts of a listing
(`Upholds.passed`, `UpholdAll.group`), and from the kept lists behind its pages
(`upholds_page`, `upholds_of_kept`).
-/

namespace WatchView.Listing

open Bounded

variable {σ ν : Type} {d : Inspector σ ν} {s₀ s s' s'' : Session σ ν} {l l' l'' : Listing ν}
  {bound : Nat}

/-- **What was found out of a listing lasts** while the session and the listing
change: what a window showed in the session `s₀` is told of the new ones as well. -/
structure Upholds (d : Inspector σ ν) (s₀ : Session σ ν) (bound : Nat) (s s' : Session σ ν)
    (l l' : Listing ν) : Prop where
  answer : ∀ n b, Answered s bound l n b → ∃ b', Answered s' bound l' n b'
  said : ∀ b b', Said s₀ s bound l b b' → ∃ b'', Said s₀ s' bound l' b b''
  rows : ∀ start count rows rows', Held d s₀ s bound l start count rows rows' →
    ∃ rows'', Held d s₀ s' bound l' start count rows rows''

theorem Upholds.refl (d : Inspector σ ν) (s₀ : Session σ ν) (bound : Nat) (s : Session σ ν)
    (l : Listing ν) : Upholds d s₀ bound s s l l :=
  ⟨fun _ b h => ⟨b, h⟩, fun _ b' h => ⟨b', h⟩, fun _ _ _ rows' h => ⟨rows', h⟩⟩

theorem Upholds.trans (h : Upholds d s₀ bound s s' l l') (h' : Upholds d s₀ bound s' s'' l' l'') :
    Upholds d s₀ bound s s'' l l'' where
  answer n b answered := by
    obtain ⟨b', answered⟩ := h.answer n b answered
    exact h'.answer n b' answered
  said b b' said := by
    obtain ⟨b'', said⟩ := h.said b b' said
    exact h'.said b b'' said
  rows start count rows rows' held := by
    obtain ⟨rows'', held⟩ := h.rows start count rows rows' held
    exact h'.rows start count rows rows'' held

/-- Nothing was found out of a listing that holds nothing. -/
theorem upholds_of_nothing (unanswered : ∀ n b, ¬ Answered s bound l n b)
    (unheld : ∀ start count rows rows', ¬ Held d s₀ s bound l start count rows rows') :
    Upholds d s₀ bound s s' l l' where
  answer n b h := absurd h (unanswered n b)
  said _ _ h := absurd h.1.choose_spec (unanswered _ _)
  rows _ _ _ _ h := absurd h (unheld _ _ _ _)

/-! ## Pages -/

theorem PageSupplies.endures {id offset size start count remaining : Nat}
    {rows : List (Variable ν)}
    (h : l.PageSupplies bound id offset size start count remaining rows)
    (endures : l.Endures l') :
    l'.PageSupplies bound id offset size start count remaining rows := by
  unfold PageSupplies at h ⊢
  dsimp only at h ⊢
  split
  · rename_i past
    rwa [if_pos past] at h
  · rename_i before
    rw [if_neg before] at h
    obtain ⟨shown, here, rfl⟩ := h
    refine ⟨shown, ?_, rfl⟩
    split
    · rename_i inside
      rw [if_pos inside] at here
      exact endures.supplies _ _ _ _ here
    · rename_i outside
      rwa [if_neg outside] at here

/-- **What a page holds lasts** if its list endures. -/
theorem upholds_page {id offset size : Nat} (before : (s₀.kept id).IsShort → (s.kept id).IsShort)
    (endures : (s.kept id).Covers offset size → (s.kept id).Endures (s'.kept id)) :
    Upholds d s₀ bound s s' (.page id offset size) (.page id offset size) where
  answer n b h := by
    cases h with
    | simple simple => exact simple.elim
    | page known covers =>
      have endures := endures covers
      obtain ⟨b', known', -⟩ := endures.answer _ _ known
      exact ⟨b', .page known' (endures.covers covers)⟩
  said b b' h := by
    obtain ⟨⟨n, h⟩, lasts⟩ := h
    cases h with
    | simple simple => exact simple.elim
    | page known covers =>
      have endures := endures covers
      obtain ⟨b'', known', lasts'⟩ := endures.answer _ _ known
      have lasts : (s₀.kept id).Lasts (s.kept id) b b' := lasts
      exact ⟨b'', ⟨_, .page known' (endures.covers covers)⟩,
        lasts.trans lasts' before endures.short⟩
  rows start count rows rows' h := by
    cases bound with
    | zero => exact h.elim
    | succ bound =>
      cases h with
      | own leaf => exact (leaf.elim (fun h => h) fun h => h).elim
      | passed passes => cases passes
      | page known covers here =>
        have endures := endures covers
        obtain ⟨b', known', -⟩ := endures.answer _ _ known
        exact ⟨rows, .page known' (endures.covers covers) (here.endures endures)⟩

/-! ## Groups -/

/-- What was found out of each member lasts. -/
def UpholdAll (d : Inspector σ ν) (s₀ : Session σ ν) (bound : Nat) (s s' : Session σ ν)
    (ls ls' : List (Listing ν)) : Prop :=
  List.Forall₂ (Upholds d s₀ bound s s') ls ls'

theorem UpholdAll.trans {ls ls' ls'' : List (Listing ν)} (h : UpholdAll d s₀ bound s s' ls ls')
    (h' : UpholdAll d s₀ bound s' s'' ls' ls'') : UpholdAll d s₀ bound s s'' ls ls'' := by
  induction h generalizing ls'' with
  | nil =>
    cases h'
    exact .nil
  | cons first _ ih =>
    cases h' with
    | cons first' others' => exact .cons (first.trans first') (ih others')

theorem Between.upholds {start stop offset last : Nat} {ls ls' : List (Listing ν)}
    {rows rows' : List (Variable ν)} (all : UpholdAll d s₀ bound s s' ls ls')
    (h : Between (Answered s bound) (Held d s₀ s bound) start stop offset ls rows rows' last) :
    ∃ rows'', Between (Answered s' bound) (Held d s₀ s' bound) start stop offset ls' rows rows''
      last := by
  induction h generalizing ls' with
  | nil =>
    cases all
    exact ⟨[], .nil⟩
  | past past =>
    cases all
    exact ⟨[], .past past⟩
  | skipped before counted away _ ih =>
    cases all with
    | cons first others =>
      obtain ⟨b', counted'⟩ := first.answer _ _ counted
      obtain ⟨rows'', rest⟩ := ih others
      exact ⟨rows'', .skipped before counted' away rest⟩
  | shown before counted inside here _ ih =>
    cases all with
    | cons first others =>
      obtain ⟨b', counted'⟩ := first.answer _ _ counted
      obtain ⟨own, here'⟩ := first.rows _ _ _ _ here
      obtain ⟨rows'', rest⟩ := ih others
      exact ⟨own ++ rows'', .shown before counted' inside here' rest⟩

/-- What the members said then, they said. -/
theorem UpholdAll.said {ls ls' : List (Listing ν)} {said : List (Bool × Bool)}
    (all : UpholdAll d s₀ bound s s' ls ls')
    (h : List.Forall₂ (fun l a => Said s₀ s bound l a.1 a.2) ls said) :
    ∃ said' : List (Bool × Bool),
      List.Forall₂ (fun l a => Said s₀ s' bound l a.1 a.2) ls' said' ∧
        said'.all Prod.fst = said.all Prod.fst := by
  induction h generalizing ls' with
  | nil =>
    cases all
    exact ⟨[], .nil, rfl⟩
  | @cons l a ls said here _ ih =>
    cases all with
    | cons first others =>
      obtain ⟨b, here'⟩ := first.said _ _ here
      obtain ⟨said', rest, same⟩ := ih others
      exact ⟨(a.1, b) :: said', .cons here' rest, by rw [List.all_cons, List.all_cons, same]⟩

/-- The row of a raw value that was hidden, and is so still or comes up. -/
theorem exists_withRaw_of_hid {owner : Variable ν} {hideRawView : Bool}
    {members : List (Listing ν)} {reached : Prop} {rows rows' : List (Variable ν)}
    {said : List (Bool × Bool)} (here : reached)
    (all : List.Forall₂ (fun l a => Said s₀ s bound l a.1 a.2) members said)
    (hid : (hideRawView && said.all Prod.fst) = true) :
    ∃ all', WithRaw d (Said s₀ s bound) owner hideRawView members reached rows rows' rows all' := by
  cases now : said.all Prod.snd with
  | true =>
    rw [Bool.and_eq_true] at hid
    exact ⟨rows', .hidden here all (by rw [hid.1, now]; rfl)⟩
  | false => exact ⟨_, .appears here all hid now s.target⟩

theorem WithRaw.upholds {owner : Variable ν} {hideRawView : Bool}
    {members members' : List (Listing ν)} {reached : Prop}
    {rows rows' rows'' all all' : List (Variable ν)}
    (uphold : UpholdAll d s₀ bound s s' members members')
    (h : WithRaw d (Said s₀ s bound) owner hideRawView members reached rows rows' all all') :
    ∃ all'', WithRaw d (Said s₀ s' bound) owner hideRawView members' reached rows rows''
      all all'' := by
  cases h with
  | away away => exact ⟨rows'', .away away⟩
  | @hidden answers here said hides =>
    obtain ⟨said', all', same⟩ := uphold.said said
    refine exists_withRaw_of_hid here all' ?_
    -- what is hidden now was so then
    rw [same]
    rw [Bool.and_eq_true] at hides ⊢
    refine ⟨hides.1, Bool.of_not_eq_false fun unsound => ?_⟩
    rw [Said.unsound said unsound] at hides
    cases hides.2
  | raw here said showed t t' =>
    obtain ⟨said', all', same⟩ := uphold.said said
    exact ⟨_, .raw here all' (by rw [same, showed]) t t'⟩
  | appears here said hid =>
    obtain ⟨said', all', same⟩ := uphold.said said
    exact exists_withRaw_of_hid here all' (by rw [same, hid])

/-- **What was found out of a group lasts** if that of its members does. -/
theorem UpholdAll.group {members members' : List (Listing ν)}
    (all : UpholdAll d s₀ bound s s' members members') (owner : Variable ν) (hideRawView : Bool)
    (limit limit' : Nat) :
    Upholds d s₀ (bound + 1) s s' (.group owner members hideRawView limit)
      (.group owner members' hideRawView limit') where
  answer n b h := by
    cases h with
    | simple simple => exact simple.elim
  said b b' h := by
    obtain ⟨⟨n, h⟩, -⟩ := h
    cases h with
    | simple simple => exact simple.elim
  rows start count rows rows' h := by
    cases h with
    | own leaf => exact (leaf.elim id id).elim
    | passed passes => cases passes
    | group between raw =>
      obtain ⟨rows'', between'⟩ := between.upholds all
      obtain ⟨all', raw'⟩ := raw.upholds all
      exact ⟨all', .group between' raw'⟩

/-! ## Listings that pass on the children of another -/

theorem upholds_leaf (leaf : l.IsLeaf) (leaf' : l'.IsLeaf) (simple : l.Simple → l'.Simple)
    (endures : l.Endures l') : Upholds d s₀ bound s s' l l' where
  answer n b h := by
    cases h with
    | simple here known =>
      obtain ⟨b', known', -⟩ := endures.answer n b known
      exact ⟨b', .simple (simple here) known'⟩
    | _ => exact (leaf.elim id id).elim
  said b b' h := by
    obtain ⟨⟨n, h⟩, same⟩ := h
    cases h with
    | simple here known =>
      obtain ⟨b'', known', lasts⟩ := endures.answer n b' known
      obtain rfl : b'' = b' :=
        lasts.resolve_right fun turned => (simple here).not_isShort turned.1.2
      exact ⟨b'', ⟨n, .simple (simple here) known'⟩,
        .inl (same.resolve_right fun lost => here.not_lostSince lost.1)⟩
    | _ => exact (leaf.elim id id).elim
  rows start count rows rows' h := by
    cases bound with
    | zero => exact h.elim
    | succ bound =>
      cases h with
      | own _ here => exact ⟨rows, .own leaf' (endures.supplies _ _ _ _ here)⟩
      | passed passes => exact (passes.not_isLeaf leaf).elim
      | _ => exact (leaf.elim id id).elim

/-- **What was found out of the children that a listing passes on** lasts in it. -/
theorem Upholds.passed {outer outer' : Listing ν} (h : Upholds d s₀ bound s s' l l')
    (passes : PassesOn l l' outer outer') : Upholds d s₀ (bound + 1) s s' outer outer' where
  answer m b answered := by
    cases answered with
    | simple simple => exact (passes.not_isLeaf (.inl simple)).elim
    | page => cases passes
    | inlined =>
      cases passes with
      | inlined => exact ⟨_, .inlined⟩
  said b b' said := by
    obtain ⟨⟨n, answered⟩, same⟩ := said
    cases answered with
    | simple simple => exact (passes.not_isLeaf (.inl simple)).elim
    | page => cases passes
    | inlined =>
      cases passes with
      | inlined => exact ⟨_, ⟨_, .inlined⟩, .inl (same.resolve_right fun lost => lost.1)⟩
  rows start count rows rows' held := by
    cases held with
    | own leaf => exact (passes.not_isLeaf leaf).elim
    | passed before found =>
      cases passes.inner_eq before
      obtain ⟨rows'', found'⟩ := h.rows _ _ _ _ found
      exact ⟨rows'', .passed passes.after found'⟩
    | _ => cases passes

/-- A listing that passes on the children of another, before it has found that. -/
inductive Unasked : Listing ν → Prop
  | inlined {c : Context ν} {rule : ExpandedItemRule} {inner : Option (Listing ν)} :
      Unasked (.inlined c rule none inner)
  | pointee {c : Context ν} {pointer : SmartPointer} : Unasked (.pointee c pointer none none)
  | ofChild {parent : Variable ν} {index : Nat} : Unasked (.ofChild parent index none)

theorem Unasked.upholds (h : l.Unasked) : Upholds d s₀ bound s s' l l' := by
  refine upholds_of_nothing (fun n b answered => ?_) fun start count rows rows' held => ?_
  · cases answered with
    | simple simple =>
      cases h with
      | _ => exact simple.elim
    | page => cases h
    | inlined => cases h
  · cases bound with
    | zero => exact held.elim
    | succ bound =>
      cases held with
      | own leaf =>
        cases h with
        | _ => exact (leaf.elim id id).elim
      | passed passes =>
        cases passes with
        | _ => cases h
      | _ => cases h

/-! ## All kinds -/

/-- **What was found out of a listing lasts while what it shows does.** -/
theorem upholds_of_kept (before : s₀.KeepsShort s)
    (endures : ∀ id, l.Has (.page id) → (s.kept id).Endures (s'.kept id)) :
    Upholds d s₀ bound s s' l l := by
  induction bound generalizing l with
  | zero => exact upholds_of_nothing (fun _ _ h => nomatch h) fun _ _ _ _ h => h.elim
  | succ bound ih =>
    have page {bound id offset size : Nat} (has : l.Has (.page id)) :
        Upholds d s₀ bound s s' (.page id offset size) (.page id offset size) :=
      upholds_page (before id) fun _ => endures id has
    refine ⟨fun n b h => ?_, fun b b' h => ?_, fun start count rows rows' h => ?_⟩
    · cases h with
      | simple simple known => exact ⟨b, .simple simple known⟩
      | page known covers => exact (page (.page rfl)).answer _ _ (.page known covers)
      | inlined => exact ⟨_, .inlined⟩
    · obtain ⟨⟨n, answered⟩, said⟩ := h
      cases answered with
      | simple simple known =>
        refine ⟨b', ⟨n, .simple simple known⟩, .inl (said.resolve_right fun lost => ?_)⟩
        exact simple.not_lostSince lost.1
      | page known covers => exact (page (.page rfl)).said _ _ ⟨⟨_, .page known covers⟩, said⟩
      | inlined => exact ⟨_, ⟨_, .inlined⟩, .inl (said.resolve_right fun lost => lost.1)⟩
    · cases h with
      | own leaf here => exact ⟨rows, .own leaf here⟩
      | page known covers here => exact (page (.page rfl)).rows _ _ _ _ (.page known covers here)
      | failed => exact ⟨_, .failed⟩
      | absent => exact ⟨_, .absent⟩
      | failure => exact ⟨_, .failure⟩
      | passed passes found =>
        have inner : Upholds d s₀ bound s s' _ _ := ih fun id has => endures id (passes.has has)
        exact (inner.passed passes).rows _ _ _ _ (.passed passes found)
      | @group _ _ _ _ owner members hideRawView limit _ _ _ _ between raw =>
        have all : UpholdAll d s₀ bound s s' members members :=
          List.forall₂_same.mpr fun l member => ih fun id has => endures id (.group member has)
        exact (all.group owner hideRawView limit limit).rows _ _ _ _ (.group between raw)

end WatchView.Listing
