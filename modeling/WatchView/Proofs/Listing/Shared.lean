import WatchView.Proofs.Listing.CustomWindows
import WatchView.Proofs.Listing.NodeWindows
import WatchView.Proofs.Listing.WordSums
/-!
# Listings that pages share

Four kinds of listings are kept in the session for pages to share. Once such a
listing was asked, it has an answer (`answer?`), which stays the same until
more children are looked for. Its windows have the rows of the answer
(`Valid.ensures_rowsWith`), unless it is short of them. What is kept is
`Valid`, and stays so.
-/

namespace WatchView.Listing

open Bounded

variable {σ ν : Type}

/-! ## Where listings lead -/

/-- **All variables and pages of a listing lead there**, where a custom list is
as its own work leaves it. -/
inductive Within (P : Nat → Prop) : Listing ν → Prop
  | fixed {rows : List (Variable ν)} (led : ∀ row ∈ rows, row.Within P) : Within P (.fixed rows)
  | item {l : ItemListing ν} (led : l.Within P) : Within P (.item l)
  | indexList {l : IndexListing ν} (led : l.Within P) : Within P (.indexList l)
  | array {l : ArrayListing ν} (led : l.Within P) : Within P (.array l)
  | nodes {l : NodeListing ν} (led : l.Within P) : Within P (.nodes l)
  | custom {l : CustomListing ν} (valid : l.Valid) (led : l.Within P) : Within P (.custom l)
  | synthetic {l : SyntheticListing ν} (led : l.Within P) : Within P (.synthetic l)
  | inlined {c : Context ν} {rule : ExpandedItemRule} {standing : Option (Standing ν)}
      {inner : Option (Listing ν)} (settled : ∀ st ∈ standing, st.Within P)
      (found : ∀ l ∈ inner, Within P l) : Within P (.inlined c rule standing inner)
  | pointee {c : Context ν} {pointer : SmartPointer} {failure : Option (Variable ν)}
      {inner : Option (Listing ν)} (owner : c.owner.Within P)
      (failed : ∀ row ∈ failure, row.Within P) (found : ∀ l ∈ inner, Within P l) :
      Within P (.pointee c pointer failure inner)
  | unsupported {row : Variable ν} (led : row.Within P) : Within P (.unsupported row)
  | group {owner : Variable ν} {members : List (Listing ν)} {hideRawView : Bool} {limit : Nat}
      (led : owner.Within P) (all : ∀ l ∈ members, Within P l) :
      Within P (.group owner members hideRawView limit)
  | page {id offset size : Nat} (here : P id) : Within P (.page id offset size)
  | registers {n : Nat} {inner : Listing ν} (led : Within P inner) :
      Within P (.registers n inner)
  | ofChild {parent : Variable ν} {index : Nat} {inner : Option (Listing ν)}
      (led : parent.Within P) (found : ∀ l ∈ inner, Within P l) :
      Within P (.ofChild parent index inner)

theorem within_empty {P : Nat → Prop} : (empty : Listing ν).Within P :=
  .fixed (List.forall_mem_nil _)

theorem Within.mono {P Q : Nat → Prop} {l : Listing ν} (h : ∀ id, P id → Q id)
    (led : l.Within P) : l.Within Q := by
  induction led with
  | fixed led => exact .fixed fun row here => (led row here).mono h
  | item led => exact .item (led.mono h)
  | indexList led => exact .indexList (led.mono h)
  | array led => exact .array (led.mono h)
  | nodes led => exact .nodes (led.mono h)
  | custom valid led => exact .custom valid (led.mono h)
  | synthetic led => exact .synthetic (led.mono h)
  | inlined settled _ ih => exact .inlined (fun st here => (settled st here).mono h) ih
  | pointee owner failed _ ih =>
    exact .pointee (owner.mono h) (fun row here => (failed row here).mono h) ih
  | unsupported led => exact .unsupported (led.mono h)
  | group led _ ih => exact .group (led.mono h) ih
  | page here => exact .page (h _ here)
  | registers _ ih => exact .registers ih
  | ofChild led _ ih => exact .ofChild (led.mono h) ih

/-! ## What is kept -/

/-- The number of children and whether all can be had. -/
def standingAnswer (standing : Standing ν) : Nat × Bool := (standing.count, standing.isSound)

/-- The answer of a listing that stands for itself, once it was settled. -/
def answer? : Listing ν → Option (Nat × Bool)
  | fixed rows => some (rows.length, true)
  | item l => l.standing.map standingAnswer
  | indexList l => l.standing.map standingAnswer
  | array l => l.standing.map standingAnswer
  | nodes l => if l.stale then none else l.standing.map standingAnswer
  | custom l => if l.current then some (l.standing.count, l.isSound) else none
  | synthetic l => l.standing.map standingAnswer
  | unsupported _ => some (1, true)
  | _ => none

theorem answer?_nodes_iff {l : NodeListing ν} {a : Nat × Bool} :
    (nodes l).answer? = some a ↔
      l.stale = false ∧ ∃ st, l.standing = some st ∧ standingAnswer st = a := by
  rw [answer?]
  cases stale : l.stale with
  | true => simp
  | false => simp

theorem answer?_custom_iff {l : CustomListing ν} {a : Nat × Bool} :
    (custom l).answer? = some a ↔ l.current = true ∧ (l.standing.count, l.isSound) = a := by
  rw [answer?]
  cases current : l.current with
  | false => simp
  | true => simp

/-- A listing that may be kept for pages to share, as its own work leaves
it. There is nothing under an identifier that was not given out. -/
def Valid : Listing ν → Prop
  | fixed rows => rows = []
  | indexList l => l.Valid
  | array l => l.Valid
  | nodes l => l.Valid
  | custom l => l.Valid
  | _ => False

/-- A listing that can be short of the rows it counts. -/
def IsShort : Listing ν → Prop
  | custom l => l.IsShort
  | _ => False

/-- **A listing that may look for rows it has counted already** for ever: it
declares its size and shows items of a program or nodes of a tree. -/
def OpenEnded : Listing ν → Prop
  | nodes l => l.OpenEnded
  | custom l => l.size.isSome
  | _ => False

theorem IsShort.openEnded {l : Listing ν} (h : l.IsShort) : l.OpenEnded := by
  cases l with
  | custom l => exact h.2
  | _ => exact h.elim

/-- Work on a listing that pages share. -/
structure Onward (l l' : Listing ν) : Prop where
  valid : l'.Valid
  limit : l.limit ≤ l'.limit
  raised : ∀ offset size, l.raisedFor offset size = l → l'.raisedFor offset size = l'
  short : l.IsShort → l'.IsShort
  leads : ∀ P, l.Within P → l'.Within P

/-- A listing is raised for a page if it looks for enough children. -/
theorem raisedFor_eq_self_iff {offset size : Nat} {l : Listing ν} :
    l.raisedFor offset size = l ↔
      (l.limit < offset + size + 1 →
        l.setLimit (offset + size + 1) = l) := by
  unfold raisedFor raisedTo
  split
  · rename_i below
    exact ⟨fun h _ => h, fun h => h below⟩
  · rename_i enough
    exact ⟨fun _ below => absurd below enough, fun _ => rfl⟩

/-- So it does if its limit, where it takes one, is high enough. -/
theorem raisedFor_eq_self_iff_le {offset size : Nat} {l : Listing ν}
    (sets : ∀ limit, (l.setLimit limit).limit = limit) :
    l.raisedFor offset size = l ↔ offset + size + 1 ≤ l.limit := by
  rw [raisedFor_eq_self_iff]
  constructor
  · intro h
    by_contra below
    have set := congrArg limit (h (Nat.lt_of_not_le below))
    exact below (Nat.le_of_eq ((sets _).symm.trans set))
  · intro enough below
    exact absurd below (Nat.not_lt_of_le enough)

theorem raisedFor_nodes_iff {offset size : Nat} {l : NodeListing ν} :
    (nodes l).raisedFor offset size = nodes l ↔ offset + size + 1 ≤ l.limit :=
  raisedFor_eq_self_iff_le fun _ => rfl

theorem raisedFor_custom_iff {offset size : Nat} {l : CustomListing ν} :
    (custom l).raisedFor offset size = custom l ↔ offset + size + 1 ≤ l.limit :=
  raisedFor_eq_self_iff_le fun _ => rfl

theorem Onward.refl {l : Listing ν} (valid : l.Valid) : l.Onward l :=
  ⟨valid, Nat.le_refl _, fun _ _ h => h, fun h => h, fun _ h => h⟩

theorem Onward.trans {l l' l'' : Listing ν} (h : l.Onward l') (h' : l'.Onward l'') :
    l.Onward l'' where
  valid := h'.valid
  limit := Nat.le_trans h.limit h'.limit
  raised offset size enough := h'.raised offset size (h.raised offset size enough)
  short short := h'.short (h.short short)
  leads P led := h'.leads P (h.leads P led)

theorem onward_indexList {l l' : IndexListing ν} (h : l.Onward l') (valid : l.Valid) :
    (indexList l).Onward (indexList l') where
  valid := h.valid valid
  limit := Nat.le_refl _
  raised _ _ _ := raisedFor_eq_self_iff.mpr fun _ => rfl
  short := id
  leads P led := by
    cases led with
    | indexList led => exact .indexList (h.leads P led)

theorem onward_array {l l' : ArrayListing ν} (h : l.Onward l') (valid : l.Valid) :
    (array l).Onward (array l') where
  valid := h.valid valid
  limit := Nat.le_refl _
  raised _ _ _ := raisedFor_eq_self_iff.mpr fun _ => rfl
  short := id
  leads P led := by
    cases led with
    | array led => exact .array (h.leads P led)

theorem onward_nodes {l l' : NodeListing ν} (h : l.Onward l') (valid : l.Valid) :
    (nodes l).Onward (nodes l') where
  valid := h.valid valid
  limit := Nat.le_of_eq h.limit.symm
  raised offset size enough := by
    rw [raisedFor_nodes_iff] at enough ⊢
    rw [h.limit]
    exact enough
  short := id
  leads P led := by
    cases led with
    | nodes led => exact .nodes (h.leads P led)

theorem onward_custom {l l' : CustomListing ν} (h : l.Onward l') (valid : l.Valid) :
    (custom l).Onward (custom l') where
  valid := h.valid valid
  limit := Nat.le_of_eq h.limit.symm
  raised offset size enough := by
    rw [raisedFor_custom_iff] at enough ⊢
    rw [h.limit]
    exact enough
  short := h.short
  leads P led := by
    cases led with
    | custom _ led => exact .custom (h.valid valid) (h.leads P led)

/-- **A listing that has been raised for a page**: it looks for the children of the
page and for one more, which are so few that their number is a word. -/
structure Covers (l : Listing ν) (offset size : Nat) : Prop where
  fits : offset + size + 1 < wordCount
  raised : l.raisedFor offset size = l

/-- Looking for the children a page needs. -/
theorem Valid.raisedFor {l : Listing ν} (h : l.Valid) {offset size : Nat}
    (small : offset + size + 1 < wordCount) : (l.raisedFor offset size).Valid := by
  unfold Listing.raisedFor raisedTo
  split
  · rename_i raised
    cases l with
    | indexList l => exact h
    | array l => exact h
    | nodes l =>
      refine { h with limit := small, stale := fun stale => ?_ }
      dsimp only at stale
      rcases Bool.or_eq_true_iff.mp stale with stale | settled
      · exact h.stale stale
      · exact (Bool.and_eq_true_iff.mp settled).2
    | custom l =>
      refine { h with limit := small, counted := fun current n hn => ?_ }
      exact h.counted (Bool.and_eq_true_iff.mp current).1 n hn
    | _ => exact h
  · exact h

/-- Raising a listing again makes no difference. -/
theorem raisedFor_raisedFor (offset size : Nat) (l : Listing ν) :
    (l.raisedFor offset size).raisedFor offset size = l.raisedFor offset size := by
  by_cases below : l.limit < offset + size + 1
  · have raised : l.raisedFor offset size = l.setLimit (offset + size + 1) :=
      if_pos below
    rw [raised]
    cases l with
    | nodes l => exact raisedFor_nodes_iff.mpr (Nat.le_refl _)
    | custom l => exact raisedFor_custom_iff.mpr (Nat.le_refl _)
    | page id offset' size' => exact raisedFor_eq_self_iff.mpr fun _ => rfl
    | group owner members hideRawView limit => exact raisedFor_eq_self_iff.mpr fun _ => rfl
    | _ => exact raisedFor_eq_self_iff.mpr fun _ => rfl
  · have raised : l.raisedFor offset size = l := if_neg below
    rw [raised, raised]

/-- A listing whose limit stays is not raised. -/
theorem raisedFor_eq_self_of_limit {offset size : Nat} {l : Listing ν}
    (same : (l.raisedFor offset size).limit = l.limit) : l.raisedFor offset size = l := by
  rw [raisedFor_eq_self_iff]
  intro below
  have raised : l.raisedFor offset size = l.setLimit (offset + size + 1) :=
    if_pos below
  rw [raised] at same
  -- the limit of the four kinds that have one would be what was set
  cases l with
  | nodes l => exact absurd same.symm (Nat.ne_of_lt below)
  | custom l => exact absurd same.symm (Nat.ne_of_lt below)
  | group owner members hideRawView limit => exact absurd same.symm (Nat.ne_of_lt below)
  | page id offset' size' => exact absurd same.symm (Nat.ne_of_lt below)
  | _ => rfl

/-- Looking for the children a page needs is work on the listing. -/
theorem Valid.onward_raisedFor {l : Listing ν} (h : l.Valid) {offset size : Nat}
    (small : offset + size + 1 < wordCount) : l.Onward (l.raisedFor offset size) := by
  by_cases below : l.limit < offset + size + 1
  · have raised : l.raisedFor offset size = l.setLimit (offset + size + 1) :=
      if_pos below
    have valid := h.raisedFor small
    rw [raised] at valid ⊢
    cases l with
    | nodes l =>
      refine ⟨valid, Nat.le_of_lt below, fun offset' size' enough => ?_, fun short => short,
        fun P led => ?_⟩
      · have more := Nat.le_trans (raisedFor_nodes_iff.mp enough) (Nat.le_of_lt below)
        exact raisedFor_nodes_iff.mpr more
      · cases led with
        | nodes led => exact .nodes { led with }
    | custom l =>
      refine ⟨valid, Nat.le_of_lt below, fun offset' size' enough => ?_, fun short => short,
        fun P led => ?_⟩
      · have more := Nat.le_trans (raisedFor_custom_iff.mp enough) (Nat.le_of_lt below)
        exact raisedFor_custom_iff.mpr more
      · cases led with
        | custom _ led => exact .custom valid { led with }
    | indexList l => exact .refl h
    | array l => exact .refl h
    | fixed rows => exact .refl h
    | _ => exact h.elim
  · have raised : l.raisedFor offset size = l := if_neg below
    rw [raised]
    exact .refl h

/-! ## Answers that stand -/

/-- A kept listing that stands by the answer of another. -/
structure StandsBy (l l' : Listing ν) : Prop where
  answer : ∀ a, l.answer? = some a → l'.answer? = some a
  raised : ∀ offset size, l.raisedFor offset size = l → l'.raisedFor offset size = l'
  ended : ∀ a, l.answer? = some a → l'.OpenEnded → l.OpenEnded

theorem StandsBy.covers {l l' : Listing ν} (h : l.StandsBy l') {offset size : Nat}
    (covers : l.Covers offset size) : l'.Covers offset size :=
  ⟨covers.fits, h.raised offset size covers.raised⟩

theorem StandsBy.refl (l : Listing ν) : l.StandsBy l :=
  ⟨fun _ h => h, fun _ _ h => h, fun _ _ h => h⟩

theorem StandsBy.trans {l l' l'' : Listing ν} (h : l.StandsBy l') (h' : l'.StandsBy l'') :
    l.StandsBy l'' where
  answer a known := h'.answer a (h.answer a known)
  raised offset size raised := h'.raised offset size (h.raised offset size raised)
  ended a known endless := h.ended a known (h'.ended a (h.answer a known) endless)

/-- A listing that looks for no more children than before stands by its answer,
unless it is short of rows. -/
def Holds (l l' : Listing ν) : Prop := l'.limit = l.limit → ¬ l'.IsShort → l.StandsBy l'

theorem Holds.refl (l : Listing ν) : l.Holds l := fun _ _ => .refl l

/-- It does so if nothing changes once it has an answer. -/
theorem Onward.holds {l l' : Listing ν} (h : l.Onward l')
    (same : ∀ a, l.answer? = some a → l' = l) : l.Holds l' :=
  fun _ _ => ⟨fun a known => (same a known).symm ▸ known, h.raised,
    fun a known => (same a known) ▸ id⟩

/-- A listing that gives the same answer after work on it stands by it. -/
theorem Onward.standsBy {l l' : Listing ν} (h : l.Onward l') {a : Nat × Bool}
    (known : l.answer? = some a) (known' : l'.answer? = some a)
    (ended : l'.OpenEnded → l.OpenEnded) : l.StandsBy l' where
  answer b known'' := by
    cases known.symm.trans known''
    exact known'
  raised := h.raised
  ended _ _ := ended

/-! ## Answers -/

variable {α β κ : Type}

theorem ensures_answering {wrap : κ → Listing ν} {answer : α → β} {act : Search σ ν (α × κ)}
    {s : Session σ ν} {P : β × Listing ν → Session σ ν → Prop}
    (h : Ensures act s fun r s' => P (answer r.1, wrap r.2) s') :
    Ensures (answering wrap answer act) s P :=
  h.bind fun _ _ h => ensures_pure_iff.mpr h

section Asking

variable {engine : Engine σ ν} (words : ∀ p, engine.options.get p < wordCount) (s : Session σ ν)

theorem ensures_settled_indexList {l : IndexListing ν} (valid : l.Valid) :
    Ensures (liftM (l.settled engine.evaluator) : Search σ ν _) s fun r s' =>
      s'.listings = s.listings ∧ (indexList l).Onward (indexList r.2) ∧
        (indexList r.2).answer? = some (standingAnswer r.1) := by
  refine ensures_target_iff.mpr ((l.ensures_settled engine.evaluator _).mono fun r t h => ?_)
  exact ⟨rfl, onward_indexList h.1 valid, congrArg (Option.map standingAnswer) h.2.1⟩

theorem ensures_settled_array {l : ArrayListing ν} (valid : l.Valid) :
    Ensures (liftM (l.settled engine.evaluator) : Search σ ν _) s fun r s' =>
      s'.listings = s.listings ∧ (array l).Onward (array r.2) ∧
        (array r.2).answer? = some (standingAnswer r.1) := by
  refine ensures_target_iff.mpr ((l.ensures_settled engine.evaluator _).mono fun r t h => ?_)
  exact ⟨rfl, onward_array h.1 valid, congrArg (Option.map standingAnswer) h.2.1⟩

include words

theorem ensures_settled_nodes {l : NodeListing ν} (valid : l.Valid) (bound : Nat) :
    Ensures (Search.ofTarget (l.settled engine.evaluator engine.options bound)) s fun r s' =>
      s'.listings = s.listings ∧ (nodes l).Onward (nodes r.2) ∧
        (nodes r.2).answer? = some (standingAnswer r.1) := by
  refine ensures_ofTarget_iff.mpr
    ((l.ensures_settled engine.evaluator words bound _).mono fun r t h => ?_)
  exact ⟨rfl, onward_nodes h.1 valid, answer?_nodes_iff.mpr ⟨h.2.2.1 valid, _, h.2.1, rfl⟩⟩

theorem ensures_settled_custom {l : CustomListing ν} (valid : l.Valid) (bound : Nat) :
    Ensures (l.settled engine bound) s fun r s' =>
      s'.listings = s.listings ∧ (custom l).Onward (custom r.2) ∧
        (custom r.2).answer? = some (r.1.count, r.2.isSound) := by
  refine (CustomListing.ensures_settled engine words bound valid s).mono fun r s' h => ?_
  obtain ⟨quiet, onward, settled, current, -⟩ := h
  refine ⟨quiet, onward_custom onward valid, answer?_custom_iff.mpr ⟨current, ?_⟩⟩
  rw [settled]

variable (reach : Reach σ ν) {l : Listing ν}

/-- **A shared listing that was counted has an answer**, and nothing else
changed in the session. -/
theorem Valid.ensures_countWith (valid : l.Valid) :
    Ensures (countWith engine reach l) s fun r s' =>
      s'.listings = s.listings ∧ l.Onward r.2 ∧ ∃ b, r.2.answer? = some (r.1, b) := by
  cases l with
  | fixed rows => exact ensures_pure_iff.mpr ⟨rfl, .refl valid, true, rfl⟩
  | indexList l =>
    refine ensures_answering ((ensures_settled_indexList s valid).mono fun r s' h => ?_)
    exact ⟨h.1, h.2.1, _, h.2.2⟩
  | array l =>
    refine ensures_answering ((ensures_settled_array s valid).mono fun r s' h => ?_)
    exact ⟨h.1, h.2.1, _, h.2.2⟩
  | nodes l =>
    refine ensures_answering ((ensures_settled_nodes words s valid _).mono fun r s' h => ?_)
    exact ⟨h.1, h.2.1, _, h.2.2⟩
  | custom l =>
    refine ensures_answering ((ensures_settled_custom words s valid _).mono fun r s' h => ?_)
    exact ⟨h.1, h.2.1, _, h.2.2⟩
  | _ => exact valid.elim

/-- And so has one that was asked whether all children can be had. -/
theorem Valid.ensures_isSoundWith (valid : l.Valid) :
    Ensures (isSoundWith engine reach l) s fun r s' =>
      s'.listings = s.listings ∧ l.Onward r.2 ∧ ∃ n, r.2.answer? = some (n, r.1) := by
  cases l with
  | fixed rows => exact ensures_pure_iff.mpr ⟨rfl, .refl valid, rows.length, rfl⟩
  | indexList l =>
    refine ensures_answering ((ensures_settled_indexList s valid).mono fun r s' h => ?_)
    exact ⟨h.1, h.2.1, _, h.2.2⟩
  | array l =>
    refine ensures_answering ((ensures_settled_array s valid).mono fun r s' h => ?_)
    exact ⟨h.1, h.2.1, _, h.2.2⟩
  | nodes l =>
    refine ensures_answering ((ensures_settled_nodes words s valid _).mono fun r s' h => ?_)
    exact ⟨h.1, h.2.1, _, h.2.2⟩
  | custom l =>
    refine (ensures_settled_custom words s valid _).bind fun r s' h => ensures_pure_iff.mpr ?_
    exact ⟨h.1, h.2.1, _, h.2.2⟩
  | _ => exact valid.elim

/-- **A window of a shared listing has the rows of its answer**, unless the
listing is short of them; and the answer stays. -/
theorem Valid.ensures_rowsWith (valid : l.Valid) (start count : Nat) :
    Ensures (rowsWith engine reach start count l) s fun r s' =>
      s'.listings = s.listings ∧ l.Onward r.2 ∧
        (∀ P, l.Within P → ∀ row ∈ r.1, row.Within P) ∧
        ∀ n b, l.answer? = some (n, b) → ¬ r.2.IsShort →
          l.StandsBy r.2 ∧ r.1.length = min (windowEnd start count) n - start := by
  -- each kind is settled as it was, so its answer stays; custom lists alone may be short of rows
  cases l with
  | fixed rows =>
    obtain rfl : rows = [] := valid
    have none : clip start count ([] : List (Variable ν)) = [] := by simp [clip]
    refine ensures_pure_iff.mpr ⟨rfl, .refl rfl, fun P _ row h => ?_, fun n b known _ => ?_⟩
    · rw [none] at h
      cases h
    · rw [none]
      cases known
      exact ⟨.refl _, by simp⟩
  | indexList l =>
    refine ensures_answering (ensures_target_iff.mpr
      ((l.ensures_rows engine.evaluator start count _).mono fun r t h => ?_))
    obtain ⟨onward, leads, same⟩ := h
    refine ⟨rfl, onward_indexList onward valid, fun P led => ?_, fun n b known _ => ?_⟩
    · cases led with
      | indexList led => exact leads P led
    · obtain ⟨st, here, answered⟩ := Option.map_eq_some_iff.mp known
      cases answered
      obtain ⟨kept, many⟩ := same st here
      have onward := onward_indexList onward valid
      exact ⟨onward.standsBy known (congrArg (Option.map standingAnswer) kept) id, many⟩
  | array l =>
    refine ensures_answering (ensures_target_iff.mpr
      ((l.ensures_rows engine.evaluator start count _).mono fun r t h => ?_))
    obtain ⟨onward, leads, same⟩ := h
    refine ⟨rfl, onward_array onward valid, fun P led => ?_, fun n b known _ => ?_⟩
    · cases led with
      | array led => exact leads P led
    · obtain ⟨st, here, answered⟩ := Option.map_eq_some_iff.mp known
      cases answered
      obtain ⟨kept, many⟩ := same st valid here
      have onward := onward_array onward valid
      exact ⟨onward.standsBy known (congrArg (Option.map standingAnswer) kept) id, many⟩
  | nodes l =>
    refine ensures_answering (ensures_ofTarget_iff.mpr
      ((l.ensures_rows engine.evaluator words _ start count _).mono fun r t h => ?_))
    obtain ⟨onward, leads, same⟩ := h
    refine ⟨rfl, onward_nodes onward valid, fun P led => ?_, fun n b known _ => ?_⟩
    · cases led with
      | nodes led => exact leads P led
    · obtain ⟨fresh, st, here, answered⟩ := answer?_nodes_iff.mp known
      cases answered
      obtain ⟨kept, fresh', ended, many⟩ := same st here fresh
      have known' := answer?_nodes_iff.mpr ⟨fresh', st, kept, rfl⟩
      exact ⟨(onward_nodes onward valid).standsBy known known' ended, many⟩
  | custom l =>
    refine ensures_answering
      ((CustomListing.ensures_rows engine words _ valid start count s).mono fun r s' h => ?_)
    obtain ⟨quiet, onward, leads, same⟩ := h
    refine ⟨quiet, onward_custom onward valid, fun P led => ?_, fun n b known whole => ?_⟩
    · cases led with
      | custom _ led => exact leads P led
    · obtain ⟨current, answered⟩ := answer?_custom_iff.mp known
      cases answered
      obtain ⟨current', standing, sound, size, many⟩ := same current whole
      have known' : (custom r.2).answer? = some (l.standing.count, l.isSound) := by
        refine answer?_custom_iff.mpr ⟨current', ?_⟩
        rw [standing, sound]
      refine ⟨(onward_custom onward valid).standsBy known known' fun declared => ?_, many⟩
      have declared : r.2.size.isSome := declared
      rwa [size] at declared
  | _ => exact valid.elim

end Asking

section Again

variable (engine : Engine σ ν) (reach : Reach σ ν) {l : Listing ν} (s : Session σ ν)

theorem settled_item {l : ItemListing ν} {st : Standing ν} (here : l.standing = some st) :
    (liftM (l.settled engine.evaluator) : Search σ ν _) s = .ok ((st, l), s) :=
  lift_eq (congrFun (ItemListing.settled_of_standing _ here) s.target)

theorem settled_indexList {l : IndexListing ν} {st : Standing ν} (here : l.standing = some st) :
    (liftM (l.settled engine.evaluator) : Search σ ν _) s = .ok ((st, l), s) :=
  lift_eq (congrFun (IndexListing.settled_of_standing _ here) s.target)

theorem settled_array {l : ArrayListing ν} {st : Standing ν} (here : l.standing = some st) :
    (liftM (l.settled engine.evaluator) : Search σ ν _) s = .ok ((st, l), s) :=
  lift_eq (congrFun (ArrayListing.settled_of_standing _ here) s.target)

theorem settled_nodes {l : NodeListing ν} {st : Standing ν} (here : l.standing = some st)
    (fresh : l.stale = false) (bound : Nat) :
    (Search.ofTarget (l.settled engine.evaluator engine.options bound) : Search σ ν _) s =
      .ok ((st, l), s) :=
  ofTarget_eq_ok_iff.mpr
    ⟨s.target, congrFun (NodeListing.settled_of_standing _ _ bound here fresh) s.target, rfl⟩

theorem settled_synthetic {l : SyntheticListing ν} {st : Standing ν}
    (here : l.standing = some st) :
    l.settled engine reach s = .ok ((st, l), s) := by
  unfold SyntheticListing.settled
  rw [here]
  rfl

/-- **A listing with an answer gives it again**, and nothing changes. -/
theorem asked_again {n : Nat} {b : Bool} (known : l.answer? = some (n, b)) :
    countWith engine reach l s = .ok ((n, l), s) ∧
      isSoundWith engine reach l s = .ok ((b, l), s) := by
  have answered {κ : Type} {act : Search σ ν (Standing ν × κ)} {st : Standing ν} {k : κ}
      (wrap : κ → Listing ν) (h : act s = .ok ((st, k), s)) :
      answering wrap Standing.count act s = .ok ((st.count, wrap k), s) ∧
        answering wrap Standing.isSound act s = .ok ((st.isSound, wrap k), s) :=
    ⟨bind_eq_ok_iff.mpr ⟨_, h, rfl⟩, bind_eq_ok_iff.mpr ⟨_, h, rfl⟩⟩
  cases l with
  | fixed rows =>
    cases known
    exact ⟨rfl, rfl⟩
  | unsupported row =>
    cases known
    exact ⟨rfl, rfl⟩
  | item l =>
    obtain ⟨st, here, hn⟩ := Option.map_eq_some_iff.mp known
    cases hn
    exact answered item (settled_item engine s here)
  | indexList l =>
    obtain ⟨st, here, hn⟩ := Option.map_eq_some_iff.mp known
    cases hn
    exact answered indexList (settled_indexList engine s here)
  | array l =>
    obtain ⟨st, here, hn⟩ := Option.map_eq_some_iff.mp known
    cases hn
    exact answered array (settled_array engine s here)
  | nodes l =>
    obtain ⟨fresh, st, here, hn⟩ := answer?_nodes_iff.mp known
    cases hn
    exact answered nodes (settled_nodes engine s here fresh reach.bound)
  | custom l =>
    obtain ⟨current, hn⟩ := answer?_custom_iff.mp known
    cases hn
    have settled := CustomListing.settled_of_current engine reach.bound current s
    exact ⟨bind_eq_ok_iff.mpr ⟨_, settled, rfl⟩, bind_eq_ok_iff.mpr ⟨_, settled, rfl⟩⟩
  | synthetic l =>
    obtain ⟨st, here, hn⟩ := Option.map_eq_some_iff.mp known
    cases hn
    exact answered synthetic (settled_synthetic engine reach s here)
  | _ => cases known

end Again

end WatchView.Listing
