import WatchView.Listing.Query
import WatchView.Proofs.Ensures
/-!
# Requests in any order

A listing is asked for its number of rows, for windows of them and whether all
of them can be had, and in between its limit is set to anything. What is known
of its rows may only grow: `Known.Told` says that each reply is as what is known
afterwards says. Then no count is less than an earlier one, and all windows show
the same row at a position (`Known.Told.steady`).

`ensures_askAll` goes from one request to any number of them, together with a
record of the work that was done.
-/

namespace WatchView

open Bounded

variable {σ ν : Type}

/-- What can be asked of a listing. -/
inductive Query where
  /-- Set the number of children to look for. -/
  | setLimit (limit : Nat)
  | count
  | rows (start many : Nat)
  | isSound
deriving Repr, DecidableEq

/-- What a listing replies. -/
inductive Query.Reply (ν : Type) where
  | done
  | count (n : Nat)
  | rows (shown : List (Variable ν))
  | isSound (sound : Bool)

/-- The number in a reply, if it is one. -/
def Query.Reply.count? : Query.Reply ν → Option Nat
  | count n => some n
  | _ => none

namespace Query

/-- Ask a listing. -/
def ask (engine : Engine σ ν) (reach : Reach σ ν) :
    Query → Listing ν → Search σ ν (Query.Reply ν × Listing ν)
  | setLimit limit, l => return (.done, l.setLimit limit)
  | count, l => do
    let (n, l) ← l.countWith engine reach
    return (.count n, l)
  | rows start many, l => do
    let (shown, l) ← l.rowsWith engine reach start many
    return (.rows shown, l)
  | isSound, l => do
    let (sound, l) ← l.isSoundWith engine reach
    return (.isSound sound, l)

/-- Ask a listing for one thing after the other. -/
def askAll (engine : Engine σ ν) (reach : Reach σ ν) :
    List Query → Listing ν → Search σ ν (List (Query.Reply ν) × Listing ν)
  | [], l => return ([], l)
  | q :: qs, l => do
    let (first, l) ← q.ask engine reach l
    let (others, l) ← askAll engine reach qs l
    return (first :: others, l)

/-- What a listing replies that has these rows for good. -/
def tell (shown : List (Variable ν)) (sound : Bool) : Query → Query.Reply ν
  | setLimit _ => .done
  | count => .count shown.length
  | rows start many => .rows (clip start many shown)
  | isSound => .isSound sound

/-- **From one request to any number of them**, if each leads from listings and
sessions of a kind to such ones. The kind may depend on what is asked for yet. -/
theorem askAll_eq_tell (engine : Engine σ ν) (reach : Reach σ ν) (shown : List (Variable ν))
    (sound : Bool) (I : List Query → Listing ν → Session σ ν → Prop)
    (step : ∀ q qs l s, I (q :: qs) l s → ∃ l' s',
      q.ask engine reach l s = .ok ((q.tell shown sound, l'), s') ∧ I qs l' s')
    (qs : List Query) {l : Listing ν} {s : Session σ ν} (h : I qs l s) :
    ∃ l' s', askAll engine reach qs l s = .ok ((qs.map (tell shown sound), l'), s') ∧
      I [] l' s' := by
  induction qs generalizing l s with
  | nil => exact ⟨l, s, rfl, h⟩
  | cons q qs ih =>
    obtain ⟨l₁, s₁, asked, h₁⟩ := step q qs l s h
    obtain ⟨l', s', others, h'⟩ := ih h₁
    refine ⟨l', s', ?_, h'⟩
    unfold askAll
    rw [bind_of_eq_ok asked]
    dsimp only
    rw [bind_of_eq_ok others]
    rfl

end Query

/-! ## What is known of the rows -/

/-- **Replies that never take anything back**: the counts do not shrink, and one way
to tell the rows tells all windows. -/
structure Steady (qs : List Query) (replies : List (Query.Reply ν)) : Prop where
  counts : (replies.filterMap Query.Reply.count?).Pairwise (· ≤ ·)
  rows : ∃ row : Nat → Variable ν, ∀ start many shown,
    (Query.rows start many, Query.Reply.rows shown) ∈ qs.zip replies →
      ∀ i v, shown[i]? = some v → v = row (start + i)

/-- What is known of the rows of a listing: their number, and some of them by
position. -/
structure Known (ν : Type) where
  count : Nat
  row? : Nat → Option (Variable ν)

namespace Known

/-- More may be known, and nothing else. -/
structure Grows (k k' : Known ν) : Prop where
  count : k.count ≤ k'.count
  row (i : Nat) (v : Variable ν) (h : k.row? i = some v) : k'.row? i = some v

theorem Grows.refl (k : Known ν) : k.Grows k := ⟨Nat.le_refl _, fun _ _ h => h⟩

theorem Grows.trans {k₁ k₂ k₃ : Known ν} (h : k₁.Grows k₂) (h' : k₂.Grows k₃) : k₁.Grows k₃ :=
  ⟨Nat.le_trans h.count h'.count, fun i v here => h'.row i v (h.row i v here)⟩

/-- A reply is as what is known says. -/
def Tells (k : Known ν) : Query → Query.Reply ν → Prop
  | .count, .count n => n = k.count
  | .rows start _, .rows shown => ∀ i v, shown[i]? = some v → k.row? (start + i) = some v
  | .setLimit _, .done => True
  | .isSound, .isSound _ => True
  | _, _ => False

/-- Replies, each as what is known after it says. -/
inductive Told : Known ν → List Query → List (Query.Reply ν) → Known ν → Prop
  | nil {k : Known ν} : Told k [] [] k
  | cons {k k₁ k' : Known ν} {q : Query} {r : Query.Reply ν} {qs : List Query} {rs : List (Query.Reply ν)}
      (grows : k.Grows k₁) (tells : k₁.Tells q r) (others : Told k₁ qs rs k') :
      Told k (q :: qs) (r :: rs) k'

variable {k k' : Known ν} {qs : List Query} {replies : List (Query.Reply ν)}

theorem Told.grows (h : Told k qs replies k') : k.Grows k' := by
  induction h with
  | nil => exact .refl _
  | cons grows _ _ ih => exact grows.trans ih

theorem Tells.eq_count {q : Query} {r : Query.Reply ν} {n : Nat} (h : k.Tells q r)
    (here : r.count? = some n) : n = k.count := by
  cases r with
  | count m =>
    cases here
    cases q with
    | count => exact h
    | setLimit | rows | isSound => exact h.elim
  | done | rows | isSound => cases here

theorem Told.counts (h : Told k qs replies k') :
    (replies.filterMap Query.Reply.count?).Pairwise (· ≤ ·) ∧
      ∀ n ∈ replies.filterMap Query.Reply.count?, k.count ≤ n := by
  induction h with
  | nil => exact ⟨.nil, List.forall_mem_nil _⟩
  | @cons k k₁ k' q r qs rs grows tells _ ih =>
    have later (n : Nat) (h : n ∈ rs.filterMap Query.Reply.count?) : k.count ≤ n :=
      Nat.le_trans grows.count (ih.2 n h)
    rw [List.filterMap_cons]
    cases here : r.count? with
    | none => exact ⟨ih.1, later⟩
    | some n =>
      obtain rfl := tells.eq_count here
      exact ⟨List.pairwise_cons.mpr ⟨ih.2, ih.1⟩, List.forall_mem_cons.mpr ⟨grows.count, later⟩⟩

theorem Told.rows (h : Told k qs replies k') {start many : Nat} {shown : List (Variable ν)}
    (asked : (Query.rows start many, Query.Reply.rows shown) ∈ qs.zip replies) (i : Nat) (v : Variable ν)
    (here : shown[i]? = some v) : k'.row? (start + i) = some v := by
  induction h with
  | nil => cases asked
  | cons _ tells others ih =>
    rw [List.zip_cons_cons] at asked
    rcases List.mem_cons.mp asked with first | asked
    · cases first
      exact others.grows.row _ v (tells i v here)
    · exact ih asked

/-- **What is known in the end tells all replies.** -/
theorem Told.steady (h : Told k qs replies k') : Steady qs replies where
  counts := h.counts.1
  rows := by
    refine ⟨fun i => (k'.row? i).getD (.failure "" ""), fun start many shown asked i v here => ?_⟩
    have told := h.rows asked i v here
    dsimp only
    rw [told, Option.getD_some]

end Known

/-! ## Rows of a window -/

theorem getElem?_clip {α : Type} {start many i : Nat} {xs : List α} {x : α}
    (h : (clip start many xs)[i]? = some x) : xs[start + i]? = some x := by
  unfold clip at h
  rw [List.getElem?_drop, List.getElem?_take] at h
  split at h
  · exact h
  · cases h

/-- The one row of a listing that cannot be had. -/
theorem getElem?_clip_singleton {α : Type} {start many i : Nat} {x y : α}
    (h : (clip start many [x])[i]? = some y) : start + i = 0 ∧ x = y := by
  have here := getElem?_clip h
  rw [List.getElem?_singleton] at here
  split at here
  · rename_i first
    exact ⟨first, Option.some.inj here⟩
  · cases here

/-- The position in a window. -/
theorem getElem?_windowOf {n start many i p : Nat} (h : (windowOf n start many)[i]? = some p) :
    p = start + i ∧ p < n ∧ p < windowEnd start many := by
  unfold windowOf at h
  dsimp only at h
  obtain ⟨inside, rfl⟩ := List.getElem?_eq_some_iff.mp h
  rw [List.length_range'] at inside
  rw [List.getElem_range']
  omega

/-! ## From one request to all -/

/-- **Any number of requests**, when the work for one is recorded and, in
circumstances that keep an invariant, leaves what is known as it was or more is
known. A configuration is a listing and a session, perhaps with more beside
them; what the circumstances are may be told from the record alone. -/
theorem ensures_askAll {κ δ ι : Type} {engine : Engine σ ν} {reach : Reach σ ν}
    (place : κ → Listing ν × Session σ ν) (Works : κ → List δ → κ → Prop) (known : κ → Known ν)
    (good : ι → δ → Prop) (inv : ι → κ → Prop) (rests : ∀ c, Works c [] c)
    (goesOn : ∀ c₁ c₂ c₃ ds ds', Works c₁ ds c₂ → Works c₂ ds' c₃ → Works c₁ (ds ++ ds') c₃)
    (step : ∀ (q : Query) (c : κ), Ensures (q.ask engine reach (place c).1) (place c).2 fun r s' =>
      ∃ ds c', place c' = (r.2, s') ∧ Works c ds c' ∧
        ∀ a, (∀ d ∈ ds, good a d) → inv a c →
          inv a c' ∧ (known c).Grows (known c') ∧ (known c').Tells q r.1)
    (qs : List Query) (c : κ) :
    Ensures (Query.askAll engine reach qs (place c).1) (place c).2 fun r s' =>
      ∃ ds c', place c' = (r.2, s') ∧ Works c ds c' ∧
        ∀ a, (∀ d ∈ ds, good a d) → inv a c →
          inv a c' ∧ Known.Told (known c) qs r.1 (known c') := by
  induction qs generalizing c with
  | nil => exact ensures_pure_iff.mpr ⟨[], c, rfl, rests c, fun a _ h => ⟨h, .nil⟩⟩
  | cons q qs ih =>
    unfold Query.askAll
    refine (step q c).bind ?_
    rintro ⟨first, l₁⟩ s₁ ⟨ds, c₁, placed, works, told⟩
    have rest := ih c₁
    rw [placed] at rest
    refine rest.bind ?_
    rintro ⟨others, l₂⟩ s₂ ⟨ds', c₂, placed', works', told'⟩
    refine ensures_pure_iff.mpr ⟨ds ++ ds', c₂, placed', goesOn _ _ _ _ _ works works', ?_⟩
    intro a all h
    obtain ⟨here, there⟩ := List.forall_mem_append.mp all
    obtain ⟨h₁, grows, tells⟩ := told a here h
    obtain ⟨h₂, rest⟩ := told' a there h₁
    exact ⟨h₂, .cons grows tells rest⟩

end WatchView
