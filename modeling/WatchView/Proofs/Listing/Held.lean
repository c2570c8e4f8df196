import WatchView.Proofs.Listing.Parted
import WatchView.Proofs.Listing.Returns
import WatchView.Proofs.Listing.Supplied
/-!
# Rows that are held

A window of a listing was asked for. `Held` says that what it showed then, and
what it shows now, can be told from the listing and from what the session keeps:
no expression needs to be evaluated for it. Asked again, the listing gives the
rows of now and nothing changes (`Held.again`).

The two differ in rows of raw values alone. These are made anew each time; and one
that a group hid comes up, behind the children of its members, when a list of one
of them has turned out to be short of rows. Where none has, the rows are the same
up to raw values that are made anew (`Held.renewed`).
-/

namespace WatchView

open Bounded Relation Listing

variable {σ ν : Type}

namespace Listing

variable {engine : Engine σ ν} {s s' : Session σ ν} {l l' : Listing ν} {bound : Nat}

theorem Simple.raisedFor (simple : l.Simple) (offset size : Nat) : l.raisedFor offset size = l := by
  refine raisedFor_eq_self_iff.mpr fun _ => ?_
  cases l with
  | _ => first | exact simple.elim | rfl

/-- Only a custom list can be short of rows. -/
theorem Valid.exists_custom (valid : l.Valid) (reach : Reach σ ν) (start count : Nat)
    (s : Session σ ν) :
    Ensures (rowsWith engine reach start count l) s fun r _ => r.2.IsShort → ∃ c, l = .custom c := by
  cases l with
  | custom c => exact (ensures_true _ s).mono fun _ _ _ _ => ⟨c, rfl⟩
  | fixed all => exact ensures_pure_iff.mpr fun short => short.elim
  | indexList l =>
    exact ensures_answering ((ensures_true _ s).mono fun _ _ _ short => short.elim)
  | array l => exact ensures_answering ((ensures_true _ s).mono fun _ _ _ short => short.elim)
  | nodes l => exact ensures_answering ((ensures_true _ s).mono fun _ _ _ short => short.elim)
  | _ => exact valid.elim

variable (words : ∀ p, engine.options.get p < wordCount)

include words

/-- A listing that passes on no question stays one that looks for as much. -/
theorem IsLeaf.turn (leaf : l.IsLeaf) (turn : (engine.reach (bound + 1)).Turn (s, l) (s', l')) :
    l'.IsLeaf ∧ ∀ offset size, l.raisedFor offset size = l → l'.raisedFor offset size = l' := by
  rcases leaf with simple | valid
  · have simple' := turn.simple simple
    exact ⟨.inl simple', fun offset size _ => simple'.raisedFor offset size⟩
  · obtain ⟨-, onward⟩ := (engine.asks_reach words (bound + 1)).turn turn valid
    exact ⟨.inr onward.valid, onward.raised⟩

omit words in
theorem Simple.not_isShort (simple : l.Simple) : ¬ l.IsShort := by
  cases l with
  | custom => exact simple.elim
  | _ => exact id

/-- The answer of a listing lasts when a window is asked for. -/
theorem IsLeaf.answer_rows (leaf : l.IsLeaf) {start count : Nat} {rows : List (Variable ν)}
    (ended : (engine.reach (bound + 1)).rows l start count s = .ok ((rows, l'), s')) {n : Nat}
    {b : Bool} (known : l.answer? = some (n, b)) :
    ∃ b', l'.answer? = some (n, b') ∧ l.Lasts l' b b' := by
  rcases leaf with simple | valid
  · have simple' := Reach.Turn.simple (.rows ended) simple
    have settled := (Simple.ensures_rowsWith engine _ simple known start count _ _ ended).settled
    exact ⟨b, simple'.known settled, .refl _ _ b⟩
  · by_cases short : l'.IsShort
    · obtain ⟨c, rfl⟩ := valid.exists_custom _ start count s _ _ ended short
      obtain ⟨current, answered⟩ := answer?_custom_iff.mp known
      cases answered
      have lasts : Ensures (rowsWith engine (engine.reach bound) start count (.custom c)) s
          fun r _ => r.2.IsShort → ∃ b', r.2.answer? = some (c.standing.count, b') ∧
            (Listing.custom c).Lasts r.2 c.isSound b' := by
        refine ensures_answering ((c.ensures_supplies engine _ start count s).mono
          fun r _ h short => ?_)
        obtain ⟨⟨⟨current', -⟩, -⟩, stands⟩ := h
        obtain ⟨standing, sound⟩ := stands current
        refine ⟨_, answer?_custom_iff.mpr ⟨current', by rw [standing]⟩, ?_⟩
        refine sound.imp_right fun ⟨whole, sound⟩ => ⟨⟨fun h => ?_, short⟩, sound⟩
        have failed : c.failed = true := h.1
        rw [whole] at failed
        cases failed
      exact lasts _ _ ended short
    · have asks := engine.asks_reach words (bound + 1)
      exact ⟨b, ((asks.rows l s _ _ valid _ _ ended).2.2.2 n b known short).1.answer _ known,
        .refl _ _ b⟩

/-- A listing that is short of rows stays so. -/
theorem IsLeaf.short (leaf : l.IsLeaf) (turn : (engine.reach (bound + 1)).Turn (s, l) (s', l'))
    (short : l.IsShort) : l'.IsShort := by
  rcases leaf with simple | valid
  · exact absurd short simple.not_isShort
  · exact ((engine.asks_reach words (bound + 1)).turn turn valid).2.short short

/-- **What a listing has found out lasts**, whatever it is asked. -/
theorem IsLeaf.endures (leaf : l.IsLeaf) (turn : (engine.reach bound).Turn (s, l) (s', l')) :
    l.Endures l' := by
  cases bound with
  | zero => exact (Reach.not_turn_nowhere turn).elim
  | succ bound =>
    -- a listing that was settled is as before, unless a window is asked for
    have settled (same : ∀ a, l.answer? = some a → l' = l) : l.Endures l' := by
      refine ⟨fun n b known => ?_, leaf.short words turn, (leaf.turn words turn).2,
        fun bound start count rows h => ?_⟩
      · exact ⟨b, (same _ known).symm ▸ known, .refl _ _ b⟩
      · obtain ⟨a, known⟩ := h.exists_answer
        exact (same a known).symm ▸ h
    cases turn with
    | count ended =>
      refine settled fun a known => ?_
      cases (asked_again engine (engine.reach bound) s known).1.symm.trans ended
      rfl
    | isSound ended =>
      refine settled fun a known => ?_
      cases (asked_again engine (engine.reach bound) s known).2.symm.trans ended
      rfl
    | rows ended =>
      refine ⟨fun n b known => leaf.answer_rows words ended known,
        leaf.short words (.rows ended), (leaf.turn words (.rows ended)).2, ?_⟩
      exact (leaf.ensures_supplies words (engine.reach bound) _ _ s _ _ ended).2

end Listing

/-! ## Rows up to those of raw values -/

/-- A row, or the row of a raw value made anew. -/
inductive Reshown (d : Inspector σ ν) : Variable ν → Variable ν → Prop
  | same (v : Variable ν) : Reshown d v v
  | raw (owner : Variable ν) (t t' : σ) : Reshown d (owner.rawView d t) (owner.rawView d t')

/-- **Rows that are the same** but for rows of raw values, which are made anew. -/
def Renewed (d : Inspector σ ν) : List (Variable ν) → List (Variable ν) → Prop :=
  List.Forall₂ (Reshown d)

theorem Renewed.refl (d : Inspector σ ν) (rows : List (Variable ν)) : Renewed d rows rows :=
  List.forall₂_same.mpr fun v _ => .same v

/-- **A session in which lists that were short of rows are so still.** -/
def Session.KeepsShort (s s' : Session σ ν) : Prop :=
  ∀ id, (s.kept id).IsShort → (s'.kept id).IsShort

theorem Session.KeepsShort.refl (s : Session σ ν) : s.KeepsShort s := fun _ short => short

/-! ## What is held -/

namespace Listing

/-- **An element that was counted**, with the number of its children and whether all
can be had. The bound is one within which it answers. -/
inductive Answered (s : Session σ ν) : Nat → Listing ν → Nat → Bool → Prop
  | simple {bound n : Nat} {l : Listing ν} {b : Bool} (simple : l.Simple)
      (known : l.answer? = some (n, b)) : Answered s (bound + 1) l n b
  | page {bound id offset size n : Nat} {b : Bool} (known : (s.kept id).answer? = some (n, b))
      (covers : (s.kept id).Covers offset size) :
      Answered s (bound + 2) (.page id offset size) (pageLength size (n - offset)) b
  | inlined {bound : Nat} {c : Context ν} {rule : ExpandedItemRule} {st : Standing ν}
      {inner : Option (Listing ν)} :
      Answered s (bound + 1) (.inlined c rule (some st) inner) st.count st.isSound

/-- The rows of a page are at hand, with so many children left from its offset. -/
def PageSupplies (l : Listing ν) (bound id offset size start count remaining : Nat)
    (rows : List (Variable ν)) : Prop :=
  let own := min remaining size
  let stop := min (windowEnd start count) (pageLength size remaining)
  if stop ≤ start then rows = []
  else ∃ shown : List (Variable ν),
    (if start < own then l.Supplies bound (offset + start) (min stop own - start) shown
      else shown = []) ∧
    rows = if own < stop then shown ++ [.more id (offset + size) size] else shown

/-- A page of a list that has turned out to be short of rows since `s₀`. -/
def LostSince (s₀ s : Session σ ν) : Listing ν → Prop
  | page id _ _ => (s₀.kept id).TurnsShort (s.kept id)
  | _ => False

theorem LostSince.exists_page {s₀ s : Session σ ν} {l : Listing ν} (h : l.LostSince s₀ s) :
    ∃ id offset size, l = .page id offset size ∧ (s₀.kept id).TurnsShort (s.kept id) := by
  cases l with
  | page id offset size => exact ⟨id, offset, size, rfl, h⟩
  | _ => exact h.elim

theorem Simple.not_lostSince {s₀ s : Session σ ν} {l : Listing ν} (simple : l.Simple) :
    ¬ l.LostSince s₀ s := by
  intro lost
  obtain ⟨id, offset, size, rfl, -⟩ := lost.exists_page
  exact simple

/-- **What an element said then and says now** of whether all its children can be had: the
same, or that they could be had and its list has turned out to be short of rows. -/
def Said (s₀ s : Session σ ν) (bound : Nat) (l : Listing ν) (b b' : Bool) : Prop :=
  (∃ n, Answered s bound l n b') ∧ (b' = b ∨ l.LostSince s₀ s ∧ b = true)

/-- What members between two positions showed and show, where the first member
starts at an offset; and how far the members that were looked at reach. -/
inductive Between (answered : Listing ν → Nat → Bool → Prop)
    (held : Listing ν → Nat → Nat → List (Variable ν) → List (Variable ν) → Prop)
    (start stop : Nat) :
    Nat → List (Listing ν) → List (Variable ν) → List (Variable ν) → Nat → Prop
  | nil {offset : Nat} : Between answered held start stop offset [] [] [] offset
  | past {offset : Nat} {l : Listing ν} {ls : List (Listing ν)} (past : stop ≤ offset) :
      Between answered held start stop offset (l :: ls) [] [] offset
  | skipped {offset n last : Nat} {b : Bool} {l : Listing ν} {ls : List (Listing ν)}
      {rows rows' : List (Variable ν)} (before : ¬ stop ≤ offset) (counted : answered l n b)
      (away : ¬ max start offset < min stop (offset + n))
      (others : Between answered held start stop (offset + n) ls rows rows' last) :
      Between answered held start stop offset (l :: ls) rows rows' last
  | shown {offset n last : Nat} {b : Bool} {l : Listing ν} {ls : List (Listing ν)}
      {rows rows' more more' : List (Variable ν)} (before : ¬ stop ≤ offset)
      (counted : answered l n b) (inside : max start offset < min stop (offset + n))
      (here : held l (max start offset - offset) (min stop (offset + n) - max start offset)
        rows rows')
      (others : Between answered held start stop (offset + n) ls more more' last) :
      Between answered held start stop offset (l :: ls) (rows ++ more) (rows' ++ more') last

/-- What a group showed and shows, with the row of the raw value if that is reached. Both
times it is as its members said; where the group hides it, it comes up behind their rows
when the children of a member can no longer all be had. -/
inductive WithRaw (d : Inspector σ ν) (said : Listing ν → Bool → Bool → Prop)
    (owner : Variable ν) (hideRawView : Bool) (members : List (Listing ν)) (reached : Prop)
    (rows rows' : List (Variable ν)) : List (Variable ν) → List (Variable ν) → Prop
  | away (away : ¬ reached) : WithRaw d said owner hideRawView members reached rows rows' rows rows'
  | hidden {answers : List (Bool × Bool)} (here : reached)
      (all : List.Forall₂ (fun l a => said l a.1 a.2) members answers)
      (hides : (hideRawView && answers.all Prod.snd) = true) :
      WithRaw d said owner hideRawView members reached rows rows' rows rows'
  | raw {answers : List (Bool × Bool)} (here : reached)
      (all : List.Forall₂ (fun l a => said l a.1 a.2) members answers)
      (showed : (hideRawView && answers.all Prod.fst) = false) (t t' : σ) :
      WithRaw d said owner hideRawView members reached rows rows'
        (rows ++ [owner.rawView d t]) (rows' ++ [owner.rawView d t'])
  | appears {answers : List (Bool × Bool)} (here : reached)
      (all : List.Forall₂ (fun l a => said l a.1 a.2) members answers)
      (hid : (hideRawView && answers.all Prod.fst) = true)
      (lost : answers.all Prod.snd = false) (t' : σ) :
      WithRaw d said owner hideRawView members reached rows rows'
        rows (rows' ++ [owner.rawView d t'])

/-- A listing that passes on the children of `l` becomes one that passes on those of
`l'`. -/
inductive PassesOn (l l' : Listing ν) : Listing ν → Listing ν → Prop
  | inlined {c : Context ν} {rule : ExpandedItemRule} {n : Nat} :
      PassesOn l l' (.inlined c rule (some (.counted n)) (some l))
        (.inlined c rule (some (.counted n)) (some l'))
  | pointee {c : Context ν} {pointer : SmartPointer} :
      PassesOn l l' (.pointee c pointer none (some l)) (.pointee c pointer none (some l'))
  | registers {n : Nat} : PassesOn l l' (.registers n l) (.registers n l')
  | ofChild {parent : Variable ν} {index : Nat} :
      PassesOn l l' (.ofChild parent index (some l)) (.ofChild parent index (some l'))

theorem PassesOn.not_isLeaf {l l' outer outer' : Listing ν} (h : PassesOn l l' outer outer') :
    ¬ outer.IsLeaf := by
  cases h with
  | _ => exact fun leaf => leaf.elim (fun h => h) fun h => h

/-- What the other shows is shown through it. -/
theorem PassesOn.has {l outer : Listing ν} {pane : Pane} (h : PassesOn l l outer outer)
    (has : l.Has pane) : outer.Has pane := by
  cases h with
  | inlined => exact .inlined has
  | pointee => exact .pointee has
  | registers => exact .behind has
  | ofChild => exact .ofChild has

theorem PassesOn.inner_eq {l l' m m' outer outer' outer'' : Listing ν}
    (h : PassesOn l l' outer outer') (h' : PassesOn m m' outer outer'') : m = l := by
  cases h with
  | _ =>
    cases h' with
    | _ => rfl

/-- What it becomes passes on what the other becomes. -/
theorem PassesOn.after {l l' outer outer' : Listing ν} (h : PassesOn l l' outer outer') :
    PassesOn l' l' outer' outer' := by
  cases h with
  | _ => constructor

/-- What a window showed and shows, in terms of what is held one level further on. -/
inductive HeldWith (d : Inspector σ ν) (s₀ s : Session σ ν)
    (held : Listing ν → Nat → Nat → List (Variable ν) → List (Variable ν) → Prop) :
    Nat → Listing ν → Nat → Nat → List (Variable ν) → List (Variable ν) → Prop
  | own {bound start count : Nat} {l : Listing ν} {rows : List (Variable ν)} (leaf : l.IsLeaf)
      (here : l.Supplies (bound - 1) start count rows) :
      HeldWith d s₀ s held bound l start count rows rows
  | page {bound id offset size start count n : Nat} {b : Bool} {rows : List (Variable ν)}
      (known : (s.kept id).answer? = some (n, b))
      (covers : (s.kept id).Covers offset size)
      (here : (s.kept id).PageSupplies (bound - 1) id offset size start count (n - offset) rows) :
      HeldWith d s₀ s held (bound + 1) (.page id offset size) start count rows rows
  | failed {bound start count : Nat} {c : Context ν} {rule : ExpandedItemRule} {row : Variable ν}
      {inner : Option (Listing ν)} : HeldWith d s₀ s held bound
        (.inlined c rule (some (.failed row)) inner) start count
        (clip start count [row]) (clip start count [row])
  | absent {bound start count n : Nat} {c : Context ν} {rule : ExpandedItemRule} :
      HeldWith d s₀ s held bound (.inlined c rule (some (.counted n)) none) start count [] []
  | failure {bound start count : Nat} {c : Context ν} {pointer : SmartPointer} {row : Variable ν}
      {inner : Option (Listing ν)} : HeldWith d s₀ s held bound
        (.pointee c pointer (some row) inner) start count
        (clip start count [row]) (clip start count [row])
  | group {bound start count last : Nat} {owner : Variable ν} {members : List (Listing ν)}
      {hideRawView : Bool} {limit : Nat} {rows rows' all all' : List (Variable ν)}
      (between : Between (Answered s bound) held start (windowEnd start count) 0 members
        rows rows' last)
      (raw : WithRaw d (Said s₀ s bound) owner hideRawView members
        (start ≤ last ∧ last < windowEnd start count) rows rows' all all') :
      HeldWith d s₀ s held bound (.group owner members hideRawView limit) start count all all'
  | passed {bound start count : Nat} {l outer : Listing ν} {rows rows' : List (Variable ν)}
      (passes : PassesOn l l outer outer) (found : held l start count rows rows') :
      HeldWith d s₀ s held bound outer start count rows rows'

/-- **The rows of a window are held**: within a bound it can be told, from the listing and
from what is kept, that the window showed `rows` in the session `s₀` and shows `rows'` in
the session `s`. -/
def Held (d : Inspector σ ν) (s₀ s : Session σ ν) :
    Nat → Listing ν → Nat → Nat → List (Variable ν) → List (Variable ν) → Prop
  | 0, _, _, _, _, _ => False
  | bound + 1, l, start, count, rows, rows' =>
    HeldWith d s₀ s (Held d s₀ s bound) bound l start count rows rows'

/-! ## Asked again -/

section Again

variable {engine : Engine σ ν} {reach : Reach σ ν} {s : Session σ ν} {l : Listing ν}
  {bound n start count : Nat} {b : Bool} {rows : List (Variable ν)}

/-- Work on a kept listing that changes nothing. -/
theorem withKept_same {α : Type} {id : Nat} {a : α} {act : Listing ν → Search σ ν (α × Listing ν)}
    (acted : act (s.kept id) s = .ok ((a, s.kept id), s)) : withKept id act s = .ok (a, s) := by
  have put : withKept id act s =
      .ok (a, { s with listings := s.listings.setIfInBounds id (s.kept id) }) :=
    bind_eq_ok_iff.mpr ⟨(s, s), rfl, bind_eq_ok_iff.mpr ⟨_, acted, rfl⟩⟩
  rw [put, set_kept]

theorem remaining_again {id offset size : Nat} (known : (s.kept id).answer? = some (n, b))
    (covers : (s.kept id).Covers offset size) :
    remaining (engine.reach (bound + 1)) id offset size s = .ok (n - offset, s) := by
  rw [remaining_eq, if_pos covers.fits]
  refine bind_eq_ok_iff.mpr ⟨(n, s), withKept_same ?_, rfl⟩
  rw [covers.raised]
  exact (asked_again engine (engine.reach bound) s known).1

/-- **An element that was counted gives its answer again**, and nothing changes. -/
theorem Answered.again (h : Answered s bound l n b) (engine : Engine σ ν) :
    (engine.reach bound).count l s = .ok ((n, l), s) ∧
      (engine.reach bound).isSound l s = .ok ((b, l), s) := by
  cases h with
  | simple simple known => exact asked_again engine _ s known
  | @page bound id offset size n b known covers =>
    have asked := (asked_again engine (engine.reach bound) s known).2
    refine ⟨?_, bind_eq_ok_iff.mpr ⟨(b, s), withKept_same asked, rfl⟩⟩
    change countWith engine (engine.reach (bound + 1)) (.page id offset size) s = _
    rw [countWith_page_eq, if_pos covers.fits]
    exact bind_eq_ok_iff.mpr ⟨_, remaining_again known covers, rfl⟩
  | inlined => exact ⟨rfl, rfl⟩

/-- Members that were counted tell again whether they are sound. -/
theorem allSound_again {ls : List (Listing ν)} {answers : List (Nat × Bool)}
    (h : List.Forall₂ (fun l a => Answered s bound l a.1 a.2) ls answers) (engine : Engine σ ν) :
    allSound (engine.reach bound) ls s = .ok ((answers.all Prod.snd, ls), s) := by
  induction h with
  | nil => rfl
  | @cons l a ls answers here others ih =>
    refine bind_eq_ok_iff.mpr ⟨_, (here.again engine).2, ?_⟩
    rw [List.all_cons]
    cases a.2 with
    | true => exact bind_eq_ok_iff.mpr ⟨_, ih, rfl⟩
    | false => rfl

theorem showsRaw_again {ls : List (Listing ν)} {answers : List (Nat × Bool)}
    (h : List.Forall₂ (fun l a => Answered s bound l a.1 a.2) ls answers) (engine : Engine σ ν)
    (hideRawView : Bool) : showsRaw (engine.reach bound) hideRawView ls s =
      .ok ((!(hideRawView && answers.all Prod.snd), ls), s) := by
  cases hideRawView with
  | true => exact bind_eq_ok_iff.mpr ⟨_, allSound_again h engine, rfl⟩
  | false => rfl

theorem bound_reach (engine : Engine σ ν) (bound : Nat) :
    (engine.reach bound).bound = bound - 1 := by
  cases bound <;> rfl

/-- The rows of a page are given again. -/
theorem PageSupplies.again {id offset size : Nat}
    (h : (s.kept id).PageSupplies (bound - 1) id offset size start count (n - offset) rows)
    (known : (s.kept id).answer? = some (n, b))
    (covers : (s.kept id).Covers offset size) (engine : Engine σ ν) :
    pageRows (engine.reach (bound + 1)) id offset size start count s = .ok (rows, s) := by
  rw [pageRows_eq, if_pos covers.fits]
  refine bind_eq_ok_iff.mpr ⟨_, remaining_again known covers, ?_⟩
  unfold PageSupplies at h
  unfold exactRows
  dsimp only at h ⊢
  split at h
  · rename_i past
    rw [if_pos past, h]
    rfl
  · rename_i before
    obtain ⟨shown, here, rfl⟩ := h
    rw [if_neg before]
    split at here
    · rename_i inside
      rw [← bound_reach engine] at here
      rw [if_pos inside]
      exact bind_eq_ok_iff.mpr ⟨_, withKept_same (here.again engine s), rfl⟩
    · rename_i outside
      rw [if_neg outside, here]
      rfl

/-- What members say now, they answer. -/
theorem Said.answers {s₀ : Session σ ν} {ls : List (Listing ν)} {said : List (Bool × Bool)}
    (h : List.Forall₂ (fun l a => Said s₀ s bound l a.1 a.2) ls said) :
    ∃ answers : List (Nat × Bool), List.Forall₂ (fun l a => Answered s bound l a.1 a.2) ls answers ∧
      answers.all Prod.snd = said.all Prod.snd := by
  induction h with
  | nil => exact ⟨[], .nil, rfl⟩
  | @cons l a ls said here _ ih =>
    obtain ⟨⟨n, answered⟩, -⟩ := here
    obtain ⟨answers, all, same⟩ := ih
    exact ⟨(n, a.2) :: answers, .cons answered all, by rw [List.all_cons, List.all_cons, same]⟩

/-- If no member has turned out to be short, all say what they said. -/
theorem Said.same {s₀ : Session σ ν} {ls : List (Listing ν)} {said : List (Bool × Bool)}
    (h : List.Forall₂ (fun l a => Said s₀ s bound l a.1 a.2) ls said)
    (whole : ∀ l ∈ ls, ¬ l.LostSince s₀ s) : said.all Prod.snd = said.all Prod.fst := by
  induction h with
  | nil => rfl
  | cons here _ ih =>
    obtain ⟨first, others⟩ := List.forall_mem_cons.mp whole
    rw [List.all_cons, List.all_cons, ih others, here.2.resolve_right fun h => first h.1]

/-- Members that cannot all be had say so still. -/
theorem Said.unsound {s₀ : Session σ ν} {ls : List (Listing ν)} {said : List (Bool × Bool)}
    (h : List.Forall₂ (fun l a => Said s₀ s bound l a.1 a.2) ls said)
    (unsound : said.all Prod.fst = false) : said.all Prod.snd = false := by
  induction h with
  | nil => cases unsound
  | @cons l a ls said here _ ih =>
    rw [List.all_cons, Bool.and_eq_false_iff] at unsound ⊢
    refine unsound.imp (fun first => ?_) ih
    rcases here.2 with same | ⟨-, sound⟩
    · exact same.trans first
    · rw [first] at sound
      cases sound

/-- What is held of members is given again. -/
theorem Between.again {stop offset last : Nat} {ls : List (Listing ν)}
    {rows rows' : List (Variable ν)}
    {held : Listing ν → Nat → Nat → List (Variable ν) → List (Variable ν) → Prop}
    (again : ∀ l start count rows rows', held l start count rows rows' → ∃ given,
      (engine.reach bound).rows l start count s = .ok ((given, l), s) ∧
        held l start count rows given)
    (h : Between (Answered s bound) held start stop offset ls rows rows' last) :
    ∃ given, rowsBetween (engine.reach bound) start stop offset ls s =
        .ok ((given, ls, last), s) ∧
      Between (Answered s bound) held start stop offset ls rows given last := by
  induction h with
  | nil => exact ⟨[], rfl, .nil⟩
  | past past =>
    refine ⟨[], ?_, .past past⟩
    rw [rowsBetween, if_pos past]
    rfl
  | skipped before counted away _ ih =>
    obtain ⟨given, ended, others⟩ := ih
    refine ⟨given, ?_, .skipped before counted away others⟩
    rw [rowsBetween_cons, if_neg before]
    refine bind_eq_ok_iff.mpr ⟨_, (counted.again engine).1, ?_⟩
    dsimp only
    rw [if_neg away]
    exact bind_eq_ok_iff.mpr ⟨_, ended, rfl⟩
  | shown before counted inside here _ ih =>
    obtain ⟨more, ended, others⟩ := ih
    obtain ⟨given, ended', here'⟩ := again _ _ _ _ _ here
    refine ⟨given ++ more, ?_, .shown before counted inside here' others⟩
    rw [rowsBetween_cons, if_neg before]
    refine bind_eq_ok_iff.mpr ⟨_, (counted.again engine).1, ?_⟩
    dsimp only
    rw [if_pos inside]
    exact bind_eq_ok_iff.mpr ⟨_, ended', bind_eq_ok_iff.mpr ⟨_, ended, rfl⟩⟩

/-- A listing that passes on the children of another shows its rows. -/
theorem PassesOn.rowsWith_eq {s' : Session σ ν} {l' outer outer' : Listing ν}
    (passes : PassesOn l l' outer outer')
    (ended : reach.rows l start count s = .ok ((rows, l'), s')) :
    rowsWith engine reach start count outer s = .ok ((rows, outer'), s') := by
  cases passes with
  | registers => exact bind_eq_ok_iff.mpr ⟨_, ended, rfl⟩
  | _ => exact bind_eq_ok_iff.mpr ⟨_, rfl, bind_eq_ok_iff.mpr ⟨_, ended, rfl⟩⟩

/-- What is held of a group is given again. -/
theorem WithRaw.again {d : Inspector σ ν} {s₀ : Session σ ν} {owner : Variable ν}
    {hideRawView : Bool} {members : List (Listing ν)} {last : Nat}
    {rows rows' given all all' : List (Variable ν)} (same : engine.inspector = d)
    (shown : rowsBetween (engine.reach bound) start (windowEnd start count) 0 members s =
      .ok ((given, members, last), s))
    (h : WithRaw d (Said s₀ s bound) owner hideRawView members
      (start ≤ last ∧ last < windowEnd start count) rows rows' all all') :
    ∃ all', groupRows engine (engine.reach bound) owner hideRawView members start count s =
        .ok ((all', members), s) ∧
      WithRaw d (Said s₀ s bound) owner hideRawView members
        (start ≤ last ∧ last < windowEnd start count) rows given all all' := by
  have reached (here : start ≤ last ∧ last < windowEnd start count) :
      (decide (start ≤ last) && decide (last < windowEnd start count)) = true := by simp [here]
  -- the row of the raw value, if what the members say now shows it
  have withRaw (here : start ≤ last ∧ last < windowEnd start count) {said : List (Bool × Bool)}
      (all : List.Forall₂ (fun l a => Said s₀ s bound l a.1 a.2) members said)
      (shows_ : (hideRawView && said.all Prod.snd) = false) :
      groupRows engine (engine.reach bound) owner hideRawView members start count s =
        .ok ((given ++ [owner.rawView d s.target], members), s) := by
    obtain ⟨answers, answered, now⟩ := Said.answers all
    refine bind_eq_ok_iff.mpr ⟨_, shown, ?_⟩
    dsimp only
    rw [if_pos (reached here)]
    refine bind_eq_ok_iff.mpr ⟨_, showsRaw_again answered engine hideRawView, ?_⟩
    rw [now, shows_, ← same]
    rfl
  cases h with
  | away away =>
    refine ⟨given, bind_eq_ok_iff.mpr ⟨_, shown, ?_⟩, .away away⟩
    dsimp only
    rw [if_neg (by simpa using away)]
    rfl
  | hidden here said hides =>
    obtain ⟨answers, answered, now⟩ := Said.answers said
    refine ⟨given, bind_eq_ok_iff.mpr ⟨_, shown, ?_⟩, .hidden here said hides⟩
    dsimp only
    rw [if_pos (reached here)]
    refine bind_eq_ok_iff.mpr ⟨_, showsRaw_again answered engine hideRawView, ?_⟩
    rw [now, hides]
    rfl
  | raw here said showed t =>
    refine ⟨_, withRaw here said ?_, .raw here said showed t s.target⟩
    rw [Bool.and_eq_false_iff] at showed ⊢
    exact showed.imp_right (Said.unsound said)
  | appears here said hid lost =>
    refine ⟨_, withRaw here said ?_, .appears here said hid lost s.target⟩
    rw [lost, Bool.and_false]

/-- **Rows that are held are given again**, and nothing changes, whatever evaluates
expressions. -/
theorem Held.again {d : Inspector σ ν} {s₀ : Session σ ν} {rows rows' : List (Variable ν)}
    (h : Held d s₀ s bound l start count rows rows') (same : engine.inspector = d) :
    ∃ given, (engine.reach bound).rows l start count s = .ok ((given, l), s) ∧
      Held d s₀ s bound l start count rows given := by
  induction bound generalizing l start count rows rows' with
  | zero => exact h.elim
  | succ bound ih =>
    cases h with
    | own leaf here =>
      have there := here
      rw [← bound_reach engine] at there
      exact ⟨rows, there.again engine s, .own leaf here⟩
    | page known covers here =>
      exact ⟨rows, bind_eq_ok_iff.mpr ⟨_, here.again known covers engine, rfl⟩,
        .page known covers here⟩
    | failed => exact ⟨_, rfl, .failed⟩
    | absent => exact ⟨_, rfl, .absent⟩
    | failure => exact ⟨_, rfl, .failure⟩
    | passed passes found =>
      obtain ⟨given, ended, found'⟩ := ih found
      exact ⟨given, passes.rowsWith_eq ended, .passed passes found'⟩
    | group between raw =>
      obtain ⟨given, ended, between'⟩ := between.again fun l start count rows rows' h => ih h
      obtain ⟨all, ended', raw'⟩ := raw.again same ended
      exact ⟨all, bind_eq_ok_iff.mpr ⟨_, ended', rfl⟩, .group between' raw'⟩

end Again

/-! ## Where the kept lists are the same -/

section Congr

variable {d : Inspector σ ν} {s s' : Session σ ν} {l : Listing ν} {bound n start count : Nat}
  {b : Bool} {rows rows' : List (Variable ν)}

/-- A listing that was counted is so while what its pages show is as it was. -/
theorem Answered.congr (h : Answered s bound l n b)
    (same : ∀ id, l.Has (.page id) → s'.kept id = s.kept id) : Answered s' bound l n b := by
  cases h with
  | simple simple known => exact .simple simple known
  | @page _ id offset size n b known raised =>
    have kept := same id (.page rfl)
    rw [← kept] at known raised
    exact .page known raised
  | inlined => exact .inlined

theorem Said.congr {b' : Bool} (h : Said s s bound l b b')
    (same : ∀ id, l.Has (.page id) → s'.kept id = s.kept id) : Said s' s' bound l b b' := by
  obtain ⟨⟨n, answered⟩, lasts⟩ := h
  refine ⟨⟨n, answered.congr same⟩, lasts.imp_right fun ⟨lost, sound⟩ => ?_⟩
  obtain ⟨id, offset, size, rfl, whole, short⟩ := lost.exists_page
  exact absurd short whole

theorem Between.congr {answered answered' : Listing ν → Nat → Bool → Prop}
    {held held' : Listing ν → Nat → Nat → List (Variable ν) → List (Variable ν) → Prop}
    {stop offset last : Nat} {ls : List (Listing ν)}
    (counted : ∀ l ∈ ls, ∀ n b, answered l n b → answered' l n b)
    (shown : ∀ l ∈ ls, ∀ start count rows rows', held l start count rows rows' →
      held' l start count rows rows')
    (h : Between answered held start stop offset ls rows rows' last) :
    Between answered' held' start stop offset ls rows rows' last := by
  induction h with
  | nil => exact .nil
  | past past => exact .past past
  | skipped before here away _ ih =>
    obtain ⟨first, others⟩ := List.forall_mem_cons.mp counted
    exact .skipped before (first _ _ here) away (ih others (List.forall_mem_cons.mp shown).2)
  | shown before here inside own _ ih =>
    obtain ⟨first, others⟩ := List.forall_mem_cons.mp counted
    obtain ⟨first', others'⟩ := List.forall_mem_cons.mp shown
    exact .shown before (first _ _ here) inside (first' _ _ _ _ own) (ih others others')

theorem WithRaw.congr {said said' : Listing ν → Bool → Bool → Prop} {owner : Variable ν}
    {hideRawView : Bool} {members : List (Listing ν)} {reached : Prop}
    {all all' : List (Variable ν)} (same : ∀ l ∈ members, ∀ b b', said l b b' → said' l b b')
    (h : WithRaw d said owner hideRawView members reached rows rows' all all') :
    WithRaw d said' owner hideRawView members reached rows rows' all all' := by
  have transfer {answers : List (Bool × Bool)}
      (h : List.Forall₂ (fun l a => said l a.1 a.2) members answers) :
      List.Forall₂ (fun l a => said' l a.1 a.2) members answers :=
    ((List.forall₂_and_left _ _).mpr ⟨same, h⟩).imp fun _ _ h => h.1 _ _ h.2
  cases h with
  | away away => exact .away away
  | hidden here all hides => exact .hidden here (transfer all) hides
  | raw here all showed t t' => exact .raw here (transfer all) showed t t'
  | appears here all hid lost t' => exact .appears here (transfer all) hid lost t'

/-- **What is held now is held where the lists that the listing shows are the same.** -/
theorem Held.congr (h : Held d s s bound l start count rows rows')
    (same : ∀ id, l.Has (.page id) → s'.kept id = s.kept id) :
    Held d s' s' bound l start count rows rows' := by
  induction bound generalizing l start count rows rows' with
  | zero => exact h.elim
  | succ bound ih =>
    cases h with
    | own leaf here => exact .own leaf here
    | @page _ id _ _ _ _ _ _ _ known covers here =>
      have kept := same id (.page rfl)
      rw [← kept] at known covers here
      exact .page known covers here
    | failed => exact .failed
    | absent => exact .absent
    | failure => exact .failure
    | passed passes found => exact .passed passes (ih found fun id has => same id (passes.has has))
    | group between raw =>
      refine .group (between.congr (fun l member n b h => h.congr fun id has => ?_)
        fun l member start count rows rows' h => ih h fun id has => ?_)
        (raw.congr fun l member b b' h => h.congr fun id has => ?_)
      all_goals exact same id (.group member has)

end Congr

/-! ## Where no list has turned out to be short -/

section Renewed

variable {d : Inspector σ ν} {s₀ s : Session σ ν} {l : Listing ν} {bound start count : Nat}
  {rows rows' : List (Variable ν)}

theorem Between.renewed {answered : Listing ν → Nat → Bool → Prop}
    {held : Listing ν → Nat → Nat → List (Variable ν) → List (Variable ν) → Prop}
    {stop offset last : Nat} {ls : List (Listing ν)}
    (renewed : ∀ l ∈ ls, ∀ start count rows rows', held l start count rows rows' →
      Renewed d rows rows')
    (h : Between answered held start stop offset ls rows rows' last) : Renewed d rows rows' := by
  induction h with
  | nil => exact .nil
  | past => exact .nil
  | skipped _ _ _ _ ih => exact ih (List.forall_mem_cons.mp renewed).2
  | shown _ _ _ here _ ih =>
    obtain ⟨first, others⟩ := List.forall_mem_cons.mp renewed
    exact List.rel_append (first _ _ _ _ here) (ih others)

theorem WithRaw.renewed {owner : Variable ν} {hideRawView : Bool} {members : List (Listing ν)}
    {reached : Prop} {all all' : List (Variable ν)} (renewed : Renewed d rows rows')
    (whole : ∀ l ∈ members, ¬ l.LostSince s₀ s)
    (h : WithRaw d (Said s₀ s bound) owner hideRawView members reached rows rows' all all') :
    Renewed d all all' := by
  cases h with
  | away => exact renewed
  | hidden => exact renewed
  | raw _ _ _ t t' => exact List.rel_append renewed (.cons (.raw owner t t') .nil)
  | appears _ said hid lost =>
    rw [Said.same said whole] at lost
    rw [lost, Bool.and_false] at hid
    cases hid

/-- **A window shows the same rows**, up to those of raw values, if no list that the listing
shows has turned out to be short. -/
theorem Held.renewed (h : Held d s₀ s bound l start count rows rows')
    (whole : ∀ id, l.Has (.page id) → ¬ (s₀.kept id).TurnsShort (s.kept id)) :
    Renewed d rows rows' := by
  induction bound generalizing l start count rows rows' with
  | zero => exact h.elim
  | succ bound ih =>
    cases h with
    | passed passes found => exact ih found fun id has => whole id (passes.has has)
    | group between raw =>
      refine raw.renewed (between.renewed fun l member start count rows rows' h =>
        ih h fun id has => whole id (.group member has)) fun l member lost => ?_
      obtain ⟨id, offset, size, rfl, turned⟩ := lost.exists_page
      exact whole id (.group member (.page rfl)) turned
    | _ => exact .refl d _

end Renewed

end Listing

end WatchView
