import WatchView.Children
import WatchView.View
import WatchView.Proofs.Bounded
import WatchView.Proofs.Listing.Elements
import WatchView.Proofs.Listing.WordSums
import WatchView.Proofs.OneVariable
import Mathlib.Data.List.Basic
/-!
# Pages lose and repeat nothing

Every page of a listing asks the one listing they all share, and asking may
change it: it may look for more children, so that its count goes up. Still a
page shows what its place in the whole says, whatever other pages were asked
for before (`countWith_page`, `rowsWith_page`). The probe for one child past
the page is what tells the last page from the others.

`Backed` says what a page relies on.
-/

namespace WatchView

variable {σ ν α : Type}

/-! ## The shared listing -/

/-- A kept listing that is backed by finitely many rows: raised to a limit, it
counts as many of them as the limit allows or more, and never fewer than it
counted before; and its windows are clipped from the rows it counted. In
`known`, there is what it counted last, if it did, and a session in which
this is so. -/
structure Backed (reach : Reach σ ν) (id : Nat) (rows : List (Variable ν))
    (known : Option Nat → Session σ ν → Prop) : Prop where
  count (limit : Nat) {c : Option Nat} {s : Session σ ν} (h : known c s) :
    ∃ n s', withKept id (fun l => reach.count (l.raisedTo limit)) s = .ok (n, s') ∧
      known (some n) s' ∧ c.getD 0 ≤ n ∧ min limit rows.length ≤ n ∧ n ≤ rows.length
  window (start count : Nat) {c : Nat} {s : Session σ ν} (h : known (some c) s) :
    ∃ s', withKept id (fun l => reach.rows l start count) s =
        .ok (clip start count (rows.take c), s') ∧
      known (some c) s'

/-! ## What a page shows -/

/-- The rows of the listing on a page. -/
def pageOwn (rows : List α) (offset size : Nat) : List α := (rows.drop offset).take size

/-- What a page shows: its rows, and the row that leads on if there are more. -/
def pageShown (id : Nat) (rows : List (Variable ν)) (offset size : Nat) : List (Variable ν) :=
  pageOwn rows offset size ++
    if offset + size < rows.length then [.more id (offset + size) size] else []

theorem length_pageOwn (rows : List α) (offset size : Nat) :
    (pageOwn rows offset size).length = min (rows.length - offset) size := by
  unfold pageOwn
  rw [List.length_take, List.length_drop]
  omega

/-- A window of a page that ends within its own rows. -/
theorem drop_take_pageOwn (rows : List α) {offset size start stop : Nat} (le : stop ≤ size) :
    ((pageOwn rows offset size).take stop).drop start =
      (rows.take (offset + stop)).drop (offset + start) := by
  unfold pageOwn
  rw [List.take_take, Nat.min_eq_left le, ← List.drop_drop]
  congr 1
  rw [List.drop_take]
  congr 1
  omega

/-- A window of rows with perhaps one more behind them. -/
theorem clip_append_more {start count stop : Nat} (own : List α) {more : List α}
    (single : more.length ≤ 1)
    (hstop : stop = min (windowEnd start count) (own.length + more.length)) :
    clip start count (own ++ more) =
      if stop ≤ start then []
      else
        (if start < own.length then (own.take (min stop own.length)).drop start else []) ++
        if own.length < stop then more else [] := by
  have cut : clip start count (own ++ more) = ((own ++ more).take stop).drop start := by
    unfold clip
    rw [hstop, ← List.length_append, ← List.take_eq_take_min]
  rw [cut]
  by_cases empty : stop ≤ start
  · rw [if_pos empty, List.drop_eq_nil_of_le]
    rw [List.length_take]
    omega
  · rw [if_neg empty]
    by_cases last : own.length < stop
    · have whole : (own ++ more).take stop = own ++ more := by
        rw [List.take_of_length_le]
        rw [List.length_append]
        omega
      have upto : own.take (min stop own.length) = own := by
        rw [List.take_of_length_le (by omega)]
      rw [whole, if_pos last, upto, List.drop_append_of_le_length (by omega)]
      by_cases inside : start < own.length
      · rw [if_pos inside]
      · rw [if_neg inside, List.drop_eq_nil_of_le (by omega)]
    · have upto : min stop own.length = stop := by omega
      rw [if_neg last, if_pos (by omega), upto, List.take_append_of_le_length (by omega),
        List.append_nil]

/-! ## Asking a page -/

namespace Listing

variable (engine : Engine σ ν) {reach : Reach σ ν} {id : Nat} {rows : List (Variable ν)}
  {known : Option Nat → Session σ ν → Prop}

/-- A page that is asked for anything learns how many children are left from
its offset: enough to know what it shows. -/
theorem exists_remaining (backed : Backed reach id rows known) {offset size : Nat}
    (fits : offset + size + 1 < wordCount) {c : Option Nat} {s : Session σ ν}
    (h : known c s) :
    ∃ n s', remaining reach id offset size s = .ok (n - offset, s') ∧ known (some n) s' ∧
      min (offset + size + 1) rows.length ≤ n ∧ n ≤ rows.length := by
  obtain ⟨n, s', counted, h', -, low, high⟩ := backed.count (offset + size + 1) h
  refine ⟨n, s', ?_, h', low, high⟩
  rw [remaining_eq, if_pos fits]
  exact Bounded.bind_eq_ok_iff.mpr ⟨(n, s'), counted, rfl⟩

theorem pageLength_eq (id : Nat) {offset size n : Nat} {rows : List (Variable ν)}
    (low : min (offset + size + 1) rows.length ≤ n) (high : n ≤ rows.length) :
    pageLength size (n - offset) = (pageShown id rows offset size).length := by
  unfold pageLength pageShown
  rw [List.length_append, length_pageOwn]
  by_cases more : offset + size < rows.length
  · rw [if_pos more, if_pos (by omega), List.length_singleton]
    omega
  · rw [if_neg more, if_neg (by omega), List.length_nil]
    omega

/-- **A page counts what it shows.** -/
theorem countWith_page (backed : Backed reach id rows known) {offset size : Nat}
    (fits : offset + size + 1 < wordCount) {c : Option Nat} {s : Session σ ν}
    (h : known c s) :
    ∃ c' s', known c' s' ∧ countWith engine reach (.page id offset size) s =
      .ok (((pageShown id rows offset size).length, .page id offset size), s') := by
  obtain ⟨n, s', asked, h', low, high⟩ := exists_remaining backed fits h
  refine ⟨some n, s', h', ?_⟩
  rw [countWith_page_eq, if_pos fits]
  refine Bounded.bind_eq_ok_iff.mpr ⟨_, asked, ?_⟩
  rw [pageLength_eq id low high]
  rfl

/-- The window of the shared listing that a window of a page needs. -/
theorem clip_shared {offset size start stop n : Nat} (fits : offset + size + 1 < wordCount)
    (inside : start < stop) (le : stop ≤ size) (known : offset + stop ≤ n)
    (rows : List α) :
    clip (offset + start) (stop - start) (rows.take n) =
      ((pageOwn rows offset size).take stop).drop start := by
  have last : windowEnd (offset + start) (stop - start) = offset + stop := by
    unfold windowEnd
    omega
  rw [drop_take_pageOwn rows le]
  unfold clip
  rw [last, List.take_take, Nat.min_eq_left known]

/-- **A window of a page is clipped from what the page shows.** -/
theorem rowsWith_page (backed : Backed reach id rows known) {offset size : Nat}
    (fits : offset + size + 1 < wordCount) (start count : Nat) {c : Option Nat}
    {s : Session σ ν} (h : known c s) :
    ∃ c' s', known c' s' ∧ rowsWith engine reach start count (.page id offset size) s =
      .ok ((clip start count (pageShown id rows offset size), .page id offset size), s') := by
  obtain ⟨n, s', asked, h', low, high⟩ := exists_remaining backed fits h
  have own : (pageOwn rows offset size).length = min (n - offset) size := by
    rw [length_pageOwn]
    omega
  have shown := pageLength_eq id low high
  unfold pageShown at shown ⊢
  rw [List.length_append] at shown
  have more : min (n - offset) size < min (windowEnd start count) (pageLength size (n - offset)) →
      offset + size < rows.length := by
    unfold pageLength
    intro last
    split at last <;> omega
  rw [rowsWith]
  suffices ∃ c' s'', known c' s'' ∧ pageRows reach id offset size start count s =
      .ok (clip start count (pageOwn rows offset size ++
        if offset + size < rows.length then [.more id (offset + size) size] else []), s'') by
    obtain ⟨c', s'', h'', answered⟩ := this
    exact ⟨c', s'', h'', Bounded.bind_eq_ok_iff.mpr ⟨_, answered, rfl⟩⟩
  rw [clip_append_more _ (by split <;> simp) (congrArg _ shown), own]
  generalize hstop : min (windowEnd start count) (pageLength size (n - offset)) = stop at more ⊢
  -- the row that leads on, if the window reaches it
  have lastly (xs : List (Variable ν)) :
      (if min (n - offset) size < stop then xs ++ [.more id (offset + size) size] else xs) =
      xs ++ if min (n - offset) size < stop then
        if offset + size < rows.length then [.more id (offset + size) size] else []
        else [] := by
    by_cases last : min (n - offset) size < stop
    · rw [if_pos last, if_pos last, if_pos (more last)]
    · rw [if_neg last, if_neg last, List.append_nil]
  rw [pageRows_eq, if_pos fits]
  by_cases empty : stop ≤ start
  · refine ⟨some n, s', h', Bounded.bind_eq_ok_iff.mpr ⟨_, asked, ?_⟩⟩
    unfold exactRows
    dsimp only
    rw [hstop, if_pos empty, if_pos empty]
    rfl
  · by_cases inside : start < min (n - offset) size
    · obtain ⟨s'', windowed, h''⟩ := backed.window (offset + start)
        (min stop (min (n - offset) size) - start) h'
      rw [clip_shared fits (by omega) (by omega) (by omega)] at windowed
      refine ⟨some n, s'', h'', Bounded.bind_eq_ok_iff.mpr ⟨_, asked, ?_⟩⟩
      unfold exactRows
      dsimp only
      rw [hstop, if_neg empty, if_neg empty, if_pos inside, if_pos inside]
      refine Bounded.bind_eq_ok_iff.mpr ⟨_, windowed, ?_⟩
      dsimp only
      rw [lastly]
      rfl
    · refine ⟨some n, s', h', Bounded.bind_eq_ok_iff.mpr ⟨_, asked, ?_⟩⟩
      unfold exactRows
      dsimp only
      rw [hstop, if_neg empty, if_neg empty, if_neg inside, if_neg inside]
      refine Bounded.bind_eq_ok_iff.mpr ⟨([], s'), rfl, ?_⟩
      dsimp only
      rw [lastly]
      rfl

end Listing

/-! ## Asking pages in any order -/

/-- What can be asked of the pages of a listing, by their numbers. -/
inductive PageRequest where
  | count (page : Nat)
  | rows (page start count : Nat)

/-- What is answered. -/
inductive PageAnswer (ν : Type) where
  | count (n : Nat)
  | rows (shown : List (Variable ν))

namespace PageRequest

/-- The page asked for. -/
def page : PageRequest → Nat
  | count page => page
  | rows page _ _ => page

/-- Ask a page. Each has `size` rows and begins where the one before ends. -/
def ask (engine : Engine σ ν) (reach : Reach σ ν) (id size : Nat) :
    PageRequest → Search σ ν (PageAnswer ν)
  | count page => do
    let (n, _) ← Listing.countWith engine reach (.page id (page * size) size)
    return .count n
  | rows page start n => do
    let (shown, _) ← Listing.rowsWith engine reach start n (.page id (page * size) size)
    return .rows shown

/-- The answer, told by the rows of the listing. -/
def answer (id : Nat) (all : List (Variable ν)) (size : Nat) : PageRequest → PageAnswer ν
  | count page => .count (pageShown id all (page * size) size).length
  | rows page start n => .rows (clip start n (pageShown id all (page * size) size))

variable (engine : Engine σ ν) {reach : Reach σ ν} {id : Nat} {all : List (Variable ν)}
  {known : Option Nat → Session σ ν → Prop}

theorem ask_eq (backed : Backed reach id all known) {size : Nat} (r : PageRequest)
    (fits : r.page * size + size + 1 < wordCount) {c : Option Nat} {s : Session σ ν}
    (h : known c s) :
    ∃ c' s', known c' s' ∧ r.ask engine reach id size s = .ok (r.answer id all size, s') := by
  cases r with
  | count page =>
    obtain ⟨c', s', h', asked⟩ := Listing.countWith_page engine backed fits h
    exact ⟨c', s', h', Bounded.bind_eq_ok_iff.mpr ⟨_, asked, rfl⟩⟩
  | rows page start n =>
    obtain ⟨c', s', h', asked⟩ := Listing.rowsWith_page engine backed fits start n h
    exact ⟨c', s', h', Bounded.bind_eq_ok_iff.mpr ⟨_, asked, rfl⟩⟩

/-- **Any number of requests are answered each as it would be alone.** -/
theorem mapM_ask_eq (backed : Backed reach id all known) {size : Nat} (rs : List PageRequest)
    (fits : ∀ r ∈ rs, r.page * size + size + 1 < wordCount) {c : Option Nat}
    {s : Session σ ν} (h : known c s) :
    ∃ c' s', known c' s' ∧
      rs.mapM (ask engine reach id size) s = .ok (rs.map (answer id all size), s') := by
  induction rs generalizing c s with
  | nil => exact ⟨c, s, h, rfl⟩
  | cons r rs ih =>
    obtain ⟨c₁, s₁, h₁, first⟩ :=
      ask_eq engine backed r (fits r List.mem_cons_self) h
    obtain ⟨c', s', h', others⟩ := ih (fun r hr => fits r (List.mem_cons_of_mem _ hr)) h₁
    refine ⟨c', s', h', ?_⟩
    rw [List.mapM_cons]
    refine Bounded.bind_eq_ok_iff.mpr ⟨_, first, ?_⟩
    exact Bounded.bind_eq_ok_iff.mpr ⟨_, others, rfl⟩

end PageRequest

/-! ## All pages -/

/-- The rows on so many pages are so many rows. -/
theorem flatMap_pageOwn (rows : List α) (size pages : Nat) :
    (List.range pages).flatMap (fun page => pageOwn rows (page * size) size) =
      rows.take (pages * size) := by
  induction pages with
  | zero => simp
  | succ pages ih =>
    rw [List.range_succ, List.flatMap_append, ih, List.flatMap_singleton, Nat.add_one_mul,
      List.take_add]
    rfl

/-- **Following the rows that lead on loses and repeats nothing.** Pages may be
counted and asked for windows in any order and any number of times: each
answer is told by the rows of the listing and the number of the page alone.
A page shows its share of the rows, and behind them the row that leads to
the next page if and only if there are more rows. All pages up to one that
shows no such row have all rows, in order. -/
theorem pages_of_backed (engine : Engine σ ν) {reach : Reach σ ν} {id : Nat}
    {all : List (Variable ν)} {known : Option Nat → Session σ ν → Prop}
    (backed : Backed reach id all known) (size : Nat) :
    (∀ rs : List PageRequest, (∀ r ∈ rs, r.page * size + size + 1 < wordCount) →
      ∀ c s, known c s → ∃ c' s', known c' s' ∧
        rs.mapM (PageRequest.ask engine reach id size) s =
          .ok (rs.map (PageRequest.answer id all size), s')) ∧
    (∀ page, pageShown id all (page * size) size =
      pageOwn all (page * size) size ++
        if (page + 1) * size < all.length then [.more id ((page + 1) * size) size] else []) ∧
    (∀ page s, engine.childListing (.more id ((page + 1) * size) size) s =
      (.page id ((page + 1) * size) size, s)) ∧
    ∀ pages, all.length ≤ pages * size →
      (List.range pages).flatMap (fun page => pageOwn all (page * size) size) = all := by
  refine ⟨fun rs fits c s h => PageRequest.mapM_ask_eq engine backed rs fits h, fun page => ?_,
    fun page s => rfl, fun pages enough => ?_⟩
  · unfold pageShown
    rw [Nat.add_one_mul]
  · rw [flatMap_pageOwn, List.take_of_length_le enough]

/-! ## Arrays are backed -/

/-- Rows that are kept are not made again. -/
theorem Kept.rowsAt_of_kept {m : Type → Type} [Monad m] [LawfulMonad m]
    (make : Nat → m (Variable ν)) {kept : Kept ν} {positions : List Nat}
    (h : ∀ i ∈ positions, (kept.row? i).isSome) :
    kept.rowsAt make positions = pure (positions.filterMap kept.row?, kept) := by
  induction positions with
  | nil => rfl
  | cons i is ih =>
    obtain ⟨row, hrow⟩ := Option.isSome_iff_exists.mp (h i List.mem_cons_self)
    rw [Kept.rowsAt, hrow, ih fun i hi => h i (List.mem_cons_of_mem _ hi),
      List.filterMap_cons, hrow]
    simp

/-- Work on a kept listing puts back what becomes of it. -/
theorem withKept_eq {id : Nat} {act : Listing ν → Search σ ν (α × Listing ν)} {s s' : Session σ ν}
    {l l' : Listing ν} {a : α} (here : s.listings[id]? = some l)
    (acted : act l s = .ok ((a, l'), s')) :
    withKept id act s = .ok (a, { s' with listings := s'.listings.setIfInBounds id l' }) := by
  unfold withKept
  refine Bounded.bind_eq_ok_iff.mpr ⟨(s, s), rfl, ?_⟩
  dsimp only
  rw [here]
  exact Bounded.bind_eq_ok_iff.mpr ⟨_, acted, rfl⟩

theorem getElem?_setIfInBounds_of_some {id : Nat} {listings : Array (Listing ν)}
    {l : Listing ν} (here : listings[id]? = some l) (l' : Listing ν) :
    (listings.setIfInBounds id l')[id]? = some l' := by
  obtain ⟨inside, -⟩ := Array.getElem?_eq_some_iff.mp here
  rw [Array.getElem?_setIfInBounds, if_pos rfl, if_pos inside]

/-- An array whose elements were all asked for is backed by their rows. -/
theorem backed_array (engine : Engine σ ν) (bound id : Nat) {l : ArrayListing ν}
    {rows : List (Variable ν)} {pointer : String}
    (counted : l.standing = some (.counted rows.length)) (pointed : l.pointer = some pointer)
    (kept : ∀ i, i < rows.length → l.kept.row? i = rows[i]?) :
    Backed (engine.reach (bound + 1)) id rows fun c s =>
      s.listings[id]? = some (.array l) ∧ ∀ n, c = some n → n = rows.length where
  count limit c s h := by
    obtain ⟨here, known⟩ := h
    have same : (Listing.array l).raisedTo limit = .array l := by
      unfold Listing.raisedTo
      split <;> rfl
    have settled := congrFun (ArrayListing.settled_of_standing engine.evaluator counted) s.target
    refine ⟨rows.length, { s with listings := s.listings.setIfInBounds id (.array l) },
      ?_, ⟨?_, ?_⟩, ?_, ?_, ?_⟩
    · refine withKept_eq here ?_
      rw [same]
      exact Bounded.bind_eq_ok_iff.mpr ⟨_, Bounded.lift_eq settled, rfl⟩
    · exact getElem?_setIfInBounds_of_some here _
    · rintro n ⟨⟩
      rfl
    · cases c with
      | none => exact Nat.zero_le _
      | some n => exact Nat.le_of_eq (known n rfl)
    · exact Nat.min_le_right _ _
    · exact Nat.le_refl _
  window start count c s h := by
    obtain ⟨here, known⟩ := h
    obtain rfl := known c rfl
    have positions : ∀ i ∈ windowOf rows.length start count, l.kept.row? i = rows[i]? :=
      fun i hi => kept i (lt_of_mem_windowOf hi)
    have answered : l.rows engine.evaluator start count s.target =
        ((clip start count rows, l), s.target) := by
      have settled := ArrayListing.settled_of_standing engine.evaluator counted
      unfold ArrayListing.rows
      obtain ⟨_, _, _, _, _⟩ := l
      obtain rfl := pointed
      rw [settled, pure_bind]
      dsimp only
      rw [Kept.rowsAt_of_kept _ ?_, pure_bind]
      · rw [List.filterMap_congr positions, filterMap_windowOf, List.take_length]
        rfl
      · intro i hi
        rw [positions i hi, List.getElem?_eq_getElem (lt_of_mem_windowOf hi)]
        rfl
    refine ⟨{ s with listings := s.listings.setIfInBounds id (.array l) }, ?_, ?_, known⟩
    · refine withKept_eq here ?_
      rw [List.take_length]
      exact Bounded.bind_eq_ok_iff.mpr ⟨_, Bounded.lift_eq answered, rfl⟩
    · exact getElem?_setIfInBounds_of_some here _

/-- An array of three elements that were all asked for. -/
def threeElements : ArrayListing Unit where
  context := OneVariable.context
  rule := {}
  standing := some (.counted 3)
  pointer := some "p"
  kept := [(0, OneVariable.named "[0]"), (1, OneVariable.named "[1]"),
    (2, OneVariable.named "[2]")]

/-- Their rows. -/
def threeRows : List (Variable Unit) :=
  [OneVariable.named "[0]", OneVariable.named "[1]", OneVariable.named "[2]"]

theorem kept_threeElements (i : Nat) (h : i < threeRows.length) :
    threeElements.kept.row? i = threeRows[i]? := by
  match i, h with
  | 0, _ => rfl
  | 1, _ => rfl
  | 2, _ => rfl

/-- Three elements on pages of two: the second page has one element and leads
nowhere; the first, asked for later, leads to it. -/
theorem pages_of_three_elements :
    ∃ s', [.rows 1 0 9, .count 0, .rows 0 1 9].mapM
        (PageRequest.ask OneVariable.engine (OneVariable.engine.reach 1) 0 2)
        (OneVariable.session #[.array threeElements]) =
      .ok ([.rows [OneVariable.named "[2]"], .count 3,
        .rows [OneVariable.named "[1]", .more 0 2 2]], s') := by
  have backed := backed_array OneVariable.engine 0 0 rfl rfl kept_threeElements
  obtain ⟨-, s', -, asked⟩ := (pages_of_backed OneVariable.engine backed 2).1
    [.rows 1 0 9, .count 0, .rows 0 1 9] (by decide) none
    (OneVariable.session #[.array threeElements]) ⟨rfl, by simp⟩
  exact ⟨s', asked⟩

end WatchView
