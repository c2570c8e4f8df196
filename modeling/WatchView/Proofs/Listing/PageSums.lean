import WatchView.Proofs.Listing.Agreement
import WatchView.Proofs.Listing.Pages
/-!
# The sums of a page

A page is reckoned by sums of words: its offset and size, one more for the
probe behind it, and the positions of its rows. The sizes of pages are options,
so any word may be one.

The row that leads on is there only once a page was counted, so the offsets that
follow each other are sums of words that are words (`PageReached.exact`). But the
limit a page asks for is reckoned before anything is counted, and nothing holds it
back. If it is a word, no sum of the page is too large. If it is none, neither the
number of the rows nor any of them is ever had (`reached_page_sums`).
-/

namespace WatchView

open Bounded Listing

variable {σ ν : Type}

/-! ## The offsets of pages -/

/-- The offsets of the pages of a kept listing that can be reached: there is the
first page, and a page leads to the next one if more children are left than it
shows. -/
inductive PageReached (reach : Reach σ ν) (id size : Nat) : Nat → Prop
  | first : PageReached reach id size 0
  | more {offset left : Nat} {s s' : Session σ ν} (here : PageReached reach id size offset)
      (counted : remaining reach id offset size s = .ok (left, s')) (leads : size < left) :
      PageReached reach id size (offset + size)

/-- **The offsets of pages are words**, and the pages before a page are full. -/
theorem PageReached.exact {reach : Reach σ ν} {id size offset : Nat}
    (h : PageReached reach id size offset) :
    offset < wordCount ∧ ∃ page, offset = page * size := by
  induction h with
  | first => exact ⟨by decide, 0, (Nat.zero_mul size).symm⟩
  | more _ counted _ ih =>
    obtain ⟨-, page, full⟩ := ih
    refine ⟨Nat.lt_of_succ_lt (fits_of_remaining counted), page + 1, ?_⟩
    rw [full, Nat.add_one_mul]

namespace Listing

/-! ## The limit a page asks for -/

/-- The listing has the limit that it was given last. Listings without a limit
look for all their children. -/
def KeepsLimit (l : Listing ν) : Prop := ∀ limit, (l.setLimit limit).limit = limit

theorem keepsLimit_nodes (l : NodeListing ν) : (nodes l).KeepsLimit := fun _ => rfl

/-- What is raised to a limit looks for so many children. -/
theorem le_limit_raisedFor {l : Listing ν} (keeps : l.KeepsLimit) (offset size : Nat) :
    offset + size + 1 ≤ (l.raisedFor offset size).limit := by
  unfold raisedFor raisedTo
  split
  · exact Nat.le_of_eq (keeps _).symm
  · rename_i enough
    exact Nat.le_of_not_lt enough

/-! ## Pages that are given up -/

variable {engine : Engine σ ν} {reach : Reach σ ν} {id offset size : Nat}
  (beyond : wordCount ≤ offset + size + 1)

include beyond

theorem countWith_page_of_le : countWith engine reach (.page id offset size) = overflow := by
  rw [countWith_page_eq, if_neg (Nat.not_lt_of_le beyond)]

theorem rowsWith_page_of_le (start count : Nat) :
    rowsWith engine reach start count (.page id offset size) = overflow := by
  rw [rowsWith, pageRows_eq, if_neg (Nat.not_lt_of_le beyond)]
  rfl

end Listing

/-! ## All sums of a page -/

/-- **When the sums of a page are words.** The pages before a page that can be
reached are full. If its offset and its size and one more is a word, the page is
found by sums in numbers, all of which are words; and the listing it is one of looks
for all the children of the page and for the probe behind it. Otherwise the page is
given up, whatever it is asked. -/
theorem reached_page_sums (engine : Engine σ ν) {reach : Reach σ ν} {id size offset : Nat}
    (reached : PageReached reach id size offset) :
    (∃ page, offset = page * size) ∧
    (offset + size + 1 < wordCount →
      (∀ l : Listing ν, l.KeepsLimit → offset + size + 1 ≤ (l.raisedFor offset size).limit) ∧
      (remaining reach id offset size = do
        let n ← withKept id fun l => reach.count (l.raisedFor offset size)
        return n - offset) ∧
      (countWith engine reach (.page id offset size) = do
        let left ← remaining reach id offset size
        return (pageLength size left, .page id offset size)) ∧
      ∀ start count, rowsWith engine reach start count (.page id offset size) = do
        let left ← remaining reach id offset size
        let rows ← exactRows reach id offset size left start count
        return (rows, .page id offset size)) ∧
    (wordCount ≤ offset + size + 1 → ∀ s,
      countWith engine reach (.page id offset size) s = .error .overflow ∧
      ∀ start count,
        rowsWith engine reach start count (.page id offset size) s = .error .overflow) := by
  refine ⟨reached.exact.2, fun fits => ⟨fun l keeps => le_limit_raisedFor keeps offset size,
    ?_, ?_, fun start count => ?_⟩, fun beyond s => ⟨?_, fun start count => ?_⟩⟩
  · rw [remaining_eq, if_pos fits]
  · rw [countWith_page_eq, if_pos fits]
  · rw [rowsWith, pageRows_eq, if_pos fits, bind_assoc]
  · rw [countWith_page_of_le beyond]
    rfl
  · rw [rowsWith_page_of_le beyond]
    rfl

namespace OneVariable

/-- The second page of two out of three elements is reached. It asks for five and shows one. -/
theorem second_page_sums :
    PageReached (engine.reach 1) 0 2 (0 + 2) ∧
      (∀ l : NodeListing Unit, 5 ≤ ((Listing.nodes l).raisedFor (0 + 2) 2).limit) ∧
      (countWith engine (engine.reach 1) (.page 0 (0 + 2) 2) (session #[.array threeElements])).map
        (fun r => r.1.1) = .ok 1 := by
  have counted : remaining (engine.reach 1) 0 0 2 (session #[.array threeElements]) =
      .ok (3, session #[.array threeElements]) := rfl
  have reached : PageReached (engine.reach 1) 0 2 (0 + 2) := .more .first counted (by decide)
  obtain ⟨-, sums, -⟩ := reached_page_sums engine reached
  obtain ⟨limits, -, length, -⟩ := sums (by decide)
  refine ⟨reached, fun l => limits (.nodes l) (keepsLimit_nodes l), ?_⟩
  rw [length]
  rfl

end OneVariable

/-! ## The largest page -/

namespace Fickle

/-- The engine with pages of so many items of a custom list. -/
def paging (size : Nat) : Engine Bool Bool := ⟨debugger, ({} : Options).set .customListLimit size⟩

/-- A custom list of one item that does not apply any more once it has begun. -/
def once : CustomListRule where
  guard := { condition := some "on" }
  body := [.exec none "off", .item none none "it"]

/-- The first page of the list is asked whether its children can be had, and then
for their number; the limit of the list comes with it. -/
def countOfOnce (size : Nat) : Search Bool Bool (Nat × Nat) := do
  let page ← (paging size).elementListing ⟨.debugger false, {}⟩ (.customList once)
  let (_, page) ← (paging size).isSound 20 page
  let (n, _) ← (paging size).count 20 page
  return (n, ((← get).kept 0).limit)

/-- **The limit may be too large**: on pages of three items the list is asked for
four and finds that it does not apply any more. The largest pages are given up. -/
theorem limit_of_largest_page :
    (countOfOnce 3 session).map Prod.fst = .ok (0, 4) ∧
      (countOfOnce (wordCount - 1) session).map Prod.fst = .error .overflow := by
  decide +kernel

end Fickle

end WatchView
