import WatchView.Listing.Query
import WatchView.Proofs.Ensures
/-!
# Pages whose sums are words

The first thing a page comes to is the limit it asks for, the sum of its offset
and its size and one more. If that is no word, the page is given up. If it is one,
so are all other sums of the page, and the page can be reckoned in numbers
(`remaining_eq`, `pageRows_eq`, `countWith_page_eq`).
-/

namespace WatchView

open Bounded

variable {σ ν α β : Type}

/-! ## Sums -/

theorem wordSum_of_lt {a b : Nat} (fits : a + b < wordCount) :
    (wordSum a b : Bounded σ Nat) = pure (a + b) :=
  if_pos fits

theorem wordSum_of_le {a b : Nat} (beyond : wordCount ≤ a + b) :
    (wordSum a b : Bounded σ Nat) = overflow :=
  if_neg (Nat.not_lt_of_le beyond)

/-- Nothing comes behind work that is given up. -/
theorem overflow_bind (next : α → Bounded σ β) : (overflow >>= next) = overflow := rfl

namespace Listing

variable {reach : Reach σ ν} {id offset size : Nat}

/-! ## What is left of the listing -/

/-- What a page makes of the listing it is one of: it looks for the children of
the page and for one more. -/
def raisedFor (offset size : Nat) (l : Listing ν) : Listing ν := l.raisedTo (offset + size + 1)

/-- The limit of a page. -/
theorem pageLimit_eq (offset size : Nat) :
    (do wordSum (← wordSum offset size) 1 : Bounded σ Nat) =
      if offset + size + 1 < wordCount then pure (offset + size + 1) else overflow := by
  by_cases within : offset + size < wordCount
  · rw [wordSum_of_lt within, pure_bind]
    rfl
  · have beyond : ¬ offset + size + 1 < wordCount := fun fits => within (Nat.lt_of_succ_lt fits)
    rw [wordSum_of_le (Nat.le_of_not_lt within), overflow_bind, if_neg beyond]

theorem remaining_eq :
    remaining reach id offset size =
      if offset + size + 1 < wordCount then do
        let n ← withKept id fun l => reach.count (l.raisedFor offset size)
        return n - offset
      else overflow := by
  have asked : remaining reach id offset size =
      (do wordSum (← wordSum offset size) 1) >>= fun limit => do
        let n ← withKept id fun l => reach.count (l.raisedTo limit)
        return n - offset := by
    rw [bind_assoc]
    rfl
  rw [asked, pageLimit_eq]
  split
  · rw [pure_bind]
    rfl
  · exact overflow_bind _

/-- A page that has counted what is left asks for a word. -/
theorem fits_of_remaining {s : Session σ ν} {r : Nat × Session σ ν}
    (counted : remaining reach id offset size s = .ok r) : offset + size + 1 < wordCount := by
  refine Nat.lt_of_not_le fun beyond => ?_
  rw [remaining_eq, if_neg (Nat.not_lt_of_le beyond)] at counted
  cases counted

/-! ## What a page shows -/

/-- The number of rows of a page with so many children left. -/
def pageLength (size left : Nat) : Nat := if size < left then size + 1 else left

theorem pageCount_eq (left : Nat) (fits : size + 1 < wordCount) :
    (pageCount size left : Search σ ν Nat) = pure (pageLength size left) := by
  unfold pageCount pageLength
  split
  · exact wordSum_of_lt fits
  · rfl

/-- The rows of a page in a window when so many children are left, reckoned in
numbers. -/
def exactRows (reach : Reach σ ν) (id offset size left start count : Nat) :
    Search σ ν (List (Variable ν)) := do
  let own := min left size
  let stop := min (windowEnd start count) (pageLength size left)
  if stop ≤ start then return []
  else
    let rows ←
      if start < own then withKept id fun l => reach.rows l (offset + start) (min stop own - start)
      else pure []
    return if own < stop then rows ++ [.more id (offset + size) size] else rows

/-- **The rows of a page whose limit is a word are reckoned in numbers.** -/
theorem pageRows_eq {start count : Nat} :
    pageRows reach id offset size start count =
      if offset + size + 1 < wordCount then do
        exactRows reach id offset size (← remaining reach id offset size) start count
      else overflow := by
  split
  · rename_i fits
    unfold pageRows
    refine congrArg _ (funext fun left => ?_)
    rw [pageCount_eq left (by omega), pure_bind, wordSum_of_lt (show offset + size < _ by omega)]
    unfold exactRows
    dsimp only
    split
    · rfl
    · split
      · rename_i inside
        rw [wordSum_of_lt (show offset + start < _ by omega), pure_bind]
        refine congrArg _ (funext fun rows => ?_)
        split <;> rfl
      · refine congrArg _ (funext fun rows => ?_)
        split <;> rfl
  · rename_i beyond
    unfold pageRows
    rw [remaining_eq, if_neg beyond]
    rfl

/-- **And so is its length.** -/
theorem countWith_page_eq {engine : Engine σ ν} :
    countWith engine reach (.page id offset size) =
      if offset + size + 1 < wordCount then do
        let left ← remaining reach id offset size
        return (pageLength size left, .page id offset size)
      else overflow := by
  split
  · rename_i fits
    rw [countWith]
    refine congrArg _ (funext fun left => ?_)
    rw [pageCount_eq left (by omega), pure_bind]
  · rename_i beyond
    rw [countWith, remaining_eq, if_neg beyond]
    rfl

end Listing

end WatchView
