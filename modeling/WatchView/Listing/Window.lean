import WatchView.Bounded
/-!
# Windows

Children are asked for by windows: a number of them from a position. A
window is clipped to what there is. Positions are words of 64 bits. The end
of a window that reaches past the largest word is the largest word; the sums of
a page have to be words. Other sums are numbers: declared sizes have 32 bits.
-/

namespace WatchView

/-- The number of words, 2⁶⁴. -/
def wordCount : Nat := 18446744073709551616

/-- The end of a window. -/
def windowEnd (start count : Nat) : Nat := min (start + count) (wordCount - 1)

/-- The members of a list in a window. -/
def clip {α : Type} (start count : Nat) (xs : List α) : List α :=
  (xs.take (windowEnd start count)).drop start

/-- The positions of a window among `total` children. -/
def windowOf (total start count : Nat) : List Nat :=
  let stop := min (windowEnd start count) total
  List.range' (min start stop) (stop - min start stop)

/-- A sum of words, if it is a word. -/
def wordSum {σ : Type} (a b : Nat) : Bounded σ Nat :=
  if a + b < wordCount then pure (a + b) else .overflow

end WatchView
