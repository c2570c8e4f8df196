import WatchView.Listing.Window
/-!
# Clipping

A window of a list is the members at its positions. A window of a window that
begins at the beginning is a window of the list, if it ends within.
-/

namespace WatchView

variable {α : Type}

theorem windowEnd_lt (start count : Nat) : windowEnd start count < wordCount := by
  unfold windowEnd wordCount
  omega

theorem windowEnd_zero {stop : Nat} (h : stop < wordCount) : windowEnd 0 stop = stop := by
  unfold windowEnd
  omega

theorem clip_zero {stop : Nat} (h : stop < wordCount) (xs : List α) :
    clip 0 stop xs = xs.take stop := by
  unfold clip
  rw [windowEnd_zero h, List.drop_zero]

theorem length_clip (start count : Nat) (xs : List α) :
    (clip start count xs).length = min (windowEnd start count) xs.length - start := by
  unfold clip
  rw [List.length_drop, List.length_take]

theorem clip_nil (start count : Nat) : clip start count ([] : List α) = [] := by
  unfold clip
  rw [List.take_nil, List.drop_nil]

/-- A window that is empty or begins behind the only member shows nothing. -/
theorem clip_singleton_of_outside {start count : Nat} (outside : count = 0 ∨ 1 ≤ start) (x : α) :
    clip start count [x] = [] := by
  refine List.eq_nil_of_length_eq_zero ?_
  rw [length_clip, List.length_singleton]
  unfold windowEnd
  omega

theorem mem_of_mem_clip {start count : Nat} {xs : List α} {x : α} (h : x ∈ clip start count xs) :
    x ∈ xs :=
  List.mem_of_mem_take (List.mem_of_mem_drop h)

theorem eq_of_mem_clip_singleton {start count : Nat} {x y : α} (h : y ∈ clip start count [x]) :
    y = x :=
  List.mem_singleton.mp (mem_of_mem_clip h)

theorem length_windowOf (total start count : Nat) :
    (windowOf total start count).length = min (windowEnd start count) total - start := by
  unfold windowOf
  dsimp only
  rw [List.length_range']
  omega

theorem clip_clip {start count stop : Nat} (le : windowEnd start count ≤ stop)
    (h : stop < wordCount) (xs : List α) :
    clip start count (clip 0 stop xs) = clip start count xs := by
  rw [clip_zero h]
  unfold clip
  rw [List.take_take, Nat.min_eq_left le]

theorem clip_take_congr {start count n : Nat} {xs ys : List α}
    (h : xs.take (min (windowEnd start count) n) = ys.take (min (windowEnd start count) n)) :
    clip start count (xs.take n) = clip start count (ys.take n) := by
  unfold clip
  rw [List.take_take, List.take_take, h]

theorem filterMap_range'_getElem? (xs : List α) (start n : Nat) :
    (List.range' start n).filterMap (xs[·]?) = (xs.drop start).take n := by
  induction n generalizing start with
  | zero => simp
  | succ n ih =>
    rw [List.range'_succ, List.filterMap_cons, ih]
    by_cases inside : start < xs.length
    · rw [List.getElem?_eq_getElem inside, List.drop_eq_getElem_cons inside, List.take_succ_cons]
    · rw [List.getElem?_eq_none (by omega), List.drop_eq_nil_of_le (by omega),
        List.drop_eq_nil_of_le (by omega)]
      simp

theorem lt_min_of_mem_windowOf {n start count i : Nat} (h : i ∈ windowOf n start count) :
    i < min (windowEnd start count) n := by
  unfold windowOf at h
  have inside := List.mem_range'_1.mp h
  omega

theorem lt_of_mem_windowOf {n start count i : Nat} (h : i ∈ windowOf n start count) : i < n :=
  Nat.lt_of_lt_of_le (lt_min_of_mem_windowOf h) (Nat.min_le_right _ _)

/-- The members at the positions of a window are the window. -/
theorem filterMap_windowOf (n start count : Nat) (xs : List α) :
    (windowOf n start count).filterMap (xs[·]?) = clip start count (xs.take n) := by
  unfold windowOf clip
  dsimp only
  rw [filterMap_range'_getElem?, List.take_take, List.drop_take]
  by_cases le : start ≤ min (windowEnd start count) n
  · rw [Nat.min_eq_left le]
  · have none : min (windowEnd start count) n - start = 0 := by omega
    have last : min start (min (windowEnd start count) n) = min (windowEnd start count) n := by
      omega
    rw [none, List.take_zero, last, Nat.sub_self, List.take_zero]

end WatchView
