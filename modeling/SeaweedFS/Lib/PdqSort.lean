import SeaweedFS.Lib.SortFunc

/-!
# The first round of a pattern-defeating quicksort

Up to twelve elements are sorted by insertion. A longer list is first sampled: when no two of the elements
compared for the pivot are out of order, it is left as it is if no element is less than the one before it. What
the sort does otherwise is a parameter.
-/

namespace Lib

open List

variable {α : Type} (cmp : α → α → Int)

/-- `order2`: the indices in order, and the number of swaps. -/
def order2 (data : List α) (a b swaps : Nat) : Nat × Nat × Nat :=
  match data[b]?, data[a]? with
  | some y, some x => if cmp y x < 0 then (b, a, swaps + 1) else (a, b, swaps)
  | _, _ => (a, b, swaps)

/-- `median`. -/
def median (data : List α) (a b c swaps : Nat) : Nat × Nat :=
  let (a, b, swaps) := order2 cmp data a b swaps
  let (b, _, swaps) := order2 cmp data b c swaps
  let (_, b, swaps) := order2 cmp data a b swaps
  (b, swaps)

/-- `medianAdjacent`. -/
def medianAdjacent (data : List α) (a swaps : Nat) : Nat × Nat :=
  median cmp data (a - 1) a (a + 1) swaps

/-- `choosePivot`: the number of swaps, zero for the hint that the list is increasing. -/
def choosePivotSwaps (data : List α) : Nat :=
  let l := data.length
  let (i, j, k) := (l / 4, l / 4 * 2, l / 4 * 3)
  if l ≥ 8 then
    let (i, j, k, swaps) :=
      if l ≥ 50 then
        let (i, swaps) := medianAdjacent cmp data i 0
        let (j, swaps) := medianAdjacent cmp data j swaps
        let (k, swaps) := medianAdjacent cmp data k swaps
        (i, j, k, swaps)
      else (i, j, k, 0)
    (median cmp data i j k swaps).2
  else 0

/-- No element is less than the one before it. -/
def noDescent : List α → Bool
  | x :: y :: rest => !decide (cmp y x < 0) && noDescent (y :: rest)
  | _ => true

/-- `pdqsort`; `rest` is what follows when the list does not look sorted. -/
def pdqsort (rest : (α → α → Int) → List α → List α) (data : List α) : List α :=
  if data.length ≤ 12 then insertionSort cmp data
  else if choosePivotSwaps cmp data = 0 ∧ noDescent cmp data then data
  else rest cmp data

/-! ## A comparison that never says "less" -/

section
variable {cmp} (h : ∀ a b, ¬ cmp a b < 0)
include h

section

variable (data : List α)
include data

theorem order2_of_not_less (a b swaps : Nat) : order2 cmp data a b swaps = (a, b, swaps) := by
  unfold order2
  split
  · rw [if_neg (h _ _)]
  · rfl

theorem median_of_not_less (a b c swaps : Nat) : (median cmp data a b c swaps).2 = swaps := by
  simp only [median, order2_of_not_less h]

theorem choosePivotSwaps_of_not_less : choosePivotSwaps cmp data = 0 := by
  unfold choosePivotSwaps medianAdjacent
  dsimp only
  split
  · split <;> simp only [median_of_not_less h]
  · rfl

theorem noDescent_of_not_less : noDescent cmp data = true := by
  induction data with
  | nil => rfl
  | cons x data ih =>
    cases data with
    | nil => rfl
    | cons y data => simp [noDescent, h y x, ih]

theorem insertionSort_of_not_less : insertionSort cmp data = data := by
  have hstep : ∀ x (ys : List α), insertBack cmp x ys = x :: ys := by
    intro x ys
    cases ys with
    | nil => rfl
    | cons y ys => rw [insertBack, if_neg (h x y)]
  have hfold : ∀ (l acc : List α), l.foldl (fun acc x => insertBack cmp x acc) acc =
      l.reverse ++ acc := by
    intro l
    induction l with
    | nil => intro acc; rfl
    | cons x l ih =>
      intro acc
      rw [foldl_cons, ih, hstep, reverse_cons, append_assoc]
      rfl
  rw [insertionSort, hfold, append_nil, reverse_reverse]

end

/-- **A comparison that never says "less"** leaves every list as it is. -/
theorem pdqsort_of_not_less (rest : (α → α → Int) → List α → List α) (data : List α) :
    pdqsort cmp rest data = data := by
  unfold pdqsort
  split
  · exact insertionSort_of_not_less h data
  · rw [if_pos ⟨choosePivotSwaps_of_not_less h data, noDescent_of_not_less h data⟩]

end

end Lib
