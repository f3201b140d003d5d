import Mathlib

/-!
# Sorting by a comparison function

`SortFunc α` is the contract of an unstable comparison sort: the result is a permutation of the input, and when
`cmp a b < 0` is a strict weak order on it (`StrictWeak`) no element is less than an earlier one. The order of
elements that compare equal is not specified. `SortFunc.insertion` is one such sort.
-/

namespace Lib

open List

variable {α : Type}

/-- `cmp a b < 0` is a strict weak order on the elements of `l`: it is asymmetric, and "not
less" is transitive. -/
structure StrictWeak (cmp : α → α → Int) (l : List α) : Prop where
  asymm : ∀ a ∈ l, ∀ b ∈ l, cmp a b < 0 → ¬ cmp b a < 0
  trans : ∀ a ∈ l, ∀ b ∈ l, ∀ c ∈ l, ¬ cmp b a < 0 → ¬ cmp c b < 0 → ¬ cmp c a < 0

/-- No element of `l` is less than an earlier one. -/
def SortedBy (cmp : α → α → Int) (l : List α) : Prop := l.Pairwise fun a b => ¬ cmp b a < 0

/-- A comparison sort of lists over `α`. -/
structure SortFunc (α : Type) where
  sort : (α → α → Int) → List α → List α
  perm : ∀ cmp l, (sort cmp l).Perm l
  sorted : ∀ cmp l, StrictWeak cmp l → SortedBy cmp (sort cmp l)

variable {cmp : α → α → Int}

theorem StrictWeak.subset {l l' : List α} (h : StrictWeak cmp l)
    (hs : ∀ a ∈ l', a ∈ l) : StrictWeak cmp l' :=
  ⟨fun a ha b hb => h.asymm a (hs a ha) b (hs b hb),
    fun a ha b hb c hc => h.trans a (hs a ha) b (hs b hb) c (hs c hc)⟩

/-! ## Insertion sort -/

/-- Moves `x` back over the sorted elements `ys` (last one first) that are greater. -/
def insertBack (cmp : α → α → Int) (x : α) : List α → List α
  | [] => [x]
  | y :: ys => if cmp x y < 0 then y :: insertBack cmp x ys else x :: y :: ys

/-- Insertion sort; the sorted elements are held last one first. -/
def insertionSort (cmp : α → α → Int) (l : List α) : List α :=
  (l.foldl (fun acc x => insertBack cmp x acc) []).reverse

theorem insertBack_perm (cmp : α → α → Int) (x : α) (ys : List α) :
    (insertBack cmp x ys).Perm (x :: ys) := by
  induction ys with
  | nil => exact .refl _
  | cons y ys ih =>
    unfold insertBack
    split
    · exact (ih.cons y).trans (.swap x y ys)
    · exact .refl _

theorem foldl_insertBack_perm (cmp : α → α → Int) :
    ∀ (l acc : List α), (l.foldl (fun acc x => insertBack cmp x acc) acc).Perm (l ++ acc)
  | [], acc => .refl _
  | x :: l, acc => by
    refine (foldl_insertBack_perm cmp l _).trans ?_
    exact ((insertBack_perm cmp x acc).append_left l).trans perm_middle

theorem insertBack_sorted {x : α} {ys : List α}
    (h : StrictWeak cmp (x :: ys)) (hs : ys.Pairwise fun a b => ¬ cmp a b < 0) :
    (insertBack cmp x ys).Pairwise fun a b => ¬ cmp a b < 0 := by
  induction ys with
  | nil => simp [insertBack]
  | cons y ys ih =>
    obtain ⟨hy, hys⟩ := List.pairwise_cons.1 hs
    unfold insertBack
    split
    · rename_i hlt
      refine List.pairwise_cons.2 ⟨fun z hz => ?_, ih (h.subset (by simp; tauto)) hys⟩
      rcases List.mem_cons.1 ((insertBack_perm cmp x ys).mem_iff.1 hz) with rfl | hz
      · exact h.asymm z (by simp) y (by simp) hlt
      · exact hy z hz
    · rename_i hnl
      refine List.pairwise_cons.2 ⟨forall_mem_cons.2 ⟨hnl, fun z hz => ?_⟩, hs⟩
      exact h.trans z (by simp [hz]) y (by simp) x (by simp) (hy z hz) hnl

theorem foldl_insertBack_sorted :
    ∀ {l acc : List α}, StrictWeak cmp (l ++ acc) → (acc.Pairwise fun a b => ¬ cmp a b < 0) →
      (l.foldl (fun acc x => insertBack cmp x acc) acc).Pairwise fun a b => ¬ cmp a b < 0
  | [], _, _, hs => hs
  | x :: l, acc, h, hs => by
    rw [foldl_cons]
    refine foldl_insertBack_sorted (h.subset fun a ha => ?_)
      (insertBack_sorted (h.subset (by simp; tauto)) hs)
    rcases List.mem_append.1 ha with ha | ha
    · simp [ha]
    · have := (insertBack_perm cmp x acc).mem_iff.1 ha
      simp only [List.mem_cons, mem_append] at this ⊢
      tauto

/-- Insertion sort meets the contract. -/
def SortFunc.insertion : SortFunc α where
  sort := insertionSort
  perm cmp l := by
    have := foldl_insertBack_perm cmp l []
    rw [append_nil] at this
    exact (reverse_perm _).trans this
  sorted cmp l h := by
    unfold SortedBy insertionSort
    rw [pairwise_reverse]
    exact foldl_insertBack_sorted (by simpa using h) .nil

end Lib
