import SeaweedFS.Lib.SortedMap

/-!
# Sorted sets

A finite set as a sorted map without values. `toList` gives its elements in ascending order, each once
(`pairwise_toList`, `mem_toList`); a set is what is in it (`ext_mem`).
-/

namespace Lib

open List

/-- A finite set, in ascending order. -/
abbrev SortedSet (K : Type) [LT K] := SortedMap K Unit

namespace SortedSet

variable {K : Type} [LT K] [DecidableEq K]

instance : Membership K (SortedSet K) := ⟨fun s k => (s.get k).isSome⟩

instance (s : SortedSet K) (k : K) : Decidable (k ∈ s) := inferInstanceAs (Decidable (_ = true))

/-- The elements, in ascending order. -/
def toList (s : SortedSet K) : List K := s.entries.map Prod.fst

/-- The elements that satisfy `p`. -/
def filter (p : K → Bool) (s : SortedSet K) : SortedSet K :=
  ⟨s.entries.filter fun e => p e.1, s.sorted.filter _⟩

variable {s : SortedSet K} {k : K}

theorem mem_def : k ∈ s ↔ (s.get k).isSome = true := Iff.rfl

theorem not_mem_empty (k : K) : k ∉ (SortedMap.empty : SortedSet K) := by simp [mem_def]

theorem mem_erase {a : K} : k ∈ s.erase a ↔ k ∈ s ∧ k ≠ a := by
  rw [mem_def, mem_def, SortedMap.get_erase]
  by_cases h : a = k
  · simp [h]
  · simp [h, Ne.symm h]

omit [DecidableEq K] in
theorem pairwise_toList (s : SortedSet K) : s.toList.Pairwise (· < ·) :=
  pairwise_map.2 s.sorted

variable [LE K] [Std.LawfulOrderLT K]

theorem ext_mem {t : SortedSet K} (h : ∀ k, k ∈ s ↔ k ∈ t) : s = t := by
  refine SortedMap.ext_get fun k => ?_
  have hk := h k
  rw [mem_def, mem_def] at hk
  cases hs : s.get k <;> cases ht : t.get k <;> simp_all

theorem mem_toList : k ∈ s.toList ↔ k ∈ s := by
  rw [mem_def, Option.isSome_iff_exists, toList, mem_map]
  constructor
  · rintro ⟨⟨k', u⟩, he, rfl⟩
    exact ⟨u, (s.mem_entries k' u).1 he⟩
  · rintro ⟨u, hu⟩
    exact ⟨(k, u), (s.mem_entries k u).2 hu, rfl⟩

variable {l : List K}

theorem toList_eq (hl : l.Pairwise (· < ·)) (h : ∀ k, k ∈ l ↔ k ∈ s) : s.toList = l := by
  exact s.pairwise_toList.eq_of_mem_iff hl fun k => mem_toList.trans (h k).symm

theorem mem_filter {p : K → Bool} : k ∈ s.filter p ↔ k ∈ s ∧ p k = true := by
  rw [← mem_toList, ← mem_toList, toList, toList, filter, mem_map, mem_map]
  constructor
  · rintro ⟨e, he, rfl⟩
    obtain ⟨hmem, hp⟩ := List.mem_filter.1 he
    exact ⟨⟨e, hmem, rfl⟩, hp⟩
  · rintro ⟨⟨e, hmem, rfl⟩, hp⟩
    exact ⟨e, List.mem_filter.2 ⟨hmem, hp⟩, rfl⟩

variable [Std.IsLinearOrder K] [DecidableLT K]

/-- The set with `k`. -/
def add (s : SortedSet K) (k : K) : SortedSet K := s.insert k ()

/-- The set with the elements of `l`. -/
def addAll (s : SortedSet K) (l : List K) : SortedSet K := l.foldl add s

/-- The set of the elements of `l`. -/
def ofList (l : List K) : SortedSet K := addAll SortedMap.empty l

theorem mem_add {a : K} : k ∈ s.add a ↔ k = a ∨ k ∈ s := by
  rw [mem_def, mem_def, add, SortedMap.get_insert]
  by_cases h : a = k
  · simp [h]
  · simp [h, Ne.symm h]

theorem mem_addAll : k ∈ s.addAll l ↔ k ∈ l ∨ k ∈ s := by
  induction l generalizing s with
  | nil => simp [addAll]
  | cons a l ih =>
    show k ∈ (s.add a).addAll l ↔ _
    rw [ih, mem_add, mem_cons]
    exact or_left_comm.trans or_assoc.symm

theorem mem_ofList : k ∈ ofList l ↔ k ∈ l := by
  rw [ofList, mem_addAll]
  exact or_iff_left (not_mem_empty k)

end SortedSet

end Lib
