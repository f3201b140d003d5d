import Mathlib

/-!
# Sorted maps

A finite map as a list of entries in the order of the keys. The order is a field of the map, so that a
walk over the entries visits every key once, in ascending order; `get_insert` and `get_erase` say what
the operations do, and `mem_entries` and `ext_get` that the entries are what can be looked up.
-/

namespace Lib

open List

variable {K V : Type}

variable {entries : List (K × V)}

/-- A map with its entries in ascending order. -/
structure SortedMap (K V : Type) [LT K] where
  entries : List (K × V)
  sorted : entries.Pairwise fun a b => a.1 < b.1

namespace SortedMap

section Lists

variable [LT K] [DecidableLT K] [DecidableEq K]

/-- The entry of `k` in `entries`. -/
def find (k : K) : List (K × V) → Option V
  | [] => none
  | e :: entries => if e.1 = k then some e.2 else find k entries

/-- The entry `(k, v)` put into its place. -/
def place (k : K) (v : V) : List (K × V) → List (K × V)
  | [] => [(k, v)]
  | e :: entries =>
    if k < e.1 then (k, v) :: e :: entries
    else if e.1 = k then (k, v) :: entries
    else e :: place k v entries

theorem mem_place {k : K} {v : V} {e : K × V} (h : e ∈ place k v entries) :
    e = (k, v) ∨ e ∈ entries := by
  induction entries with
  | nil => exact .inl (List.mem_singleton.1 h)
  | cons e' entries ih =>
    unfold place at h
    split at h
    · exact List.mem_cons.1 h
    · split at h
      · rcases List.mem_cons.1 h with h | h
        · exact .inl h
        · exact .inr (mem_cons_of_mem _ h)
      · rcases List.mem_cons.1 h with h | h
        · exact .inr (List.mem_cons.2 (.inl h))
        · exact (ih h).imp_right (mem_cons_of_mem _)

theorem place_append {k : K} {a b : List (K × V)} (ha : ∀ e ∈ a, ¬ k < e.1 ∧ e.1 ≠ k)
    (hb : ∀ e ∈ b, k < e.1) (v : V) : place k v (a ++ b) = a ++ (k, v) :: b := by
  induction a with
  | nil =>
    cases b with
    | nil => rfl
    | cons e b => exact if_pos (hb e mem_cons_self)
  | cons e a ih =>
    obtain ⟨hlt, hne⟩ := ha e mem_cons_self
    rw [cons_append, place, if_neg hlt, if_neg hne, ih fun e' he' => ha e' (.tail _ he')]
    rfl

theorem place_append_cons {k : K} (hirrefl : ¬ k < k) {a : List (K × V)}
    (ha : ∀ e ∈ a, ¬ k < e.1 ∧ e.1 ≠ k) (b : List (K × V)) (v v' : V) :
    place k v (a ++ (k, v') :: b) = a ++ (k, v) :: b := by
  induction a with
  | nil => rw [nil_append, place, if_neg hirrefl, if_pos rfl]; rfl
  | cons e a ih =>
    obtain ⟨hlt, hne⟩ := ha e mem_cons_self
    rw [cons_append, place, if_neg hlt, if_neg hne, ih fun e' he' => ha e' (.tail _ he')]
    rfl

theorem find_place (k k' : K) (v : V) (entries : List (K × V)) :
    find k' (place k v entries) = if k = k' then some v else find k' entries := by
  induction entries with
  | nil => rfl
  | cons e entries ih =>
    unfold place
    split
    · rfl
    · split
      · rename_i heq
        unfold find
        rw [heq]
        split <;> rfl
      · rename_i hne
        unfold find
        rw [ih]
        by_cases hk : k = k'
        · rw [if_pos hk, if_pos hk, if_neg (hk ▸ hne)]
        · rw [if_neg hk, if_neg hk]

omit [LT K] [DecidableLT K] in
theorem find_filter (k k' : K) (entries : List (K × V)) :
    find k' (entries.filter fun e => e.1 ≠ k) = if k = k' then none else find k' entries := by
  induction entries with
  | nil => split <;> rfl
  | cons e entries ih =>
    by_cases he : e.1 = k
    · rw [filter_cons_of_neg (by simpa using he), ih]
      by_cases hk : k = k'
      · rw [if_pos hk, if_pos hk]
      · rw [if_neg hk, if_neg hk, find, if_neg (he ▸ hk)]
    · rw [filter_cons_of_pos (by simpa using he)]
      unfold find
      rw [ih]
      by_cases hk : k = k'
      · rw [if_pos hk, if_pos hk, if_neg (hk ▸ he)]
      · rw [if_neg hk, if_neg hk]

end Lists

variable [LE K] [LT K] [Std.IsLinearOrder K] [Std.LawfulOrderLT K] [DecidableLT K] [DecidableEq K]

theorem sorted_place (k : K) (v : V) (h : entries.Pairwise fun a b => a.1 < b.1) :
    (place k v entries).Pairwise fun a b => a.1 < b.1 := by
  induction entries with
  | nil => exact pairwise_singleton _ _
  | cons e entries ih =>
    obtain ⟨h1, h2⟩ := List.pairwise_cons.1 h
    unfold place
    split
    · rename_i hlt
      exact List.pairwise_cons.2 ⟨forall_mem_cons.2 ⟨hlt, fun e' he' => Std.lt_trans hlt (h1 e' he')⟩, h⟩
    · rename_i hge
      split
      · rename_i heq
        exact List.pairwise_cons.2 ⟨fun e' he' => heq ▸ h1 e' he', h2⟩
      · rename_i hne
        refine List.pairwise_cons.2 ⟨?_, ih h2⟩
        intro e' he'
        rcases mem_place he' with rfl | he'
        · exact Std.lt_of_le_of_ne (Std.not_lt.1 hge) hne
        · exact h1 e' he'

/-- The empty map. -/
def empty : SortedMap K V := ⟨[], .nil⟩

/-- The value of `k`. -/
def get (m : SortedMap K V) (k : K) : Option V := find k m.entries

/-- `k` has the value `v`. -/
def insert (m : SortedMap K V) (k : K) (v : V) : SortedMap K V :=
  ⟨place k v m.entries, sorted_place k v m.sorted⟩

/-- `k` has no value. -/
def erase (m : SortedMap K V) (k : K) : SortedMap K V :=
  ⟨m.entries.filter fun e => e.1 ≠ k, m.sorted.filter _⟩

omit [LE K] [Std.IsLinearOrder K] [Std.LawfulOrderLT K] [DecidableLT K] in
@[simp] theorem get_empty (k : K) : (empty : SortedMap K V).get k = none := rfl

theorem get_insert (m : SortedMap K V) (k k' : K) (v : V) :
    (m.insert k v).get k' = if k = k' then some v else m.get k' := find_place k k' v m.entries

omit [LE K] [Std.IsLinearOrder K] [Std.LawfulOrderLT K] [DecidableLT K] in
theorem get_erase (m : SortedMap K V) (k k' : K) :
    (m.erase k).get k' = if k = k' then none else m.get k' := find_filter k k' m.entries

omit [DecidableLT K] [Std.IsLinearOrder K] in
theorem mem_entries (m : SortedMap K V) (k : K) (v : V) : (k, v) ∈ m.entries ↔ m.get k = some v := by
  obtain ⟨entries, sorted⟩ := m
  show (k, v) ∈ entries ↔ find k entries = some v
  induction entries with
  | nil => simp [find]
  | cons e entries ih =>
    obtain ⟨h1, h2⟩ := List.pairwise_cons.1 sorted
    rw [find, List.mem_cons, ih h2]
    by_cases he : e.1 = k
    · rw [if_pos he, Option.some.injEq, ← ih h2]
      constructor
      · rintro (heq | hmem)
        · rw [← heq]
        · have := h1 _ hmem
          rw [he] at this
          exact absurd this Std.lt_irrefl
      · intro hv
        exact .inl (Prod.ext he.symm hv.symm)
    · rw [if_neg he]
      refine ⟨?_, .inr⟩
      rintro (heq | hfind)
      · rw [← heq] at he
        exact absurd rfl he
      · exact hfind

omit [DecidableLT K] [Std.IsLinearOrder K] in
theorem entries_eq {m : SortedMap K V} {l : List (K × V)} (hl : l.Pairwise fun a b => a.1 < b.1)
    (h : ∀ e, e ∈ l ↔ m.get e.1 = some e.2) : m.entries = l := by
  have : Std.Antisymm fun a b : K × V => a.1 < b.1 :=
    ⟨fun _ _ hab hba => absurd hba (Std.not_gt_of_lt hab)⟩
  have : Std.Irrefl fun a b : K × V => a.1 < b.1 := ⟨fun _ => Std.lt_irrefl⟩
  refine m.sorted.eq_of_mem_iff hl fun e => ?_
  rw [mem_entries m e.1 e.2, h]

variable {m m' : SortedMap K V}

omit [DecidableLT K] [Std.IsLinearOrder K] in
theorem entries_eq_of_get (h : ∀ k, m.get k = m'.get k) : m.entries = m'.entries :=
  entries_eq m'.sorted fun e => by rw [mem_entries m' e.1 e.2, h]

omit [DecidableLT K] [Std.IsLinearOrder K] in
theorem ext_get (h : ∀ k, m.get k = m'.get k) : m = m' := by
  obtain ⟨entries, sorted⟩ := m
  obtain ⟨entries', sorted'⟩ := m'
  have : entries = entries' := entries_eq_of_get h
  subst this
  rfl

end SortedMap

end Lib
