import Mathlib

/-!
# Binary search

`search n f` is Go's `sort.Search`: the least index below `n` at which `f` holds, or `n`, for an `f`
that stays true once it is true (`search_spec`). `findLoop` looks for a key among ascending keys; it
finds the index that has the key, if there is one (`findLoop_eq_some`).
-/

namespace Lib

/-- The loop of `sort.Search` over `[i, j)`. It takes fewer rounds than the range is long. -/
def searchLoop (f : Nat → Bool) : Nat → Nat → Nat → Nat
  | 0, i, _ => i
  | fuel + 1, i, j =>
    if i < j then
      let h := (i + j) / 2
      if f h then searchLoop f fuel i h else searchLoop f fuel (h + 1) j
    else i

/-- `sort.Search`. -/
def search (n : Nat) (f : Nat → Bool) : Nat := searchLoop f n 0 n

/-- `f` stays true below `n`. -/
def StaysTrue (n : Nat) (f : Nat → Bool) : Prop :=
  ∀ i j, i ≤ j → j < n → f i = true → f j = true

variable {f : Nat → Bool}

theorem searchLoop_spec {n : Nat} (hf : StaysTrue n f) {fuel i j : Nat}
    (hij : i ≤ j) (hj : j ≤ n) (hfuel : j - i ≤ fuel) (hlo : ∀ k < i, f k = false)
    (hhi : ∀ k, j ≤ k → k < n → f k = true) :
    searchLoop f fuel i j ≤ n ∧ (∀ k < searchLoop f fuel i j, f k = false) ∧
      ∀ k, searchLoop f fuel i j ≤ k → k < n → f k = true := by
  induction fuel generalizing i j with
  | zero =>
    rw [searchLoop]
    exact ⟨by omega, hlo, fun k hk => hhi k (by omega)⟩
  | succ fuel ih =>
    rw [searchLoop]
    split
    · dsimp only
      cases hmid : f ((i + j) / 2) with
      | true =>
        exact ih (by omega) (by omega) (by omega) hlo fun k hk hkn => hf _ k hk hkn hmid
      | false =>
        refine ih (by omega) hj (by omega) (fun k hk => ?_) hhi
        by_contra hne
        rw [Bool.not_eq_false] at hne
        have := hf k ((i + j) / 2) (by omega) (by omega) hne
        rw [hmid] at this
        cases this
    · exact ⟨by omega, hlo, fun k hk => hhi k (by omega)⟩

/-- **The result splits the range.** -/
theorem search_spec {n : Nat} (hf : StaysTrue n f) :
    search n f ≤ n ∧ (∀ k < search n f, f k = false) ∧ ∀ k, search n f ≤ k → k < n → f k = true :=
  searchLoop_spec hf (Nat.zero_le n) (le_refl n) (by omega) (by simp) (by omega)

/-! ## Looking for a key -/

section
variable {K : Type} [LE K] [LT K] [DecidableLT K] [DecidableEq K]

/-- The index with the key `k` in `[l, h)`. The loop takes fewer rounds than the range is long. -/
def findLoop (key : Nat → K) (k : K) : Nat → Nat → Nat → Option Nat
  | 0, _, _ => none
  | fuel + 1, l, h =>
    if l < h then
      let m := (l + h) / 2
      if key m = k then some m
      else if key m < k then findLoop key k fuel (m + 1) h
      else findLoop key k fuel l m
    else none

variable [Std.IsLinearOrder K] [Std.LawfulOrderLT K]

/-- **The loop finds a key** among ascending keys exactly when it is in the range. -/
theorem findLoop_eq_some {key : Nat → K} {k : K} {fuel l h : Nat}
    (hkey : ∀ i j, i < j → j < h → key i < key j) (hfuel : h - l ≤ fuel) {i : Nat} :
    findLoop key k fuel l h = some i ↔ l ≤ i ∧ i < h ∧ key i = k := by
  induction fuel generalizing l h with
  | zero => exact ⟨fun hnone => (nomatch hnone), fun hi => by omega⟩
  | succ fuel ih =>
    rw [findLoop]
    by_cases hlt : l < h
    · rw [if_pos hlt]
      have hmid : (l + h) / 2 < h := by omega
      by_cases heq : key ((l + h) / 2) = k
      · rw [if_pos heq, Option.some.injEq]
        refine ⟨fun hi => hi ▸ ⟨by omega, hmid, heq⟩, fun ⟨_, hi, hk⟩ => ?_⟩
        -- two indices with the key are the same
        by_contra hne
        rcases Nat.lt_or_gt_of_ne hne with hlt' | hlt'
        · exact Std.lt_irrefl (hk ▸ heq ▸ hkey _ _ hlt' hi)
        · exact Std.lt_irrefl (hk ▸ heq ▸ hkey _ _ hlt' hmid)
      · rw [if_neg heq]
        by_cases hless : key ((l + h) / 2) < k
        · rw [if_pos hless, ih hkey (by omega)]
          refine ⟨fun ⟨h1, h2, h3⟩ => ⟨by omega, h2, h3⟩, fun ⟨h1, h2, h3⟩ => ⟨?_, h2, h3⟩⟩
          by_contra hle
          rcases Nat.lt_or_eq_of_le (show i ≤ (l + h) / 2 by omega) with hi | hi
          · exact Std.lt_irrefl (Std.lt_trans hless (h3 ▸ hkey _ _ hi hmid))
          · exact heq (hi ▸ h3)
        · rw [if_neg hless, ih (fun i j hij hj => hkey i j hij (by omega)) (by omega)]
          refine ⟨fun ⟨h1, h2, h3⟩ => ⟨h1, by omega, h3⟩, fun ⟨h1, h2, h3⟩ => ⟨h1, ?_, h3⟩⟩
          by_contra hle
          rcases Nat.lt_or_eq_of_le (show (l + h) / 2 ≤ i by omega) with hi | hi
          · exact hless (h3 ▸ hkey _ _ hi h2)
          · exact heq (hi ▸ h3)
    · rw [if_neg hlt]
      exact ⟨fun hnone => (nomatch hnone), fun hi => by omega⟩

end

end Lib
