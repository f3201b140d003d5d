import Mathlib

/-!
# Windows of a list, and blocks of one length

`window z xs off len` is the part of `xs` from `off` on that has the length `len`; behind the end of `xs` there
is `z`. Windows that follow one another are one window (`flatMap_window`). Blocks of one length are found by
division (`slice_flatMap_blocks`).
-/

namespace Lib

open List Nat

variable {α : Type}

section
variable (z : α) (xs : List α)

/-- The `len` elements from `off` on; behind the end there is `z`. -/
def window (off len : Nat) : List α := (List.range len).map fun i => xs.getD (off + i) z

@[simp] theorem length_window (off len : Nat) : (window z xs off len).length = len := by simp [window]

@[simp] theorem window_zero (off : Nat) : window z xs off 0 = [] := rfl

theorem window_add (off a b : Nat) :
    window z xs off (a + b) = window z xs off a ++ window z xs (off + a) b := by
  unfold window
  rw [range_add, map_append, map_map]
  congr 1
  exact map_congr_left fun i _ => by rw [Function.comp, add_assoc]

theorem drop_window (off len k : Nat) :
    (window z xs off len).drop k = window z xs (off + k) (len - k) := by
  rcases le_total k len with h | h
  · obtain ⟨b, rfl⟩ := Nat.exists_eq_add_of_le h
    rw [window_add, drop_left' (length_window ..), Nat.add_sub_cancel_left]
  · rw [drop_of_length_le (by simpa using h), Nat.sub_eq_zero_of_le h, window_zero]

theorem take_window {len k : Nat} (h : k ≤ len) (off : Nat) :
    (window z xs off len).take k = window z xs off k := by
  obtain ⟨b, rfl⟩ := Nat.exists_eq_add_of_le h
  rw [window_add, take_left' (length_window ..)]

theorem window_eq_slice {off len : Nat} (h : off + len ≤ xs.length) :
    window z xs off len = (xs.drop off).take len := by
  refine ext_getElem (by simp; omega) fun i h1 h2 => ?_
  simp only [length_window] at h1
  simp [window, getElem?_eq_getElem (show off + i < xs.length by omega)]

theorem window_eq_fill (off len : Nat) : window z xs off len =
    (xs.drop off).take len ++ List.replicate (len - ((xs.drop off).take len).length) z := by
  refine ext_getElem (by simp) fun i h1 h2 => ?_
  simp only [length_window] at h1
  rw [getElem_append]
  split
  · rename_i hi
    simp only [length_take, length_drop] at hi
    simp [window, getElem?_eq_getElem (show off + i < xs.length by omega)]
  · rename_i hi
    simp only [length_take, length_drop] at hi
    simp [window, getElem?_eq_none (show xs.length ≤ off + i by omega)]

theorem getElem?_window {off len i : Nat} (h : i < len) :
    (window z xs off len)[i]? = some (xs.getD (off + i) z) := by
  rw [getElem?_eq_getElem (by simpa using h)]
  simp [window]

theorem window_eq_window_iff {ys : List α} {off len : Nat} : window z xs off len = window z ys off len ↔
      ∀ i, off ≤ i → i < off + len → xs.getD i z = ys.getD i z := by
  unfold window
  rw [map_inj_left]
  constructor
  · intro h i hlo hhi
    have := h (i - off) (List.mem_range.2 (by omega))
    rwa [Nat.add_sub_cancel' hlo] at this
  · exact fun h i hi => h (off + i) (Nat.le_add_right ..) (by have := List.mem_range.1 hi; omega)

/-- **Windows that follow one another** are one window. -/
theorem flatMap_window (off len n : Nat) :
    (List.range n).flatMap (fun i => window z xs (off + len * i) len) = window z xs off (len * n) := by
  induction n with
  | zero => rfl
  | succ n ih =>
    rw [range_succ, flatMap_append, ih, mul_succ, window_add]
    simp

end

/-! ## Blocks -/

variable {f : Nat → List α} {len : Nat}

section

variable (hf : ∀ i, (f i).length = len)
include hf

theorem length_flatMap_blocks (n : Nat) : ((List.range n).flatMap f).length = n * len := by
  induction n with
  | zero => simp
  | succ n ih =>
    simp [hf]

theorem drop_flatMap_blocks {n k : Nat} (hk : k ≤ n) : ((List.range n).flatMap f).drop (k * len) =
      (List.range (n - k)).flatMap fun i => f (k + i) := by
  obtain ⟨m, rfl⟩ := Nat.exists_eq_add_of_le hk
  rw [range_add, flatMap_append,
    drop_left' (length_flatMap_blocks hf k), flatMap_map, Nat.add_sub_cancel_left]

/-- **A part of a block** is found in the blocks. -/
theorem slice_flatMap_blocks {n k inner size : Nat} (hk : k < n)
    (hin : inner + size ≤ len) (post : List α) :
    (((List.range n).flatMap f ++ post).drop (k * len + inner)).take size =
      ((f k).drop inner).take size := by
  have hblocks : k * len + len ≤ ((List.range n).flatMap f).length := by
    rw [length_flatMap_blocks hf, ← succ_mul]
    exact mul_le_mul_right len hk
  have hrest : List.range (n - k) = 0 :: (List.range (n - k - 1)).map succ := by
    rw [← range_succ_eq_map]
    congr 1
    omega
  rw [drop_append_of_le_length (by omega), ← drop_drop,
    drop_flatMap_blocks hf (le_of_lt hk), hrest, flatMap_cons, add_zero,
    drop_append_of_le_length (by rw [hf]; omega), append_assoc,
    take_append_of_le_length (by rw [length_drop, hf]; omega)]

/-- **An element of a block** is found by division. -/
theorem getElem?_flatMap_blocks {n j : Nat} (hj : j < n * len) :
    ((List.range n).flatMap f)[j]? = (f (j / len))[j % len]? := by
  have hlen : 0 < len := Nat.pos_of_mul_pos_left (Nat.zero_lt_of_lt hj)
  have hin : j % len + 1 ≤ len := Nat.mod_lt j hlen
  have hslice := slice_flatMap_blocks hf (Nat.div_lt_of_lt_mul (Nat.mul_comm n len ▸ hj)) hin []
  have hhead := congrArg List.head? hslice
  rw [append_nil, Nat.div_add_mod'] at hhead
  simpa only [head?_take, Nat.one_ne_zero, if_false, head?_drop] using hhead

end

end Lib
