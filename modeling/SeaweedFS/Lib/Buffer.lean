import Mathlib

/-!
# Writing into a buffer

`writeAt p start bs` is `p` with `bs` copied over it from `start` on, cut off at the end of `p`, so
that the length stays. After several writes that agree on a position, the position holds what they
agree on, in whatever order they were made (`getElem?_writes`).
-/

namespace Lib

open List

variable {α : Type}

/-- `bs` copied into `p` from `start` on. -/
def writeAt (p : List α) (start : Nat) (bs : List α) : List α :=
  p.mapIdx fun i a => if start ≤ i then bs.getD (i - start) a else a

/-- The elements from `start` up to `stop`. -/
def slice (p : List α) (start stop : Nat) : List α := (p.drop start).take (stop - start)

/-- Writes at several places, one after the other. -/
def writes (p : List α) (ws : List (Nat × List α)) : List α :=
  ws.foldl (fun p w => writeAt p w.1 w.2) p

@[simp] theorem length_writeAt (p : List α) (start : Nat) (bs : List α) :
    (writeAt p start bs).length = p.length := by
  simp [writeAt]

theorem getElem?_writeAt (p : List α) (start : Nat) (bs : List α) (i : Nat) : (writeAt p start bs)[i]? =
      p[i]?.map fun a => if start ≤ i then bs.getD (i - start) a else a := by
  simp [writeAt]

variable {i : Nat}

theorem getElem?_writeAt_of_mem {p : List α} {start : Nat} {bs : List α} {a : α}
    (hs : start ≤ i) (hb : bs[i - start]? = some a) (hi : i < p.length) :
    (writeAt p start bs)[i]? = some a := by
  rw [getElem?_writeAt, getElem?_eq_getElem hi, Option.map_some, if_pos hs, getD_eq_getElem?_getD, hb]
  rfl

theorem getElem?_writeAt_of_not_mem {p : List α} {start : Nat} {bs : List α}
    (h : i < start ∨ start + bs.length ≤ i) : (writeAt p start bs)[i]? = p[i]? := by
  rw [getElem?_writeAt]
  cases hp : p[i]? with
  | none => rfl
  | some a =>
    rw [Option.map_some]
    split
    · have : bs[i - start]? = none := getElem?_eq_none (by omega)
      rw [getD_eq_getElem?_getD, this]
      rfl
    · rfl

@[simp] theorem length_slice {p : List α} {start stop : Nat} (h : stop ≤ p.length) :
    (slice p start stop).length = stop - start := by
  simp only [slice, length_take, length_drop]
  omega

theorem getElem?_slice (p : List α) (start stop i : Nat) :
    (slice p start stop)[i]? = if start + i < stop then p[start + i]? else none := by
  rw [slice, getElem?_take]
  simp only [getElem?_drop]
  split <;> split <;> first | rfl | omega

theorem writeAt_zero {p bs : List α} (h : bs.length ≤ p.length) :
    writeAt p 0 bs = bs ++ p.drop bs.length := by
  apply ext_getElem?
  intro i
  by_cases hi : i < bs.length
  · rw [getElem?_writeAt_of_mem (Nat.zero_le i) (getElem?_eq_getElem hi) (by omega),
      getElem?_append_left hi, getElem?_eq_getElem hi]
  · rw [getElem?_writeAt_of_not_mem (by omega), getElem?_append_right (by omega), getElem?_drop]
    congr 1
    omega

theorem writeAt_append (pre mid post bs : List α) (h : bs.length = mid.length) :
    writeAt (pre ++ mid ++ post) pre.length bs = pre ++ bs ++ post := by
  apply ext_getElem?
  intro i
  rcases Nat.lt_or_ge i pre.length with hi | hi
  · rw [getElem?_writeAt_of_not_mem (.inl hi), append_assoc, append_assoc,
      getElem?_append_left hi, getElem?_append_left hi]
  · rcases Nat.lt_or_ge i (pre.length + bs.length) with hj | hj
    · have hb : i - pre.length < bs.length := by omega
      rw [getElem?_writeAt_of_mem hi (getElem?_eq_getElem hb)
        (by simp only [length_append]; omega), append_assoc,
        getElem?_append_right hi, getElem?_append_left hb, getElem?_eq_getElem hb]
    · rw [getElem?_writeAt_of_not_mem (.inr hj), getElem?_append_right
        (by simp only [length_append]; omega), getElem?_append_right
        (by simp only [length_append]; omega)]
      simp only [length_append, h]

theorem slice_append (pre mid post : List α) {start stop : Nat} (hs : start = pre.length)
    (he : stop = pre.length + mid.length) : slice (pre ++ mid ++ post) start stop = mid := by
  rw [slice, hs, he, append_assoc, drop_left, Nat.add_sub_cancel_left, take_left]

@[simp] theorem length_writes (p : List α) (ws : List (Nat × List α)) :
    (writes p ws).length = p.length := by
  induction ws generalizing p with
  | nil => rfl
  | cons w ws ih => exact (ih _).trans (length_writeAt _ _ _)

/-- `w` writes `a` at `i`, if it writes there. -/
def Agrees (w : Nat × List α) (i : Nat) (a : α) : Prop :=
  w.1 ≤ i → i < w.1 + w.2.length → w.2[i - w.1]? = some a

theorem getElem?_writeAt_agrees {p : List α} {w : Nat × List α} {a : α}
    (ha : Agrees w i a) (hp : p[i]? = some a) : (writeAt p w.1 w.2)[i]? = some a := by
  have hi : i < p.length := (List.getElem?_eq_some_iff.1 hp).1
  by_cases h : w.1 ≤ i ∧ i < w.1 + w.2.length
  · exact getElem?_writeAt_of_mem h.1 (ha h.1 h.2) hi
  · rw [getElem?_writeAt_of_not_mem (by omega), hp]

theorem getElem?_writes_agrees {ws : List (Nat × List α)} {a : α}
    (ha : ∀ w ∈ ws, Agrees w i a) {p : List α} (hp : p[i]? = some a) : (writes p ws)[i]? = some a := by
  induction ws generalizing p with
  | nil => exact hp
  | cons w ws ih =>
    exact ih (fun v hv => ha v (mem_cons_of_mem _ hv)) (getElem?_writeAt_agrees (ha w mem_cons_self) hp)

/-- **Writes that agree.** -/
theorem getElem?_writes {ws : List (Nat × List α)} {a : α} {p : List α}
    (ha : ∀ w ∈ ws, Agrees w i a) (hw : ∃ w ∈ ws, w.1 ≤ i ∧ i < w.1 + w.2.length)
    (hi : i < p.length) : (writes p ws)[i]? = some a := by
  induction ws generalizing p with
  | nil => simp at hw
  | cons w ws ih =>
    have haw := ha w mem_cons_self
    have haws : ∀ v ∈ ws, Agrees v i a := fun v hv => ha v (mem_cons_of_mem _ hv)
    by_cases hwi : w.1 ≤ i ∧ i < w.1 + w.2.length
    · exact getElem?_writes_agrees haws (getElem?_writeAt_of_mem hwi.1 (haw hwi.1 hwi.2) hi)
    · refine ih haws ?_ (by simpa using hi)
      obtain ⟨v, hv, hvi⟩ := hw
      rcases List.mem_cons.1 hv with rfl | hv
      · exact absurd hvi hwi
      · exact ⟨v, hv, hvi⟩

end Lib
