import SeaweedFS.Lib.BigEndian

/-!
# Length-prefixed records

A log is a sequence of records, each preceded by its length in `w` big-endian bytes (`frames`). `unframe` splits it
again, when the lengths fit in `w` bytes (**`unframe_frames`**), and `starts` lists where the records begin.
-/

namespace Lib

open List

variable (w : Nat)

variable {ds : List (List UInt8)}

/-- A record with its length before it. -/
def frame (d : List UInt8) : List UInt8 := toBE w d.length ++ d

/-- Records one after the other. -/
def frames (ds : List (List UInt8)) : List UInt8 := ds.flatMap (frame w)

/-- Where the records begin. -/
def starts (ds : List (List UInt8)) : List Nat :=
  (List.range ds.length).map fun i => (frames w (ds.take i)).length

/-- At most `n` records are split off. -/
def unframeN : Nat → List UInt8 → Option (List (List UInt8))
  | _, [] => some []
  | 0, _ :: _ => none
  | n + 1, bs =>
    let size := ofBE (bs.take w)
    if bs.length < w + size then none
    else (unframeN n (bs.drop (w + size))).map ((bs.drop w).take size :: ·)

/-- The records of a log, `none` if it ends within one. -/
def unframe (bs : List UInt8) : Option (List (List UInt8)) := unframeN w bs.length bs

/-! ## Frames -/

@[simp] theorem length_frame (d : List UInt8) : (frame w d).length = w + d.length := by
  simp [frame]

@[simp] theorem frames_nil : frames w [] = [] := rfl

@[simp] theorem frames_cons (d : List UInt8) (ds : List (List UInt8)) :
    frames w (d :: ds) = frame w d ++ frames w ds := rfl

@[simp] theorem frames_append (ds ds' : List (List UInt8)) :
    frames w (ds ++ ds') = frames w ds ++ frames w ds' := flatMap_append

theorem frames_singleton (d : List UInt8) : frames w [d] = frame w d := append_nil _

variable {w}

theorem length_le_length_frames (hw : 0 < w) (ds : List (List UInt8)) :
    ds.length ≤ (frames w ds).length := by
  induction ds with
  | nil => simp
  | cons d ds ih =>
    rw [frames_cons, length_append, length_frame, length_cons]
    omega

theorem frames_eq_nil (hw : 0 < w) : frames w ds = [] ↔ ds = [] := by
  constructor
  · intro h
    have := length_le_length_frames hw ds
    rw [h, length_nil] at this
    exact eq_nil_of_length_eq_zero (by omega)
  · rintro rfl
    rfl

theorem take_frame (d rest : List UInt8) : (frame w d ++ rest).take w = toBE w d.length := by
  rw [frame, append_assoc, take_left' (length_toBE w _)]

theorem drop_frame (d rest : List UInt8) : (frame w d ++ rest).drop w = d ++ rest := by
  rw [frame, append_assoc, drop_left' (length_toBE w _)]

theorem unframeN_frames (hw : 0 < w) (h : ∀ d ∈ ds, d.length < 256 ^ w) :
    ∀ {n : Nat}, ds.length ≤ n → unframeN w n (frames w ds) = some ds := by
  induction ds with
  | nil =>
    intro n _
    cases n <;> rfl
  | cons d ds ih =>
    intro n hn
    obtain ⟨n, rfl⟩ : ∃ m, n = m + 1 := ⟨n - 1, by rw [length_cons] at hn; omega⟩
    obtain ⟨b, bs, hbs⟩ : ∃ b bs, frames w (d :: ds) = b :: bs := by
      apply exists_cons_of_ne_nil
      exact fun hnil => cons_ne_nil _ _ ((frames_eq_nil hw).1 hnil)
    have hsize : ofBE ((frames w (d :: ds)).take w) = d.length := by
      rw [frames_cons, take_frame, ofBE_toBE, Nat.mod_eq_of_lt (h d mem_cons_self)]
    rw [hbs, unframeN, ← hbs, hsize, if_neg (by simp), ← drop_drop, frames_cons, drop_frame,
      drop_left, ih (fun d' hd' => h d' (.tail _ hd')) (by rw [length_cons] at hn; omega),
      take_left]
    · rfl
    · rintro ⟨⟩

/-- **Round trip.** -/
theorem unframe_frames (hw : 0 < w) (h : ∀ d ∈ ds, d.length < 256 ^ w) :
    unframe w (frames w ds) = some ds :=
  unframeN_frames hw h (length_le_length_frames hw ds)

/-! ## Where the records begin -/

@[simp] theorem length_starts (ds : List (List UInt8)) : (starts w ds).length = ds.length := by
  simp [starts]

theorem starts_append_singleton (ds : List (List UInt8)) (d : List UInt8) :
    starts w (ds ++ [d]) = starts w ds ++ [(frames w ds).length] := by
  have hpre : ∀ i ∈ List.range ds.length,
      (frames w ((ds ++ [d]).take i)).length = (frames w (ds.take i)).length := by
    intro i hi
    rw [take_append_of_le_length (List.mem_range.1 hi).le]
  rw [starts, length_append, length_singleton, range_succ, map_append,
    map_congr_left hpre, map_singleton, take_left]
  rfl

theorem getElem?_starts {i : Nat} (hi : i < ds.length) :
    (starts w ds)[i]? = some (frames w (ds.take i)).length := by
  rw [starts, getElem?_map, getElem?_range hi]
  rfl

end Lib
