import Mathlib

/-!
# Byte files

A file is its content. `File.readAt` reads up to a number of bytes and says whether the end of the
file cut the read short; `File.writeAt` overwrites and extends.
-/

namespace Lib

open List

/-- The content of a file. -/
abbrev File := List UInt8

namespace File

/-- `ReadAt` with a buffer of `len` bytes: the bytes read, and whether the error is `io.EOF`. -/
def readAt (file : File) (len off : Nat) : List UInt8 × Bool :=
  let bytes := (file.drop off).take len
  (bytes, decide (bytes.length < len))

/-- `WriteAt`; what lies between the end of the file and `off` is zero. -/
def writeAt (file : File) (bytes : List UInt8) (off : Nat) : File :=
  file.take off ++ List.replicate (off - file.length) 0 ++ bytes ++ file.drop (off + bytes.length)

@[simp] theorem writeAt_length (file : File) (bytes : List UInt8) :
    writeAt file bytes (List.length file) = file ++ bytes := by
  simp [writeAt]

theorem writeAt_replace {bytes old : List UInt8} (h : old.length = bytes.length) (pre post : List UInt8) :
    writeAt (pre ++ (old ++ post)) bytes pre.length = pre ++ (bytes ++ post) := by
  have hlen : pre.length - (pre ++ (old ++ post)).length = 0 := by
    rw [length_append]
    omega
  unfold writeAt
  rw [hlen, take_left, replicate_zero, append_nil, ← drop_drop, drop_left, ← h, drop_left, append_assoc]

variable {bytes : List UInt8}

private theorem length_fill (file : File) (off : Nat) :
    (file.take off ++ List.replicate (off - List.length file) 0).length = off := by
  simp only [length_append, length_take, length_replicate]
  omega

theorem getElem?_writeAt_of_mem (file : File) {off i : Nat} (hi : off ≤ i)
    (hlt : i < off + bytes.length) : (writeAt file bytes off)[i]? = bytes[i - off]? := by
  have hpre := length_fill file off
  unfold writeAt
  rw [append_assoc, getElem?_append_right (by omega), hpre, getElem?_append_left (by omega)]

theorem getElem?_writeAt_of_not_mem {file : File} {off i : Nat} {b : UInt8}
    (h : i < off ∨ off + bytes.length ≤ i) (hb : file[i]? = some b) :
    (writeAt file bytes off)[i]? = some b := by
  have hi : i < List.length file := (List.getElem?_eq_some_iff.1 hb).1
  have hpre := length_fill file off
  unfold writeAt
  rcases h with h | h
  · rw [append_assoc, append_assoc, getElem?_append_left (by simp; omega), getElem?_take_of_lt h, hb]
  · rw [getElem?_append_right (by rw [length_append, hpre]; omega), length_append,
      hpre, getElem?_drop, ← hb]
    congr 1
    omega

theorem readAt_eq {file : File} {len off : Nat} (h : off + len ≤ List.length file) :
    readAt file len off = ((file.drop off).take len, false) := by
  unfold readAt
  simp only [length_take, length_drop, Prod.mk.injEq, true_and, decide_eq_false_iff_not]
  omega

end File

end Lib
