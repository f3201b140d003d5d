import Mathlib

/-!
# Allocated byte buffers

A buffer of a fixed length that starts as zeros and is written in place, such as `make([]byte, n)`.
Only the bytes up to the last one ever written are kept; those after are zero. What lies past the
part in use stays from before (`copyAt`), as when a buffer is used again.
-/

namespace Lib

open List

/-- A buffer of `len` bytes. -/
structure Block where
  len : Nat
  written : List UInt8
  deriving DecidableEq

namespace Block

/-- `make([]byte, n)`. -/
def make (n : Nat) : Block := ⟨n, []⟩

/-- `b[:stop]`. -/
def upTo (b : Block) (stop : Nat) : List UInt8 :=
  b.written.take stop ++ List.replicate (stop - b.written.length) 0

/-- `b[start:stop]`. -/
def slice (b : Block) (start stop : Nat) : List UInt8 := (b.upTo stop).drop start

/-- `copy(b[pos:], bs)`. -/
def copyAt (b : Block) (pos : Nat) (bs : List UInt8) : Block where
  len := b.len
  written := (b.upTo pos ++ bs ++ b.written.drop (pos + bs.length)).take b.len

@[simp] theorem len_make (n : Nat) : (make n).len = n := rfl

@[simp] theorem len_copyAt (b : Block) (pos : Nat) (bs : List UInt8) : (b.copyAt pos bs).len = b.len := rfl

@[simp] theorem upTo_zero (b : Block) : b.upTo 0 = [] := by
  simp [upTo]

@[simp] theorem length_upTo (b : Block) (stop : Nat) : (b.upTo stop).length = stop := by
  simp only [upTo, length_append, length_take, length_replicate]
  omega

theorem take_upTo (b : Block) {stop n : Nat} (h : stop ≤ n) : (b.upTo n).take stop = b.upTo stop := by
  rw [upTo, take_append, take_take, Nat.min_eq_left h, length_take, take_replicate, upTo]
  congr 2
  omega

theorem slice_eq (b : Block) (start : Nat) {stop n : Nat} (h : stop ≤ n) :
    b.slice start stop = ((b.upTo n).take stop).drop start := by
  rw [take_upTo b h, slice]

theorem upTo_copyAt {b : Block} {pos : Nat} {bs : List UInt8} (h : pos + bs.length ≤ b.len) :
    (b.copyAt pos bs).upTo (pos + bs.length) = b.upTo pos ++ bs := by
  have hlen : (b.upTo pos ++ bs).length = pos + bs.length := by
    rw [length_append, length_upTo]
  have hwritten : pos + bs.length ≤ (b.copyAt pos bs).written.length := by
    simp only [copyAt, length_take, length_append, length_upTo]
    omega
  rw [upTo, Nat.sub_eq_zero_of_le hwritten, replicate_zero, append_nil, copyAt, take_take,
    Nat.min_eq_left h, take_left' hlen]

end Block

end Lib
