import Mathlib

/-!
# Big-endian byte strings

`toBE k n` is the `k`-byte big-endian form of `n` (modulo `256 ^ k`), `ofBE bs` the number a byte
string spells. `ofBE_toBE` is the round trip; `toBE_drop` says that dropping leading bytes keeps the
low ones.
-/

namespace Lib

open List

/-- The low `k` bytes of `n`, most significant first. -/
def toBE : Nat → Nat → List UInt8
  | 0, _ => []
  | k + 1, n => UInt8.ofNat (n / 256 ^ k) :: toBE k n

/-- The number spelled by `bs`, most significant byte first. -/
def ofBE (bs : List UInt8) : Nat := bs.foldl (fun v b => v * 256 + b.toNat) 0

@[simp] theorem length_toBE (k n : Nat) : (toBE k n).length = k := by
  induction k with
  | zero => rfl
  | succ k ih => simp [toBE, ih]

theorem foldl_ofBE : ∀ (bs : List UInt8) (v : Nat),
    bs.foldl (fun v b => v * 256 + b.toNat) v = v * 256 ^ bs.length + ofBE bs
  | [], v => by simp [ofBE]
  | b :: bs, v => by
    simp only [ofBE, foldl_cons, length_cons]
    rw [foldl_ofBE bs (v * 256 + b.toNat), foldl_ofBE bs (0 * 256 + b.toNat), pow_succ]
    ring

theorem ofBE_cons (b : UInt8) (bs : List UInt8) :
    ofBE (b :: bs) = b.toNat * 256 ^ bs.length + ofBE bs := by
  rw [ofBE, foldl_cons, foldl_ofBE]
  simp

/-- **Round trip**: `k` bytes spell `n` modulo `256 ^ k`. -/
theorem ofBE_toBE (k n : Nat) : ofBE (toBE k n) = n % 256 ^ k := by
  induction k with
  | zero => simp [toBE, ofBE, Nat.mod_one]
  | succ k ih =>
    have hm : n % 256 ^ (k + 1) = n % 256 ^ k + 256 ^ k * (n / 256 ^ k % 256) := by
      rw [pow_succ, Nat.mod_mul]
    rw [toBE, ofBE_cons, length_toBE, ih, UInt8.toNat_ofNat', hm]
    ring

theorem toBE_drop (j k n : Nat) : (toBE (j + k) n).drop j = toBE k n := by
  induction j with
  | zero => simp
  | succ j ih => rw [Nat.add_right_comm, toBE, drop_succ_cons, ih]

end Lib
