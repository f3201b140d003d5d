import SeaweedFS.Lib.BigEndian

/-!
# `weed/util/bytes.go`: big-endian integers

The writers fill a fixed number of bytes of a buffer; here they return these bytes. The readers
loop over a slice of any non-empty length. Each is tied to `Lib.toBE` and `Lib.ofBE`
(`uint64toBytes_eq`, `bytesToUint64_toNat`), from which the round trips follow.
-/

namespace Util

open Lib List Nat

/-- `Uint64toBytes`: byte `7 - i` is `byte(v >> (i * 8))`. -/
def uint64toBytes (v : UInt64) : List UInt8 :=
  [7, 6, 5, 4, 3, 2, 1, 0].map fun i : UInt64 => (v >>> (i * 8)).toUInt8

/-- `Uint32toBytes`: byte `3 - i` is `byte(v >> (i * 8))`. -/
def uint32toBytes (v : UInt32) : List UInt8 :=
  [3, 2, 1, 0].map fun i : UInt32 => (v >>> (i * 8)).toUInt8

/-- `Uint16toBytes`. -/
def uint16toBytes (v : UInt16) : List UInt8 := [(v >>> 8).toUInt8, v.toUInt8]

/-- The loop of `BytesToUint64`: all bytes but the last are added and shifted. -/
def bytesToUint64From (v : UInt64) : List UInt8 → UInt64
  | [] => v
  | [b] => v + b.toUInt64
  | b :: bs => bytesToUint64From ((v + b.toUInt64) <<< 8) bs

/-- `BytesToUint64`. -/
def bytesToUint64 (b : List UInt8) : UInt64 := bytesToUint64From 0 b

/-- The loop of `BytesToUint32`. -/
def bytesToUint32From (v : UInt32) : List UInt8 → UInt32
  | [] => v
  | [b] => v + b.toUInt32
  | b :: bs => bytesToUint32From ((v + b.toUInt32) <<< 8) bs

/-- `BytesToUint32`. -/
def bytesToUint32 (b : List UInt8) : UInt32 := bytesToUint32From 0 b

/-- `BytesToUint16`: the first two bytes. -/
def bytesToUint16 (b : List UInt8) : UInt16 :=
  (((0 : UInt16) + (b.getD 0 0).toUInt16) <<< 8) + (b.getD 1 0).toUInt16

/-! ## Lengths -/

@[simp] theorem length_uint64toBytes (v : UInt64) : (uint64toBytes v).length = 8 := rfl
@[simp] theorem length_uint32toBytes (v : UInt32) : (uint32toBytes v).length = 4 := rfl
@[simp] theorem length_uint16toBytes (v : UInt16) : (uint16toBytes v).length = 2 := rfl

/-! ## The writers spell their argument -/

theorem uint64toBytes_eq (v : UInt64) : uint64toBytes v = toBE 8 v.toNat := by
  simp only [uint64toBytes, toBE, map_cons, map_nil, List.cons.injEq, and_true]
  refine ⟨?_, ?_, ?_, ?_, ?_, ?_, ?_, ?_⟩ <;>
  · apply UInt8.toNat_inj.1
    simp [UInt64.toNat_shiftRight, shiftRight_eq_div_pow]

theorem uint32toBytes_eq (v : UInt32) : uint32toBytes v = toBE 4 v.toNat := by
  simp only [uint32toBytes, toBE, map_cons, map_nil, List.cons.injEq, and_true]
  refine ⟨?_, ?_, ?_, ?_⟩ <;>
  · apply UInt8.toNat_inj.1
    simp [UInt32.toNat_shiftRight, shiftRight_eq_div_pow]

/-! ## The readers -/

private theorem mod_mul_add_mod (a p q m : Nat) : (a % m * p + q) % m = (a * p + q) % m :=
  ((mod_modEq a m).mul_right p).add_right q

/-- The loop of a reader of words below `m`, which shifts after every byte but the last. -/
private theorem readLoop_toNat {W : Type} (toNat : W → Nat) {f : W → List UInt8 → W} {m : Nat}
    (hlast : ∀ v b, toNat (f v [b]) = (toNat v + b.toNat) % m)
    (hmore : ∀ v b c bs, ∃ v', f v (b :: c :: bs) = f v' (c :: bs) ∧ toNat v' = (toNat v + b.toNat) * 256 % m)
    {bs : List UInt8} (v : W) (h : bs ≠ []) :
    toNat (f v bs) = (toNat v * 256 ^ (bs.length - 1) + ofBE bs) % m := by
  induction bs generalizing v with
  | nil => exact absurd rfl h
  | cons b bs ih =>
    cases bs with
    | nil => simp [hlast, ofBE]
    | cons c bs =>
      obtain ⟨v', hstep, hv'⟩ := hmore v b c bs
      rw [hstep, ih v' (cons_ne_nil _ _), hv', mod_mul_add_mod, ofBE_cons b]
      simp only [length_cons, Nat.add_sub_cancel, pow_succ]
      congr 1
      ring

theorem bytesToUint64_toNat {bs : List UInt8} (h : bs ≠ []) :
    (bytesToUint64 bs).toNat = ofBE bs % 2 ^ 64 := by
  rw [bytesToUint64, readLoop_toNat UInt64.toNat (m := 2 ^ 64) _ _ 0 h]
  · simp
  · simp [bytesToUint64From]
  · refine fun v b c bs => ⟨(v + b.toUInt64) <<< 8, by rw [bytesToUint64From]; simp, ?_⟩
    simp [UInt64.toNat_shiftLeft, UInt64.toNat_add, Nat.shiftLeft_eq, Nat.mod_mul_mod]

theorem bytesToUint32_toNat {bs : List UInt8} (h : bs ≠ []) :
    (bytesToUint32 bs).toNat = ofBE bs % 2 ^ 32 := by
  rw [bytesToUint32, readLoop_toNat UInt32.toNat (m := 2 ^ 32) _ _ 0 h]
  · simp
  · simp [bytesToUint32From]
  · refine fun v b c bs => ⟨(v + b.toUInt32) <<< 8, by rw [bytesToUint32From]; simp, ?_⟩
    simp [UInt32.toNat_shiftLeft, UInt32.toNat_add, Nat.shiftLeft_eq, Nat.mod_mul_mod]

/-! ## Round trips -/

@[simp] theorem bytesToUint64_uint64toBytes (v : UInt64) : bytesToUint64 (uint64toBytes v) = v := by
  apply UInt64.toNat_inj.1
  rw [bytesToUint64_toNat (by simp [uint64toBytes]), uint64toBytes_eq, ofBE_toBE]
  have := v.toNat_lt
  omega

@[simp] theorem bytesToUint32_uint32toBytes (v : UInt32) : bytesToUint32 (uint32toBytes v) = v := by
  apply UInt32.toNat_inj.1
  rw [bytesToUint32_toNat (by simp [uint32toBytes]), uint32toBytes_eq, ofBE_toBE]
  have := v.toNat_lt
  omega

@[simp] theorem bytesToUint16_uint16toBytes (v : UInt16) : bytesToUint16 (uint16toBytes v) = v := by
  apply UInt16.toNat_inj.1
  have := v.toNat_lt
  simp [bytesToUint16, uint16toBytes, UInt16.toNat_add, UInt16.toNat_shiftLeft,
    UInt16.toNat_shiftRight, shiftLeft_eq, shiftRight_eq_div_pow]
  omega

/-- A value below `256 ^ 5` is read back from its last five bytes. -/
theorem bytesToUint64_drop3 {v : UInt64} (h : v.toNat < 256 ^ 5) :
    bytesToUint64 ((uint64toBytes v).drop 3) = v := by
  apply UInt64.toNat_inj.1
  rw [bytesToUint64_toNat (by simp [uint64toBytes]), uint64toBytes_eq, toBE_drop 3 5, ofBE_toBE,
    mod_eq_of_lt h]
  omega

end Util
